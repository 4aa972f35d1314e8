import AiMemory.Http.Approvals
import AiMemory.Lib.Glob

/-!
# The glob of the permission rules

`glob_matches` compares a pattern with a namespace or an agent id, byte by byte. A `*` stands for any bytes but
`/`, a `**` for any bytes. The matcher is a loop that remembers the last star it passed and where that star's piece
began; on a mismatch the piece grows by one byte. It never returns to an earlier star, so it finds the greedy
cuts only, and misses a match of a pattern in which a `*` follows a `**` (`globMatches_exact_iff`).
-/

namespace AiMemory

namespace Permissions

open Glob
open ApprovalApi (asBytes)

/-- `b'*'`. -/
def starByte : UInt8 := 42

/-- `b'/'`. -/
def slash : UInt8 := 47

/-- The star the loop remembers: the pattern after it, and the value from where its piece begins. -/
structure Star where
  after : List UInt8
  double : Bool
  start : List UInt8

/-- What is left of the pattern once its leading stars are dropped is nothing. -/
def onlyStars (p : List UInt8) : Bool := p.dropWhile (· = starByte) = []

/-- A mismatch: the piece of the last star takes in one more byte, which may be a `/` only if the star is
double. -/
def retry (run : List UInt8 → List UInt8 → Option Star → Bool) : Option Star → Bool
  | none => false
  | some ⟨_, _, []⟩ => false
  | some ⟨after, double, d :: start⟩ =>
    if !double ∧ d = slash then false else run after start (some ⟨after, double, start⟩)

/-- The loop of `glob_inner`: the rest of the pattern, the rest of the value, the last star. -/
def globLoop : ℕ → List UInt8 → List UInt8 → Option Star → Bool
  | 0, _, _, _ => false
  | fuel + 1, p, v, star =>
    match v with
    | [] => onlyStars p
    | c :: v' =>
      match p with
      | [] => retry (globLoop fuel) star
      | x :: rest =>
        if x = starByte then
          let double := rest.head? = some starByte
          let after := if double then rest.tail else rest
          globLoop fuel after v (some ⟨after, double, v⟩)
        else if x = c then globLoop fuel rest v' star
        else retry (globLoop fuel) star

def globInner (pat val : List UInt8) : Bool :=
  globLoop ((val.length + 1) * (pat.length + val.length + 2)) pat val none

def globMatches (pattern value : String) : Bool := globInner (asBytes pattern) (asBytes value)

def patternSpecificity (pattern : String) : ℕ := ((asBytes pattern).takeWhile (· ≠ starByte)).length

/-- The letters and stars of a pattern; a run of stars is read in pairs from the left. -/
def tokens : List UInt8 → List (Token UInt8)
  | [] => []
  | [x] => if x = starByte then [.star false] else [.lit x]
  | x :: y :: rest =>
    if x = starByte then
      if y = starByte then .star true :: tokens rest else .star false :: tokens (y :: rest)
    else .lit x :: tokens (y :: rest)

/-! ## The loop -/

section Loop

variable {p v rest m : List UInt8} {x : UInt8}

theorem tokens_lit (hx : x ≠ starByte) : tokens (x :: rest) = .lit x :: tokens rest := by
  cases rest <;> simp only [tokens, if_neg hx]

theorem tokens_star : tokens (starByte :: rest) = .star (rest.head? = some starByte) ::
    tokens (if rest.head? = some starByte then rest.tail else rest) := by
  cases rest with
  | nil => rfl
  | cons y rest => by_cases hy : y = starByte <;> simp [tokens, hy]

theorem tokens_append (hm : starByte ∉ m) : tokens (m ++ p) = m.map .lit ++ tokens p := by
  induction m with
  | nil => rfl
  | cons x m ih =>
    rw [List.mem_cons, not_or] at hm
    rw [List.cons_append, tokens_lit (Ne.symm hm.1), ih hm.2]
    rfl

theorem onlyStars_iff : onlyStars p = true ↔ ∀ x, Token.lit x ∉ tokens p := by
  fun_induction tokens p with
  | case1 => simp [onlyStars]
  | case2 => simp [onlyStars]
  | case3 x hx => simp [onlyStars, hx]
  | case4 rest ih => simpa [onlyStars, List.dropWhile_cons] using ih
  | case5 y rest hy ih => simpa [onlyStars, List.dropWhile_cons] using ih
  | case6 x y rest hx ih =>
    constructor
    · intro h
      simp [onlyStars, hx] at h
    · intro h
      exact absurd List.mem_cons_self (h x)

/-- What the loop has to find: a cut of the rest, or one of what the last star began with. -/
def Wanted (p v : List UInt8) : Option Star → Prop
  | none => Greedy slash (tokens p) v
  | some star => Greedy slash (.star star.double :: tokens star.after) star.start

/-- The bytes read since the last star are letters, those of the value and of the pattern alike. -/
def Behind (p v : List UInt8) : Option Star → Prop
  | none => True
  | some star => ∃ m, starByte ∉ m ∧ star.after = m ++ p ∧ star.start = m ++ v

def pending (v : List UInt8) : Option Star → ℕ
  | none => v.length
  | some star => star.start.length

/-- The pattern and the value since the last star fit into `K`. -/
def Fits (K : ℕ) (p v : List UInt8) : Option Star → Prop
  | none => p.length + v.length < K
  | some star => star.after.length + star.start.length < K

variable {star : Option Star}

theorem Fits.lt {K : ℕ} (hK : Fits K p v star) (hb : Behind p v star) :
    p.length + v.length < K := by
  cases star with
  | none => exact hK
  | some star =>
    obtain ⟨m, -, hafter, hstart⟩ := hb
    rw [Fits, hafter, hstart, List.length_append, List.length_append] at hK
    omega

theorem Fits.lit {K : ℕ} (hK : Fits K (x :: rest) (x :: v) star) : Fits K rest v star := by
  cases star with
  | none =>
    rw [Fits, List.length_cons, List.length_cons] at hK
    rw [Fits]
    omega
  | some star => exact hK

theorem le_pending (hb : Behind p v star) : v.length ≤ pending v star := by
  cases star with
  | none => exact le_rfl
  | some star =>
    obtain ⟨m, -, -, hstart⟩ := hb
    rw [pending, hstart, List.length_append]
    exact Nat.le_add_left _ _

theorem pending_lit (x : UInt8) (v : List UInt8) (star : Option Star) : pending v star ≤ pending (x :: v) star := by
  cases star with
  | none => exact Nat.le_succ _
  | some star => exact le_rfl

theorem length_after (rest : List UInt8) :
    (if rest.head? = some starByte then rest.tail else rest).length ≤ rest.length := by
  split
  · rw [List.length_tail]
    exact Nat.sub_le _ _
  · exact le_rfl

theorem wanted_nil (hb : Behind p [] star) : Wanted p [] star ↔ onlyStars p = true := by
  rw [onlyStars_iff]
  cases star with
  | none => exact cut_empty_iff
  | some star =>
    obtain ⟨m, hm, hafter, hstart⟩ := hb
    rw [Wanted, hafter, hstart, tokens_append hm, List.append_nil]
    exact greedy_done

theorem wanted_star (hb : Behind (starByte :: rest) v star) :
    Wanted (starByte :: rest) v star ↔ Greedy slash (tokens (starByte :: rest)) v := by
  cases star with
  | none => exact Iff.rfl
  | some star =>
    obtain ⟨m, hm, hafter, hstart⟩ := hb
    rw [Wanted, hafter, hstart, tokens_append hm, tokens_star]
    exact greedy_commit

theorem wanted_lit (hx : x ≠ starByte) :
    Wanted (x :: rest) (x :: v) star ↔ Wanted rest v star := by
  cases star with
  | none =>
    rw [Wanted, tokens_lit hx]
    refine cut_lit_iff.trans ?_
    simp [Wanted]
  | some star => exact Iff.rfl

theorem behind_lit (hx : x ≠ starByte) (hb : Behind (x :: rest) (x :: v) star) :
    Behind rest v star := by
  cases star with
  | none => trivial
  | some star =>
    obtain ⟨m, hm, hafter, hstart⟩ := hb
    refine ⟨m ++ [x], ?_, ?_, ?_⟩
    · simpa [hm] using Ne.symm hx
    · rw [hafter, List.append_assoc, List.singleton_append]
    · rw [hstart, List.append_assoc, List.singleton_append]

theorem wanted_retry {after start : List UInt8} {double : Bool} {e : UInt8}
    (hb : Behind p v (some ⟨after, double, e :: start⟩)) (hcut : ¬Greedy slash (tokens p) v)
    (hl : stars (tokens p) = [] ∨ ¬lits (tokens p) <+: v) :
    Wanted p v (some ⟨after, double, e :: start⟩) ↔
      (double = true ∨ slash ≠ e) ∧ Wanted after start (some ⟨after, double, start⟩) := by
  obtain ⟨m, hm, hafter, hstart⟩ := hb
  dsimp only at hafter hstart
  refine greedy_retry ?_ ?_
  · intro h
    rw [hafter, hstart, tokens_append hm] at h
    obtain ⟨v', hv, h⟩ := cut_lits_append.mp h
    rw [← List.append_cancel_left hv] at h
    exact hcut h
  · rw [hafter, hstart, tokens_append hm, stars_map_append, lits_map_append, List.prefix_append_right_inj]
    exact hl

/-- What `retry` answers, if the loop is right on the state it goes on with. -/
theorem retry_iff {run : List UInt8 → List UInt8 → Option Star → Bool} (hv : v ≠ [])
    (hb : Behind p v star) (hcut : ¬Greedy slash (tokens p) v)
    (hl : stars (tokens p) = [] ∨ ¬lits (tokens p) <+: v)
    (hrun : ∀ after double e start, star = some ⟨after, double, e :: start⟩ →
      (run after start (some ⟨after, double, start⟩) = true ↔
        Wanted after start (some ⟨after, double, start⟩))) :
    retry run star = true ↔ Wanted p v star := by
  cases star with
  | none => simpa [retry, Wanted] using hcut
  | some star =>
    obtain ⟨after, double, start⟩ := star
    cases start with
    | nil =>
      obtain ⟨m, -, -, hstart⟩ := hb
      exact absurd (List.append_eq_nil_iff.mp hstart.symm).2 hv
    | cons e start =>
      rw [wanted_retry hb hcut hl, ← hrun after double e start rfl, retry]
      cases double with
      | true => simp
      | false =>
        by_cases he : e = slash
        · simp [he]
        · simp [he, Ne.symm he]

/-- The loop finds what it wants. -/
theorem globLoop_iff {K fuel : ℕ} (hb : Behind p v star) (hK : Fits K p v star)
    (hfuel : pending v star * K + p.length + v.length < fuel) :
    globLoop fuel p v star = true ↔ Wanted p v star := by
  induction fuel generalizing p v star with
  | zero => exact absurd hfuel (Nat.not_lt_zero _)
  | succ fuel ih =>
    -- a mismatch goes on with the piece of the last star one byte longer
    have hretry : v ≠ [] → ¬Greedy slash (tokens p) v → (stars (tokens p) = [] ∨ ¬lits (tokens p) <+: v) →
        (retry (globLoop fuel) star = true ↔ Wanted p v star) := by
      intro hv hcut hl
      refine retry_iff hv hb hcut hl ?_
      rintro after double e start rfl
      refine ih ⟨[], List.not_mem_nil, rfl, rfl⟩ ?_ ?_
      · simp only [Fits, List.length_cons] at hK ⊢
        omega
      · simp only [Fits, pending, List.length_cons, Nat.succ_mul] at hK hfuel ⊢
        omega
    cases v with
    | nil => exact (wanted_nil hb).symm
    | cons c v =>
      cases p with
      | nil => exact hretry (List.cons_ne_nil _ _) (fun h => nomatch cut_nil_iff.mp h) (Or.inl rfl)
      | cons x rest =>
        by_cases hx : x = starByte
        · subst hx
          rw [wanted_star hb, tokens_star, globLoop, if_pos rfl]
          have hlt := hK.lt hb
          have hle := Nat.mul_le_mul_right K (le_pending hb)
          have hafter := length_after rest
          rw [List.length_cons, List.length_cons] at hlt hfuel
          rw [List.length_cons] at hle
          refine ih ⟨[], List.not_mem_nil, rfl, rfl⟩ ?_ ?_
          · simp only [Fits, List.length_cons]
            omega
          · change (v.length + 1) * K + _ + (v.length + 1) < fuel
            omega
        · by_cases hc : x = c
          · subst hc
            rw [wanted_lit hx, globLoop, if_neg hx, if_pos rfl]
            rw [List.length_cons, List.length_cons] at hfuel
            refine ih (behind_lit hx hb) hK.lit ?_
            have hle := Nat.mul_le_mul_right K (pending_lit x v star)
            omega
          · rw [globLoop, if_neg hx, if_neg hc]
            refine hretry (List.cons_ne_nil _ _) ?_ (Or.inr ?_)
            · rw [tokens_lit hx]
              intro h
              obtain ⟨v', hv, -⟩ := cut_lit_iff.mp h
              exact hc (List.cons_eq_cons.mp hv).1.symm
            · rw [tokens_lit hx, lits]
              intro h
              exact hc (List.cons_prefix_cons.mp h).1

/-- `glob_inner` finds the greedy cuts. -/
theorem globInner_iff : globInner p v = true ↔ Greedy slash (tokens p) v := by
  refine globLoop_iff (K := p.length + v.length + 2) (show Behind p v none from trivial) ?_ ?_
  · rw [Fits]
    omega
  · rw [pending, Nat.succ_mul]
    omega

end Loop

/-! ## The documented glob -/

/-- The value can be cut into the pieces of the pattern: a `**` stands for any bytes, a `*` for any bytes but
`/`. -/
def IsMatch (pattern value : String) : Prop := Matches slash (tokens (asBytes pattern)) (asBytes value)

/-- It can be cut so that every star at or before a `**` that a `*` follows takes the shortest piece after which
the letters up to the next star occur. -/
def IsShortMatch (pattern value : String) : Prop := ShortMatches slash (tokens (asBytes pattern)) (asBytes value)

/-- `glob_matches` is the documented glob on exactly the pairs that do not match, or match with short pieces. -/
theorem globMatches_exact_iff (pattern value : String) :
    (globMatches pattern value = true ↔ IsMatch pattern value) ↔
      (IsMatch pattern value → IsShortMatch pattern value) := by
  rw [globMatches, globInner_iff, greedy_iff_short]
  constructor
  · intro h
    exact h.mpr
  · intro h
    exact ⟨Cut.mono fun _ hc => hc.elim, h⟩

/-- Where no `*` follows a `**`, `glob_matches` is the documented glob. -/
theorem globMatches_of_no_star_after_double {pattern : String} (value : String)
    (h : ¬[true, false].Sublist (stars (tokens (asBytes pattern)))) :
    globMatches pattern value = true ↔ IsMatch pattern value := by
  rw [globMatches, globInner_iff]
  exact ⟨Cut.mono fun _ hc => hc.elim, greedy_of_matches h⟩

/-- `**/*` does not match `a/b/c`, though its `**` may stand for `a/b`. -/
theorem globMatches_not_exact : ¬∀ pattern value : String, globMatches pattern value = true ↔ IsMatch pattern value := by
  intro h
  have hcode : globMatches "**/*" "a/b/c" = false := by decide
  have hglob : IsMatch "**/*" "a/b/c" := by
    refine .star (s := asBytes "a/b") (Or.inl rfl) (fun hc => hc.elim) (.lit (.star (s := asBytes "c") ?_ ?_ .nil))
    · exact Or.inr (by decide)
    · exact fun hc => hc.elim
  rw [(h _ _).mpr hglob] at hcode
  exact Bool.false_ne_true hcode.symm

end Permissions

end AiMemory
