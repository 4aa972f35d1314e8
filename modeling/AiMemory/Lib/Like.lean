import Mathlib.Data.List.Basic
import Mathlib.Tactic

/-!
# SQLite's `LIKE`

`like esc pattern s` is `s LIKE pattern ESCAPE esc`: `%` stands for any string, `_` for one character, the escape
character makes the next one a letter, and letters match up to ASCII case. A pattern made of an escaped string and a
tail matches what starts with that string, up to case (`like_escape`), provided the string has no escape character of
its own.
-/

namespace Like

/-- `sqlite3Tolower`: the letters `A` to `Z` are folded and no others. -/
def fold (s : List Char) : List Char := s.map Char.toLower

/-- The matcher; `escaped` says that an escape character stands right before the pattern. -/
def likeFrom (esc : Char) : Bool → List Char → List Char → Bool
  | escaped, [], s => !escaped && s.isEmpty
  | true, c :: ps, s => s.head?.any (·.toLower = c.toLower) && likeFrom esc false ps s.tail
  | false, c :: ps, s =>
    if c = '%' then s.tails.any (likeFrom esc false ps)
    else if c = esc then likeFrom esc true ps s
    else s.head?.any (fun x => c = '_' || x.toLower = c.toLower) && likeFrom esc false ps s.tail

/-- `s LIKE pattern ESCAPE esc`. A pattern that ends with an escape character matches nothing. -/
def like (esc : Char) (pattern s : List Char) : Bool := likeFrom esc false pattern s

/-- `replace(s, c, r)`. -/
def replace (s : List Char) (c : Char) (r : List Char) : List Char :=
  s.flatMap fun x => if x = c then r else [x]

/-- `replace(replace(s, '%', esc || '%'), '_', esc || '_')`. -/
def escape (esc : Char) (s : List Char) : List Char :=
  replace (replace s '%' [esc, '%']) '_' [esc, '_']

example : like '\\' (escape '\\' "a_b".toList ++ "/%".toList) "A_B/c".toList = true ∧
    like '\\' (escape '\\' "a_b".toList ++ "/%".toList) "axb/c".toList = false := by decide

variable {esc c x : Char} {p ps s : List Char}

@[simp] theorem fold_append (s t : List Char) : fold (s ++ t) = fold s ++ fold t := List.map_append

@[simp] theorem fold_cons : fold (c :: s) = c.toLower :: fold s := rfl

@[simp] theorem fold_nil : fold [] = [] := rfl

theorem fold_prefix (h : p <+: s) : fold p <+: fold s := h.map _

theorem escape_cons (hesc : esc ≠ '%' ∧ esc ≠ '_') : escape esc (c :: s) =
    (if c = '%' ∨ c = '_' then [esc, c] else [c]) ++ escape esc s := by
  by_cases hpercent : c = '%'
  · subst hpercent
    simp [escape, replace, hesc.2]
  · by_cases hunder : c = '_' <;> simp [escape, replace, hpercent, hunder]

theorem escape_append (s t : List Char) : escape esc (s ++ t) = escape esc s ++ escape esc t := by
  rw [escape, replace, replace, List.flatMap_append, List.flatMap_append]
  rfl

/-! ## One letter -/

theorem like_percent : like esc ('%' :: ps) s = true ↔ ∃ t, t <:+ s ∧ like esc ps t = true := by
  rw [like, likeFrom, if_pos rfl, List.any_eq_true]
  simp only [List.mem_tails, like]

theorem like_escaped (hesc : esc ≠ '%') : like esc (esc :: c :: ps) s = true ↔
    ∃ x t, s = x :: t ∧ x.toLower = c.toLower ∧ like esc ps t = true := by
  rw [like, likeFrom, if_neg hesc, if_pos rfl, likeFrom]
  cases s with
  | nil => simp
  | cons x t => simp [like]

theorem like_letter (hesc : c ≠ esc) (hpercent : c ≠ '%') (hunder : c ≠ '_') : like esc (c :: ps) s = true ↔
    ∃ x t, s = x :: t ∧ x.toLower = c.toLower ∧ like esc ps t = true := by
  rw [like, likeFrom, if_neg hpercent, if_neg hesc]
  cases s with
  | nil => simp
  | cons x t => simp [like, hunder]

/-! ## Strings -/

theorem like_escape (hesc : esc ≠ '%' ∧ esc ≠ '_') (hp : esc ∉ p) : like esc (escape esc p ++ ps) s = true ↔
    ∃ u t, s = u ++ t ∧ fold u = fold p ∧ like esc ps t = true := by
  induction p generalizing s with
  | nil =>
    constructor
    · exact fun h => ⟨[], s, rfl, rfl, h⟩
    · rintro ⟨u, t, rfl, hu, h⟩
      rw [List.map_eq_nil_iff.mp hu]
      exact h
  | cons c p ih =>
    rw [List.mem_cons, not_or] at hp
    have hone : like esc (escape esc (c :: p) ++ ps) s = true ↔
        ∃ x t, s = x :: t ∧ x.toLower = c.toLower ∧ like esc (escape esc p ++ ps) t = true := by
      rw [escape_cons hesc]
      split_ifs with hc
      · exact like_escaped hesc.1
      · rw [not_or] at hc
        exact like_letter (Ne.symm hp.1) hc.1 hc.2
    rw [hone]
    simp only [ih hp.2]
    constructor
    · rintro ⟨x, t, rfl, hc, u, t', rfl, hu, h⟩
      exact ⟨x :: u, t', rfl, by rw [fold_cons, fold_cons, hc, hu], h⟩
    · rintro ⟨u, t', rfl, hu, h⟩
      cases u with
      | nil => cases hu
      | cons x u =>
        rw [fold_cons, fold_cons, List.cons.injEq] at hu
        exact ⟨x, u ++ t', rfl, hu.1, u, t', rfl, hu.2, h⟩

theorem like_percent_end : like esc ['%'] s = true :=
  like_percent.mpr ⟨[], List.nil_suffix, rfl⟩

/-- `LIKE` with an escaped string and `%` asks for a prefix, up to case. -/
theorem like_escape_percent (hesc : esc ≠ '%' ∧ esc ≠ '_') (hp : esc ∉ p) :
    like esc (escape esc p ++ ['%']) s = true ↔ fold p <+: fold s := by
  rw [like_escape hesc hp]
  constructor
  · rintro ⟨u, t, rfl, hu, -⟩
    rw [fold_append, ← hu]
    exact List.prefix_append _ _
  · intro h
    rw [fold, fold, List.prefix_iff_eq_take, ← List.map_take] at h
    exact ⟨_, _, (List.take_append_drop _ s).symm, h.symm, like_percent_end⟩

/-! ## Without an escape character -/

/-- `s LIKE pattern`. -/
def plain : List Char → List Char → Bool
  | [], s => s.isEmpty
  | c :: ps, s =>
    if c = '%' then s.tails.any (plain ps)
    else s.head?.any (fun x => c = '_' || x.toLower = c.toLower) && plain ps s.tail

theorem plain_percent : plain ('%' :: ps) s = true ↔ ∃ t, t <:+ s ∧ plain ps t = true := by
  rw [plain, if_pos rfl, List.any_eq_true]
  simp only [List.mem_tails]

theorem plain_append (h : plain ps s = true) : plain (p ++ ps) (p ++ s) = true := by
  induction p with
  | nil => exact h
  | cons c p ih =>
    by_cases hc : c = '%'
    · subst hc
      exact plain_percent.mpr ⟨p ++ s, List.suffix_cons _ _, ih⟩
    · rw [List.cons_append, List.cons_append, plain, if_neg hc]
      simpa using ih

/-! ## What an escaped string and `%` stand for -/

/-- The strings that `escape esc p ++ "%"` matches, read off `p`. An escape character of `p` makes the character after it a
letter: what the escaping put before a `%` or a `_` is then that letter and the `%` or `_` a wildcard again, and an escape
character at the end takes the final `%`. -/
def Reads (esc : Char) : Bool → List Char → List Char → Prop
  | false, [], _ => True
  | true, [], s => s = ['%']
  | false, c :: p, s => if c = esc then Reads esc true p s else ∃ x t, s = x :: t ∧ x.toLower = c.toLower ∧ Reads esc false p t
  | true, c :: p, s => ∃ x t, s = x :: t ∧
    if c = '%' then x.toLower = esc.toLower ∧ ∃ u, u <:+ t ∧ Reads esc false p u
    else if c = '_' then x.toLower = esc.toLower ∧ ∃ y u, t = y :: u ∧ Reads esc false p u
    else x.toLower = c.toLower ∧ Reads esc false p t

theorem likeFrom_escaped : likeFrom esc true (c :: ps) s = true ↔
    ∃ x t, s = x :: t ∧ x.toLower = c.toLower ∧ like esc ps t = true := by
  rw [likeFrom]
  cases s with
  | nil => simp
  | cons x t => simp [like]

theorem like_any (hesc : esc ≠ '_') : like esc ('_' :: ps) s = true ↔ ∃ x t, s = x :: t ∧ like esc ps t = true := by
  rw [like, likeFrom, if_neg (by decide), if_neg (Ne.symm hesc)]
  cases s with
  | nil => simp
  | cons x t => simp [like]

/-- `%` is no letter, so nothing else is folded onto it. -/
theorem eq_percent_of_toLower (h : x.toLower = '%') : x = '%' := by
  unfold Char.toLower at h
  split at h
  · rename_i hx
    have hval := congrArg Char.val h
    grind
  · exact h

theorem likeFrom_iff_reads (hesc : esc ≠ '%' ∧ esc ≠ '_') (escaped : Bool) :
    likeFrom esc escaped (escape esc p ++ ['%']) s = true ↔ Reads esc escaped p s := by
  induction p generalizing escaped s with
  | nil =>
    cases escaped with
    | false => exact iff_of_true like_percent_end trivial
    | true =>
      change likeFrom esc true ['%'] s = true ↔ s = ['%']
      rw [likeFrom_escaped]
      constructor
      · rintro ⟨x, t, rfl, hx, ht⟩
        have hnil : t = [] := List.isEmpty_iff.mp (by simpa [like, likeFrom] using ht)
        rw [eq_percent_of_toLower hx, hnil]
      · rintro rfl
        exact ⟨_, _, rfl, rfl, rfl⟩
  | cons c p ih =>
    have hih : ∀ s, like esc (escape esc p ++ ['%']) s = true ↔ Reads esc false p s := fun s => ih false
    rw [escape_cons hesc]
    by_cases hpercent : c = '%'
    · subst hpercent
      rw [if_pos (Or.inl rfl), List.append_assoc, List.cons_append, List.cons_append, List.nil_append]
      cases escaped with
      | false =>
        rw [Reads, if_neg (Ne.symm hesc.1)]
        exact (like_escaped hesc.1).trans (by simp only [hih])
      | true =>
        rw [Reads]
        exact likeFrom_escaped.trans (by simp only [if_true, like_percent, hih])
    · by_cases hunder : c = '_'
      · subst hunder
        rw [if_pos (Or.inr rfl), List.append_assoc, List.cons_append, List.cons_append, List.nil_append]
        cases escaped with
        | false =>
          rw [Reads, if_neg (Ne.symm hesc.2)]
          exact (like_escaped hesc.1).trans (by simp only [hih])
        | true =>
          rw [Reads]
          exact likeFrom_escaped.trans (by simp only [if_neg hpercent, if_true, like_any hesc.2, hih])
      · rw [if_neg (not_or.mpr ⟨hpercent, hunder⟩), List.append_assoc, List.cons_append, List.nil_append]
        cases escaped with
        | false =>
          rw [Reads]
          split_ifs with hc
          · subst hc
            rw [likeFrom, if_neg hpercent, if_pos rfl]
            exact ih true
          · exact (like_letter hc hpercent hunder).trans (by simp only [hih])
        | true =>
          rw [Reads]
          exact likeFrom_escaped.trans (by simp only [if_neg hpercent, if_neg hunder, hih])

end Like
