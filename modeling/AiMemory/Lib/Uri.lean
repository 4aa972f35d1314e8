import Mathlib

/-!
# URIs with an authority

The parts of a URI as RFC 3986 separates them: scheme, user info, host, port and the rest. The delimiters `/`, `?`, `#`,
`[`, `]` and `@` stand nowhere inside user info or host, and a colon only in user info or between brackets, so the parts
can be told apart. What else the parts hold is not restricted.

The first part of the module is splitting a text at a separator, as `str::split_once` and `str::rsplit_once` do.
-/

/-! ## Splitting -/

namespace Split

variable {α : Type*} [DecidableEq α] {sep : α} {s t : List α}

/-- `split_once` at one character. -/
def once (sep : α) : List α → Option (List α × List α)
  | [] => none
  | c :: cs => if c = sep then some ([], cs) else (once sep cs).map fun p => (c :: p.1, p.2)

/-- `rsplit_once` at one character. -/
def lastOnce (sep : α) (s : List α) : Option (List α × List α) :=
  (once sep s.reverse).map fun p => (p.2.reverse, p.1.reverse)

theorem once_append (h : sep ∉ s) : once sep (s ++ sep :: t) = some (s, t) := by
  induction s with
  | nil => exact if_pos rfl
  | cons c s ih =>
    rw [List.mem_cons, not_or] at h
    rw [List.cons_append, once, if_neg fun e => h.1 e.symm, ih h.2]
    rfl

theorem once_eq_none (h : sep ∉ s) : once sep s = none := by
  induction s with
  | nil => rfl
  | cons c s ih =>
    rw [List.mem_cons, not_or] at h
    rw [once, if_neg fun e => h.1 e.symm, ih h.2]
    rfl

theorem lastOnce_append (h : sep ∉ t) : lastOnce sep (s ++ sep :: t) = some (s, t) := by
  have hrev : (s ++ sep :: t).reverse = t.reverse ++ sep :: s.reverse := by simp
  rw [lastOnce, hrev, once_append (by simpa using h)]
  simp

theorem lastOnce_eq_none (h : sep ∉ s) : lastOnce sep s = none := by
  rw [lastOnce, once_eq_none (by simpa using h)]
  rfl

theorem exists_lastOnce (h : sep ∈ s) : ∃ a b, s = a ++ sep :: b ∧ sep ∉ b ∧ lastOnce sep s = some (a, b) := by
  induction s using List.reverseRecOn with
  | nil => cases h
  | append_singleton s c ih =>
    by_cases hc : c = sep
    · subst hc
      exact ⟨s, [], rfl, List.not_mem_nil, lastOnce_append List.not_mem_nil⟩
    · have hs : sep ∈ s := (List.mem_append.mp h).resolve_right fun hin => hc (List.mem_singleton.mp hin).symm
      obtain ⟨a, b, rfl, hb, -⟩ := ih hs
      have hb' : sep ∉ b ++ [c] := by simp [hb, Ne.symm hc]
      exact ⟨a, b ++ [c], by simp, hb', by rw [List.append_assoc, List.cons_append, lastOnce_append hb']⟩

end Split

namespace Rfc3986

/-! ## Lower case -/

/-- `to_ascii_lowercase`. -/
def asciiLower (s : List Char) : List Char := s.map Char.toLower

theorem toLower_eq_iff {c d : Char} (hd : d.isAlpha = false) : c.toLower = d ↔ c = d := by
  unfold Char.toLower
  split_ifs with h <;> grind [Char.isAlpha, Char.isUpper, Char.isLower]

theorem mem_asciiLower_iff {s : List Char} {d : Char} (hd : d.isAlpha = false) : d ∈ asciiLower s ↔ d ∈ s := by
  simp only [asciiLower, List.mem_map, toLower_eq_iff hd, exists_eq_right]

theorem asciiLower_free {s ds : List Char} (hds : ds.any Char.isAlpha = false) (h : ∀ c ∈ s, c ∉ ds) :
    ∀ c ∈ asciiLower s, c ∉ ds := fun c hc hmem =>
  h c ((mem_asciiLower_iff (Bool.eq_false_of_not_eq_true (List.any_eq_false.mp hds c hmem))).mp hc) hmem

/-! ## URIs -/

/-- A host: an address between brackets, or a name or IPv4 address. -/
inductive Host where
  | bracketed (body : List Char)
  | name (text : List Char)

namespace Host

def text : Host → List Char
  | bracketed body => '[' :: (body ++ [']'])
  | name text => text

def inner : Host → List Char
  | bracketed body => body
  | name text => text

/-- No delimiter, and no colon in a name. -/
def Wf : Host → Prop
  | bracketed body => ∀ c ∈ body, c ∉ ['/', '?', '#', '[', ']', '@']
  | name text => ∀ c ∈ text, c ∉ ['/', '?', '#', '[', ']', '@', ':']

def lower : Host → Host
  | bracketed body => bracketed (asciiLower body)
  | name text => name (asciiLower text)

theorem text_lower (h : Host) : h.lower.text = asciiLower h.text := by
  cases h <;> simp [lower, text, asciiLower]

theorem Wf.lower {h : Host} (hok : h.Wf) : h.lower.Wf := by
  cases h with
  | bracketed body => exact asciiLower_free rfl hok
  | name text => exact asciiLower_free rfl hok

end Host

/-- A URI with an authority. -/
structure Uri where
  scheme : List Char
  userinfo : Option (List Char)
  host : Host
  port : Option (List Char)
  rest : List Char
  scheme_ok : ':' ∉ scheme
  userinfo_ok : ∀ u ∈ userinfo, ∀ c ∈ u, c ∉ ['/', '?', '#', '[', ']', '@']
  host_ok : host.Wf
  port_ok : ∀ p ∈ port, ∀ c ∈ p, c.isDigit
  rest_ok : ∀ c ∈ rest.head?, c ∈ ['/', '?', '#']

namespace Uri

def authority (u : Uri) : List Char :=
  u.userinfo.elim [] (· ++ ['@']) ++ u.host.text ++ u.port.elim [] (':' :: ·)

def text (u : Uri) : List Char := u.scheme ++ [':', '/', '/'] ++ (u.authority ++ u.rest)

variable {u : Uri}

theorem host_text_free {c : Char} (hc : c ∈ u.host.text) : c ∉ ['/', '?', '#'] := by
  have hok := u.host_ok
  cases hh : u.host with
  | bracketed body =>
    rw [hh] at hc hok
    have hsub : ['/', '?', '#'] ⊆ ['/', '?', '#', '[', ']', '@'] := by decide
    rcases List.mem_cons.mp hc with rfl | hc
    · decide
    · rcases List.mem_append.mp hc with hc | hc
      · exact fun hmem => hok c hc (hsub hmem)
      · rw [List.mem_singleton.mp hc]
        decide
  | name text =>
    rw [hh] at hc hok
    have hsub : ['/', '?', '#'] ⊆ ['/', '?', '#', '[', ']', '@', ':'] := by decide
    exact fun hmem => hok c hc (hsub hmem)

theorem port_free {p : List Char} {c : Char} (hp : p ∈ u.port) (hc : c ∈ p) : c ∉ ['/', '?', '#', ':'] := by
  intro hmem
  have hdigit := u.port_ok p hp c hc
  simp only [List.mem_cons, List.not_mem_nil, or_false] at hmem
  rcases hmem with rfl | rfl | rfl | rfl <;> exact absurd hdigit (by decide)

theorem authority_free {c : Char} (hc : c ∈ u.authority) : c ∉ ['/', '?', '#'] := by
  unfold authority at hc
  rcases List.mem_append.mp hc with hc | hc
  · rcases List.mem_append.mp hc with hc | hc
    · cases hi : u.userinfo with
      | none =>
        rw [hi] at hc
        cases hc
      | some i =>
        rw [hi] at hc
        have hsub : ['/', '?', '#'] ⊆ ['/', '?', '#', '[', ']', '@'] := by decide
        rcases List.mem_append.mp hc with hc | hc
        · exact fun hmem => u.userinfo_ok i hi c hc (hsub hmem)
        · rw [List.mem_singleton.mp hc]
          decide
    · exact host_text_free hc
  · cases hp : u.port with
    | none =>
      rw [hp] at hc
      cases hc
    | some p =>
      rw [hp] at hc
      have hsub : ['/', '?', '#'] ⊆ ['/', '?', '#', ':'] := by decide
      rcases List.mem_cons.mp hc with rfl | hc
      · decide
      · exact fun hmem => port_free hp hc (hsub hmem)

/-- The authority is what stands before the first `/`, `?` or `#`. -/
theorem takeWhile_authority :
    (u.authority ++ u.rest).takeWhile (fun c => c ∉ ['/', '?', '#']) = u.authority := by
  rw [List.takeWhile_append_of_pos fun c hc => decide_eq_true (authority_free hc)]
  have hrest : u.rest.takeWhile (fun c => c ∉ ['/', '?', '#']) = [] := by
    cases hr : u.rest with
    | nil => rfl
    | cons c cs =>
      have hc := u.rest_ok c (by rw [hr]; rfl)
      exact List.takeWhile_cons_of_neg fun h => of_decide_eq_true h hc
  rw [hrest, List.append_nil]

def lower (u : Uri) : Uri where
  scheme := asciiLower u.scheme
  userinfo := u.userinfo.map asciiLower
  host := u.host.lower
  port := u.port
  rest := asciiLower u.rest
  scheme_ok := fun h => u.scheme_ok ((mem_asciiLower_iff (by decide)).mp h)
  userinfo_ok := by
    intro i hi
    obtain ⟨j, hj, rfl⟩ := Option.map_eq_some_iff.mp hi
    exact asciiLower_free rfl (u.userinfo_ok j hj)
  host_ok := u.host_ok.lower
  port_ok := u.port_ok
  rest_ok := by
    intro c hc
    cases hr : u.rest with
    | nil =>
      rw [hr] at hc
      cases hc
    | cons d ds =>
      rw [hr] at hc
      obtain rfl := Option.some.inj hc
      have hd := u.rest_ok d (by rw [hr]; rfl)
      simp only [List.mem_cons, List.not_mem_nil, or_false] at hd
      rcases hd with rfl | rfl | rfl <;> decide

theorem asciiLower_digits {p : List Char} (h : ∀ c ∈ p, c.isDigit) : asciiLower p = p := by
  refine (List.map_congr_left fun c hc => ?_).trans (List.map_id p)
  unfold Char.toLower
  split_ifs with hupper
  · grind [Char.isDigit]
  · rfl

theorem text_lower (u : Uri) : u.lower.text = asciiLower u.text := by
  have hport : u.lower.port.elim [] (':' :: ·) = asciiLower (u.port.elim [] (':' :: ·)) := by
    cases hp : u.port with
    | none => simp [lower, hp, asciiLower]
    | some p =>
      have hdigits := asciiLower_digits (u.port_ok p hp)
      simp only [lower, hp, Option.elim_some]
      rw [asciiLower, List.map_cons, ← asciiLower, hdigits]
      rfl
  have hinfo : u.lower.userinfo.elim [] (· ++ ['@']) = asciiLower (u.userinfo.elim [] (· ++ ['@'])) := by
    cases hi : u.userinfo <;> simp [lower, hi, asciiLower]
  have hhost : u.lower.host.text = asciiLower u.host.text := Host.text_lower u.host
  unfold text authority
  rw [hport, hinfo, hhost]
  simp [lower, asciiLower]

end Uri

end Rfc3986
