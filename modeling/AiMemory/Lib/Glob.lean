import Mathlib.Data.List.Basic
import Mathlib.Tactic

/-!
# Patterns with two kinds of stars

A pattern is a list of letters and stars. A deep star stands for any string, a shallow one for any string
without the separator. `Cut` cuts a string into the pieces of a pattern, and asks of the stars that `short`
selects for the shortest piece after which the letters up to the next star occur.

A matcher that never returns to an earlier star finds the cuts in which every star but the last is short
(`Greedy`). `greedy_iff_short` says which of these demands matter: those on the stars that stand at or before a
deep star that a shallow one follows. Where no shallow star follows a deep one, none does
(`greedy_of_matches`).
-/

namespace Glob

/-- A letter or a star. -/
inductive Token (α : Type*) where
  | lit (a : α)
  | star (deep : Bool)
  deriving DecidableEq

variable {α : Type*}

def lits : List (Token α) → List α
  | .lit a :: ts => a :: lits ts
  | _ => []

def rest : List (Token α) → List (Token α)
  | .lit _ :: ts => rest ts
  | ts => ts

def stars : List (Token α) → List Bool
  | [] => []
  | .lit _ :: ts => stars ts
  | .star deep :: ts => deep :: stars ts

/-- A cut of a string into the pieces of a pattern. A star is short if `short` holds of it and the stars after
it. -/
inductive Cut (sep : α) (short : List Bool → Prop) : List (Token α) → List α → Prop
  | nil : Cut sep short [] []
  | lit {a ts v} : Cut sep short ts v → Cut sep short (.lit a :: ts) (a :: v)
  | star {deep s ts v} : (deep = true ∨ sep ∉ s) →
      (short (deep :: stars ts) → ∀ i < s.length, ¬lits ts <+: (s ++ v).drop i) →
      Cut sep short ts v → Cut sep short (.star deep :: ts) (s ++ v)

/-- The string matches the pattern. -/
abbrev Matches (sep : α) : List (Token α) → List α → Prop := Cut sep fun _ => False

/-- It matches with a short piece for every star that stands at or before a deep star that a shallow one
follows. -/
abbrev ShortMatches (sep : α) : List (Token α) → List α → Prop :=
  Cut sep fun stars => [true, false].Sublist stars

/-- It matches with a short piece for every star but the last. -/
abbrev Greedy (sep : α) : List (Token α) → List α → Prop := Cut sep fun stars => stars.tail ≠ []

variable {sep : α} {short short' : List Bool → Prop} {a : α} {deep : Bool} {ts : List (Token α)}
  {s l v v' w : List α}

/-! ## Cuts -/

theorem cut_nil_iff : Cut sep short [] v ↔ v = [] := by
  constructor
  · rintro ⟨⟩
    rfl
  · rintro rfl
    exact .nil

theorem cut_lit_iff : Cut sep short (.lit a :: ts) v ↔ ∃ v', v = a :: v' ∧ Cut sep short ts v' := by
  constructor
  · rintro (_ | h | _)
    exact ⟨_, rfl, h⟩
  · rintro ⟨v', rfl, h⟩
    exact .lit h

theorem cut_star_iff : Cut sep short (.star deep :: ts) v ↔ ∃ s v', v = s ++ v' ∧ (deep = true ∨ sep ∉ s) ∧
    (short (deep :: stars ts) → ∀ i < s.length, ¬lits ts <+: (s ++ v').drop i) ∧ Cut sep short ts v' := by
  constructor
  · rintro (_ | _ | ⟨hs, hshort, h⟩)
    exact ⟨_, _, rfl, hs, hshort, h⟩
  · rintro ⟨s, v', rfl, hs, hshort, h⟩
    exact .star hs hshort h

theorem Cut.mono (hle : ∀ ks, short' ks → short ks) (h : Cut sep short ts v) : Cut sep short' ts v := by
  induction h with
  | nil => exact .nil
  | lit _ ih => exact .lit ih
  | star hs hshort _ ih => exact .star hs (fun hc => hshort (hle _ hc)) ih

theorem stars_rest (ts : List (Token α)) : stars (rest ts) = stars ts := by
  fun_induction rest ts with
  | case1 a ts ih => exact ih
  | case2 ts hne => rfl

theorem cut_iff_rest : Cut sep short ts v ↔ ∃ v', v = lits ts ++ v' ∧ Cut sep short (rest ts) v' := by
  induction ts generalizing v with
  | nil => simp [lits, rest]
  | cons t ts ih =>
    cases t with
    | lit a =>
      simp only [cut_lit_iff, ih, lits, rest, List.cons_append]
      constructor
      · rintro ⟨v', rfl, v'', rfl, h⟩
        exact ⟨v'', rfl, h⟩
      · rintro ⟨v'', rfl, h⟩
        exact ⟨_, rfl, v'', rfl, h⟩
    | star deep => simp [lits, rest]

theorem Cut.lits_prefix (h : Cut sep short ts v) : lits ts <+: v := by
  obtain ⟨v', rfl, -⟩ := cut_iff_rest.mp h
  exact List.prefix_append _ _

theorem rest_eq_star (h : stars ts ≠ []) : ∃ deep ts', rest ts = .star deep :: ts' ∧ stars ts = deep :: stars ts' := by
  fun_induction rest ts with
  | case1 a ts ih => exact ih h
  | case2 ts hne =>
    cases ts with
    | nil => exact absurd rfl h
    | cons t ts =>
      cases t with
      | lit a => exact absurd rfl (hne a ts)
      | star deep => exact ⟨deep, ts, rfl, rfl⟩

/-! ## Moving a star's end to the left -/

/-- A word that occurs both right after a string without the separator and earlier has no separator itself. -/
theorem not_mem_of_occurs_before (hs : sep ∉ s) {i : ℕ} (hi : i < s.length) (hl : l <+: (s ++ (l ++ v)).drop i) :
    sep ∉ l := by
  -- the first separator of the later occurrence would be that of the earlier one
  have hnone : ∀ o : ℕ, l[o]? ≠ some sep := by
    intro o
    induction o using Nat.strong_induction_on with
    | _ o ih =>
      intro ho
      have hlen : o < l.length := (List.getElem?_eq_some_iff.mp ho).1
      obtain ⟨u, hu⟩ := hl
      have hat : (s ++ (l ++ v))[i + o]? = some sep := by
        rw [← List.getElem?_drop, ← hu, List.getElem?_append_left hlen, ho]
      by_cases hin : i + o < s.length
      · rw [List.getElem?_append_left hin] at hat
        exact hs (List.mem_of_getElem? hat)
      · rw [List.getElem?_append_right (by omega), List.getElem?_append_left (by omega)] at hat
        exact ih _ (by omega) hat
  intro hmem
  obtain ⟨o, ho⟩ := List.mem_iff_getElem?.mp hmem
  exact hnone o ho

theorem matches_append (h : Matches sep (.star deep :: ts) v) (hw : deep = true ∨ sep ∉ w) :
    Matches sep (.star deep :: ts) (w ++ v) := by
  obtain ⟨s, v', rfl, hs, -, hcut⟩ := cut_star_iff.mp h
  rw [← List.append_assoc]
  refine .star ?_ (fun hc => hc.elim) hcut
  rcases hw with hdeep | hw
  · exact Or.inl hdeep
  · exact hs.imp_right fun hs hmem => (List.mem_append.mp hmem).elim hw hs

theorem matches_drop {i : ℕ} (hi : i < s.length) (hs : deep = true ∨ sep ∉ s)
    (hl : lits ts <+: (s ++ v).drop i) (hne : stars ts ≠ []) (hstars : ¬[true, false].Sublist (deep :: stars ts))
    (h : Matches sep ts v) : Matches sep ts ((s ++ v).drop i) := by
  obtain ⟨v', rfl, hrest⟩ := cut_iff_rest.mp h
  obtain ⟨deep', ts', hts, hkinds⟩ := rest_eq_star hne
  rw [hts] at hrest
  obtain ⟨u, hu⟩ := hl
  have hsplit : (s ++ (lits ts ++ v')).drop i = lits ts ++ ((s ++ lits ts).drop (i + (lits ts).length) ++ v') := by
    have hlen : i + (lits ts).length ≤ (s ++ lits ts).length := by
      rw [List.length_append]
      omega
    rw [← List.drop_append_of_le_length hlen, List.append_assoc, ← List.drop_drop, ← hu, List.drop_left]
  rw [hsplit]
  refine cut_iff_rest.mpr ⟨_, rfl, ?_⟩
  rw [hts]
  refine matches_append hrest ?_
  cases hdeep' : deep' with
  | true => exact Or.inl rfl
  | false =>
    refine Or.inr fun hmem => ?_
    have hshallow : deep = false := by
      by_contra hdeep
      rw [Bool.not_eq_false] at hdeep
      refine hstars ?_
      rw [hkinds, hdeep, hdeep']
      exact ((List.nil_sublist _).cons_cons _).cons_cons _
    have hsep : sep ∉ s := hs.resolve_left (by rw [hshallow]; exact Bool.false_ne_true)
    have hlit : sep ∉ lits ts := not_mem_of_occurs_before hsep hi ⟨u, hu⟩
    exact (List.mem_append.mp (List.mem_of_mem_drop hmem)).elim hsep hlit

/-- Where no shallow star follows a deep one, a match has a cut with short pieces. -/
theorem greedy_of_matches (hstars : ¬[true, false].Sublist (stars ts)) (h : Matches sep ts v) : Greedy sep ts v := by
  induction ts generalizing v with
  | nil => exact cut_nil_iff.mpr (cut_nil_iff.mp h)
  | cons t ts ih =>
    cases t with
    | lit a =>
      obtain ⟨v', rfl, hcut⟩ := cut_lit_iff.mp h
      exact .lit (ih hstars hcut)
    | star deep =>
      have htail : ¬[true, false].Sublist (stars ts) := fun hc => hstars (hc.cons _)
      obtain ⟨s, v', rfl, hs, -, hcut⟩ := cut_star_iff.mp h
      by_cases hne : stars ts = []
      · exact .star hs (fun hc => absurd hne hc) (ih htail hcut)
      · -- the first place where the letters up to the next star occur
        have hex : ∃ i, lits ts <+: (s ++ v').drop i := ⟨s.length, by simpa using hcut.lits_prefix⟩
        classical
        let i := Nat.find hex
        have hle : i ≤ s.length := Nat.find_min' hex (by simpa using hcut.lits_prefix)
        have hcut' : Matches sep ts ((s ++ v').drop i) := by
          rcases hle.lt_or_eq with hlt | heq
          · exact matches_drop hlt hs (Nat.find_spec hex) hne hstars hcut
          · rw [heq, List.drop_left]
            exact hcut
        have hlen : ((s ++ v').take i).length = i := by
          rw [List.length_take, List.length_append]
          omega
        rw [← List.take_append_drop i (s ++ v')]
        refine .star ?_ (fun _ j hj => ?_) (ih htail hcut')
        · refine hs.imp_right fun hs hmem => hs ?_
          rw [List.take_append_of_le_length hle] at hmem
          exact List.mem_of_mem_take hmem
        · rw [List.take_append_drop]
          exact Nat.find_min hex (by omega)

theorem greedy_iff_short : Greedy sep ts v ↔ ShortMatches sep ts v := by
  constructor
  · refine Cut.mono fun ks hks htail => ?_
    have hlen : 2 ≤ ks.length := hks.length_le
    have hlen' : ks.tail.length = 0 := List.length_eq_zero_iff.mpr htail
    rw [List.length_tail] at hlen'
    omega
  · intro h
    induction ts generalizing v with
    | nil => exact cut_nil_iff.mpr (cut_nil_iff.mp h)
    | cons t ts ih =>
      cases t with
      | lit a =>
        obtain ⟨v', rfl, hcut⟩ := cut_lit_iff.mp h
        exact .lit (ih hcut)
      | star deep =>
        by_cases hstars : [true, false].Sublist (stars (.star deep :: ts))
        · obtain ⟨s, v', rfl, hs, hshort, hcut⟩ := cut_star_iff.mp h
          exact .star hs (fun _ => hshort hstars) (ih hcut)
        · exact greedy_of_matches hstars (h.mono fun _ hc => hc.elim)

/-! ## The cuts of a matcher that never returns to an earlier star -/

theorem cut_lits_append : Cut sep short (l.map .lit ++ ts) v ↔ ∃ v', v = l ++ v' ∧ Cut sep short ts v' := by
  induction l generalizing v with
  | nil => simp
  | cons a l ih =>
    rw [List.map_cons, List.cons_append, cut_lit_iff]
    constructor
    · rintro ⟨w, rfl, h⟩
      obtain ⟨v', rfl, hcut⟩ := ih.mp h
      exact ⟨v', rfl, hcut⟩
    · rintro ⟨v', rfl, hcut⟩
      exact ⟨l ++ v', rfl, ih.mpr ⟨v', rfl, hcut⟩⟩

theorem cut_empty_iff : Cut sep short ts [] ↔ ∀ a, Token.lit a ∉ ts := by
  induction ts with
  | nil => simp [cut_nil_iff]
  | cons t ts ih =>
    cases t with
    | lit a =>
      constructor
      · intro h
        obtain ⟨v', h, -⟩ := cut_lit_iff.mp h
        exact absurd h (List.cons_ne_nil _ _).symm
      · intro h
        exact absurd (List.mem_cons_self) (h a)
    | star deep =>
      rw [cut_star_iff]
      constructor
      · rintro ⟨s, v', hv, -, -, hcut⟩ a
        obtain ⟨rfl, rfl⟩ := List.append_eq_nil_iff.mp hv.symm
        simpa using ih.mp hcut a
      · intro h
        refine ⟨[], [], rfl, Or.inr List.not_mem_nil, fun _ i hi => absurd hi (Nat.not_lt_zero i), ih.mpr fun a ha => ?_⟩
        exact h a (List.mem_cons_of_mem _ ha)

theorem lits_star : lits (.star deep :: ts) = [] := rfl

theorem lits_map_append : lits (l.map .lit ++ ts) = l ++ lits ts := by
  induction l with
  | nil => rfl
  | cons a l ih => rw [List.map_cons, List.cons_append, lits, ih, List.cons_append]

theorem stars_map_append : stars (l.map .lit ++ ts) = stars ts := by
  induction l with
  | nil => rfl
  | cons a l ih => rw [List.map_cons, List.cons_append, stars, ih]

theorem greedy_commit {deep' : Bool} :
    Greedy sep (.star deep :: (l.map .lit ++ .star deep' :: ts)) (l ++ v) ↔ Greedy sep (.star deep' :: ts) v := by
  constructor
  · intro h
    obtain ⟨s, v', hv, -, hshort, hcut⟩ := cut_star_iff.mp h
    have hs : s = [] := by
      by_contra hs
      refine hshort ?_ 0 (List.length_pos_iff.mpr hs) ?_
      · rw [stars_map_append]
        exact List.cons_ne_nil _ _
      · rw [lits_map_append, List.drop_zero, ← hv, lits_star, List.append_nil]
        exact List.prefix_append _ _
    rw [hs, List.nil_append] at hv
    obtain ⟨w, hw, hcut⟩ := cut_lits_append.mp hcut
    rw [← hv] at hw
    rwa [List.append_cancel_left hw]
  · intro h
    rw [← List.nil_append (l ++ v)]
    exact .star (Or.inr List.not_mem_nil) (fun _ i hi => absurd hi (Nat.not_lt_zero i)) (cut_lits_append.mpr ⟨v, rfl, h⟩)

theorem greedy_done : Greedy sep (.star deep :: (l.map .lit ++ ts)) l ↔ ∀ a, Token.lit a ∉ ts := by
  rw [← (cut_empty_iff : Greedy sep ts [] ↔ _)]
  constructor
  · intro h
    obtain ⟨s, v', hv, -, -, hcut⟩ := cut_star_iff.mp h
    obtain ⟨w, rfl, hcut⟩ := cut_lits_append.mp hcut
    have hlen := congrArg List.length hv
    rw [List.length_append, List.length_append] at hlen
    have hw : w = [] := List.length_eq_zero_iff.mp (by omega)
    rwa [← hw]
  · intro h
    refine .star (Or.inr List.not_mem_nil) (fun _ i hi => absurd hi (Nat.not_lt_zero i)) ?_
    exact cut_lits_append.mpr ⟨[], (List.append_nil l).symm, h⟩

theorem greedy_retry {e : α} (hcut : ¬Greedy sep ts (e :: v)) (hl : stars ts = [] ∨ ¬lits ts <+: e :: v) :
    Greedy sep (.star deep :: ts) (e :: v) ↔ (deep = true ∨ sep ≠ e) ∧ Greedy sep (.star deep :: ts) v := by
  constructor
  · intro h
    obtain ⟨s, v', hv, hs, hshort, hcut'⟩ := cut_star_iff.mp h
    cases s with
    | nil =>
      rw [hv] at hcut
      exact absurd hcut' hcut
    | cons d s =>
      obtain ⟨rfl, rfl⟩ := List.cons_eq_cons.mp hv
      refine ⟨hs.imp_right fun hs heq => hs (heq ▸ List.mem_cons_self), .star ?_ ?_ hcut'⟩
      · exact hs.imp_right fun hs hmem => hs (List.mem_cons_of_mem _ hmem)
      · intro hne i hi
        simpa using hshort hne (i + 1) (by simpa using hi)
  · rintro ⟨he, h⟩
    obtain ⟨s, v', rfl, hs, hshort, hcut'⟩ := cut_star_iff.mp h
    rw [← List.cons_append]
    refine .star ?_ ?_ hcut'
    · rcases he with hdeep | he
      · exact Or.inl hdeep
      · refine hs.imp_right fun hs hmem => ?_
        exact (List.mem_cons.mp hmem).elim he hs
    · intro hne i hi
      cases i with
      | zero => exact hl.resolve_left hne
      | succ i => simpa using hshort hne i (by simpa using hi)

end Glob
