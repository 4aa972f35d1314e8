import Mathlib.Data.List.Infix
import Mathlib.Tactic

/-!
# Splitting at a mark

`splitOnce mark s` splits a text at the first place where a mark of any length begins, as `str::split_once` does. What it returns
is told by where the mark does not begin (`splitOnce_eq_some`); a text in which a mark begins nowhere before a join can be joined
and split again.
-/

namespace Marks

variable {α : Type*} {mark p q s t u rest : List α} {c d : α}

def splitOnce [DecidableEq α] (mark : List α) : List α → Option (List α × List α)
  | [] => if mark = [] then some ([], []) else none
  | c :: s => if mark <+: c :: s then some ([], (c :: s).drop mark.length) else (splitOnce mark s).map fun x => (c :: x.1, x.2)

/-- In the text before `rest`, the mark begins nowhere. -/
def Absent (mark p rest : List α) : Prop := ∀ q u, p = q ++ u → u ≠ [] → ¬mark <+: u ++ rest

theorem absent_nil : Absent mark [] rest := fun _ _ h hu _ => hu (List.append_eq_nil_iff.mp h.symm).2

theorem absent_cons : Absent mark (c :: p) rest ↔ ¬mark <+: c :: (p ++ rest) ∧ Absent mark p rest := by
  constructor
  · exact fun h => ⟨h [] (c :: p) rfl (by simp), fun q u hp hu => h (c :: q) u (by rw [hp]; rfl) hu⟩
  · rintro ⟨hc, h⟩ q u hp hu
    cases q with
    | nil =>
      rw [List.nil_append] at hp
      rw [← hp]
      exact hc
    | cons d q => exact h q u (List.cons.inj hp).2 hu

theorem absent_append : Absent mark (p ++ q) rest ↔ Absent mark p (q ++ rest) ∧ Absent mark q rest := by
  induction p with
  | nil => exact (and_iff_right absent_nil).symm
  | cons c p ih => rw [List.cons_append, absent_cons, absent_cons, ih, and_assoc, List.append_assoc]

theorem absent_of_ne (h : ∀ d ∈ p, d ≠ c) : Absent (c :: s) p rest := by
  rintro q u rfl hu hpre
  obtain ⟨d, u, rfl⟩ := List.exists_cons_of_ne_nil hu
  exact h d (by simp) (List.cons_prefix_cons.mp hpre).1.symm

/-- The split is at a mark, the first one. -/
theorem splitOnce_eq_some [DecidableEq α] : splitOnce mark s = some (p, t) ↔ s = p ++ (mark ++ t) ∧ Absent mark p (mark ++ t) := by
  induction s generalizing p with
  | nil =>
    unfold splitOnce
    constructor
    · intro h
      split_ifs at h with hmark
      rw [← (Prod.mk.inj (Option.some.inj h)).1, ← (Prod.mk.inj (Option.some.inj h)).2, hmark]
      exact ⟨rfl, absent_nil⟩
    · rintro ⟨h, -⟩
      obtain ⟨rfl, hrest⟩ := List.append_eq_nil_iff.mp h.symm
      obtain ⟨rfl, rfl⟩ := List.append_eq_nil_iff.mp hrest
      exact if_pos rfl
  | cons c s ih =>
    unfold splitOnce
    by_cases hpre : mark <+: c :: s
    · obtain ⟨t', ht'⟩ := hpre
      rw [if_pos ⟨t', ht'⟩, ← ht', List.drop_left, Option.some.injEq, Prod.mk.injEq]
      constructor
      · rintro ⟨rfl, rfl⟩
        exact ⟨rfl, absent_nil⟩
      · rintro ⟨heq, habsent⟩
        cases p with
        | nil => exact ⟨rfl, List.append_cancel_left heq⟩
        | cons d p => exact absurd ⟨t', heq⟩ (habsent [] (d :: p) rfl (by simp))
    · rw [if_neg hpre]
      constructor
      · intro h
        obtain ⟨⟨p', t'⟩, hsplit, heq⟩ := Option.map_eq_some_iff.mp h
        obtain ⟨rfl, rfl⟩ := Prod.mk.inj heq
        obtain ⟨rfl, habsent⟩ := ih.mp hsplit
        exact ⟨rfl, absent_cons.mpr ⟨hpre, habsent⟩⟩
      · rintro ⟨heq, habsent⟩
        cases p with
        | nil => exact absurd ⟨t, heq.symm⟩ hpre
        | cons d p =>
          obtain ⟨rfl, rfl⟩ := List.cons.inj heq
          rw [ih.mpr ⟨rfl, (absent_cons.mp habsent).2⟩]
          rfl

/-- A mark that begins with the same letter twice is absent before itself if no such pair stands in the text, also not with the
letter behind it. -/
theorem absent_pair (h : ¬[c, c] <:+: p ++ [c]) : Absent (c :: c :: s) p rest := by
  rintro q u rfl hu hpre
  refine h ?_
  obtain ⟨d, u, rfl⟩ := List.exists_cons_of_ne_nil hu
  obtain ⟨rfl, htail⟩ := List.cons_prefix_cons.mp hpre
  cases u with
  | nil => exact ⟨q, [], by simp⟩
  | cons e u =>
    obtain ⟨he, -⟩ := List.cons_prefix_cons.mp htail
    exact ⟨q, u ++ [c], by simp [he]⟩

theorem absent_pair_iff : Absent [c, c] p ([c, c] ++ rest) ↔ ¬[c, c] <:+: p ++ [c] := by
  refine ⟨?_, absent_pair⟩
  rintro h ⟨q, u, heq⟩
  rcases List.eq_nil_or_concat u with rfl | ⟨u, d, rfl⟩
  · have hp : p = q ++ [c] := by
      rw [List.append_nil, show [c, c] = [c] ++ [c] from rfl, ← List.append_assoc] at heq
      exact (List.append_inj_left' heq rfl).symm
    exact h q [c] hp (by simp) ⟨[c] ++ rest, rfl⟩
  · have hp : p = q ++ ([c, c] ++ u) := by
      rw [List.concat_eq_append, ← List.append_assoc] at heq
      rw [← List.append_inj_left' heq rfl, List.append_assoc]
    exact h q _ hp (by simp) ⟨u ++ ([c, c] ++ rest), by simp⟩

end Marks
