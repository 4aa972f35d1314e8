import Mathlib.Data.List.Infix
import Mathlib.Tactic

/-!
# Prefix codes

A code is prefix-free if no code word begins another. A text of code words up to a mark that begins none of them then says
what was written (`flatMap_stop_inj`), and so does a row of words between separators (`intercalate_stop_inj`).
-/

namespace Codes

variable {α β : Type*}

/-- No code word begins another. -/
def PrefixFree (code : α → List β) : Prop := ∀ x y, code x <+: code y → x = y

/-- No code word is empty or begins with the mark. -/
def Unmarked (stop : β) (code : α → List β) : Prop := ∀ x s t, code x ++ s ≠ stop :: t

variable {code : α → List β} {stop sep : β} {x y : α} {s t : List β} {l m : List α}

theorem PrefixFree.append_inj (h : PrefixFree code) (heq : code x ++ s = code y ++ t) : x = y ∧ s = t := by
  have hxy : x = y := by
    rcases List.prefix_or_prefix_of_prefix (List.prefix_append (code x) s) (heq ▸ List.prefix_append (code y) t) with
      hpre | hpre
    · exact h x y hpre
    · exact (h y x hpre).symm
  subst hxy
  exact ⟨rfl, List.append_cancel_left heq⟩

theorem flatMap_stop_inj (h : PrefixFree code) (hstop : Unmarked stop code)
    (heq : l.flatMap code ++ stop :: s = m.flatMap code ++ stop :: t) : l = m ∧ s = t := by
  induction l generalizing m with
  | nil =>
    cases m with
    | nil => exact ⟨rfl, (List.cons.inj heq).2⟩
    | cons y m =>
      rw [List.flatMap_cons, List.append_assoc] at heq
      exact absurd heq.symm (hstop y _ _)
  | cons x l ih =>
    rw [List.flatMap_cons, List.append_assoc] at heq
    cases m with
    | nil => exact absurd heq (hstop x _ _)
    | cons y m =>
      rw [List.flatMap_cons, List.append_assoc] at heq
      obtain ⟨rfl, hrest⟩ := h.append_inj heq
      obtain ⟨rfl, hs⟩ := ih hrest
      exact ⟨rfl, hs⟩

theorem intercalate_cons (sep : β) (w v : List β) (ws : List (List β)) :
    [sep].intercalate (w :: v :: ws) = w ++ sep :: [sep].intercalate (v :: ws) := by
  rw [List.intercalate_cons_cons, List.append_assoc, List.singleton_append]

/-- A row of words up to the mark says which words. -/
theorem intercalate_stop_inj (h : PrefixFree code) (hstop : Unmarked stop code) (hsep : sep ≠ stop)
    (heq : [sep].intercalate (l.map code) ++ stop :: s = [sep].intercalate (m.map code) ++ stop :: t) : l = m := by
  have hempty : ∀ (y : α) (m : List α) (s t : List β), stop :: s ≠ [sep].intercalate ((y :: m).map code) ++ stop :: t := by
    intro y m s t heq
    cases m with
    | nil =>
      rw [List.map_singleton, List.intercalate_singleton] at heq
      exact hstop y _ _ heq.symm
    | cons z m =>
      rw [List.map_cons, List.map_cons, intercalate_cons, List.append_assoc] at heq
      exact hstop y _ _ heq.symm
  induction l generalizing m with
  | nil =>
    cases m with
    | nil => rfl
    | cons y m => exact absurd heq (hempty y m _ _)
  | cons x l ih =>
    cases m with
    | nil => exact absurd heq.symm (hempty x l _ _)
    | cons y m =>
      -- after the first words stands the mark, or a separator before more words
      cases l with
      | nil =>
        cases m with
        | nil =>
          simp only [List.map_singleton, List.intercalate_singleton] at heq
          rw [(h.append_inj heq).1]
        | cons z m =>
          simp only [List.map_cons, List.map_nil, List.intercalate_singleton, intercalate_cons, List.append_assoc] at heq
          exact absurd (List.cons.inj (h.append_inj heq).2).1 hsep.symm
      | cons w l =>
        cases m with
        | nil =>
          simp only [List.map_cons, List.map_nil, List.intercalate_singleton, intercalate_cons, List.append_assoc] at heq
          exact absurd (List.cons.inj (h.append_inj heq).2).1 hsep
        | cons z m =>
          simp only [List.map_cons, intercalate_cons, List.append_assoc, List.cons_append] at heq
          obtain ⟨rfl, hrest⟩ := h.append_inj heq
          rw [ih (m := z :: m) (List.cons.inj hrest).2]

end Codes
