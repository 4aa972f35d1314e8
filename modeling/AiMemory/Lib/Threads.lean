import Mathlib.Data.List.Perm.Basic
import Mathlib.Data.List.Nodup
import Mathlib.Tactic

/-!
# Threads

The threads of a program as a list in which a step replaces one entry. What a program says of its threads does not depend
on their order, so a step is a change from `w :: rest` to `w' :: rest`: `exists_rest` gives the other threads, and
`set_induct` the rule for a property that holds in any order.
-/

namespace Threads

variable {τ κ : Type*} {ws : List τ} {i : ℕ} {w : τ}

theorem exists_rest (h : ws[i]? = some w) : ∃ rest, ws.Perm (w :: rest) ∧ ∀ w', (ws.set i w').Perm (w' :: rest) := by
  obtain ⟨hi, rfl⟩ := List.getElem?_eq_some_iff.mp h
  exact ⟨ws.eraseIdx i, (List.getElem_cons_eraseIdx_perm hi).symm, List.set_perm_cons_eraseIdx hi⟩

theorem set_induct {P Q : List τ → Prop} (hP : ∀ l l', l.Perm l' → P l → P l') (hQ : ∀ l l', l.Perm l' → Q l → Q l')
    (h : ws[i]? = some w) (w' : τ) (hstep : ∀ rest, P (w :: rest) → Q (w' :: rest)) (hws : P ws) :
    Q (ws.set i w') := by
  obtain ⟨rest, hperm, hset⟩ := exists_rest h
  exact hQ _ _ (hset w').symm (hstep rest (hP _ _ hperm hws))

theorem forall_set {P : ℕ → τ → Prop} {w' : τ} (hself : P i w') (hother : ∀ j v, j ≠ i → ws[j]? = some v → P j v) :
    ∀ j v, (ws.set i w')[j]? = some v → P j v := by
  intro j v hv
  by_cases hj : i = j
  · subst hj
    rw [List.getElem?_set_self'] at hv
    cases hi : ws[i]? with
    | none =>
      rw [hi] at hv
      cases hv
    | some w =>
      rw [hi] at hv
      cases hv
      exact hself
  · rw [List.getElem?_set_ne hj] at hv
    exact hother j v (Ne.symm hj) hv

theorem forall_append {P : ℕ → τ → Prop} (hnew : P ws.length w) (hold : ∀ j v, ws[j]? = some v → P j v) :
    ∀ j v, (ws ++ [w])[j]? = some v → P j v := by
  intro j v hv
  rcases lt_trichotomy j ws.length with hj | rfl | hj
  · rw [List.getElem?_append_left hj] at hv
    exact hold j v hv
  · rw [List.getElem?_concat_length] at hv
    cases hv
    exact hnew
  · rw [List.getElem?_eq_none (by rw [List.length_append, List.length_singleton]; omega)] at hv
    cases hv

end Threads
