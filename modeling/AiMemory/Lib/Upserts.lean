import AiMemory.Lib.Table

/-!
# Writing items one after another

A store whose rows have an id, and which files an item by another key. As long as the two agree on whether the item is
there (`Aligned`), a write touches the row of its id only. Then so does a run of writes of different items, whatever their
order.
-/

namespace Relational

/-- Items with an id and a key, and a store that writes them: `after a o` is the row of the id of `a` after a write of
`a`, given the row before. -/
structure Upserts (α κ ν τ ρ : Type*) [DecidableEq κ] where
  id : α → κ
  key : α → ν
  find : τ → κ → Option ρ
  put : τ → α → τ
  after : α → Option ρ → Option ρ
  /-- The rows with the id of the item are those with its key. -/
  Aligned : τ → α → Prop
  find_put : ∀ {s a}, Aligned s a → ∀ k, find (put s a) k = if k = id a then after a (find s k) else find s k
  aligned_put : ∀ {s a b}, Aligned s b → (id b = id a ↔ key b = key a) → Aligned (put s a) b

namespace Upserts

variable {α κ ν τ ρ : Type*} [DecidableEq κ] (U : Upserts α κ ν τ ρ) {s : τ} {as : List α} {a b : α}

/-- Two items have the same id exactly if they have the same key. -/
def Compatible (a b : α) : Prop := U.id a = U.id b ↔ U.key a = U.key b

theorem aligned_foldl (hb : U.Aligned s b) (hcompat : ∀ a ∈ as, U.Compatible b a) : U.Aligned (as.foldl U.put s) b := by
  induction as generalizing s with
  | nil => exact hb
  | cons a as ih =>
    have hput := U.aligned_put hb (hcompat a List.mem_cons_self)
    exact ih hput fun x hx => hcompat x (List.mem_cons_of_mem _ hx)

theorem find_foldl (hids : (as.map U.id).Nodup) (haligned : ∀ a ∈ as, U.Aligned s a)
    (hcompat : ∀ a ∈ as, ∀ b ∈ as, U.Compatible a b) (k : κ) :
    U.find (as.foldl U.put s) k = (lookup U.id k as).elim (U.find s k) fun a => U.after a (U.find s k) := by
  induction as generalizing s with
  | nil => rfl
  | cons a as ih =>
    rw [List.map_cons, List.nodup_cons] at hids
    have haligned' : ∀ b ∈ as, U.Aligned (U.put s a) b := fun b hb =>
      U.aligned_put (haligned b (List.mem_cons_of_mem _ hb)) (hcompat b (List.mem_cons_of_mem _ hb) a List.mem_cons_self)
    have hcompat' : ∀ x ∈ as, ∀ y ∈ as, U.Compatible x y := fun x hx y hy =>
      hcompat x (List.mem_cons_of_mem _ hx) y (List.mem_cons_of_mem _ hy)
    rw [List.foldl_cons, ih hids.2 haligned' hcompat', U.find_put (haligned a List.mem_cons_self), lookup_cons]
    by_cases hk : U.id a = k
    · have hnone : lookup U.id k as = none := lookup_eq_none.mpr fun b hb hbk =>
        hids.1 (hk ▸ hbk ▸ List.mem_map_of_mem hb)
      rw [hnone, if_pos hk.symm, if_pos hk]
      rfl
    · rw [if_neg hk, if_neg fun h => hk h.symm]

theorem find_foldl_of_mem (hids : (as.map U.id).Nodup) (haligned : ∀ a ∈ as, U.Aligned s a)
    (hcompat : ∀ a ∈ as, ∀ b ∈ as, U.Compatible a b) (ha : a ∈ as) :
    U.find (as.foldl U.put s) (U.id a) = U.after a (U.find s (U.id a)) := by
  rw [U.find_foldl hids haligned hcompat, lookup_of_mem hids ha]
  rfl

theorem find_foldl_of_notMem (hids : (as.map U.id).Nodup) (haligned : ∀ a ∈ as, U.Aligned s a)
    (hcompat : ∀ a ∈ as, ∀ b ∈ as, U.Compatible a b) {k : κ} (hk : ∀ a ∈ as, U.id a ≠ k) :
    U.find (as.foldl U.put s) k = U.find s k := by
  rw [U.find_foldl hids haligned hcompat, lookup_eq_none.mpr hk]
  rfl

end Upserts

end Relational
