import AiMemory.Permissions.Evaluate

/-!
# Deltas compose

The next hook of a chain sees the payload after each delta in turn, and the caller applies the one delta that they were
merged to. A delta is written over a payload field by field (`overlay`), and the merge picks field by field, so the two
agree (`foldl_applyDeltaToPayload`). The permission evaluator merges with a copy of the merge, which composes alike
(`composed_eq`).
-/

namespace AiMemory

open Permissions

namespace Json

section Order

variable {j k : String} (hne : j ≠ k) (v w : Json) (fs : List (String × Json))

theorem insertField_insertField_of_lt (hlt : j < k) :
    insertField j v (insertField k w fs) = insertField k w (insertField j v fs) := by
  induction fs with
  | nil => simp [insertField, hlt, not_lt_of_gt hlt]
  | cons f fs ih =>
    by_cases hk : k < f.1
    · have hj : j < f.1 := hlt.trans hk
      simp [insertField, hk, hj, hlt, not_lt_of_gt hlt]
    · by_cases hj : j < f.1
      · simp [insertField, hk, hj, not_lt_of_gt hlt]
      · simp [insertField, hk, hj, ih]

include hne

theorem replaceField_replaceField_comm :
    replaceField j v (replaceField k w fs) = replaceField k w (replaceField j v fs) := by
  induction fs with
  | nil => rfl
  | cons f fs ih =>
    by_cases hj : f.1 = j
    · have hk : f.1 ≠ k := fun h => hne (hj.symm.trans h)
      simp [replaceField, hj, hne]
    · by_cases hk : f.1 = k
      · simp [replaceField, hk, hne.symm]
      · simp [replaceField, hj, hk, ih]

theorem replaceField_insertField_comm :
    replaceField j v (insertField k w fs) = insertField k w (replaceField j v fs) := by
  induction fs with
  | nil => simp [insertField, replaceField, hne.symm]
  | cons f fs ih =>
    by_cases hj : f.1 = j
    · by_cases hlt : k < f.1
      · have hlt' : k < j := hj ▸ hlt
        simp [insertField, replaceField, hlt', hj, hne.symm]
      · have hlt' : ¬k < j := hj ▸ hlt
        simp [insertField, replaceField, hlt', hj]
    · by_cases hlt : k < f.1
      · simp [insertField, replaceField, hlt, hj, hne.symm]
      · simp [insertField, replaceField, hlt, hj, ih]

theorem setField_comm : setField j v (setField k w fs) = setField k w (setField j v fs) := by
  have hj : (getField j (setField k w fs)).isSome = (getField j fs).isSome := by rw [getField_setField_of_ne hne]
  have hk : (getField k (setField j v fs)).isSome = (getField k fs).isSome := by rw [getField_setField_of_ne hne.symm]
  rw [setField, hj, setField.eq_def k w (setField j v fs), hk, setField, setField]
  by_cases hjs : (getField j fs).isSome
  · by_cases hks : (getField k fs).isSome
    · simp only [hjs, hks, if_true, replaceField_replaceField_comm hne v w fs]
    · simp only [hjs, hks, if_true, Bool.false_eq_true, if_false, replaceField_insertField_comm hne v w fs]
  · by_cases hks : (getField k fs).isSome
    · simp only [hjs, hks, if_true, Bool.false_eq_true, if_false, replaceField_insertField_comm hne.symm w v fs]
    · simp only [hjs, hks, Bool.false_eq_true, if_false]
      rcases lt_or_gt_of_ne hne with hlt | hlt
      · exact insertField_insertField_of_lt v w fs hlt
      · exact (insertField_insertField_of_lt w v fs hlt).symm

end Order

end Json

namespace Hooks

open Json

def overlay (rows : List (String × Option Json)) (obj : List (String × Json)) : List (String × Json) :=
  rows.foldl (fun obj row => row.2.elim obj fun v => setField row.1 v obj) obj

section Overlay

variable {k : String} {v : Json} {rows : List (String × Option Json)} {obj : List (String × Json)}

theorem overlay_cons (row : String × Option Json) (rows : List (String × Option Json)) (obj : List (String × Json)) :
    overlay (row :: rows) obj = overlay rows (row.2.elim obj fun v => setField row.1 v obj) := rfl

theorem overlay_setField (hk : k ∉ rows.map Prod.fst) (v : Json) (obj : List (String × Json)) :
    overlay rows (setField k v obj) = setField k v (overlay rows obj) := by
  induction rows generalizing obj with
  | nil => rfl
  | cons row rows ih =>
    rw [List.map_cons, List.mem_cons, not_or] at hk
    rw [overlay_cons, overlay_cons]
    cases row.2 with
    | none => exact ih hk.2 obj
    | some w =>
      show overlay rows (setField row.1 w (setField k v obj)) = _
      rw [setField_comm (Ne.symm hk.1), ih hk.2]
      rfl

theorem overlay_overlay {rows : List (String × Option Json × Option Json)} (hnodup : (rows.map Prod.fst).Nodup)
    (obj : List (String × Json)) :
    overlay (rows.map fun r => (r.1, r.2.2)) (overlay (rows.map fun r => (r.1, r.2.1)) obj) =
      overlay (rows.map fun r => (r.1, r.2.2.or r.2.1)) obj := by
  induction rows generalizing obj with
  | nil => rfl
  | cons r rows ih =>
    obtain ⟨k, a, b⟩ := r
    have hk : k ∉ (rows.map fun r => (r.1, r.2.1)).map Prod.fst := by
      rw [List.map_map]
      exact (List.nodup_cons.mp hnodup).1
    have hrest := ih (List.nodup_cons.mp hnodup).2
    cases b with
    | none => exact hrest _
    | some w =>
      have hset : setField k w (a.elim obj fun v => setField k v obj) = setField k w obj := by
        cases a with
        | none => rfl
        | some v => exact setField_setField k w v obj
      show overlay _ (setField k w (overlay _ (a.elim obj fun v => setField k v obj))) = overlay _ (setField k w obj)
      rw [← hrest, ← overlay_setField hk, hset]

end Overlay

/-! ## The chain -/

def MemoryDelta.rows (d : MemoryDelta) : List (String × Option Json) :=
  [("tier", d.tier.map fun t => .str t.asStr), ("namespace", d.ns.map .str), ("title", d.title.map .str),
    ("content", d.content.map .str), ("tags", d.tags.map fun ts => .arr (ts.map .str)),
    ("priority", d.priority.map .int), ("confidence", d.confidence.map .float), ("source", d.source.map .str),
    ("expires_at", d.expiresAt.map .str), ("metadata", d.metadata)]

theorem insertFields_filterMap (rows : List (String × Option Json)) (obj : List (String × Json)) :
    insertFields (rows.filterMap fun f => f.2.map fun v => (f.1, v)) obj = overlay rows obj := by
  induction rows generalizing obj with
  | nil => rfl
  | cons row rows ih =>
    obtain ⟨k, o⟩ := row
    cases o with
    | none => exact ih obj
    | some v => exact ih (setField k v obj)

theorem applyDeltaToPayload_obj (obj : List (String × Json)) (d : MemoryDelta) :
    applyDeltaToPayload (.obj obj) d = .obj (overlay d.rows obj) :=
  congrArg Json.obj (insertFields_filterMap d.rows obj)

def pairRows (a b : MemoryDelta) : List (String × Option Json × Option Json) :=
  a.rows.zipWith (fun r s => (r.1, r.2, s.2)) b.rows

theorem rows_mergeDeltaInto (a b : MemoryDelta) :
    (mergeDeltaInto a b).rows = (pairRows a b).map fun r => (r.1, r.2.2.or r.2.1) := by
  simp only [MemoryDelta.rows, mergeDeltaInto, pairRows, List.zipWith_cons_cons, List.zipWith_nil_left, List.map_cons,
    List.map_nil, Option.map_or]

theorem applyDeltaToPayload_merge (obj : List (String × Json)) (a b : MemoryDelta) :
    applyDeltaToPayload (applyDeltaToPayload (.obj obj) a) b = applyDeltaToPayload (.obj obj) (mergeDeltaInto a b) := by
  have hnodup : ((pairRows a b).map Prod.fst).Nodup := by
    show ["tier", "namespace", "title", "content", "tags", "priority", "confidence", "source", "expires_at",
      "metadata"].Nodup
    decide
  rw [applyDeltaToPayload_obj, applyDeltaToPayload_obj, applyDeltaToPayload_obj, rows_mergeDeltaInto]
  exact congrArg Json.obj (overlay_overlay hnodup obj)

theorem mergeDelta_eq (prior : Option MemoryDelta) (next : MemoryDelta) :
    mergeDelta prior next = mergeDeltaInto (prior.getD .empty) next := by
  have hor : ∀ {α : Type} (a b : Option α), (a <|> b) = a.or b := fun a b => by cases a <;> rfl
  simp only [mergeDelta, mergeDeltaInto, hor]
  rfl

theorem composed_eq (ds : List MemoryDelta) :
    (composedDelta (ds.map .modify)).getD .empty = ds.foldl mergeDeltaInto .empty := by
  induction ds using List.reverseRecOn with
  | nil => rfl
  | append_singleton ds d ih =>
    have hstep : composedDelta ((ds ++ [d]).map .modify) =
        some (mergeDelta (composedDelta (ds.map .modify)) d) := by
      rw [List.map_append, List.map_singleton, composedDelta_append]
    rw [hstep, Option.getD_some, mergeDelta_eq, ih, List.foldl_append]
    rfl

theorem foldl_applyDeltaToPayload (obj : List (String × Json)) (acc : MemoryDelta) (ds : List MemoryDelta) :
    ds.foldl applyDeltaToPayload (applyDeltaToPayload (.obj obj) acc) =
      applyDeltaToPayload (.obj obj) (ds.foldl mergeDeltaInto acc) := by
  induction ds generalizing acc with
  | nil => rfl
  | cons d ds ih => rw [List.foldl_cons, List.foldl_cons, applyDeltaToPayload_merge, ih]

/-- Applying deltas in turn is applying the delta they are merged to, and the evaluator's merge composes to the same
delta. -/
theorem deltas_compose :
    (∀ (obj : List (String × Json)) (ds : List MemoryDelta),
      ds.foldl applyDeltaToPayload (.obj obj) = applyDeltaToPayload (.obj obj) (ds.foldl mergeDeltaInto .empty)) ∧
    ∀ ds : List MemoryDelta,
      (composedDelta (ds.map .modify)).getD .empty = ds.foldl mergeDeltaInto .empty :=
  ⟨fun obj ds => foldl_applyDeltaToPayload obj .empty ds, composed_eq⟩

end Hooks

end AiMemory
