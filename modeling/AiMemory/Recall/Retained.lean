import AiMemory.Recall.VectorIndex

/-!
# What the vector index retains

An insertion may build the graph anew, evict, or both; a removal takes its id out of the two lists and leaves the graph as
it is. After any run of insertions and removals every entry is in the graph or in the overflow. The entries are, in
insertion order, the insertions that were not removed since and beside which the index never had `MAX_ENTRIES` newer ones
(`run_retains`): an entry that was evicted does not come back when a removal makes room
(`evicted_entry_stays_out`).
-/

namespace AiMemory

namespace Recall

theorem maxEntries_pos : 0 < maxEntries := by decide

-- the bound is not computed with
attribute [local irreducible] maxEntries

/-- A call that changes the index. -/
inductive Call (V : Type) where
  | insert (id : String) (embedding : V)
  | remove (id : String)

section Runs

variable {V : Type}

def IndexState.step (s : IndexState V) : Call V → IndexState V
  | .insert id embedding => s.insert id embedding
  | .remove id => s.remove id

def Call.removes (id : String) : Call V → Bool
  | .insert _ _ => false
  | .remove id' => id' = id

/-- The insertions that were not removed since, in order. -/
def live : List (Call V) → List (String × V)
  | [] => []
  | .insert id embedding :: rest => if rest.any (Call.removes id) then live rest else (id, embedding) :: live rest
  | .remove _ :: rest => live rest

/-- There were always fewer than `MAX_ENTRIES` insertions of the calls that were not removed. -/
def NeverFull (calls : List (Call V)) : Prop := ∀ p, p <+: calls → (live p).length < maxEntries

open Classical in
/-- The insertions that were not removed since, and that the index never had to evict for newer ones. -/
noncomputable def retained : List (Call V) → List (String × V)
  | [] => []
  | .insert id embedding :: rest =>
    if rest.any (Call.removes id) = false ∧ NeverFull rest then (id, embedding) :: retained rest else retained rest
  | .remove _ :: rest => retained rest

/-- Every entry can be found, in the graph or in the overflow. -/
def IndexState.Covered (s : IndexState V) : Prop := ∀ e ∈ s.allEntries, e ∈ s.hnsw.getD [] ∨ e ∈ s.overflow

/-- The last `n` of a list. -/
def lastOnes {α : Type} (n : ℕ) (l : List α) : List α := l.drop (l.length - n)

def Call.ofEntry (e : String × V) : Call V := .insert e.1 e.2

/-! ## Insertions and removals at the end of a run -/

variable {calls rest : List (Call V)} {id : String} {x : V} {s : IndexState V} {e : String × V}

theorem lastOnes_of_le {α : Type} {n : ℕ} {l : List α} (h : l.length ≤ n) : lastOnes n l = l := by
  rw [lastOnes, Nat.sub_eq_zero_of_le h, List.drop_zero]

theorem any_removes_insert (calls : List (Call V)) (id id' : String) (x : V) :
    (calls ++ [Call.insert id' x]).any (Call.removes id) = calls.any (Call.removes id) := by
  rw [List.any_append, List.any_cons, List.any_nil]
  simp [Call.removes]

theorem any_removes_remove (calls : List (Call V)) (id id' : String) :
    (calls ++ [Call.remove id']).any (Call.removes id) = (calls.any (Call.removes id) || decide (id = id')) := by
  rw [List.any_append, List.any_cons, List.any_nil, Bool.or_false]
  simp [Call.removes, eq_comm]

theorem live_append_insert (calls : List (Call V)) (id : String) (x : V) :
    live (calls ++ [Call.insert id x]) = live calls ++ [(id, x)] := by
  induction calls with
  | nil => rfl
  | cons c calls ih =>
    cases c with
    | insert id' x' =>
      rw [List.cons_append, live, live, any_removes_insert, ih]
      split_ifs <;> rfl
    | remove id' => exact ih

theorem live_append_remove (calls : List (Call V)) (id : String) :
    live (calls ++ [Call.remove id]) = (live calls).filter fun e => e.1 ≠ id := by
  induction calls with
  | nil => rfl
  | cons c calls ih =>
    cases c with
    | insert id' x' =>
      rw [List.cons_append, live, live, any_removes_remove, ih]
      by_cases hremoved : calls.any (Call.removes id') = true
      · rw [hremoved, Bool.true_or, if_pos rfl, if_pos rfl]
      · rw [Bool.not_eq_true] at hremoved
        rw [hremoved, Bool.false_or, if_neg Bool.false_ne_true, List.filter_cons]
        by_cases hid : id' = id <;> simp [hid]
    | remove id' => exact ih

theorem neverFull_append {c : Call V} :
    NeverFull (calls ++ [c]) ↔ NeverFull calls ∧ (live (calls ++ [c])).length < maxEntries := by
  constructor
  · exact fun h => ⟨fun p hp => h p (hp.trans (List.prefix_append _ _)), h _ (List.prefix_refl _)⟩
  · rintro ⟨hcalls, hlast⟩ p hp
    rcases List.prefix_concat_iff.mp hp with rfl | hp
    · exact hlast
    · exact hcalls p hp

theorem NeverFull.length_lt (h : NeverFull calls) : (live calls).length < maxEntries := h calls (List.prefix_refl _)

theorem length_live_le (c : Call V) (rest : List (Call V)) : (live rest).length ≤ (live (c :: rest)).length := by
  cases c with
  | insert id x =>
    rw [live]
    split_ifs
    · exact le_rfl
    · exact Nat.le_succ _
  | remove id => exact le_rfl

theorem NeverFull.tail {c : Call V} (h : NeverFull (c :: rest)) : NeverFull rest := fun p hp =>
  (length_live_le c p).trans_lt (h (c :: p) ((List.cons_prefix_cons).mpr ⟨rfl, hp⟩))

theorem retained_kept (h : rest.any (Call.removes id) = false ∧ NeverFull rest) :
    retained (.insert id x :: rest) = (id, x) :: retained rest := if_pos h

theorem retained_lost (h : ¬(rest.any (Call.removes id) = false ∧ NeverFull rest)) :
    retained (.insert id x :: rest) = retained rest := if_neg h

theorem retained_of_neverFull (h : NeverFull calls) : retained calls = live calls := by
  induction calls with
  | nil => rfl
  | cons c rest ih =>
    cases c with
    | insert id x =>
      rw [retained, live, ih h.tail]
      by_cases hremoved : rest.any (Call.removes id) = true
      · rw [if_neg fun hn => absurd (hremoved.symm.trans hn.1) (by decide), if_pos hremoved]
      · rw [if_pos ⟨Bool.eq_false_iff.mpr hremoved, h.tail⟩, if_neg hremoved]
    | remove id => exact ih h.tail

theorem length_retained_le (calls : List (Call V)) : (retained calls).length ≤ maxEntries := by
  induction calls with
  | nil => exact Nat.zero_le _
  | cons c rest ih =>
    cases c with
    | insert id x =>
      rw [retained]
      split_ifs with h
      · rw [retained_of_neverFull h.2]
        exact h.2.length_lt
      · exact ih
    | remove id => exact ih

theorem retained_append_remove (calls : List (Call V)) (id : String) :
    retained (calls ++ [Call.remove id]) = (retained calls).filter fun e => e.1 ≠ id := by
  induction calls with
  | nil => rfl
  | cons c rest ih =>
    cases c with
    | insert id' x' =>
      have hfull : NeverFull (rest ++ [Call.remove id]) ↔ NeverFull rest := by
        rw [neverFull_append, live_append_remove]
        exact ⟨And.left, fun h => ⟨h, (List.length_filter_le _ _).trans_lt h.length_lt⟩⟩
      have hany := any_removes_remove rest id' id
      rw [List.cons_append]
      by_cases hkept : rest.any (Call.removes id') = false ∧ NeverFull rest
      · rw [retained_kept hkept, List.filter_cons]
        rw [hkept.1, Bool.false_or] at hany
        by_cases hid : id' = id
        · rw [retained_lost fun h => of_decide_eq_false (hany.symm.trans h.1) hid, ih, if_neg (by simp [hid])]
        · rw [retained_kept ⟨hany.trans (decide_eq_false hid), hfull.mpr hkept.2⟩, ih, if_pos (by simp [hid])]
      · rw [retained_lost hkept, retained_lost fun h => hkept ⟨?_, hfull.mp h.2⟩, ih]
        exact (Bool.or_eq_false_iff.mp (hany.symm.trans h.1)).1
    | remove id' => exact ih

/-- One more insertion evicts what is too much. -/
theorem retained_append_insert (calls : List (Call V)) (id : String) (x : V) :
    retained (calls ++ [Call.insert id x]) = lastOnes maxEntries (retained calls ++ [(id, x)]) := by
  induction calls with
  | nil =>
    have hfull : NeverFull ([] : List (Call V)) := by
      intro p hp
      rw [List.prefix_nil.mp hp]
      exact maxEntries_pos
    rw [List.nil_append, retained_kept ⟨rfl, hfull⟩]
    exact (lastOnes_of_le maxEntries_pos).symm
  | cons c rest ih =>
    cases c with
    | insert id' x' =>
      have hany := any_removes_insert rest id' id x
      rw [List.cons_append]
      by_cases hkept : rest.any (Call.removes id') = false ∧ NeverFull rest
      · have hlt := hkept.2.length_lt
        rw [retained_of_neverFull hkept.2] at ih
        rw [retained_kept hkept, retained_of_neverFull hkept.2]
        have hrest : lastOnes maxEntries (live rest ++ [(id, x)]) = live rest ++ [(id, x)] :=
          lastOnes_of_le (by rw [List.length_append]; exact hlt)
        have hlen : ((id', x') :: live rest ++ [(id, x)]).length = (live rest).length + 2 := by
          rw [List.length_append, List.length_cons, List.length_singleton]
        have hfull : NeverFull (rest ++ [Call.insert id x]) ↔ (live rest).length + 1 < maxEntries := by
          rw [neverFull_append, live_append_insert, List.length_append, List.length_singleton]
          exact and_iff_right hkept.2
        by_cases hroom : (live rest).length + 1 < maxEntries
        · rw [retained_kept ⟨hany.trans hkept.1, hfull.mpr hroom⟩, ih, hrest, lastOnes_of_le (hlen.trans_le hroom)]
          rfl
        · -- the new entry takes the place of this one
          have hone : (live rest).length + 2 - maxEntries = 1 := by omega
          rw [retained_lost fun h => hroom (hfull.mp h.2), ih, hrest, lastOnes, hlen, hone]
          rfl
      · rw [retained_lost hkept, retained_lost fun h => hkept ⟨hany.symm.trans h.1, (neverFull_append.mp h.2).1⟩, ih]
    | remove id' => exact ih

/-! ## Runs -/

theorem allEntries_insert (s : IndexState V) (id : String) (x : V) :
    (s.insert id x).allEntries = lastOnes maxEntries (s.allEntries ++ [(id, x)]) := by
  have hlen : (s.allEntries ++ [(id, x)]).length = s.allEntries.length + 1 := by
    rw [List.length_append, List.length_singleton]
  by_cases hr : Refreshes s
  · rw [insert_of_refreshes hr, lastOnes, hlen]
    rfl
  · rw [insert_of_not_refreshes hr, lastOnes_of_le]
    rw [hlen]
    exact not_lt.mp fun hcap => hr (Or.inr hcap)

theorem covered_build (entries : List (String × V)) : (IndexState.build entries).Covered := fun e he =>
  Or.inl (by rw [IndexState.build, getD_buildHnsw]; exact he)

theorem IndexState.Covered.step (h : s.Covered) (c : Call V) : (s.step c).Covered := by
  cases c with
  | insert id x =>
    by_cases hr : Refreshes s
    · rw [IndexState.step, insert_of_refreshes hr]
      exact covered_build _
    · rw [IndexState.step, insert_of_not_refreshes hr]
      intro e he
      rcases List.mem_append.mp he with hold | hnew
      · exact (h e hold).imp_right (List.mem_append_left _)
      · exact Or.inr (List.mem_append_right _ hnew)
  | remove id =>
    intro e he
    obtain ⟨hin, hid⟩ := List.mem_filter.mp he
    exact (h e hin).imp_right fun hover => List.mem_filter.mpr ⟨hover, hid⟩

/-- The entries of a run are the retained ones, whatever the rebuilds and evictions. -/
theorem allEntries_run {before : List (Call V)} (hs : s.allEntries = retained before) (calls : List (Call V)) :
    (calls.foldl IndexState.step s).allEntries = retained (before ++ calls) := by
  induction calls generalizing s before with
  | nil => rw [List.append_nil]; exact hs
  | cons c calls ih =>
    have hstep : (s.step c).allEntries = retained (before ++ [c]) := by
      cases c with
      | insert id x => rw [IndexState.step, allEntries_insert, hs, retained_append_insert]
      | remove id => rw [IndexState.step, IndexState.remove, hs, retained_append_remove]
    rw [List.foldl_cons, ih hstep, List.append_assoc, List.singleton_append]

theorem allEntries_of_empty (calls : List (Call V)) :
    (calls.foldl IndexState.step IndexState.empty).allEntries = retained calls := by
  have hnone : IndexState.empty.allEntries = retained ([] : List (Call V)) := rfl
  exact allEntries_run hnone calls

theorem retained_entries (entries : List (String × V)) :
    retained (entries.map Call.ofEntry) = lastOnes maxEntries entries := by
  induction entries using List.reverseRecOn with
  | nil => exact (lastOnes_of_le (Nat.zero_le _)).symm
  | append_singleton entries e ih =>
    rw [List.map_append, List.map_singleton, Call.ofEntry, retained_append_insert, ih]
    simp only [lastOnes, List.length_append, List.length_drop, List.length_singleton]
    by_cases hle : entries.length ≤ maxEntries
    · rw [Nat.sub_eq_zero_of_le hle, List.drop_zero, Nat.sub_zero]
    · rw [← List.drop_append_of_le_length (Nat.sub_le _ _), List.drop_drop]
      congr 1
      omega

end Runs

/-- Whatever insertions and removals are called on an index, built of no more entries than it may hold: its entries are
those retained, at most `MAX_ENTRIES`, and each is in the graph or in the overflow. -/
theorem run_retains {V : Type} (entries : List (String × V)) (hbuilt : entries.length ≤ maxEntries)
    (calls : List (Call V)) :
    let s := calls.foldl IndexState.step (IndexState.build entries)
    s.allEntries = retained (entries.map Call.ofEntry ++ calls) ∧ s.allEntries.length ≤ maxEntries ∧ s.Covered := by
  intro s
  have hall : s.allEntries = retained (entries.map Call.ofEntry ++ calls) :=
    allEntries_run (by rw [retained_entries, lastOnes_of_le hbuilt]; rfl) calls
  exact ⟨hall, hall ▸ length_retained_le _, Machine.foldl_induct (fun _ c _ h => h.step c) (covered_build entries)⟩

theorem run_retains_one : ([("m", ())] : List (String × Unit)).length ≤ maxEntries ∧
    let s := [Call.insert "n" (), Call.remove "m"].foldl IndexState.step (IndexState.build [("m", ())])
    s.allEntries = retained [Call.insert "m" (), Call.insert "n" (), Call.remove "m"] ∧
      s.allEntries.length ≤ maxEntries ∧ s.Covered :=
  ⟨maxEntries_pos, run_retains [("m", ())] maxEntries_pos [.insert "n" (), .remove "m"]⟩

/-! ## An entry that does not come back -/

theorem live_entries {V : Type} (entries : List (String × V)) : live (entries.map Call.ofEntry) = entries := by
  induction entries using List.reverseRecOn with
  | nil => rfl
  | append_singleton entries e ih => rw [List.map_append, List.map_singleton, Call.ofEntry, live_append_insert, ih]

def newId (i : ℕ) : String := String.ofList (List.replicate i 'm')

theorem newId_injective : Function.Injective newId := by
  intro i j h
  have hlen := congrArg (fun id => id.toList.length) h
  simpa [newId] using hlen

def newEntries (n : ℕ) : List (String × List ℚ) := (List.range n).map fun i => (newId i, [1])

/-- One entry more than `n`, and then the newest is removed. -/
def overfull (n : ℕ) : List (Call (List ℚ)) := (newEntries (n + 1)).map Call.ofEntry ++ [Call.remove (newId n)]

theorem live_overfull (n : ℕ) : live (overfull n) = (newEntries (n + 1)).filter fun e => e.1 ≠ newId n := by
  rw [overfull, live_append_remove, live_entries]

theorem length_live_overfull (n : ℕ) : (live (overfull n)).length ≤ n := by
  have hlast : ((List.map (fun i => (newId i, ([1] : List ℚ))) [n]).filter fun e => e.1 ≠ newId n) = [] := by simp
  rw [live_overfull, newEntries, List.range_succ, List.map_append, List.filter_append, List.length_append, hlast,
    List.length_nil, Nat.add_zero]
  exact (List.length_filter_le _ _).trans (by rw [List.length_map, List.length_range])

theorem mem_live_overfull {n : ℕ} (hn : 0 < n) : (newId 0, [1]) ∈ live (overfull n) := by
  rw [live_overfull]
  refine List.mem_filter.mpr ⟨List.mem_map.mpr ⟨0, List.mem_range.mpr (Nat.succ_pos _), rfl⟩, decide_eq_true ?_⟩
  exact fun h => hn.ne (newId_injective h)

theorem not_mem_retained_overfull {n : ℕ} (hn : n = maxEntries) : (newId 0, [1]) ∉ retained (overfull n) := by
  rw [overfull, retained_append_remove, retained_entries, lastOnes, ← hn]
  intro h
  have hmem := (List.mem_filter.mp h).1
  rw [newEntries, List.length_map, List.length_range, Nat.add_sub_cancel_left, List.range_succ_eq_map, List.map_cons,
    List.drop_one, List.tail_cons, List.map_map] at hmem
  obtain ⟨i, -, heq⟩ := List.mem_map.mp hmem
  exact absurd (newId_injective (congrArg Prod.fst heq)) (Nat.succ_ne_zero i)

/-- There is room for all entries that were not removed, but the oldest was evicted. -/
theorem evicted_entry_stays_out :
    (live (overfull maxEntries)).length ≤ maxEntries ∧ (newId 0, [1]) ∈ live (overfull maxEntries) ∧
      (newId 0, [1]) ∉ ((overfull maxEntries).foldl IndexState.step IndexState.empty).allEntries ∧
      ((overfull maxEntries).foldl IndexState.step IndexState.empty).allEntries ≠
        lastOnes maxEntries (live (overfull maxEntries)) := by
  have hin := mem_live_overfull maxEntries_pos
  have hout := not_mem_retained_overfull rfl
  rw [allEntries_of_empty, lastOnes_of_le (length_live_overfull maxEntries)]
  exact ⟨length_live_overfull maxEntries, hin, hout, fun heq => hout (heq ▸ hin)⟩

end Recall

end AiMemory
