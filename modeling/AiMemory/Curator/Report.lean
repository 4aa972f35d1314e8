import AiMemory.Curator.Overlap

/-!
# What the report of the passes says

A call of `run_autonomy_passes` returns three numbers: the memories merged, those forgotten and the priorities changed. They are
the numbers of what the actions returned; `report_exact_iff` says when they are the numbers of what happened to the rows, and
those that a dry run reports.
-/

namespace AiMemory

open Relational Machine

namespace Curator

/-! ## The clusters of a list -/

section Clusters

variable {u : Unicode} {order : List String} {all : List Memory}

theorem subperm_clustersFrom (fuel : ℕ) (ms : List Memory) : (clustersFrom u fuel ms).flatten.Subperm ms := by
  induction fuel generalizing ms with
  | zero => exact List.nil_subperm
  | succ fuel ih =>
    cases ms with
    | nil => exact List.nil_subperm
    | cons m ms =>
      unfold clustersFrom
      set joined := joining (fun x => u.similar m.content x.content) (consolidateMaxClusterSize - 1) ms with hjoined
      have hperm : (joined.1 ++ joined.2).Perm ms := hjoined ▸ perm_joining _ _ ms
      simp only
      split_ifs with hnone
      · rw [hnone, List.nil_append] at hperm
        exact (ih joined.2).trans ((List.sublist_cons_self m joined.2).subperm.trans (hperm.cons m).subperm)
      · rw [List.flatten_cons, List.cons_append]
        exact (List.subperm_cons m).mpr (((List.subperm_append_left joined.1).mpr (ih joined.2)).trans hperm.subperm)

theorem two_le_length_clustersFrom {fuel : ℕ} {ms cluster : List Memory} (h : cluster ∈ clustersFrom u fuel ms) :
    2 ≤ cluster.length := by
  induction fuel generalizing ms with
  | zero => cases h
  | succ fuel ih =>
    cases ms with
    | nil => cases h
    | cons m ms =>
      unfold clustersFrom at h
      simp only at h
      split_ifs at h with hnone
      · exact ih h
      · rcases List.mem_cons.mp h with rfl | h
        · have := List.length_pos_of_ne_nil hnone
          rw [List.length_cons]
          omega
        · exact ih h

/-- The clusters found among the candidates: of two or more, of candidates outside the curator's own namespaces. -/
theorem mem_findConsolidationClusters {cluster : List Memory} (h : cluster ∈ findConsolidationClusters u order all) :
    2 ≤ cluster.length ∧ ∀ m ∈ cluster, m ∈ all ∧ isReserved m.ns = false := by
  obtain ⟨ns, -, hns⟩ := List.mem_flatMap.mp h
  refine ⟨two_le_length_clustersFrom hns, fun m hm => ?_⟩
  have hgroup := (subperm_clustersFrom _ _).subset (List.mem_flatten_of_mem hns hm)
  rw [List.mem_filter, decide_eq_true_eq, Bool.not_eq_true'] at hgroup
  exact ⟨hgroup.1, hgroup.2.1⟩

theorem nodup_of_subperm {α : Type*} {l l' : List α} (h : l.Subperm l') (hn : l'.Nodup) : l.Nodup := by
  obtain ⟨l'', hperm, hsub⟩ := h
  exact hperm.nodup_iff.mp (hsub.nodup hn)

theorem nodup_findConsolidationClusters (horder : order.Nodup) (hall : all.Nodup) :
    (findConsolidationClusters u order all).flatten.Nodup := by
  have hgroup : ∀ ns, (clustersOf u (all.filter fun m => !isReserved m.ns ∧ m.ns = ns)).flatten.Subperm
      (all.filter fun m => !isReserved m.ns ∧ m.ns = ns) := fun ns => subperm_clustersFrom _ _
  unfold findConsolidationClusters
  rw [List.flatMap_def, List.flatten_flatten, List.map_map, ← List.flatMap_def, List.nodup_flatMap]
  refine ⟨fun ns _ => nodup_of_subperm (hgroup ns) (hall.filter _), ?_⟩
  refine horder.imp fun {ns ns'} hne m hm hm' => hne ?_
  have h := (hgroup ns).subset hm
  have h' := (hgroup ns').subset hm'
  rw [List.mem_filter, decide_eq_true_eq] at h h'
  exact h.2.2.symm.trans h'.2.2

end Clusters

/-! ## The candidates -/

/-- What the curator hands to the passes: live rows, each once, none of a reserved namespace. -/
structure Candidates (db : Db) (all : List Memory) : Prop where
  nodup : (all.map fun m => m.id).Nodup
  live : ∀ m ∈ all, ∃ r, db.get m.id = some r ∧ r.toMemory = m
  unreserved : ∀ m ∈ all, isReserved m.ns = false

theorem nodup_ids_live (db : Db) : (db.live.map fun m => m.id).Nodup := by
  unfold Db.live
  rw [List.map_map]
  exact db.memories.nodup

theorem nodup_ids_list (db : Db) (q : ListQuery) (now : String) : ((db.list q now).map fun m => m.id).Nodup := by
  unfold Db.list
  refine ((((List.take_sublist _ _).trans (List.drop_sublist _ _)).map _).nodup ?_)
  exact ((List.mergeSort_perm _ _).map _).nodup_iff.mpr ((List.filter_sublist.map _).nodup (nodup_ids_live db))

theorem mem_list {db : Db} {q : ListQuery} {now : String} {m : Memory} (h : m ∈ db.list q now) :
    m ∈ db.live ∧ q.tier.all (m.tier = ·) := by
  unfold Db.list at h
  have h := List.mem_filter.mp (List.mem_mergeSort.mp (List.mem_of_mem_drop (List.mem_of_mem_take h)))
  have hfilters := h.2
  unfold Db.listFilters at hfilters
  simp only [Bool.and_eq_true] at hfilters
  exact ⟨h.1, hfilters.1.1.1.1.1.1.2⟩

theorem candidates_collect (cfg : CuratorConfig) (midNow longNow : String) (db : Db) :
    Candidates db ((collectCandidates cfg midNow longNow db).filter (needsCuration cfg)) := by
  have hmem : ∀ m ∈ collectCandidates cfg midNow longNow db, m ∈ db.live := fun m hm =>
    (List.mem_append.mp hm).elim (fun h => (mem_list h).1) fun h => (mem_list h).1
  refine ⟨?_, fun m hm => ?_, fun m hm => ?_⟩
  · refine (List.filter_sublist.map _).nodup ?_
    unfold collectCandidates
    rw [List.map_append]
    refine List.Nodup.append (nodup_ids_list _ _ _) (nodup_ids_list _ _ _) fun i hi hi' => ?_
    obtain ⟨m, hm, rfl⟩ := List.mem_map.mp hi
    obtain ⟨m', hm', hid⟩ := List.mem_map.mp hi'
    -- one row has one tier
    obtain rfl : m' = m := List.inj_on_of_nodup_map (nodup_ids_live db) (mem_list hm').1 (mem_list hm).1 hid
    have hmid : m'.tier = .mid := by simpa using (mem_list hm).2
    have hlong : m'.tier = .long := by simpa using (mem_list hm').2
    exact absurd (hmid.symm.trans hlong) (by decide)
  · obtain ⟨r, hr, rfl⟩ := Db.mem_live.mp (hmem m (List.mem_of_mem_filter hm))
    exact ⟨r, Db.get_of_mem hr, rfl⟩
  · have h := (List.mem_filter.mp hm).2
    unfold needsCuration at h
    simp only [Bool.and_eq_true, Bool.not_eq_true'] at h
    exact h.1.1.1.1

/-! ## The numbers of the report -/

/-- The numbers of memories merged, forgotten and re-prioritised. -/
def AutonomyPassReport.counts (r : AutonomyPassReport) : ℕ × ℕ × ℕ :=
  (r.memoriesConsolidated, r.memoriesForgotten, r.priorityAdjustments)

def weight : Option RollbackEntry → ℕ × ℕ × ℕ
  | none => 0
  | some (.consolidate originals _) => (originals.length, 0, 0)
  | some (.forget _) => (0, 1, 0)
  | some (.priorityAdjust ..) => (0, 0, 1)

theorem sum_ite {α : Type*} (p : α → Bool) (w : ℕ × ℕ × ℕ) (l : List α) :
    (l.map fun x => if p x then w else 0).sum = l.countP p • w := by
  induction l with
  | nil => simp
  | cons x l ih =>
    rw [List.map_cons, List.sum_cons, ih, List.countP_cons]
    split_ifs
    · rw [succ_nsmul']
    · rw [zero_add, add_zero]

section Steps

variable {c : Chrono} {entryText : RollbackEntry → String} {all : List Memory} {dryRun : Bool} {s : Passes} {i : String}
  {r : MemoryRow} {step : Action × Draw} {steps : List (Action × Draw)}

theorem counts_act : (act c entryText all dryRun s step).report.counts =
    s.report.counts + weight (entryOf c all dryRun s.db step) := by
  obtain ⟨-, h₁, h₂, h₃⟩ := @act_counts c entryText all dryRun s step
  unfold AutonomyPassReport.counts
  rw [h₁, h₂, h₃]
  cases entryOf c all dryRun s.db step with
  | none => rfl
  | some entry => cases entry <;> rfl

theorem counts_foldl {e : Action × Draw → Option RollbackEntry}
    (h : Meets (act c entryText all dryRun) (fun s step => entryOf c all dryRun s.db step = e step) s steps) :
    (steps.foldl (act c entryText all dryRun) s).report.counts = s.report.counts + (steps.map fun step => weight (e step)).sum := by
  induction steps generalizing s with
  | nil => rfl
  | cons step steps ih => rw [List.foldl_cons, ih h.2, counts_act, h.1, List.map_cons, List.sum_cons, add_assoc]

/-! ## A dry run -/

theorem after_dry (step : Action × Draw) (db : Db) : after c all true db step = db := by
  obtain ⟨a, d⟩ := step
  cases a with
  | consolidate cluster =>
    unfold after attempt tryConsolidate
    simp only
    split_ifs
    · rfl
    · cases d.summary <;> rfl
  | forget mem =>
    unfold after attempt tryForget
    simp only
    split_ifs <;> rfl
  | adjust mem =>
    unfold after attempt tryAdjust
    simp only
    split_ifs <;> rfl

theorem act_dry : (act c entryText all true s step).db = s.db := by
  rw [act_db, after_dry]
  cases entryOf c all true s.db step with
  | none => rfl
  | some entry => exact record_db entry

theorem foldl_dry (c : Chrono) (entryText : RollbackEntry → String) (all : List Memory) (s : Passes) (steps : List (Action × Draw)) :
    (steps.foldl (act c entryText all true) s).db = s.db :=
  foldl_keeps (g := Passes.db) (fun _ _ => act_dry) s steps

theorem counts_dry (c : Chrono) (entryText : RollbackEntry → String) (all : List Memory) (s : Passes) (steps : List (Action × Draw)) :
    (steps.foldl (act c entryText all true) s).report.counts =
      s.report.counts + (steps.map fun step => weight (entryOf c all true s.db step)).sum := by
  refine counts_foldl ?_
  refine meets_of_induct (P := fun t : Passes => t.db = s.db) (fun t step _ ht => by rw [ht]) (fun t step _ ht => ?_) rfl
  rw [act_dry, ht]

/-! ## What an action leaves of a row -/

theorem get_act_of_some (h : (after c all dryRun s.db step).get i = some r) (hres : isReserved r.ns = false) :
    (act c entryText all dryRun s step).db.get i = some r := by
  obtain ⟨hmem, hid⟩ := Db.get_eq_some.mp h
  have hne : r.ns ≠ "_curator/rollback" := fun h => by rw [h] at hres; revert hres; decide
  rw [act_db]
  cases entryOf c all dryRun s.db step with
  | none => exact h
  | some entry => exact Db.get_eq_some.mpr ⟨(record_sameIn entry hne r rfl).mpr hmem, hid⟩

theorem get_act_of_none (h : (after c all dryRun s.db step).get i = none) (hne : step.2.entryId ≠ i) :
    (act c entryText all dryRun s step).db.get i = none := by
  rw [act_db]
  cases entryOf c all dryRun s.db step with
  | none => exact h
  | some entry => exact (get_record_eq_none_iff entry hne).mpr h

theorem live_act (h : (after c all dryRun s.db step).get i ≠ none) : (act c entryText all dryRun s step).db.get i ≠ none := by
  rw [act_db]
  cases entryOf c all dryRun s.db step with
  | none => exact h
  | some entry =>
    simp only [record_db]
    split_ifs
    · exact h
    · exact (Db.liveOn_insertOrSkip _ _).get_ne_none h

def Action.ids : Action → List String
  | consolidate cluster => cluster.map fun m => m.id
  | forget mem => [mem.id]
  | adjust mem => [mem.id]

/-- What an action is not about stays. -/
theorem live_after (h : s.db.get i ≠ none) (hi : i ∉ step.1.ids) : (after c all false s.db step).get i ≠ none := by
  obtain ⟨a, d⟩ := step
  cases a with
  | consolidate cluster =>
    unfold after attempt tryConsolidate
    simp only [Bool.false_eq_true, if_false]
    split_ifs
    · exact h
    · cases d.summary with
      | error e => exact h
      | ok text =>
        cases d.writeFault with
        | some e => exact h
        | none =>
          cases hc : consolidateCluster s.db cluster (.ok text) d.newId d.now with
          | error e => exact h
          | ok res =>
            rcases consolidateCluster_cases hc with heq | ⟨text, ns, tier, id, -, hdb⟩
            · simp only [heq]
              exact h
            · obtain ⟨con, t, ht, heq⟩ := Db.consolidate_cases hdb
              simp only [heq]
              have hi : i ∉ cluster.map fun m => m.id := hi
              rw [Db.get_foldl_remove Db.get_delete, if_neg hi]
              show t.find i ≠ none
              rw [Indexed.find_insertNew? ht]
              exact fun hnone => h (Option.or_eq_none_iff.mp hnone).1
  | forget mem =>
    rcases forget_cases c all s.db (mem, d) with ⟨-, -, hmem⟩ | ⟨-, -, -, hafter⟩
    · unfold Db.get at h ⊢
      rwa [hmem]
    · rw [hafter, Db.get_delete, if_neg fun heq => hi (List.mem_singleton.mpr heq)]
      exact h
  | adjust mem =>
    obtain ⟨p, hafter⟩ := adjust_cases c all s.db (mem, d)
    rw [hafter, Ne, Option.map_eq_none_iff]
    exact h

theorem live_foldl (h : s.db.get i ≠ none) (hi : ∀ step ∈ steps, i ∉ step.1.ids) :
    (steps.foldl (act c entryText all false) s).db.get i ≠ none :=
  foldl_induct (P := fun s : Passes => s.db.get i ≠ none) (fun _ step hstep h => live_act (live_after h (hi step hstep))) h

end Steps

/-! ## The merges -/

section Merges

variable {c : Chrono} {entryText : RollbackEntry → String} {all : List Memory} {s : Passes} {i : String} {r : MemoryRow}
  {x : List Memory × Draw} {steps : List (List Memory × Draw)} {db : Db}

def mergedMetadata (cluster : List Memory) : Json :=
  (cluster.foldl Consolidation.add {}).metadata (cluster.map fun m => m.id) "ai:curator"

/-- The model answers for the cluster, and the merged metadata is accepted. -/
def Merges (x : List Memory × Draw) : Prop := x.2.summary.isOk ∧ Accepts (Validate.validateMetadata (mergedMetadata x.1))

instance (x : List Memory × Draw) : Decidable (Merges x) := inferInstanceAs (Decidable (_ ∧ _))

/-- A cluster of two or more live rows outside the reserved namespaces, as they were read; and no fault of its write. -/
structure Ready (db : Db) (x : List Memory × Draw) : Prop where
  length : 2 ≤ x.1.length
  unreserved : ∀ m ∈ x.1, isReserved m.ns = false
  live : ∀ m ∈ x.1, ∃ r, db.get m.id = some r ∧ r.toMemory = m
  sound : x.2.writeFault = none

/-- The `INSERT` of a merge goes through. -/
def Inserts (db : Db) (x : List Memory × Draw) : Prop :=
  Merges x → db.get x.2.newId = none ∧ ∀ m ∈ x.1.head?, db.getKey (consolidatedTitle x.1, m.ns) = none

instance (db : Db) (x : List Memory × Draw) : Decidable (Inserts db x) := inferInstanceAs (Decidable (_ → _ ∧ _))

theorem collect_eq {ms : List Memory} (h : ∀ m ∈ ms, ∃ r, db.get m.id = some r ∧ r.toMemory = m) (con : Consolidation) :
    db.collect (ms.map fun m => m.id) con = .ok (ms.foldl Consolidation.add con) := by
  induction ms generalizing con with
  | nil => rfl
  | cons m ms ih =>
    obtain ⟨⟨r, hr, hm⟩, hrest⟩ := List.forall_mem_cons.mp h
    rw [List.map_cons, Db.collect, hr]
    simp only [hm]
    exact ih hrest _

/-- A merge that the model answers, of two or more memories outside the reserved namespaces, is a consolidation of the rows. -/
theorem attempt_consolidate (c : Chrono) (all : List Memory) (db : Db) {cluster : List Memory} {d : Draw} {text : String}
    (hlen : 2 ≤ cluster.length) (hres : ∀ m ∈ cluster, isReserved m.ns = false) (hsum : d.summary = .ok text)
    (hsound : d.writeFault = none) : ∃ m tier, m ∈ cluster.head? ∧ attempt c all false db (.consolidate cluster) d =
      match db.consolidate (cluster.map fun m => m.id) (consolidatedTitle cluster) text m.ns tier source "ai:curator" d.newId
          d.now with
      | .error e => (db, .error e)
      | .ok (db, resultId) => (db, .ok (some (.consolidate cluster resultId))) := by
  have hany : ¬cluster.any fun m => isReserved m.ns := by
    simpa only [List.any_eq_true, not_exists, not_and, Bool.not_eq_true] using hres
  cases cluster with
  | nil => exact absurd hlen (by simp)
  | cons m rest =>
    have hrest : rest ≠ [] := by
      rintro rfl
      simp at hlen
    refine ⟨m, rest.foldl (fun t m => max t m.tier) m.tier, rfl, ?_⟩
    unfold attempt tryConsolidate consolidateCluster
    simp only [hsum, hsound, if_neg hany, if_neg hrest, if_neg (not_or.mpr ⟨not_lt.mpr hlen, hany⟩), Bool.false_eq_true, if_false]
    cases db.consolidate ((m :: rest).map fun m => m.id) (consolidatedTitle (m :: rest)) text m.ns
      (rest.foldl (fun t m => max t m.tier) m.tier) source "ai:curator" d.newId d.now <;> rfl

/-- What a merge does. -/
theorem merge_cases (c : Chrono) (all : List Memory) (hready : Ready db x) (hins : Inserts db x) :
    (¬Merges x ∧ entryOf c all false db (.consolidate x.1, x.2) = none ∧ after c all false db (.consolidate x.1, x.2) = db) ∨
    (Merges x ∧ entryOf c all false db (.consolidate x.1, x.2) = some (.consolidate x.1 x.2.newId) ∧
      ∀ i, i ≠ x.2.newId → (after c all false db (.consolidate x.1, x.2)).get i =
        if i ∈ x.1.map fun m => m.id then none else db.get i) := by
  unfold entryOf after
  cases hsum : x.2.summary with
  | error e =>
    have hno : ¬Merges x := fun h => by
      have h := h.1
      rw [hsum] at h
      cases h
    refine Or.inl ⟨hno, ?_⟩
    unfold attempt tryConsolidate
    simp only [hsum]
    split_ifs <;> exact ⟨rfl, rfl⟩
  | ok text =>
    obtain ⟨m, tier, hm, hattempt⟩ := attempt_consolidate c all db hready.length hready.unreserved hsum hready.sound
    have hok : (∃ res, db.consolidate (x.1.map fun m => m.id) (consolidatedTitle x.1) text m.ns tier source "ai:curator"
        x.2.newId x.2.now = .ok res) ↔ _ := Db.consolidate_isOk_iff
    simp only [hattempt]
    cases hc : db.consolidate (x.1.map fun m => m.id) (consolidatedTitle x.1) text m.ns tier source "ai:curator" x.2.newId
      x.2.now with
    | error e =>
      refine Or.inl ⟨fun hmerges => ?_, rfl, rfl⟩
      obtain ⟨hid, hkey⟩ := hins hmerges
      rw [hc] at hok
      obtain ⟨res, hres⟩ := hok.mpr ⟨_, collect_eq hready.live {}, hmerges.2, hid, hkey m hm⟩
      cases hres
    | ok res =>
      obtain ⟨con, hcon, hvalid, -⟩ := hok.mp ⟨res, hc⟩
      rw [collect_eq hready.live] at hcon
      cases hcon
      obtain ⟨con, t, ht, hdb⟩ := Db.consolidate_cases hc
      have hid := Db.consolidate_id hc
      refine Or.inr ⟨⟨by rw [hsum]; rfl, hvalid⟩, by simp only [hid], fun i hi => ?_⟩
      simp only [hdb]
      rw [Db.get_foldl_remove Db.get_delete]
      split_ifs with hmem
      · rfl
      · show t.find i = _
        rw [Indexed.find_insertNew? ht, if_neg fun h => hi h.symm, Option.or_none]
        rfl
/-- The draws of a step are new to an id. -/
def NewTo (i : String) (d : Draw) : Prop := d.newId ≠ i ∧ d.entryId ≠ i

theorem get_merge (hready : Ready s.db x) (hins : Inserts s.db x) (hres : ∀ r ∈ s.db.get i, isReserved r.ns = false)
    (hnew : NewTo i x.2) : (act c entryText all false s (.consolidate x.1, x.2)).db.get i =
      if Merges x ∧ i ∈ x.1.map (fun m => m.id) then none else s.db.get i := by
  have hafter : (after c all false s.db (.consolidate x.1, x.2)).get i =
      if Merges x ∧ i ∈ x.1.map (fun m => m.id) then none else s.db.get i := by
    rcases merge_cases c all hready hins with ⟨hno, -, hafter⟩ | ⟨hmerges, -, hafter⟩
    · rw [if_neg fun h => hno h.1, hafter]
    · simp only [hafter i hnew.1.symm, hmerges, true_and]
  rw [← hafter]
  cases hget : (after c all false s.db (.consolidate x.1, x.2)).get i with
  | none => exact get_act_of_none hget hnew.2
  | some r =>
    refine get_act_of_some hget (hres r ?_)
    rw [hget] at hafter
    split_ifs at hafter
    exact hafter.symm

def mergeEntry (x : List Memory × Draw) : Option RollbackEntry :=
  if Merges x then some (.consolidate x.1 x.2.newId) else none

theorem Ready.of_get {db' : Db} (h : Ready db x) (hget : ∀ m ∈ x.1, db'.get m.id = db.get m.id) : Ready db' x where
  length := h.length
  unreserved := h.unreserved
  live m hm := by
    rw [hget m hm]
    exact h.live m hm
  sound := h.sound

theorem unreserved_of_live {m : Memory} (hlive : ∃ r, db.get m.id = some r ∧ r.toMemory = m) (hns : isReserved m.ns = false) :
    ∀ r ∈ db.get m.id, isReserved r.ns = false := by
  obtain ⟨r, hr, hsame⟩ := hlive
  rw [hr]
  rintro r' ⟨⟩
  exact (congrArg (fun m : Memory => isReserved m.ns) hsame).trans hns

theorem Ready.unreserved_get (h : Ready db x) {m : Memory} (hm : m ∈ x.1) : ∀ r ∈ db.get m.id, isReserved r.ns = false :=
  unreserved_of_live (h.live m hm) (h.unreserved m hm)

/-- Clusters that share no candidate are merged each as if it were alone. -/
theorem mergePass_spec (hnodup : (steps.flatMap fun x => x.1.map fun m => m.id).Nodup)
    (hready : ∀ x ∈ steps, Ready s.db x)
    (hnew : ∀ x ∈ steps, ∀ m ∈ x.1, ∀ y ∈ steps, NewTo m.id y.2)
    (hins : Meets (fun s x => act c entryText all false s (.consolidate x.1, x.2)) (fun s x => Inserts s.db x) s steps) :
    (consolidatePass c entryText all false steps s).report.counts =
        s.report.counts + (steps.map fun x => weight (mergeEntry x)).sum ∧
      ∀ i, (∀ r ∈ s.db.get i, isReserved r.ns = false) → (∀ y ∈ steps, NewTo i y.2) →
        (consolidatePass c entryText all false steps s).db.get i =
          if ∃ x ∈ steps, Merges x ∧ i ∈ x.1.map (fun m => m.id) then none else s.db.get i := by
  induction steps generalizing s with
  | nil => exact ⟨rfl, fun i _ _ => by rw [if_neg fun ⟨x, hx, _⟩ => absurd hx List.not_mem_nil]; rfl⟩
  | cons x steps ih =>
    obtain ⟨hx, hsteps⟩ := List.forall_mem_cons.mp hready
    rw [List.flatMap_cons, List.nodup_append] at hnodup
    have hget : ∀ i, (∀ r ∈ s.db.get i, isReserved r.ns = false) → NewTo i x.2 →
        (act c entryText all false s (.consolidate x.1, x.2)).db.get i =
          if Merges x ∧ i ∈ x.1.map (fun m => m.id) then none else s.db.get i := fun i => get_merge hx hins.1
    -- the other clusters are left
    have hready' : ∀ y ∈ steps, Ready (act c entryText all false s (.consolidate x.1, x.2)).db y := fun y hy => by
      refine (hsteps y hy).of_get fun m hm => ?_
      rw [hget m.id ((hsteps y hy).unreserved_get hm) (hnew y (List.mem_cons_of_mem x hy) m hm x List.mem_cons_self), if_neg]
      rintro ⟨-, hmem⟩
      exact hnodup.2.2 m.id hmem m.id (List.mem_flatMap.mpr ⟨y, hy, List.mem_map_of_mem hm⟩) rfl
    obtain ⟨hcounts, hrows⟩ := ih hnodup.2.1 hready' (fun y hy m hm z hz =>
      hnew y (List.mem_cons_of_mem x hy) m hm z (List.mem_cons_of_mem x hz)) hins.2
    refine ⟨hcounts.trans ?_, fun i hi hnewi => ?_⟩
    · have hentry : entryOf c all false s.db (.consolidate x.1, x.2) = mergeEntry x := by
        unfold mergeEntry
        rcases merge_cases c all hx hins.1 with ⟨hno, hentry, -⟩ | ⟨hmerges, hentry, -⟩
        · rw [if_neg hno, hentry]
        · rw [if_pos hmerges, hentry]
      rw [counts_act, hentry, List.map_cons, List.sum_cons, add_assoc]
    · have hnewx := hnewi x List.mem_cons_self
      have hx := hget i hi hnewx
      have hi' : ∀ r ∈ (act c entryText all false s (.consolidate x.1, x.2)).db.get i, isReserved r.ns = false := by
        rw [hx]
        split_ifs
        · nofun
        · exact hi
      refine (hrows i hi' fun y hy => hnewi y (List.mem_cons_of_mem x hy)).trans ?_
      rw [hx]
      simp only [List.mem_cons, or_and_right, exists_or, exists_eq_left]
      by_cases hmerged : Merges x ∧ i ∈ x.1.map fun m => m.id
      · rw [if_pos hmerged, if_pos (Or.inl hmerged), ite_self]
      · simp only [hmerged, if_false, false_or]

end Merges

/-! ## The numbers of the last two passes -/

section Feedback

variable {c : Chrono} {entryText : RollbackEntry → String} {all : List Memory} {s : Passes} {i : String} {r : MemoryRow}
  {x : Memory × Draw} {steps : List (Memory × Draw)} {db : Db}

def forgetEntry (all : List Memory) (x : Memory × Draw) : Option RollbackEntry :=
  if isSuperseded x.1 all then some (.forget x.1) else none

theorem counts_forgetPass (hsound : ∀ x ∈ steps, x.2.writeFault = none) :
    (forgetPass c entryText all false steps s).report.counts =
      s.report.counts + (steps.map fun x => weight (forgetEntry all x)).sum := by
  unfold forgetPass
  induction steps generalizing s with
  | nil => rfl
  | cons x steps ih =>
    obtain ⟨hx, hsteps⟩ := List.forall_mem_cons.mp hsound
    have hentry : entryOf c all false s.db (.forget x.1, x.2) = forgetEntry all x := by
      unfold forgetEntry
      rcases forget_cases c all s.db x with ⟨hentry, hno, -⟩ | ⟨hentry, hsup, -, -⟩
      · rw [if_neg fun h => hno ⟨h, hx⟩, hentry]
      · rw [if_pos hsup, hentry]
    rw [List.map_cons, List.foldl_cons, ih hsteps, counts_act, hentry, List.map_cons, List.sum_cons, add_assoc]

/-- The feedback wants another priority for the candidate. -/
def Changes (c : Chrono) (x : Memory × Draw) : Prop := priorityAfter c x.2.instant x.1 ≠ x.1.priority

instance (c : Chrono) (x : Memory × Draw) : Decidable (Changes c x) := inferInstanceAs (Decidable (_ ≠ _))

def adjustEntry (c : Chrono) (x : Memory × Draw) : Option RollbackEntry :=
  if Changes c x then some (.priorityAdjust x.1.id x.1.priority (priorityAfter c x.2.instant x.1)) else none

theorem adjust_spec (c : Chrono) (all : List Memory) (db : Db) (hsound : x.2.writeFault = none) :
    entryOf c all false db (.adjust x.1, x.2) = adjustEntry c x ∧
      ∀ i, (after c all false db (.adjust x.1, x.2)).get i = (db.get i).map fun r =>
        if i = x.1.id ∧ Changes c x then applyUpdate { priority := some (priorityAfter c x.2.instant x.1) } x.2.now r else r := by
  unfold entryOf after attempt tryAdjust adjustEntry Changes
  by_cases hsame : priorityAfter c x.2.instant x.1 = x.1.priority
  · simp [hsame]
  · obtain ⟨db', found, changed, hu, hget⟩ := update_priority db x.1.id x.2.now (priorityAfter c x.2.instant x.1)
    simp [hsame, hsound, hu, hget]

theorem counts_adjustPass (hsound : ∀ x ∈ steps, x.2.writeFault = none) :
    (adjustPass c entryText all false steps s).report.counts =
      s.report.counts + (steps.map fun x => weight (adjustEntry c x)).sum := by
  unfold adjustPass
  induction steps generalizing s with
  | nil => rfl
  | cons x steps ih =>
    obtain ⟨hx, hsteps⟩ := List.forall_mem_cons.mp hsound
    rw [List.map_cons, List.foldl_cons, ih hsteps, counts_act, (adjust_spec c all s.db hx).1, List.map_cons, List.sum_cons,
      add_assoc]

theorem get_adjust (hsound : x.2.writeFault = none) (hr : s.db.get i = some r) (hres : isReserved r.ns = false) :
    (act c entryText all false s (.adjust x.1, x.2)).db.get i = some (if i = x.1.id ∧ Changes c x then
      applyUpdate { priority := some (priorityAfter c x.2.instant x.1) } x.2.now r else r) := by
  refine get_act_of_some ?_ ?_
  · rw [(adjust_spec c all s.db hsound).2, hr]
    rfl
  · split_ifs <;> exact hres

theorem get_adjustPass_of_forall (hsound : ∀ x ∈ steps, x.2.writeFault = none) (hr : s.db.get i = some r)
    (hres : isReserved r.ns = false) (h : ∀ x ∈ steps, ¬(i = x.1.id ∧ Changes c x)) :
    (adjustPass c entryText all false steps s).db.get i = some r := by
  unfold adjustPass
  induction steps generalizing s with
  | nil => exact hr
  | cons x steps ih =>
    refine ih (fun y hy => hsound y (List.mem_cons_of_mem x hy)) ?_ fun y hy => h y (List.mem_cons_of_mem x hy)
    rw [get_adjust (hsound x List.mem_cons_self) hr hres, if_neg (h x List.mem_cons_self)]

theorem get_adjustPass_of_mem (hnodup : (steps.map fun x => x.1.id).Nodup) (hsound : ∀ x ∈ steps, x.2.writeFault = none)
    (hx : x ∈ steps) (hr : s.db.get x.1.id = some r) (hres : isReserved r.ns = false) (hchanges : Changes c x) :
    (adjustPass c entryText all false steps s).db.get x.1.id =
      some (applyUpdate { priority := some (priorityAfter c x.2.instant x.1) } x.2.now r) := by
  induction steps generalizing s with
  | nil => cases hx
  | cons y steps ih =>
    rw [List.map_cons, List.nodup_cons] at hnodup
    obtain ⟨hy, hsteps⟩ := List.forall_mem_cons.mp hsound
    have hstep : (act c entryText all false s (.adjust y.1, y.2)).db.get x.1.id = _ := get_adjust hy hr hres
    rcases List.mem_cons.mp hx with rfl | hx
    · rw [if_pos ⟨rfl, hchanges⟩] at hstep
      have hrest : (adjustPass c entryText all false steps (act c entryText all false s (.adjust x.1, x.2))).db.get x.1.id =
          some (applyUpdate { priority := some (priorityAfter c x.2.instant x.1) } x.2.now r) :=
        get_adjustPass_of_forall hsteps hstep hres fun y hy h => hnodup.1 (h.1 ▸ List.mem_map_of_mem hy)
      exact hrest
    · have hne : ¬(x.1.id = y.1.id ∧ Changes c y) := fun h => hnodup.1 (h.1 ▸ List.mem_map_of_mem hx)
      rw [if_neg hne] at hstep
      exact ih hnodup.2 hsteps hx hstep

end Feedback

/-! ## What happened to the rows -/

theorem countP_rows {db : Db} {p : MemoryRow → Bool} {ids : List String} (hnodup : ids.Nodup)
    (h : ∀ i, i ∈ ids ↔ ∃ r, db.get i = some r ∧ p r) : db.memories.rows.countP p = ids.length := by
  rw [List.countP_eq_length_filter, ← List.length_map fun r : MemoryRow => r.id]
  refine (List.perm_of_nodup_nodup_toFinset_eq ((List.filter_sublist.map _).nodup db.memories.nodup) hnodup ?_).length_eq
  ext i
  rw [List.mem_toFinset, List.mem_toFinset, h, List.mem_map]
  constructor
  · rintro ⟨r, hr, rfl⟩
    obtain ⟨hr, hp⟩ := List.mem_filter.mp hr
    exact ⟨r, Db.get_of_mem hr, hp⟩
  · rintro ⟨r, hr, hp⟩
    obtain ⟨hmem, rfl⟩ := Db.get_eq_some.mp hr
    exact ⟨r, List.mem_filter.mpr ⟨hmem, hp⟩, rfl⟩

def gone (db db' : Db) : ℕ := db.memories.rows.countP fun r => db'.get r.id = none

/-- The number of rows with another priority, outside the reserved namespaces. -/
def reprioritised (db db' : Db) : ℕ :=
  db.memories.rows.countP fun r => !isReserved r.ns && (db'.get r.id).any fun r' => r'.priority ≠ r.priority

section Runs

variable (c : Chrono) (entryText : RollbackEntry → String) (all : List Memory) (u : Unicode) (order : List String)
  (draws : Draws) (db : Db)

def mergeSteps : List (List Memory × Draw) := drawn (findConsolidationClusters u order all) draws.merge

def forgotten : Passes := forgetPass c entryText all false (drawn all draws.forget) (merged c entryText all u order draws db)

/-- The ids that a run draws are none of the candidates'. -/
def FreshDraws : Prop :=
  ∀ m ∈ all, ∀ k, NewTo m.id (draws.merge k) ∧ (draws.forget k).entryId ≠ m.id ∧ (draws.adjust k).entryId ≠ m.id

/-- No statement of an action fails. -/
structure StatementsOk : Prop where
  merge : ∀ k, (draws.merge k).writeFault = none
  forget : ∀ k, (draws.forget k).writeFault = none
  adjust : ∀ k, (draws.adjust k).writeFault = none
  inserts : Meets (fun s x => act c entryText all false s (.consolidate x.1, x.2)) (fun s x => Inserts s.db x)
    { db, report := { clustersFormed := (findConsolidationClusters u order all).length } } (mergeSteps all u order draws)

/-- The report of a run says what happened to the rows: so many merged away by the first pass, removed by the second and
re-prioritised by the third; a pass acts on no memory that an earlier one took away; and a dry run writes nothing and reports the
same numbers. -/
structure Exact : Prop where
  consolidated : (runAutonomyPasses c entryText all false u order draws db).report.memoriesConsolidated =
    gone db (merged c entryText all u order draws db).db
  forgotten : (runAutonomyPasses c entryText all false u order draws db).report.memoriesForgotten =
    gone (merged c entryText all u order draws db).db (forgotten c entryText all u order draws db).db
  adjusted : (runAutonomyPasses c entryText all false u order draws db).report.priorityAdjustments =
    reprioritised (Curator.forgotten c entryText all u order draws db).db
      (runAutonomyPasses c entryText all false u order draws db).db
  forgets : ∀ m ∈ all, isSuperseded m all → (merged c entryText all u order draws db).db.get m.id ≠ none
  adjusts : ∀ x ∈ drawn all draws.adjust, Changes c x → (Curator.forgotten c entryText all u order draws db).db.get x.1.id ≠ none
  dry : (runAutonomyPasses c entryText all true u order draws db).db = db
  predicted : (runAutonomyPasses c entryText all true u order draws db).report.counts =
    (runAutonomyPasses c entryText all false u order draws db).report.counts

/-- The passes are about different candidates, and the metadata of what is merged is accepted. -/
structure Apart : Prop where
  accepted : ∀ x ∈ mergeSteps all u order draws, x.2.summary.isOk → Accepts (Validate.validateMetadata (mergedMetadata x.1))
  superseded : ∀ m ∈ all, isSuperseded m all → ∀ x ∈ mergeSteps all u order draws, x.2.summary.isOk → m ∉ x.1
  changed : ∀ y ∈ drawn all draws.adjust, Changes c y → ¬isSuperseded y.1 all ∧
    ∀ x ∈ mergeSteps all u order draws, x.2.summary.isOk → y.1 ∉ x.1

end Runs

section Exactness

variable {c : Chrono} {entryText : RollbackEntry → String} {all : List Memory} {u : Unicode} {order : List String}
  {draws : Draws} {db : Db} {m : Memory}

theorem map_fst_drawn {α : Type} (xs : List α) (draws : ℕ → Draw) : (drawn xs draws).map Prod.fst = xs := by
  unfold drawn
  rw [List.map_map]
  exact List.zipIdx_map_fst 0 xs

theorem mem_of_mem_drawn {α : Type} {xs : List α} {draws : ℕ → Draw} {x : α × Draw} (h : x ∈ drawn xs draws) :
    x.1 ∈ xs ∧ ∃ k, x.2 = draws k := by
  refine ⟨map_fst_drawn xs draws ▸ List.mem_map_of_mem h, ?_⟩
  obtain ⟨z, -, rfl⟩ := List.mem_map.mp h
  exact ⟨z.2, rfl⟩

theorem Candidates.inj (h : Candidates db all) {m m' : Memory} (hm : m ∈ all) (hm' : m' ∈ all) (hid : m.id = m'.id) : m = m' :=
  List.inj_on_of_nodup_map h.nodup hm hm' hid

theorem Candidates.unreserved_get (h : Candidates db all) (hm : m ∈ all) : ∀ r ∈ db.get m.id, isReserved r.ns = false :=
  unreserved_of_live (h.live m hm) (h.unreserved m hm)

theorem nodup_mergeSteps (h : Candidates db all) (horder : order.Nodup) :
    ((mergeSteps all u order draws).flatMap fun x => x.1.map fun m => m.id).Nodup := by
  have hflat : ((mergeSteps all u order draws).flatMap fun x => x.1.map fun m => m.id) =
      (findConsolidationClusters u order all).flatten.map fun m => m.id := by
    rw [List.map_flatten, ← map_fst_drawn (findConsolidationClusters u order all) draws.merge, List.map_map, List.flatMap_def]
    rfl
  rw [hflat]
  refine (nodup_findConsolidationClusters horder (List.Nodup.of_map _ h.nodup)).map_on fun m hm m' hm' => ?_
  have hall : ∀ m ∈ (findConsolidationClusters u order all).flatten, m ∈ all := fun m hm => by
    obtain ⟨cluster, hcluster, hm⟩ := List.mem_flatten.mp hm
    exact ((mem_findConsolidationClusters hcluster).2 m hm).1
  exact h.inj (hall m hm) (hall m' hm')

theorem ready_mergeSteps (h : Candidates db all) (hok : StatementsOk c entryText all u order draws db) :
    ∀ x ∈ mergeSteps all u order draws, Ready db x := fun x hx => by
  obtain ⟨hcluster, k, hk⟩ := mem_of_mem_drawn hx
  obtain ⟨hlen, hmem⟩ := mem_findConsolidationClusters hcluster
  exact ⟨hlen, fun m hm => (hmem m hm).2, fun m hm => h.live m (hmem m hm).1, hk ▸ hok.merge k⟩

variable {x : List Memory × Draw}

theorem mem_all_of_mem_mergeSteps (hx : x ∈ mergeSteps all u order draws) (hm : m ∈ x.1) : m ∈ all :=
  ((mem_findConsolidationClusters (mem_of_mem_drawn hx).1).2 m hm).1

theorem merged_spec (h : Candidates db all) (horder : order.Nodup) (hfresh : FreshDraws all draws)
    (hok : StatementsOk c entryText all u order draws db) :
    (merged c entryText all u order draws db).report.counts =
        ((mergeSteps all u order draws).map fun x => weight (mergeEntry x)).sum ∧
      ∀ m ∈ all, (merged c entryText all u order draws db).db.get m.id =
        if ∃ x ∈ mergeSteps all u order draws, Merges x ∧ m ∈ x.1 then none else db.get m.id := by
  have hnew : ∀ m ∈ all, ∀ y ∈ mergeSteps all u order draws, NewTo m.id y.2 := fun m hm y hy => by
    obtain ⟨-, k, hk⟩ := mem_of_mem_drawn hy
    exact hk ▸ (hfresh m hm k).1
  obtain ⟨hcounts, hrows⟩ := mergePass_spec (nodup_mergeSteps h horder) (ready_mergeSteps h hok)
    (fun x hx m hm y hy => hnew m (mem_all_of_mem_mergeSteps hx hm) y hy) hok.inserts
  refine ⟨hcounts.trans (zero_add _), fun m hm => (hrows m.id (h.unreserved_get hm) (hnew m hm)).trans ?_⟩
  refine if_congr (exists_congr fun x => and_congr_right fun hx => and_congr_right fun _ => ?_) rfl rfl
  constructor
  · intro hid
    obtain ⟨m', hm', hid⟩ := List.mem_map.mp hid
    rwa [← h.inj (mem_all_of_mem_mergeSteps hx hm') hm hid]
  · exact fun hmem => List.mem_map_of_mem hmem

theorem sum_forgetEntries (all : List Memory) (draws : Draws) :
    ((drawn all draws.forget).map fun x => weight (forgetEntry all x)).sum = (0, all.countP fun m => isSuperseded m all, 0) := by
  have hmap : ((drawn all draws.forget).map fun x => weight (forgetEntry all x)) =
      all.map fun m => if isSuperseded m all then (0, 1, 0) else 0 := by
    conv_rhs => rw [← map_fst_drawn all draws.forget, List.map_map]
    refine List.map_congr_left fun x _ => ?_
    unfold forgetEntry
    rw [map_fst_drawn]
    simp only [Function.comp_apply]
    split_ifs <;> rfl
  rw [hmap, sum_ite]
  simp

theorem sum_adjustEntries (c : Chrono) (all : List Memory) (draws : Draws) :
    ((drawn all draws.adjust).map fun x => weight (adjustEntry c x)).sum =
      (0, 0, (drawn all draws.adjust).countP fun x => Changes c x) := by
  have hmap : ((drawn all draws.adjust).map fun x => weight (adjustEntry c x)) =
      (drawn all draws.adjust).map fun x => if decide (Changes c x) then (0, 0, 1) else 0 := by
    refine List.map_congr_left fun x _ => ?_
    unfold adjustEntry
    simp only [decide_eq_true_eq]
    split_ifs <;> rfl
  rw [hmap, sum_ite]
  simp

theorem forgets_iff (h : Candidates db all) (hok : StatementsOk c entryText all u order draws db) (hm : m ∈ all) :
    Forgets (drawn all draws.forget) all m.id ↔ isSuperseded m all := by
  constructor
  · rintro ⟨x, hx, hid, hsup, -⟩
    rwa [← h.inj (mem_of_mem_drawn hx).1 hm hid]
  · intro hsup
    rw [← map_fst_drawn all draws.forget] at hm
    obtain ⟨x, hx, rfl⟩ := List.mem_map.mp hm
    obtain ⟨-, k, hk⟩ := mem_of_mem_drawn hx
    exact ⟨x, hx, rfl, hsup, hk ▸ hok.forget k⟩

theorem forgotten_spec (h : Candidates db all) (hfresh : FreshDraws all draws)
    (hok : StatementsOk c entryText all u order draws db) :
    (forgotten c entryText all u order draws db).report.counts =
        (merged c entryText all u order draws db).report.counts + (0, all.countP fun m => isSuperseded m all, 0) ∧
      ∀ m ∈ all, (forgotten c entryText all u order draws db).db.get m.id = none ↔
        (merged c entryText all u order draws db).db.get m.id = none ∨ isSuperseded m all := by
  have hsound : ∀ x ∈ drawn all draws.forget, x.2.writeFault = none := fun x hx => by
    obtain ⟨-, k, hk⟩ := mem_of_mem_drawn hx
    exact hk ▸ hok.forget k
  refine ⟨(counts_forgetPass hsound).trans (congrArg _ (sum_forgetEntries all draws)), fun m hm => ?_⟩
  have hentry : ∀ x ∈ drawn all draws.forget, x.2.entryId ≠ m.id := fun x hx => by
    obtain ⟨-, k, hk⟩ := mem_of_mem_drawn hx
    exact hk ▸ (hfresh m hm k).2.1
  unfold forgotten
  rw [get_forgetPass_eq_none_iff hentry, forgets_iff h hok hm]

theorem counts_adjusted (hok : StatementsOk c entryText all u order draws db) :
    (runAutonomyPasses c entryText all false u order draws db).report.counts =
      (forgotten c entryText all u order draws db).report.counts + (0, 0, (drawn all draws.adjust).countP fun x => Changes c x) := by
  have hsound : ∀ x ∈ drawn all draws.adjust, x.2.writeFault = none := fun x hx => by
    obtain ⟨-, k, hk⟩ := mem_of_mem_drawn hx
    exact hk ▸ hok.adjust k
  exact (counts_adjustPass hsound).trans (congrArg _ (sum_adjustEntries c all draws))

theorem sum_mergeWeights (p : List Memory × Draw → Bool) {e : List Memory × Draw → Option RollbackEntry}
    (h : ∀ x, weight (e x) = if p x then (x.1.length, 0, 0) else 0) (steps : List (List Memory × Draw)) :
    (steps.map fun x => weight (e x)).sum = (((steps.filter p).flatMap fun x => x.1.map fun m => m.id).length, 0, 0) := by
  induction steps with
  | nil => rfl
  | cons x steps ih =>
    rw [List.map_cons, List.sum_cons, ih, h, List.filter_cons]
    split_ifs
    · rw [List.flatMap_cons, List.length_append, List.length_map]
      rfl
    · rw [zero_add]

def mergedIds (steps : List (List Memory × Draw)) : List String :=
  (steps.filter fun x => Merges x).flatMap fun x => x.1.map fun m => m.id

theorem counts_merged (h : Candidates db all) (horder : order.Nodup) (hfresh : FreshDraws all draws)
    (hok : StatementsOk c entryText all u order draws db) :
    (merged c entryText all u order draws db).report.counts = ((mergedIds (mergeSteps all u order draws)).length, 0, 0) := by
  refine (merged_spec h horder hfresh hok).1.trans (sum_mergeWeights (fun x => Merges x) (fun x => ?_) _)
  unfold mergeEntry
  simp only [decide_eq_true_eq]
  split_ifs <;> rfl

theorem gone_merged (h : Candidates db all) (horder : order.Nodup) (hfresh : FreshDraws all draws)
    (hok : StatementsOk c entryText all u order draws db) :
    gone db (merged c entryText all u order draws db).db = (mergedIds (mergeSteps all u order draws)).length := by
  obtain ⟨-, hrows⟩ := merged_spec h horder hfresh hok
  refine countP_rows ((nodup_mergeSteps h horder).sublist (List.filter_sublist.flatMap _)) fun i => ?_
  simp only [mergedIds, List.mem_flatMap, List.mem_filter, decide_eq_true_eq, List.mem_map]
  constructor
  · rintro ⟨x, ⟨hx, hmerges⟩, m, hm, rfl⟩
    have hall := mem_all_of_mem_mergeSteps hx hm
    obtain ⟨r, hr, -⟩ := h.live m hall
    refine ⟨r, hr, ?_⟩
    rw [(Db.get_eq_some.mp hr).2, hrows m hall, if_pos ⟨x, hx, hmerges, hm⟩]
  · rintro ⟨r, hr, hnone⟩
    rw [(Db.get_eq_some.mp hr).2] at hnone
    by_contra hno
    have hlive : db.get i ≠ none := hr ▸ Option.some_ne_none r
    by_cases hi : ∃ x ∈ mergeSteps all u order draws, i ∈ x.1.map fun m => m.id
    · obtain ⟨x, hx, hi⟩ := hi
      obtain ⟨m, hm, rfl⟩ := List.mem_map.mp hi
      rw [hrows m (mem_all_of_mem_mergeSteps hx hm), if_neg] at hnone
      · exact hlive hnone
      · rintro ⟨y, hy, hmerges, hmy⟩
        exact hno ⟨y, ⟨hy, hmerges⟩, m, hmy, rfl⟩
    · refine live_foldl (c := c) (s := ⟨db, _⟩) hlive (fun step hstep hmem => ?_) hnone
      obtain ⟨x, hx, rfl⟩ := List.mem_map.mp hstep
      exact hi ⟨x, hx, hmem⟩

theorem gone_forgotten (h : Candidates db all) (hfresh : FreshDraws all draws)
    (hok : StatementsOk c entryText all u order draws db) :
    gone (merged c entryText all u order draws db).db (forgotten c entryText all u order draws db).db =
      all.countP fun m => isSuperseded m all && (merged c entryText all u order draws db).db.get m.id ≠ none := by
  obtain ⟨-, hrows⟩ := forgotten_spec h hfresh hok
  rw [List.countP_eq_length_filter, ← List.length_map fun m : Memory => m.id]
  refine countP_rows (h.nodup.sublist (List.filter_sublist.map _)) fun i => ?_
  simp only [List.mem_map, List.mem_filter, Bool.and_eq_true, decide_eq_true_eq]
  constructor
  · rintro ⟨m, ⟨hm, hsup, hlive⟩, rfl⟩
    obtain ⟨r, hr⟩ := Option.ne_none_iff_exists'.mp hlive
    refine ⟨r, hr, ?_⟩
    rw [(Db.get_eq_some.mp hr).2, hrows m hm]
    exact Or.inr hsup
  · rintro ⟨r, hr, hnone⟩
    rw [(Db.get_eq_some.mp hr).2] at hnone
    have hlive : (merged c entryText all u order draws db).db.get i ≠ none := hr ▸ Option.some_ne_none r
    by_cases hi : i ∈ all.map fun m => m.id
    · obtain ⟨m, hm, rfl⟩ := List.mem_map.mp hi
      exact ⟨m, ⟨hm, ((hrows m hm).mp hnone).resolve_left hlive, hlive⟩, rfl⟩
    · refine absurd hnone (live_foldl hlive fun step hstep hmem => hi ?_)
      obtain ⟨x, hx, rfl⟩ := List.mem_map.mp hstep
      rw [List.mem_singleton.mp hmem]
      exact List.mem_map_of_mem (mem_of_mem_drawn hx).1

theorem get_forgotten (h : Candidates db all) (horder : order.Nodup) (hfresh : FreshDraws all draws)
    (hok : StatementsOk c entryText all u order draws db) (hm : m ∈ all)
    (hlive : (forgotten c entryText all u order draws db).db.get m.id ≠ none) :
    (forgotten c entryText all u order draws db).db.get m.id = db.get m.id := by
  obtain ⟨hnone, hsup⟩ := not_or.mp (mt ((forgotten_spec h hfresh hok).2 m hm).mpr hlive)
  have hmerged := (merged_spec h horder hfresh hok).2 m hm
  split_ifs at hmerged
  · exact absurd hmerged hnone
  · obtain ⟨r, hr, -⟩ := h.live m hm
    have hres := h.unreserved_get hm r hr
    rw [hr] at hmerged ⊢
    obtain ⟨hmem, hid⟩ := Db.get_eq_some.mp hmerged
    refine Db.get_eq_some.mpr ⟨(mem_forgetPass_iff hres).mpr ⟨hmem, ?_⟩, hid⟩
    rwa [hid, forgets_iff h hok hm]

/-- What the feedback re-prioritises: the candidates that it wants to, and that are there. -/
theorem reprioritised_adjusted (h : Candidates db all) (horder : order.Nodup) (hfresh : FreshDraws all draws)
    (hok : StatementsOk c entryText all u order draws db) :
    reprioritised (forgotten c entryText all u order draws db).db (runAutonomyPasses c entryText all false u order draws db).db =
      (drawn all draws.adjust).countP fun x => Changes c x && (forgotten c entryText all u order draws db).db.get x.1.id ≠ none := by
  have hsound : ∀ x ∈ drawn all draws.adjust, x.2.writeFault = none := fun x hx => by
    obtain ⟨-, k, hk⟩ := mem_of_mem_drawn hx
    exact hk ▸ hok.adjust k
  have hnodup : ((drawn all draws.adjust).map fun x => x.1.id).Nodup := by
    have hn := h.nodup
    rw [← map_fst_drawn all draws.adjust, List.map_map] at hn
    exact hn
  rw [List.countP_eq_length_filter, ← List.length_map fun x : Memory × Draw => x.1.id]
  refine countP_rows (hnodup.sublist (List.filter_sublist.map _)) fun i => ?_
  simp only [List.mem_map, List.mem_filter, Bool.and_eq_true, decide_eq_true_eq, Bool.not_eq_true', Option.any_eq_true]
  constructor
  · rintro ⟨x, ⟨hx, hchanges, hlive⟩, rfl⟩
    have hm := (mem_of_mem_drawn hx).1
    obtain ⟨r, hr, hsame⟩ := h.live x.1 hm
    have hres := h.unreserved_get hm r hr
    have hget := (get_forgotten h horder hfresh hok hm hlive).trans hr
    refine ⟨r, hget, hres, applyUpdate { priority := some (priorityAfter c x.2.instant x.1) } x.2.now r, ?_, ?_⟩
    · rw [(Db.get_eq_some.mp hget).2]
      exact get_adjustPass_of_mem hnodup hsound hx hget hres hchanges
    · show priorityAfter c x.2.instant x.1 ≠ r.priority
      rw [show r.priority = x.1.priority from congrArg (fun m : Memory => m.priority) hsame]
      exact hchanges
  · rintro ⟨r, hr, hres, r', hr', hne⟩
    rw [(Db.get_eq_some.mp hr).2] at hr'
    by_contra hno
    refine hne ?_
    have hget : (runAutonomyPasses c entryText all false u order draws db).db.get i = some r :=
      get_adjustPass_of_forall hsound hr hres fun x hx hxi => hno ⟨x, ⟨hx, hxi.2, hxi.1 ▸ hr ▸ Option.some_ne_none r⟩, hxi.1.symm⟩
    rw [hget] at hr'
    cases hr'
    rfl

theorem weight_consolidate_dry (hx : x ∈ mergeSteps all u order draws) :
    weight (entryOf c all true db (.consolidate x.1, x.2)) = if x.2.summary.isOk then (x.1.length, 0, 0) else 0 := by
  obtain ⟨hlen, hmem⟩ := mem_findConsolidationClusters (mem_of_mem_drawn hx).1
  have hany : ¬x.1.any fun m => isReserved m.ns := by
    simpa only [List.any_eq_true, not_exists, not_and, Bool.not_eq_true] using fun m hm => (hmem m hm).2
  unfold entryOf attempt tryConsolidate
  simp only [if_neg (not_or.mpr ⟨not_lt.mpr hlen, hany⟩)]
  cases x.2.summary <;> rfl

theorem entryOf_forget_dry (x : Memory × Draw) : entryOf c all true db (.forget x.1, x.2) = forgetEntry all x := by
  unfold entryOf attempt tryForget forgetEntry
  simp only [if_true]
  split_ifs <;> rfl

theorem entryOf_adjust_dry (x : Memory × Draw) : entryOf c all true db (.adjust x.1, x.2) = adjustEntry c x := by
  unfold entryOf attempt tryAdjust adjustEntry Changes
  by_cases hsame : priorityAfter c x.2.instant x.1 = x.1.priority <;> simp [hsame]

theorem counts_dryRun (c : Chrono) (entryText : RollbackEntry → String) (all : List Memory) (u : Unicode) (order : List String)
    (draws : Draws) (db : Db) : (runAutonomyPasses c entryText all true u order draws db).report.counts =
      ((((mergeSteps all u order draws).filter fun x => x.2.summary.isOk).flatMap fun x => x.1.map fun m => m.id).length,
        all.countP fun m => isSuperseded m all, (drawn all draws.adjust).countP fun x => Changes c x) := by
  have hmerge := sum_mergeWeights (fun x => x.2.summary.isOk)
    (e := fun x => if x.2.summary.isOk then some (.consolidate x.1 "dry-run") else none) (fun x => by split_ifs <;> rfl)
    (mergeSteps all u order draws)
  have hentries : ((mergeSteps all u order draws).map fun x => weight (entryOf c all true db (.consolidate x.1, x.2))) =
      (mergeSteps all u order draws).map fun x =>
        weight (if x.2.summary.isOk then some (.consolidate x.1 "dry-run") else none) :=
    List.map_congr_left fun x hx => by
      rw [weight_consolidate_dry hx]
      split_ifs <;> rfl
  rw [← hentries] at hmerge
  unfold runAutonomyPasses adjustPass forgetPass consolidatePass
  simp only [counts_dry, foldl_dry, List.map_map, Function.comp_def, entryOf_forget_dry, entryOf_adjust_dry, sum_forgetEntries,
    sum_adjustEntries]
  unfold mergeSteps at hmerge ⊢
  rw [hmerge]
  simp [AutonomyPassReport.counts]

/-- Clusters that are not empty: if those with a property and those with a weaker one have as many members, they are the same. -/
theorem forall_of_length_filter {p q : List Memory × Draw → Bool} {steps : List (List Memory × Draw)}
    (hne : ∀ x ∈ steps, x.1 ≠ []) (himp : ∀ x, q x → p x)
    (h : ((steps.filter p).flatMap fun x => x.1.map fun m => m.id).length =
      ((steps.filter q).flatMap fun x => x.1.map fun m => m.id).length) : ∀ x ∈ steps, p x → q x := by
  induction steps with
  | nil => exact fun x hx => absurd hx List.not_mem_nil
  | cons x steps ih =>
    obtain ⟨hx, hsteps⟩ := List.forall_mem_cons.mp hne
    have hle := ((List.monotone_filter_right steps himp).flatMap fun x => x.1.map fun m => m.id).length_le
    have hpos := List.length_pos_of_ne_nil hx
    rw [List.filter_cons, List.filter_cons] at h
    by_cases hq : q x
    · rw [if_pos hq, if_pos (himp x hq), List.flatMap_cons, List.flatMap_cons, List.length_append, List.length_append,
        Nat.add_left_cancel_iff] at h
      exact List.forall_mem_cons.mpr ⟨fun _ => hq, ih hsteps h⟩
    · rw [if_neg hq] at h
      by_cases hp : p x
      · rw [if_pos hp, List.flatMap_cons, List.length_append, List.length_map] at h
        omega
      · rw [if_neg hp] at h
        exact List.forall_mem_cons.mpr ⟨fun hp' => absurd hp' hp, ih hsteps h⟩

theorem counts_run (h : Candidates db all) (horder : order.Nodup) (hfresh : FreshDraws all draws)
    (hok : StatementsOk c entryText all u order draws db) :
    (runAutonomyPasses c entryText all false u order draws db).report.counts =
      ((mergedIds (mergeSteps all u order draws)).length, all.countP fun m => isSuperseded m all,
        (drawn all draws.adjust).countP fun x => Changes c x) := by
  rw [counts_adjusted hok, (forgotten_spec h hfresh hok).1, counts_merged h horder hfresh hok]
  simp

theorem isOk_of_merges (h : Merges x) : x.2.summary.isOk := h.1

/-- The report of a run is exact, and a dry run predicts it, exactly if the passes are about different candidates and the metadata
of what is merged is accepted. -/
theorem report_exact_iff (c : Chrono) (entryText : RollbackEntry → String) {all : List Memory} (u : Unicode) {order : List String}
    {draws : Draws} {db : Db} (h : Candidates db all) (horder : order.Nodup) (hfresh : FreshDraws all draws)
    (hok : StatementsOk c entryText all u order draws db) :
    Exact c entryText all u order draws db ↔ Apart c all u order draws := by
  have hrun := counts_run h horder hfresh hok
  obtain ⟨-, hmerged⟩ := merged_spec h horder hfresh hok
  obtain ⟨-, hforgotten⟩ := forgotten_spec h hfresh hok
  constructor
  · intro hexact
    have haccepted : ∀ x ∈ mergeSteps all u order draws, x.2.summary.isOk → Merges x := by
      have hpredicted := hexact.predicted
      rw [counts_dryRun, hrun, Prod.mk.injEq] at hpredicted
      have hall := forall_of_length_filter (p := fun x => x.2.summary.isOk) (q := fun x => decide (Merges x))
        (fun x hx hnil => ?_) (fun x hx => isOk_of_merges (of_decide_eq_true hx)) hpredicted.1
      · exact fun x hx hsum => of_decide_eq_true (hall x hx hsum)
      · have hlen := (mem_findConsolidationClusters (mem_of_mem_drawn hx).1).1
        rw [hnil] at hlen
        exact absurd hlen (by decide)
    have hunmerged : ∀ m ∈ all, (merged c entryText all u order draws db).db.get m.id ≠ none →
        ∀ x ∈ mergeSteps all u order draws, x.2.summary.isOk → m ∉ x.1 := fun m hm hlive x hx hsum hmem => by
      rw [hmerged m hm, if_pos ⟨x, hx, haccepted x hx hsum, hmem⟩] at hlive
      exact hlive rfl
    refine ⟨fun x hx hsum => (haccepted x hx hsum).2, fun m hm hsup => hunmerged m hm (hexact.forgets m hm hsup), ?_⟩
    intro y hy hchanges
    have hm := (mem_of_mem_drawn hy).1
    obtain ⟨hlive, hsup⟩ := not_or.mp (mt (hforgotten y.1 hm).mpr (hexact.adjusts y hy hchanges))
    exact ⟨hsup, hunmerged y.1 hm hlive⟩
  · intro hapart
    have hlive : ∀ m ∈ all, (∀ x ∈ mergeSteps all u order draws, x.2.summary.isOk → m ∉ x.1) →
        (merged c entryText all u order draws db).db.get m.id ≠ none := fun m hm hno => by
      obtain ⟨r, hr, -⟩ := h.live m hm
      rw [hmerged m hm, if_neg fun ⟨x, hx, hmerges, hmem⟩ => hno x hx (isOk_of_merges hmerges) hmem, hr]
      exact Option.some_ne_none r
    have hforgets : ∀ m ∈ all, isSuperseded m all → (merged c entryText all u order draws db).db.get m.id ≠ none :=
      fun m hm hsup => hlive m hm (hapart.superseded m hm hsup)
    have hadjusts : ∀ x ∈ drawn all draws.adjust, Changes c x →
        (forgotten c entryText all u order draws db).db.get x.1.id ≠ none := fun x hx hchanges hnone => by
      obtain ⟨hsup, hno⟩ := hapart.changed x hx hchanges
      have hm := (mem_of_mem_drawn hx).1
      exact ((hforgotten x.1 hm).mp hnone).elim (hlive x.1 hm hno) hsup
    refine ⟨?_, ?_, ?_, hforgets, hadjusts, ?_, ?_⟩
    · rw [gone_merged h horder hfresh hok]
      exact congrArg Prod.fst hrun
    · rw [gone_forgotten h hfresh hok]
      refine (congrArg (fun n => n.2.1) hrun).trans (List.countP_congr fun m hm => ?_)
      simp only [Bool.and_eq_true, decide_eq_true_eq]
      exact (and_iff_left_of_imp (hforgets m hm)).symm
    · rw [reprioritised_adjusted h horder hfresh hok]
      refine (congrArg (fun n => n.2.2) hrun).trans (List.countP_congr fun x hx => ?_)
      simp only [Bool.and_eq_true, decide_eq_true_eq]
      exact (and_iff_left_of_imp (hadjusts x hx)).symm
    · unfold runAutonomyPasses adjustPass forgetPass consolidatePass
      rw [foldl_dry, foldl_dry, foldl_dry]
    · rw [counts_dryRun, hrun]
      have hsame : ((mergeSteps all u order draws).filter fun x => x.2.summary.isOk) =
          (mergeSteps all u order draws).filter fun x => Merges x := List.filter_congr fun x hx => by
        rw [Bool.eq_iff_iff, decide_eq_true_eq]
        exact ⟨fun hsum => ⟨hsum, hapart.accepted x hx hsum⟩, isOk_of_merges⟩
      rw [hsame]
      rfl

end Exactness

/-! ## Two notes -/

def answeredDraws : Draws := { letteredDraws with merge := fun k => { lettered 'x' k with summary := .ok "the gates" } }

theorem lettered_newId_ne {letter : Char} {i : String} (h : letter ∉ i.toList) (k : ℕ) : (lettered letter k).newId ≠ i := by
  intro heq
  have hlist : (String.ofList (List.replicate (k + 1) letter) ++ "-new").toList = i.toList := congrArg String.toList heq
  rw [String.toList_append, String.toList_ofList] at hlist
  rw [← hlist] at h
  exact h (List.mem_append_left _ (List.mem_replicate.mpr ⟨Nat.succ_ne_zero k, rfl⟩))

theorem freshDraws_answered {all : List Memory} (h : ∀ m ∈ all, ∀ letter ∈ ['x', 'y', 'z'], letter ∉ m.id.toList) :
    FreshDraws all answeredDraws := fun m hm k =>
  ⟨⟨lettered_newId_ne (h m hm 'x' (by decide)) k, lettered_entryId_ne (h m hm 'x' (by decide)) k⟩,
    lettered_entryId_ne (h m hm 'y' (by decide)) k, lettered_entryId_ne (h m hm 'z' (by decide)) k⟩

/-- A note that the southern road contradicts, on the same road. -/
def bend : Memory := noteAt "a" "a bend of a southern road" "1" ["b"]

def road : Memory := noteAt "b" "a southern road" "2" []

def gate : Memory := noteAt "a" "the north gate" "1" ["b"]

theorem candidates_bend : Candidates (Db.empty.insertAll [bend, road]) [bend, road] :=
  ⟨by decide, by decide, by decide⟩

theorem candidates_gate : Candidates (Db.empty.insertAll [gate, road]) [gate, road] :=
  ⟨by decide, by decide, by decide⟩

/-- A note is forgotten for one that is about something else. -/
theorem gate_exact : Exact stopped entryNamed [gate, road] ascii ["notes"] answeredDraws (Db.empty.insertAll [gate, road]) := by
  refine (report_exact_iff stopped entryNamed ascii candidates_gate (by decide) (freshDraws_answered (by simp [gate, road, noteAt]))
    ⟨fun _ => rfl, fun _ => rfl, fun _ => rfl, by decide +kernel⟩).mpr ⟨by decide +kernel, by decide +kernel, by decide +kernel⟩

/-- A note that was merged with the one that supersedes it is counted as forgotten. -/
theorem bend_counted_twice : FreshDraws [bend, road] answeredDraws ∧
    Candidates (Db.empty.insertAll [bend, road]) [bend, road] ∧
    StatementsOk stopped entryNamed [bend, road] ascii ["notes"] answeredDraws (Db.empty.insertAll [bend, road]) ∧
    ¬Exact stopped entryNamed [bend, road] ascii ["notes"] answeredDraws (Db.empty.insertAll [bend, road]) := by
  refine ⟨freshDraws_answered (by simp [bend, road, noteAt]), candidates_bend, ⟨fun _ => rfl, fun _ => rfl, fun _ => rfl, by decide +kernel⟩, ?_⟩
  intro h
  exact absurd h.forgotten (by decide +kernel)

end Curator

end AiMemory
