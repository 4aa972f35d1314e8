import AiMemory.Curator.Report

/-!
# The rollback log of a run

Every action that goes through leaves an entry in `_curator/rollback`, written after the action, under a title made of the kind of
the action and a reading of the clock. `undoable_iff` says when the entries of a run are enough to undo it: when none fails to be
written, none has a stale snapshot, and none is overwritten by a later one of its kind that reads the same time.
-/

namespace AiMemory

open Relational Machine

namespace Curator

section Actions

variable (c : Chrono) (all : List Memory)

/-- The action goes through on the database: the sources of a merge are live, the merged metadata is accepted and its row has room; a
candidate is superseded, or its priority changes; and no write fails. -/
def Acts (db : Db) : Action → Draw → Prop
  | .consolidate cluster, d => 2 ≤ cluster.length ∧ (∀ m ∈ cluster, isReserved m.ns = false) ∧ d.summary.isOk ∧
      d.writeFault = none ∧ (∃ con, db.collect (cluster.map fun m => m.id) {} = .ok con ∧
        Accepts (Validate.validateMetadata (con.metadata (cluster.map fun m => m.id) "ai:curator"))) ∧
      db.get d.newId = none ∧ ∀ m ∈ cluster.head?, db.getKey (consolidatedTitle cluster, m.ns) = none
  | .forget mem, d => isSuperseded mem all ∧ d.writeFault = none
  | .adjust mem, d => Changes c (mem, d) ∧ d.writeFault = none

def Action.entry (c : Chrono) : Action → Draw → RollbackEntry
  | consolidate cluster, d => .consolidate cluster d.newId
  | forget mem, _ => .forget mem
  | adjust mem, d => .priorityAdjust mem.id mem.priority (priorityAfter c d.instant mem)

/-- What an action that goes through makes of the row under an id. -/
def Action.writes (c : Chrono) (a : Action) (d : Draw) (i : String) (r : MemoryRow) : Option MemoryRow :=
  match a with
  | consolidate cluster => if i ∈ cluster.map fun m => m.id then none else some r
  | forget mem => if i = mem.id then none else some r
  | adjust mem =>
    some (if i = mem.id then applyUpdate { priority := some (priorityAfter c d.instant mem) } d.now r else r)

end Actions

section Spec

variable {c : Chrono} {all : List Memory} {db : Db} {i : String} {r : MemoryRow}

/-- What an action does: an action that goes through has its entry and writes its rows, and may add a row outside the reserved
namespaces; one that does not leaves the rows. -/
structure Does (c : Chrono) (all : List Memory) (db : Db) (a : Action) (d : Draw) : Prop where
  acted : Acts c all db a d → entryOf c all false db (a, d) = some (a.entry c d) ∧
    ∀ i r, db.get i = some r → (after c all false db (a, d)).get i = a.writes c d i r
  idle : ¬Acts c all db a d → entryOf c all false db (a, d) = none ∧ ∀ i, (after c all false db (a, d)).get i = db.get i
  fresh : ∀ i, db.get i = none → ∀ r ∈ (after c all false db (a, d)).get i, isReserved r.ns = false ∧ i = d.newId

theorem Does.of_idle {a : Action} {d : Draw} (hno : ¬Acts c all db a d) (hentry : entryOf c all false db (a, d) = none)
    (hafter : ∀ i, (after c all false db (a, d)).get i = db.get i) : Does c all db a d where
  acted h := absurd h hno
  idle _ := ⟨hentry, hafter⟩
  fresh i hi r hr := by
    rw [hafter, hi] at hr
    cases hr

theorem does_consolidate (cluster : List Memory) (d : Draw) : Does c all db (.consolidate cluster) d := by
  by_cases hno : cluster.length < 2 ∨ cluster.any fun m => isReserved m.ns
  · refine Does.of_idle ?_ ?_ fun i => ?_
    · rintro ⟨hlen, hres, -⟩
      rcases hno with h | h
      · omega
      · obtain ⟨m, hm, hns⟩ := List.any_eq_true.mp h
        exact Bool.false_ne_true ((hres m hm).symm.trans hns)
    · unfold entryOf attempt tryConsolidate
      simp only [if_pos hno]
    · unfold after attempt tryConsolidate
      simp only [if_pos hno]
  · obtain ⟨hlen, hany⟩ := not_or.mp hno
    have hres : ∀ m ∈ cluster, isReserved m.ns = false := by
      simpa only [List.any_eq_true, not_exists, not_and, Bool.not_eq_true] using hany
    cases hsum : d.summary with
    | error e =>
      refine Does.of_idle (fun h => ?_) ?_ fun i => ?_
      · have hok := h.2.2.1
        rw [hsum] at hok
        cases hok
      · unfold entryOf attempt tryConsolidate
        simp only [if_neg hno, hsum]
      · unfold after attempt tryConsolidate
        simp only [if_neg hno, hsum]
    | ok text =>
      cases hfault : d.writeFault with
      | some e =>
        refine Does.of_idle (fun h => ?_) ?_ fun i => ?_
        · have hok := h.2.2.2.1
          rw [hfault] at hok
          cases hok
        · unfold entryOf attempt tryConsolidate
          simp only [if_neg hno, hsum, hfault, Bool.false_eq_true, if_false]
        · unfold after attempt tryConsolidate
          simp only [if_neg hno, hsum, hfault, Bool.false_eq_true, if_false]
      | none =>
        obtain ⟨m, tier, hm, hattempt⟩ := attempt_consolidate c all db (not_lt.mp hlen) hres hsum hfault
        have hok : (∃ res, db.consolidate (cluster.map fun m => m.id) (consolidatedTitle cluster) text m.ns tier source
            "ai:curator" d.newId d.now = .ok res) ↔ _ := Db.consolidate_isOk_iff
        cases hc : db.consolidate (cluster.map fun m => m.id) (consolidatedTitle cluster) text m.ns tier source "ai:curator"
          d.newId d.now with
        | error e =>
          rw [hc] at hok hattempt
          refine Does.of_idle (fun h => ?_) ?_ fun i => ?_
          · obtain ⟨-, -, -, -, ⟨con, hcon, hvalid⟩, hid, hkey⟩ := h
            obtain ⟨res, hres⟩ := hok.mpr ⟨con, hcon, hvalid, hid, hkey m hm⟩
            cases hres
          · unfold entryOf
            rw [hattempt]
          · unfold after
            rw [hattempt]
        | ok res =>
          rw [hc] at hattempt
          obtain ⟨con, hcon, hvalid, hid, hkey⟩ := hok.mp ⟨_, hc⟩
          have hacts : Acts c all db (.consolidate cluster) d :=
            ⟨not_lt.mp hlen, hres, by rw [hsum]; rfl, hfault, ⟨con, hcon, hvalid⟩, hid, fun m' hm' => by
              cases hm.symm.trans hm'
              exact hkey⟩
          obtain ⟨con', t, ht, hdb⟩ := Db.consolidate_cases hc
          have hget : ∀ i, (after c all false db (.consolidate cluster, d)).get i =
              if i ∈ cluster.map fun m => m.id then none else t.find i := fun i => by
            unfold after
            rw [hattempt, hdb, Db.get_foldl_remove Db.get_delete]
            rfl
          refine ⟨fun _ => ⟨?_, fun i r hr => ?_⟩, fun h => absurd hacts h, fun i hi r hr => ?_⟩
          · unfold entryOf
            rw [hattempt]
            simp only [Db.consolidate_id hc]
            rfl
          · rw [hget, Indexed.find_insertNew? ht, show db.memories.find i = some r from hr]
            rfl
          · rw [hget, Indexed.find_insertNew? ht, show db.memories.find i = none from hi] at hr
            split_ifs at hr with hmem hnew
            · cases hr
            · cases hr
              exact ⟨hres m (List.mem_of_mem_head? hm), hnew.symm⟩
            · cases hr

theorem does_forget (mem : Memory) (d : Draw) : Does c all db (.forget mem) d := by
  rcases forget_cases c all db (mem, d) with ⟨hentry, hno, hmem⟩ | ⟨hentry, hsup, hfault, hafter⟩
  · refine Does.of_idle hno hentry fun i => ?_
    unfold Db.get
    rw [hmem]
  · refine ⟨fun _ => ⟨hentry, fun i r hr => ?_⟩, fun h => absurd ⟨hsup, hfault⟩ h, fun i hi r hr => ?_⟩
    · rw [hafter, Db.get_delete, hr]
      rfl
    · rw [hafter, Db.get_delete, hi, ite_self] at hr
      cases hr

theorem does_adjust (mem : Memory) (d : Draw) : Does c all db (.adjust mem) d := by
  by_cases hacts : Acts c all db (.adjust mem) d
  · obtain ⟨hchanges, hfault⟩ := hacts
    obtain ⟨hentry, hafter⟩ := adjust_spec (x := (mem, d)) c all db hfault
    refine ⟨fun _ => ⟨?_, fun i r hr => ?_⟩, fun h => absurd ⟨hchanges, hfault⟩ h, fun i hi r hr => ?_⟩
    · rw [hentry]
      exact if_pos hchanges
    · rw [hafter, hr, Option.map_some]
      simp only [Action.writes, hchanges, and_true]
    · rw [hafter, hi] at hr
      cases hr
  · have hidle : attempt c all false db (.adjust mem) d = (db, .ok none) ∨ ∃ e, attempt c all false db (.adjust mem) d = (db, .error e) := by
      unfold attempt tryAdjust
      by_cases hsame : priorityAfter c d.instant mem = mem.priority
      · simp [hsame]
      · cases hfault : d.writeFault with
        | some e => simp [hsame]
        | none => exact absurd ⟨hsame, hfault⟩ hacts
    rcases hidle with h | ⟨e, h⟩
    · exact Does.of_idle hacts (by unfold entryOf; rw [h]) fun i => by unfold after; rw [h]
    · exact Does.of_idle hacts (by unfold entryOf; rw [h]) fun i => by unfold after; rw [h]

theorem does (c : Chrono) (all : List Memory) (db : Db) (a : Action) (d : Draw) : Does c all db a d := by
  cases a with
  | consolidate cluster => exact does_consolidate cluster d
  | forget mem => exact does_forget mem d
  | adjust mem => exact does_adjust mem d

end Spec

/-! ## A row of the log along a run -/

def recordKey (c : Chrono) (step : Action × Draw) : String × String :=
  (rollbackMemory (step.1.entry c step.2) "" step.2.entryId step.2.entryTs).key

/-- An action is recorded: it goes through, and its record is written. -/
def Recorded (c : Chrono) (all : List Memory) (x : Passes × Action × Draw) : Prop :=
  Acts c all x.1.db x.2.1 x.2.2 ∧ x.2.2.entryFault = none

section Log

variable {c : Chrono} {entryText : RollbackEntry → String} {all : List Memory} {s : Passes} {i : String} {r : MemoryRow}
  {step : Action × Draw} {steps : List (Action × Draw)}

theorem get_insertOrSkip {db : Db} (mem : Memory) (hr : db.get i = some r) : ∃ r', (db.insertOrSkip mem).get i = some r' ∧
    r'.key = r.key ∧ r'.content = if r.key = mem.key then mem.content else r.content := by
  obtain ⟨hmem, rfl⟩ := Db.get_eq_some.mp hr
  rcases Db.insertOrSkip_cases db mem with ⟨id, hi⟩ | ⟨hskip, hkey, -⟩
  · obtain ⟨r', hr', hid, hk⟩ := Db.liveOn_insertOnConflict hi r hmem
    refine ⟨r', hid ▸ Db.get_of_mem hr', hk, ?_⟩
    have hget : (db.insertOrSkip mem).getKey r.key = some r' := hk ▸ Db.getKey_of_mem hr'
    split_ifs with heq
    · rw [heq, Db.getKey_insertOnConflict hi, ← heq, Db.getKey_of_mem hmem] at hget
      cases hget
      rfl
    · rw [Db.getKey_insertOnConflict_of_ne hi heq, Db.getKey_of_mem hmem] at hget
      cases hget
      rfl
  · refine ⟨r, by rw [hskip]; exact hr, rfl, ?_⟩
    rw [if_neg]
    intro heq
    rw [← heq, Db.getKey_of_mem hmem] at hkey
    cases hkey

/-- What a step makes of a row that its action is not about. -/
theorem get_act_log (c : Chrono) (entryText : RollbackEntry → String) (all : List Memory) (hr : s.db.get i = some r) (hi : i ∉ step.1.ids) :
    ∃ r', (act c entryText all false s step).db.get i = some r' ∧ r'.key = r.key ∧
      ((Recorded c all (s, step) ∧ recordKey c step = r.key ∧ r'.content = entryText (step.1.entry c step.2)) ∨
        (¬(Recorded c all (s, step) ∧ recordKey c step = r.key) ∧ r'.content = r.content)) := by
  obtain ⟨a, d⟩ := step
  have hspec := does c all s.db a d
  rw [act_db]
  by_cases hacts : Acts c all s.db a d
  · obtain ⟨hentry, hrows⟩ := hspec.acted hacts
    have hsame : (after c all false s.db (a, d)).get i = some r := by
      rw [hrows i r hr]
      cases a with
      | consolidate cluster => exact if_neg hi
      | forget mem => exact if_neg fun h => hi (List.mem_singleton.mpr h)
      | adjust mem => exact congrArg some (if_neg fun h => hi (List.mem_singleton.mpr h))
    rw [hentry]
    simp only [record_db, Bool.false_eq_true, false_or]
    by_cases hfault : d.entryFault = none
    · rw [if_neg (not_not.mpr hfault)]
      obtain ⟨r', hr', hkey, hcontent⟩ := get_insertOrSkip (rollbackMemory (a.entry c d) (entryText (a.entry c d))
        d.entryId d.entryTs) hsame
      refine ⟨r', hr', hkey, ?_⟩
      by_cases hk : recordKey c (a, d) = r.key
      · exact Or.inl ⟨⟨hacts, hfault⟩, hk, hcontent.trans (if_pos hk.symm)⟩
      · exact Or.inr ⟨fun h => hk h.2, hcontent.trans (if_neg fun h => hk h.symm)⟩
    · rw [if_pos hfault]
      exact ⟨r, hsame, rfl, Or.inr ⟨fun h => hfault h.1.2, rfl⟩⟩
  · obtain ⟨hentry, hrows⟩ := hspec.idle hacts
    rw [hentry]
    exact ⟨r, (hrows i).trans hr, rfl, Or.inr ⟨fun h => hacts h.1.1, rfl⟩⟩

/-- What a run makes of a row that no action is about: it keeps its text, or has that of a record of its title. -/
theorem get_run_log (c : Chrono) (entryText : RollbackEntry → String) (all : List Memory) (hr : s.db.get i = some r) (hi : ∀ step ∈ steps, i ∉ step.1.ids) :
    ∃ r', (steps.foldl (act c entryText all false) s).db.get i = some r' ∧ r'.key = r.key ∧
      ((∃ y ∈ trace (act c entryText all false) s steps, Recorded c all y ∧ recordKey c y.2 = r.key ∧
          r'.content = entryText (y.2.1.entry c y.2.2)) ∨
        ((∀ y ∈ trace (act c entryText all false) s steps, ¬(Recorded c all y ∧ recordKey c y.2 = r.key)) ∧
          r'.content = r.content)) := by
  induction steps generalizing s r with
  | nil => exact ⟨r, hr, rfl, Or.inr ⟨fun y hy => absurd hy List.not_mem_nil, rfl⟩⟩
  | cons step steps ih =>
    obtain ⟨hstep, hsteps⟩ := List.forall_mem_cons.mp hi
    obtain ⟨r₁, hr₁, hkey₁, hone⟩ := get_act_log c entryText all hr hstep
    obtain ⟨r', hr', hkey, hrest⟩ := ih hr₁ hsteps
    rw [hkey₁] at hrest hkey
    refine ⟨r', hr', hkey, ?_⟩
    rcases hrest with ⟨y, hy, hrec⟩ | ⟨hno, hcontent⟩
    · exact Or.inl ⟨y, List.mem_cons_of_mem _ hy, hrec⟩
    · rcases hone with ⟨hrec, hk, htext⟩ | ⟨hnot, htext⟩
      · exact Or.inl ⟨(s, step), List.mem_cons_self, hrec, hk, hcontent.trans htext⟩
      · exact Or.inr ⟨List.forall_mem_cons.mpr ⟨hnot, hno⟩, hcontent.trans htext⟩

/-! ## The row that a record is written to -/

/-- No candidate has the id of a row of the log. -/
def Unlogged (all : List Memory) (db : Db) : Prop := ∀ m ∈ all, ∀ r ∈ db.get m.id, r.ns ≠ "_curator/rollback"

/-- The ids that a step draws are new. -/
def FreshStep (all : List Memory) (s : Passes) (step : Action × Draw) : Prop :=
  s.db.get step.2.entryId = none ∧ step.2.newId ≠ step.2.entryId ∧ ∀ m ∈ all, step.2.entryId ≠ m.id

instance (all : List Memory) (s : Passes) (step : Action × Draw) : Decidable (FreshStep all s step) :=
  inferInstanceAs (Decidable (_ ∧ _ ∧ _))

def recordId (c : Chrono) (entryText : RollbackEntry → String) (all : List Memory) (x : Passes × Action × Draw) : Option String :=
  (entryOf c all false x.1.db x.2).bind fun entry =>
    if x.2.2.entryFault = none then
      ((after c all false x.1.db x.2).insert (rollbackMemory entry (entryText entry) x.2.2.entryId x.2.2.entryTs)).toOption.map
        Prod.snd
    else none

theorem ns_writes {a : Action} {d : Draw} {r' : MemoryRow} (h : a.writes c d i r = some r') : r'.ns = r.ns := by
  cases a with
  | consolidate cluster =>
    unfold Action.writes at h
    simp only at h
    split_ifs at h
    cases h
    rfl
  | forget mem =>
    unfold Action.writes at h
    simp only at h
    split_ifs at h
    cases h
    rfl
  | adjust mem =>
    cases h
    split_ifs <;> rfl

theorem ne_rollback_of_not_reserved (hres : isReserved r.ns = false) : r.ns ≠ "_curator/rollback" := by
  intro h
  rw [h] at hres
  revert hres
  decide

theorem unlogged_after (c : Chrono) (step : Action × Draw) (h : Unlogged all s.db) : Unlogged all (after c all false s.db step) := by
  intro m hm r hr
  have hspec := does c all s.db step.1 step.2
  cases hget : s.db.get m.id with
  | none => exact ne_rollback_of_not_reserved (hspec.fresh m.id hget r hr).1
  | some r₀ =>
    have hns := h m hm r₀ hget
    by_cases hacts : Acts c all s.db step.1 step.2
    · rw [(hspec.acted hacts).2 m.id r₀ hget] at hr
      rwa [ns_writes hr]
    · rw [(hspec.idle hacts).2, hget] at hr
      cases hr
      exact hns

theorem unlogged_act (h : Unlogged all s.db) (hfresh : ∀ m ∈ all, step.2.entryId ≠ m.id) :
    Unlogged all (act c entryText all false s step).db := by
  have hafter := unlogged_after c step h
  rw [act_db]
  cases entryOf c all false s.db step with
  | none => exact hafter
  | some entry =>
    simp only [record_db, Bool.false_eq_true, false_or]
    split_ifs
    · exact hafter
    · intro m hm r hr
      rcases Db.insertOrSkip_cases (after c all false s.db step)
        (rollbackMemory entry (entryText entry) step.2.entryId step.2.entryTs) with ⟨id, hi⟩ | ⟨hskip, -, -⟩
      · obtain ⟨hmem, hid⟩ := Db.get_eq_some.mp hr
        rcases Db.mem_insertOnConflict hi hmem with hold | ⟨r₀, hr₀, hkey, rfl⟩ | rfl
        · exact hafter m hm r (Db.get_eq_some.mpr ⟨hold, hid⟩)
        · exact absurd (congrArg Prod.snd hkey) (hafter m hm r₀ (Db.get_eq_some.mpr ⟨hr₀, hid⟩))
        · exact absurd hid (hfresh m hm)
      · rw [hskip] at hr
        exact hafter m hm r hr

theorem recorded_of_recordId {x : Passes × Action × Draw} {id : String} (h : id ∈ recordId c entryText all x) :
    Recorded c all x := by
  obtain ⟨s, a, d⟩ := x
  unfold recordId at h
  obtain ⟨entry, hentry, h⟩ := Option.bind_eq_some_iff.mp h
  split_ifs at h with hfault
  refine ⟨?_, hfault⟩
  by_contra hno
  rw [((does c all s.db a d).idle hno).1] at hentry
  cases hentry

/-- A record is stored under its title, and under no candidate's id. -/
theorem recordId_spec (entryText : RollbackEntry → String) (hlog : Unlogged all s.db) (hfresh : FreshStep all s step) (hrec : Recorded c all (s, step)) :
    ∃ id row, recordId c entryText all (s, step) = some id ∧ (∀ m ∈ all, m.id ≠ id) ∧
      (act c entryText all false s step).db.get id = some row ∧ row.key = recordKey c step ∧
      row.content = entryText (step.1.entry c step.2) := by
  obtain ⟨a, d⟩ := step
  obtain ⟨hacts, hfault⟩ := hrec
  have hspec := does c all s.db a d
  have hentry := (hspec.acted hacts).1
  have hfree : (after c all false s.db (a, d)).get d.entryId = none := by
    cases hget : (after c all false s.db (a, d)).get d.entryId with
    | none => rfl
    | some r => exact absurd (hspec.fresh d.entryId hfresh.1 r hget).2.symm hfresh.2.1
  obtain ⟨db', id, hi⟩ := @Db.insert_isOk _
    (rollbackMemory (a.entry c d) (entryText (a.entry c d)) d.entryId d.entryTs) hfree
  obtain ⟨row, hrow⟩ := Db.get_insertOnConflict_self hi
  have hkey := Db.key_insertOnConflict_self hi hrow
  have hact : (act c entryText all false s (a, d)).db = db' := by
    rw [act_db, hentry]
    simp only [record_db, Bool.false_eq_true, false_or]
    rw [if_neg (not_not.mpr hfault), Db.insertOrSkip_of_ok hi]
  refine ⟨id, row, ?_, fun m hm hid => ?_, by rw [hact]; exact hrow, hkey, ?_⟩
  · unfold recordId
    simp only [hentry, Option.bind_some, if_pos hfault, hi]
    rfl
  · rcases Db.insertOnConflict_cases hi with ⟨stored, hs, rfl, -⟩ | ⟨-, -, rfl, -⟩
    · obtain ⟨hmem, hk⟩ := Db.getKey_eq_some.mp hs
      exact unlogged_after c (a, d) hlog m hm stored (hid ▸ Db.get_of_mem hmem) (congrArg Prod.snd hk)
    · exact hfresh.2.2 m hm hid.symm
  · have hget := Db.getKey_insertOnConflict hi
    rw [← hkey, Db.getKey_of_mem (Db.get_eq_some.mp hrow).1] at hget
    cases hstored : (after c all false s.db (a, d)).getKey row.key with
    | none =>
      rw [hstored] at hget
      cases hget
      rfl
    | some stored =>
      rw [hstored] at hget
      cases hget
      rfl

end Log

/-! ## Undoing a run -/

/-- The entry holds the row as it is: what there is to restore. -/
def RollbackEntry.Undoes (r : MemoryRow) : RollbackEntry → Prop
  | consolidate originals _ => r.toMemory ∈ originals
  | forget snapshot => snapshot = r.toMemory
  | priorityAdjust memoryId before _ => memoryId = r.id ∧ before = r.priority

/-- The candidates of the action are the row as it is. -/
def Action.Sees (r : MemoryRow) : Action → Prop
  | consolidate cluster => r.toMemory ∈ cluster
  | forget mem => mem = r.toMemory
  | adjust mem => mem.id = r.id ∧ mem.priority = r.priority

instance (r : MemoryRow) (a : Action) : Decidable (a.Sees r) :=
  match a with
  | .consolidate _ => inferInstanceAs (Decidable (_ ∈ _))
  | .forget _ => inferInstanceAs (Decidable (_ = _))
  | .adjust _ => inferInstanceAs (Decidable (_ ∧ _))

theorem undoes_entry {c : Chrono} {a : Action} {d : Draw} {r : MemoryRow} : (a.entry c d).Undoes r ↔ a.Sees r := by
  cases a <;> rfl

section Undo

variable (c : Chrono) (entryText : RollbackEntry → String) (all : List Memory)

/-- The action deletes the row, merges it away, or gives it another priority. -/
def Affects (x : Passes × Action × Draw) (r : MemoryRow) : Prop :=
  r ∈ x.1.db.memories ∧ ∀ r' ∈ (after c all false x.1.db x.2).get r.id, r'.priority ≠ r.priority

/-- Every change of a run has its own record at the end, with the row as it stood just before. -/
structure Undoable (final : Db) (tr : List (Passes × Action × Draw)) : Prop where
  recorded : ∀ x ∈ tr, ∀ r, Affects c all x r → ∃ id ∈ recordId c entryText all x, ∃ entry ∈ entryOf c all false x.1.db x.2,
    entry.Undoes r ∧ ∃ row ∈ final.get id, row.ns = "_curator/rollback" ∧ row.content = entryText entry
  separate : tr.Pairwise fun x y => (∃ r, Affects c all x r) → (∃ r, Affects c all y r) →
    recordId c entryText all x ≠ recordId c entryText all y

/-- The action goes through and is about the row. -/
def Touches (x : Passes × Action × Draw) (r : MemoryRow) : Prop :=
  r ∈ x.1.db.memories ∧ Acts c all x.1.db x.2.1 x.2.2 ∧
    match x.2.1 with
    | .consolidate cluster => r.id ∈ cluster.map fun m => m.id
    | .forget mem => r.id = mem.id
    | .adjust mem => r.id = mem.id ∧ priorityAfter c x.2.2.instant mem ≠ r.priority

/-- No record of a change fails, none is about a row that has changed since it was read, and no later record of the same kind is
stamped with the same time. -/
structure Safe (tr : List (Passes × Action × Draw)) : Prop where
  written : ∀ x ∈ tr, (∃ r, Touches c all x r) → x.2.2.entryFault = none
  current : ∀ x ∈ tr, ∀ r, Touches c all x r → x.2.1.Sees r
  lasting : tr.Pairwise fun x y => (∃ r, Touches c all x r) → Recorded c all y →
    (x.2.1.entry c x.2.2).actionTag = (y.2.1.entry c y.2.2).actionTag → x.2.2.entryTs ≠ y.2.2.entryTs

end Undo

section Undo

variable {c : Chrono} {entryText : RollbackEntry → String} {all : List Memory} {s : Passes} {r : MemoryRow}
  {x : Passes × Action × Draw} {tr : List (Passes × Action × Draw)} {final : Db}

theorem ids_of_touches (h : Touches c all x r) : r.id ∈ x.2.1.ids := by
  obtain ⟨s, a, d⟩ := x
  cases a with
  | consolidate cluster => exact h.2.2
  | forget mem => exact List.mem_singleton.mpr h.2.2
  | adjust mem => exact List.mem_singleton.mpr h.2.2.1

theorem affects_iff : Affects c all x r ↔ Touches c all x r := by
  obtain ⟨s, a, d⟩ := x
  refine and_congr_right fun hmem => ?_
  have hr : s.db.get r.id = some r := Db.get_of_mem hmem
  have hspec := does c all s.db a d
  by_cases hacts : Acts c all s.db a d
  · rw [and_iff_right hacts]
    simp only [(hspec.acted hacts).2 r.id r hr]
    cases a with
    | consolidate cluster =>
      unfold Action.writes
      by_cases hi : r.id ∈ cluster.map fun m => m.id
      · simp only [if_pos hi]
        exact iff_of_true nofun hi
      · simp only [if_neg hi]
        exact iff_of_false (fun h => h r rfl rfl) hi
    | forget mem =>
      unfold Action.writes
      by_cases hi : r.id = mem.id
      · simp only [if_pos hi]
        exact iff_of_true nofun hi
      · simp only [if_neg hi]
        exact iff_of_false (fun h => h r rfl rfl) hi
    | adjust mem =>
      unfold Action.writes
      by_cases hi : r.id = mem.id
      · simp only [if_pos hi]
        exact ⟨fun h => ⟨hi, h _ rfl⟩, fun h r' hr' => by cases hr'; exact h.2⟩
      · simp only [if_neg hi]
        exact iff_of_false (fun h => h r rfl rfl) fun h => hi h.1
  · simp only [(hspec.idle hacts).2, hr]
    exact iff_of_false (fun h => h r rfl rfl) fun h => hacts h.1

theorem recordKey_eq_iff {step step' : Action × Draw} : recordKey c step = recordKey c step' ↔
    (step.1.entry c step.2).actionTag = (step'.1.entry c step'.2).actionTag ∧ step.2.entryTs = step'.2.entryTs := by
  have htitle : ∀ a d, (recordKey c (a, d)).1.toList =
      "curator ".toList ++ (a.entry c d).actionTag.toList ++ " @ ".toList ++ d.entryTs.toList := fun a d => by
    show ("curator " ++ (a.entry c d).actionTag ++ " @ " ++ d.entryTs).toList = _
    rw [String.toList_append, String.toList_append, String.toList_append]
  constructor
  · intro h
    have hlist := congrArg (fun k : String × String => k.1.toList) h
    obtain ⟨a, d⟩ := step
    obtain ⟨a', d'⟩ := step'
    simp only [htitle] at hlist
    -- the kinds differ in their first letter
    cases a <;> cases a' <;> simp [Action.entry, RollbackEntry.actionTag] at hlist ⊢ <;>
      exact String.toList_injective hlist
  · rintro ⟨htag, hts⟩
    unfold recordKey rollbackMemory Memory.key
    simp only [htag, hts]

theorem undoable_cons : Undoable c entryText all final (x :: tr) ↔
    ((∀ r, Affects c all x r → ∃ id ∈ recordId c entryText all x, ∃ entry ∈ entryOf c all false x.1.db x.2, entry.Undoes r ∧
        ∃ row ∈ final.get id, row.ns = "_curator/rollback" ∧ row.content = entryText entry) ∧
      ∀ y ∈ tr, (∃ r, Affects c all x r) → (∃ r, Affects c all y r) → recordId c entryText all x ≠ recordId c entryText all y) ∧
    Undoable c entryText all final tr := by
  constructor
  · rintro ⟨hrec, hsep⟩
    obtain ⟨hx, htr⟩ := List.forall_mem_cons.mp hrec
    obtain ⟨hsx, hstr⟩ := List.pairwise_cons.mp hsep
    exact ⟨⟨hx, hsx⟩, htr, hstr⟩
  · rintro ⟨⟨hx, hsx⟩, htr, hstr⟩
    exact ⟨List.forall_mem_cons.mpr ⟨hx, htr⟩, List.pairwise_cons.mpr ⟨hsx, hstr⟩⟩

theorem safe_cons : Safe c all (x :: tr) ↔
    (((∃ r, Touches c all x r) → x.2.2.entryFault = none) ∧ (∀ r, Touches c all x r → x.2.1.Sees r) ∧
      ∀ y ∈ tr, (∃ r, Touches c all x r) → Recorded c all y →
        (x.2.1.entry c x.2.2).actionTag = (y.2.1.entry c y.2.2).actionTag → x.2.2.entryTs ≠ y.2.2.entryTs) ∧
    Safe c all tr := by
  constructor
  · rintro ⟨hw, hc, hl⟩
    obtain ⟨hwx, hwtr⟩ := List.forall_mem_cons.mp hw
    obtain ⟨hcx, hctr⟩ := List.forall_mem_cons.mp hc
    obtain ⟨hlx, hltr⟩ := List.pairwise_cons.mp hl
    exact ⟨⟨hwx, hcx, hlx⟩, hwtr, hctr, hltr⟩
  · rintro ⟨⟨hwx, hcx, hlx⟩, hwtr, hctr, hltr⟩
    exact ⟨List.forall_mem_cons.mpr ⟨hwx, hwtr⟩, List.forall_mem_cons.mpr ⟨hcx, hctr⟩, List.pairwise_cons.mpr ⟨hlx, hltr⟩⟩

variable {steps : List (Action × Draw)}

/-- The ids that an action is about are those of candidates. -/
def About (all : List Memory) (a : Action) : Prop := ∀ i ∈ a.ids, ∃ m ∈ all, m.id = i

theorem key_of_recordId (hlog : Unlogged all s.db) (habout : ∀ step ∈ steps, About all step.1)
    (hfresh : Meets (act c entryText all false) (FreshStep all) s steps) :
    ∀ x ∈ trace (act c entryText all false) s steps, ∀ id ∈ recordId c entryText all x,
      ∃ row ∈ (steps.foldl (act c entryText all false) s).db.get id, row.key = recordKey c x.2 := by
  induction steps generalizing s with
  | nil => exact fun x hx => absurd hx List.not_mem_nil
  | cons step steps ih =>
    obtain ⟨-, habout⟩ := List.forall_mem_cons.mp habout
    refine List.forall_mem_cons.mpr ⟨fun id hid => ?_, ih (unlogged_act hlog hfresh.1.2.2) habout hfresh.2⟩
    obtain ⟨id', row, hid', hall, hrow, hkey, -⟩ := recordId_spec entryText hlog hfresh.1 (recorded_of_recordId hid)
    obtain rfl : id' = id := Option.some.inj (hid'.symm.trans hid)
    obtain ⟨row', hrow', hkey', -⟩ := get_run_log c entryText all hrow fun step hstep hmem => by
      obtain ⟨m, hm, hid⟩ := habout step hstep _ hmem
      exact hall m hm hid
    exact ⟨row', hrow', hkey'.trans hkey⟩

/-- A record lasts unless a later one has its title. -/
theorem lasts_iff (entryText : RollbackEntry → String) (hlog : Unlogged all s.db) {step : Action × Draw} (habout : ∀ step ∈ steps, About all step.1)
    (hfresh : FreshStep all s step) (hrec : Recorded c all (s, step))
    (htexts : ∀ y ∈ steps, entryText (step.1.entry c step.2) ≠ entryText (y.1.entry c y.2)) :
    (∃ id ∈ recordId c entryText all (s, step), ∃ row ∈ (steps.foldl (act c entryText all false)
        (act c entryText all false s step)).db.get id, row.ns = "_curator/rollback" ∧
          row.content = entryText (step.1.entry c step.2)) ↔
      ∀ y ∈ trace (act c entryText all false) (act c entryText all false s step) steps, Recorded c all y →
        recordKey c step ≠ recordKey c y.2 := by
  obtain ⟨id, row, hid, hall, hrow, hkey, hcontent⟩ := recordId_spec entryText hlog hfresh hrec
  obtain ⟨row', hrow', hkey', hlast⟩ := get_run_log c entryText all hrow fun step hstep hmem => by
    obtain ⟨m, hm, hid⟩ := habout step hstep _ hmem
    exact hall m hm hid
  rw [hkey] at hlast hkey'
  constructor
  · rintro ⟨id', hid', found, hfound, -, htext⟩ y hy hry hsame
    obtain rfl : id = id' := Option.some.inj (hid.symm.trans hid')
    obtain rfl : row' = found := Option.some.inj (hrow'.symm.trans hfound)
    rcases hlast with ⟨z, hz, -, -, hz'⟩ | ⟨hno, -⟩
    · exact htexts z.2 (snd_mem_of_mem_trace hz) (htext.symm.trans hz')
    · exact hno y hy ⟨hry, hsame.symm⟩
  · intro hno
    refine ⟨id, hid, row', hrow', congrArg Prod.snd hkey', ?_⟩
    rcases hlast with ⟨z, hz, hrz, hkz, -⟩ | ⟨-, hsame⟩
    · exact absurd hkz.symm (hno z hz hrz)
    · exact hsame.trans hcontent

/-- The changes of a run have their records exactly if it is safe. -/
theorem undoable_trace_iff (hlog : Unlogged all s.db) (habout : ∀ step ∈ steps, About all step.1)
    (hfresh : Meets (act c entryText all false) (FreshStep all) s steps)
    (htexts : steps.Pairwise fun x y => entryText (x.1.entry c x.2) ≠ entryText (y.1.entry c y.2)) :
    Undoable c entryText all (steps.foldl (act c entryText all false) s).db (trace (act c entryText all false) s steps) ↔
      Safe c all (trace (act c entryText all false) s steps) := by
  induction steps generalizing s with
  | nil =>
    exact iff_of_true ⟨fun x hx => absurd hx List.not_mem_nil, List.Pairwise.nil⟩
      ⟨fun x hx => absurd hx List.not_mem_nil, fun x hx => absurd hx List.not_mem_nil, List.Pairwise.nil⟩
  | cons step steps ih =>
    obtain ⟨hstep, habout⟩ := List.forall_mem_cons.mp habout
    obtain ⟨htext, htexts⟩ := List.pairwise_cons.mp htexts
    have hlog' : Unlogged all (act c entryText all false s step).db := unlogged_act hlog hfresh.1.2.2
    rw [trace, List.foldl_cons, undoable_cons, safe_cons, ih hlog' habout hfresh.2 htexts]
    refine and_congr_left fun _ => ?_
    simp only [affects_iff]
    by_cases hany : ∃ r, Touches c all (s, step) r
    · obtain ⟨r₀, htouch₀⟩ := hany
      have hacts : Acts c all s.db step.1 step.2 := htouch₀.2.1
      have hentry := ((does c all s.db step.1 step.2).acted hacts).1
      have hlast := fun hrec => lasts_iff entryText hlog habout hfresh.1 hrec htext
      constructor
      · rintro ⟨hrec, -⟩
        have hfault : step.2.entryFault = none := by
          obtain ⟨id, hid, -⟩ := hrec r₀ htouch₀
          exact (recorded_of_recordId hid).2
        refine ⟨fun _ => hfault, fun r hr => ?_, fun y hy _ hry htag hts => ?_⟩
        · obtain ⟨-, -, entry, he, hundo, -⟩ := hrec r hr
          rw [hentry] at he
          cases he
          exact undoes_entry.mp hundo
        · obtain ⟨id, hid, entry, he, -, hrow⟩ := hrec r₀ htouch₀
          rw [hentry] at he
          cases he
          exact (hlast ⟨hacts, hfault⟩).mp ⟨id, hid, hrow⟩ y hy hry (recordKey_eq_iff.mpr ⟨htag, hts⟩)
      · rintro ⟨hfault, hsees, hlasting⟩
        have hrec : Recorded c all (s, step) := ⟨hacts, hfault ⟨r₀, htouch₀⟩⟩
        have hkeys : ∀ y ∈ trace (act c entryText all false) (act c entryText all false s step) steps, Recorded c all y →
            recordKey c step ≠ recordKey c y.2 := fun y hy hry hkey => by
          obtain ⟨htag, hts⟩ := recordKey_eq_iff.mp hkey
          exact hlasting y hy ⟨r₀, htouch₀⟩ hry htag hts
        obtain ⟨id, hid, row, hrow, hns, hcontent⟩ := (hlast hrec).mpr hkeys
        refine ⟨fun r hr => ⟨id, hid, _, hentry, undoes_entry.mpr (hsees r hr), row, hrow, hns, hcontent⟩, fun y hy _ _ hsame => ?_⟩
        -- the row of the later record would have both titles
        rw [hid] at hsame
        obtain ⟨rowx, hrowx, hkeyx⟩ := key_of_recordId hlog (List.forall_mem_cons.mpr ⟨hstep, habout⟩) hfresh
          (s, step) List.mem_cons_self id hid
        obtain ⟨rowy, hrowy, hkeyy⟩ := key_of_recordId hlog' habout hfresh.2 y hy id hsame.symm
        obtain rfl : rowx = rowy := Option.some.inj (hrowx.symm.trans hrowy)
        exact hkeys y hy (recorded_of_recordId hsame.symm) (hkeyx.symm.trans hkeyy)
    · have hnone : ∀ r, ¬Touches c all (s, step) r := fun r hr => hany ⟨r, hr⟩
      exact iff_of_true ⟨fun r hr => absurd hr (hnone r), fun y hy h => absurd h hany⟩
        ⟨fun h => absurd h hany, fun r hr => absurd hr (hnone r), fun y hy h => absurd h hany⟩

end Undo

section Runs

variable (c : Chrono) (entryText : RollbackEntry → String) (all : List Memory) (u : Unicode) (order : List String)
  (draws : Draws) (db : Db)

def actions : List (Action × Draw) :=
  ((mergeSteps all u order draws).map fun x => (.consolidate x.1, x.2)) ++
    (((drawn all draws.forget).map fun x => (.forget x.1, x.2)) ++ (drawn all draws.adjust).map fun x => (.adjust x.1, x.2))

def start : Passes := { db, report := { clustersFormed := (findConsolidationClusters u order all).length } }

theorem runAutonomyPasses_eq : runAutonomyPasses c entryText all false u order draws db =
    (actions all u order draws).foldl (act c entryText all false) (start all u order db) := by
  unfold actions
  rw [List.foldl_append, List.foldl_append]
  rfl

def moments : List (Passes × Action × Draw) :=
  trace (act c entryText all false) (start all u order db) (actions all u order draws)

end Runs

section Runs

variable {c : Chrono} {entryText : RollbackEntry → String} {all : List Memory} {u : Unicode} {order : List String}
  {draws : Draws} {db : Db}

theorem about_actions : ∀ step ∈ actions all u order draws, About all step.1 := by
  intro step hstep i hi
  unfold actions at hstep
  rcases List.mem_append.mp hstep with h | h
  · obtain ⟨x, hx, rfl⟩ := List.mem_map.mp h
    obtain ⟨m, hm, rfl⟩ := List.mem_map.mp hi
    exact ⟨m, mem_all_of_mem_mergeSteps hx hm, rfl⟩
  · rcases List.mem_append.mp h with h | h <;> obtain ⟨x, hx, rfl⟩ := List.mem_map.mp h <;>
      exact ⟨x.1, (mem_of_mem_drawn hx).1, (List.mem_singleton.mp hi).symm⟩

theorem pairwise_drawn {α : Type} {xs : List α} {draws : ℕ → Draw} {R : α → α → Prop} (h : xs.Pairwise R) :
    (drawn xs draws).Pairwise fun x y => R x.1 y.1 := by
  rw [← map_fst_drawn xs draws, List.pairwise_map] at h
  exact h

theorem pairwise_entries (hnodup : (all.map fun m => m.id).Nodup) (horder : order.Nodup) :
    (actions all u order draws).Pairwise fun x y => x.1.entry c x.2 ≠ y.1.entry c y.2 := by
  have hall := List.Nodup.of_map _ hnodup
  unfold actions
  rw [List.pairwise_append, List.pairwise_append]
  refine ⟨?_, ⟨?_, ?_, ?_⟩, ?_⟩
  · rw [List.pairwise_map]
    have hflat := nodup_findConsolidationClusters (u := u) horder hall
    rw [List.nodup_flatten] at hflat
    refine (pairwise_drawn hflat.2).imp_of_mem fun {x y} hx _ hdisjoint heq => ?_
    injection heq with horiginals
    have hlen := (mem_findConsolidationClusters (mem_of_mem_drawn hx).1).1
    obtain ⟨m, hm⟩ := List.exists_mem_of_length_pos (Nat.lt_of_lt_of_le Nat.zero_lt_two hlen)
    exact hdisjoint hm (horiginals ▸ hm)
  · rw [List.pairwise_map]
    refine (pairwise_drawn hall).imp fun {x y} hne heq => hne ?_
    injection heq
  · rw [List.pairwise_map]
    refine (pairwise_drawn (List.pairwise_map.mp hnodup)).imp fun {x y} hne heq => hne ?_
    injection heq
  · intro x hx y hy
    obtain ⟨x, -, rfl⟩ := List.mem_map.mp hx
    obtain ⟨y, -, rfl⟩ := List.mem_map.mp hy
    exact nofun
  · intro x hx y hy
    obtain ⟨x, -, rfl⟩ := List.mem_map.mp hx
    rcases List.mem_append.mp hy with hy | hy <;> obtain ⟨y, -, rfl⟩ := List.mem_map.mp hy <;> exact nofun

theorem Candidates.unlogged (h : Candidates db all) : Unlogged all db := fun _ hm r hr =>
  ne_rollback_of_not_reserved (h.unreserved_get hm r hr)

/-- Every change of a run has its own record at the end, with the row as it stood just before, exactly if no record of a change
fails, none is about a row that has changed since it was read, and no later record of the same kind is stamped with the same
time. The candidates may be stale; the text of an entry tells the entry. -/
theorem undoable_iff (c : Chrono) (u : Unicode) {db : Db} (hnodup : (all.map fun m => m.id).Nodup) (hlog : Unlogged all db)
    (horder : order.Nodup) (hfresh : Meets (act c entryText all false) (FreshStep all) (start all u order db) (actions all u order draws))
    (htext : ∀ x ∈ actions all u order draws, ∀ y ∈ actions all u order draws,
      entryText (x.1.entry c x.2) = entryText (y.1.entry c y.2) → x.1.entry c x.2 = y.1.entry c y.2) :
    Undoable c entryText all (runAutonomyPasses c entryText all false u order draws db).db
        (moments c entryText all u order draws db) ↔
      Safe c all (moments c entryText all u order draws db) := by
  have htexts : (actions all u order draws).Pairwise fun x y => entryText (x.1.entry c x.2) ≠ entryText (y.1.entry c y.2) :=
    (pairwise_entries hnodup horder).imp_of_mem fun hx hy hne heq => hne (htext _ hx _ hy heq)
  rw [runAutonomyPasses_eq]
  exact undoable_trace_iff hlog about_actions hfresh htexts

end Runs

/-! ## One clock reading for two records -/

def entryTagged (entry : RollbackEntry) : String := entry.actionTag ++ " " ++ entryNamed entry

/-- Draws under which the records of the forget pass are stamped with one time. -/
def sameTime : Draws := { letteredDraws with forget := fun k => { lettered 'y' k with entryTs := "now" } }

theorem unlogged_gate : Unlogged [gate, road] (Db.empty.insertAll [gate, road]) := candidates_gate.unlogged

/-- One note is forgotten, and its record is there. -/
theorem gate_undoable : Undoable stopped entryTagged [gate, road]
    (runAutonomyPasses stopped entryTagged [gate, road] false ascii ["notes"] letteredDraws (Db.empty.insertAll [gate, road])).db
    (moments stopped entryTagged [gate, road] ascii ["notes"] letteredDraws (Db.empty.insertAll [gate, road])) := by
  refine (undoable_iff stopped ascii candidates_gate.nodup unlogged_gate (by decide) (by decide +kernel) (by decide +kernel)).mpr ?_
  refine ⟨fun x hx _ => ?_, fun x hx r hr => ?_, ?_⟩
  · have hnone : ∀ step ∈ actions [gate, road] ascii ["notes"] letteredDraws, step.2.entryFault = none := by decide +kernel
    exact hnone x.2 (snd_mem_of_mem_trace hx)
  · have hsees : ∀ x ∈ moments stopped entryTagged [gate, road] ascii ["notes"] letteredDraws (Db.empty.insertAll [gate, road]),
        ∀ r ∈ x.1.db.memories.rows, r.id ∈ x.2.1.ids → x.2.1.Sees r := by decide +kernel
    exact hsees x hx r hr.1 (ids_of_touches hr)
  · have hts : (actions [gate, road] ascii ["notes"] letteredDraws).Pairwise fun x y => x.2.entryTs ≠ y.2.entryTs := by
      decide +kernel
    exact (pairwise_trace hts).imp fun h _ _ _ => h

/-- Two notes are forgotten with one reading of the clock, and the second record overwrites the first. -/
theorem same_time_overwrites : Candidates (Db.empty.insertAll [north, south, west]) [north, south, west] ∧
    ¬Undoable stopped entryTagged [north, south, west]
      (runAutonomyPasses stopped entryTagged [north, south, west] false ascii ["notes"] sameTime
        (Db.empty.insertAll [north, south, west])).db
      (moments stopped entryTagged [north, south, west] ascii ["notes"] sameTime (Db.empty.insertAll [north, south, west])) := by
  refine ⟨⟨by decide, by decide, by decide⟩, fun h => ?_⟩
  let first : Passes × Action × Draw :=
    (start [north, south, west] ascii ["notes"] (Db.empty.insertAll [north, south, west]), .forget north, sameTime.forget 0)
  have hnil : mergeSteps [north, south, west] ascii ["notes"] sameTime = [] := List.eq_nil_of_length_eq_zero (by decide +kernel)
  have hfirst : first ∈ moments stopped entryTagged [north, south, west] ascii ["notes"] sameTime
      (Db.empty.insertAll [north, south, west]) := by
    unfold moments actions
    rw [hnil]
    exact List.mem_cons_self
  have hgone : (after stopped [north, south, west] false first.1.db first.2).get "a" = none := by decide
  have haffects : Affects stopped [north, south, west] first north.toRow := by
    refine ⟨?_, fun r' hr' => ?_⟩
    · show north.toRow ∈ first.1.db.memories.rows
      decide
    · exact absurd (hgone.symm.trans hr') nofun
  obtain ⟨id, hid, entry, hentry, -, row, hrow, -, hcontent⟩ := h.recorded first hfirst north.toRow haffects
  have hstored : recordId stopped entryTagged [north, south, west] first = some "y" := by decide
  have hnamed : entryOf stopped [north, south, west] false first.1.db first.2 = some (.forget north) := by decide
  cases hstored.symm.trans hid
  cases hnamed.symm.trans hentry
  have hlast : ((runAutonomyPasses stopped entryTagged [north, south, west] false ascii ["notes"] sameTime
      (Db.empty.insertAll [north, south, west])).db.get "y").map (fun r => r.content) = some "forget b" := by decide +kernel
  rw [hrow, Option.map_some, hcontent] at hlast
  exact absurd hlast (by decide)

end Curator

end AiMemory
