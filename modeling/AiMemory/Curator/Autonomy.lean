import AiMemory.Curator.Passes
import AiMemory.Db.Inserts

/-!
# The autonomy passes over one candidate list

`run_autonomy_passes` of `autonomy.rs`: the clusters of near-duplicates are consolidated, then the superseded candidates are
forgotten, then priorities follow the accesses. All three passes work on the same list, read before the first of them.

What a run takes from outside comes with each action: the answer of the language model, the clock, fresh ids, and which of its
writes fails.
-/

namespace AiMemory

open Relational

namespace Curator

/-! ## Clusters of near-duplicates -/

/-- The Unicode tables of `char::is_alphanumeric` and `str::to_lowercase`. -/
structure Unicode where
  isAlphanumeric : Char → Bool
  toLowercase : String → String

/-- `tokens` of `jaccard_similarity`. -/
def Unicode.tokens (u : Unicode) (s : String) : List String :=
  (((s.toList.splitOnP fun c => !u.isAlphanumeric c).map String.ofList).filter fun t =>
    3 ≤ Validate.byteLen t.toList).map u.toLowercase |>.dedup

/-- `jaccard_similarity` is at least `CONSOLIDATE_JACCARD_THRESHOLD`, which is 0.55. -/
def Unicode.similar (u : Unicode) (a b : String) : Bool :=
  let ta := u.tokens a
  let tb := u.tokens b
  let inter := (ta.filter fun t => t ∈ tb).length
  let union := (ta ++ tb).dedup.length
  union ≠ 0 ∧ 11 * union ≤ 20 * inter

def consolidateMaxClusterSize : ℕ := 8

/-- The members that join a cluster of `cap` free places, and those that are left. -/
def joining (similarTo : Memory → Bool) : ℕ → List Memory → List Memory × List Memory
  | _, [] => ([], [])
  | 0, ms => ([], ms)
  | cap + 1, m :: ms =>
    if similarTo m then
      let (members, rest) := joining similarTo cap ms
      (m :: members, rest)
    else
      let (members, rest) := joining similarTo (cap + 1) ms
      (members, m :: rest)

theorem perm_joining (similarTo : Memory → Bool) (cap : ℕ) (ms : List Memory) :
    ((joining similarTo cap ms).1 ++ (joining similarTo cap ms).2).Perm ms := by
  induction ms generalizing cap with
  | nil => cases cap <;> rfl
  | cons m ms ih =>
    cases cap with
    | zero => rfl
    | succ cap =>
      unfold joining
      split_ifs
      · exact (ih cap).cons m
      · exact List.perm_middle.trans ((ih (cap + 1)).cons m)

/-- The clusters of a group: each candidate that is left takes in those similar to it. -/
def clustersFrom (u : Unicode) : ℕ → List Memory → List (List Memory)
  | fuel + 1, m :: ms =>
    let joined := joining (fun x => u.similar m.content x.content) (consolidateMaxClusterSize - 1) ms
    if joined.1 = [] then clustersFrom u fuel joined.2 else (m :: joined.1) :: clustersFrom u fuel joined.2
  | _, _ => []

/-- The clusters of the candidates of a namespace. Each round takes a candidate away, so as many rounds are enough. -/
def clustersOf (u : Unicode) (group : List Memory) : List (List Memory) := clustersFrom u group.length group

/-- `find_consolidation_clusters`, where `order` lists the namespaces as the hash map iterates over them. -/
def findConsolidationClusters (u : Unicode) (order : List String) (candidates : List Memory) : List (List Memory) :=
  order.flatMap fun ns => clustersOf u (candidates.filter fun m => !isReserved m.ns ∧ m.ns = ns)

/-! ## One action -/

/-- What an action draws: the answer of the language model, the clock and the fresh ids; and which of its writes fails. A
deletion may fail in its second statement. -/
structure Draw where
  summary : Except String String
  newId : String
  now : String
  instant : ℤ
  entryId : String
  entryTs : String
  writeFault : Option String := none
  atSecond : Bool := false
  entryFault : Option String := none

/-- The actions of the three passes. -/
inductive Action where
  | consolidate (cluster : List Memory)
  | forget (mem : Memory)
  | adjust (mem : Memory)

/-- What an action does to the database, and the entry it returns. -/
abbrev Attempt := Db × Except String (Option RollbackEntry)

/-- `consolidate_cluster`. -/
def tryConsolidate (db : Db) (cluster : List Memory) (dryRun : Bool) (d : Draw) : Attempt :=
  if cluster.length < 2 ∨ (cluster.any fun m => isReserved m.ns) then (db, .ok none)
  else
    match d.summary with
    | .error e => (db, .error e)
    | .ok _ =>
      if dryRun then (db, .ok (some (.consolidate cluster "dry-run")))
      else
        match d.writeFault with
        | some e => (db, .error e)
        | none =>
          match consolidateCluster db cluster d.summary d.newId d.now with
          | .error e => (db, .error e)
          | .ok (db, entry) => (db, .ok entry)

/-- `forget_if_superseded`. -/
def tryForget (db : Db) (mem : Memory) (all : List Memory) (dryRun : Bool) (d : Draw) : Attempt :=
  if isSuperseded mem all then
    if dryRun then (db, .ok (some (.forget mem)))
    else
      match d.writeFault with
      | some e => (if d.atSecond then db.dropStandard mem.id else db, .error e)
      | none => ((db.delete mem.id).1, .ok (some (.forget mem)))
  else (db, .ok none)

/-- `apply_priority_feedback`. -/
def tryAdjust (c : Chrono) (db : Db) (mem : Memory) (dryRun : Bool) (d : Draw) : Attempt :=
  let after := priorityAfter c d.instant mem
  if after = mem.priority then (db, .ok none)
  else if dryRun then (db, .ok (some (.priorityAdjust mem.id mem.priority after)))
  else
    match d.writeFault with
    | some e => (db, .error e)
    | none =>
      match db.update mem.id { priority := some after } d.now with
      | .error e => (db, .error e)
      | .ok (db, _) => (db, .ok (some (.priorityAdjust mem.id mem.priority after)))

def attempt (c : Chrono) (all : List Memory) (dryRun : Bool) (db : Db) (a : Action) (d : Draw) : Attempt :=
  match a with
  | .consolidate cluster => tryConsolidate db cluster dryRun d
  | .forget mem => tryForget db mem all dryRun d
  | .adjust mem => tryAdjust c db mem dryRun d

/-! ## The passes -/

structure AutonomyPassReport where
  clustersFormed : ℕ := 0
  memoriesConsolidated : ℕ := 0
  memoriesForgotten : ℕ := 0
  priorityAdjustments : ℕ := 0
  rollbackEntriesWritten : ℕ := 0
  errors : List String := []

/-- The database and the report so far. -/
structure Passes where
  db : Db
  report : AutonomyPassReport := {}

def Action.failure : Action → String
  | consolidate _ => "consolidate failed: "
  | forget _ => "forget failed: "
  | adjust _ => "priority feedback failed: "

def AutonomyPassReport.count (r : AutonomyPassReport) : RollbackEntry → AutonomyPassReport
  | .consolidate originals _ => { r with memoriesConsolidated := r.memoriesConsolidated + originals.length }
  | .forget _ => { r with memoriesForgotten := r.memoriesForgotten + 1 }
  | .priorityAdjust .. => { r with priorityAdjustments := r.priorityAdjustments + 1 }

section Run

variable (c : Chrono) (entryText : RollbackEntry → String) (all : List Memory) (dryRun : Bool)

/-- `persist_rollback_entry` where it is called, and what is reported of it. -/
def record (s : Passes) (entry : RollbackEntry) (d : Draw) : Passes :=
  let written := { s.report with rollbackEntriesWritten := s.report.rollbackEntriesWritten + 1 }
  if dryRun then { s with report := written }
  else
    let stored : Except String Db :=
      match d.entryFault with
      | some e => .error e
      | none => persistRollbackEntry s.db entry (entryText entry) d.entryId d.entryTs
    match stored with
    | .ok db => { db, report := written }
    | .error e => { s with report := { s.report with errors := s.report.errors ++ ["rollback-log write failed: " ++ e] } }

def act (s : Passes) (step : Action × Draw) : Passes :=
  let (a, d) := step
  let (db, result) := attempt c all dryRun s.db a d
  match result with
  | .error e => { db, report := { s.report with errors := s.report.errors ++ [a.failure ++ e] } }
  | .ok none => { s with db }
  | .ok (some entry) =>
    let s := record entryText dryRun { s with db } entry d
    { s with report := s.report.count entry }

/-- The draws of the actions of each pass. -/
structure Draws where
  merge : ℕ → Draw
  forget : ℕ → Draw
  adjust : ℕ → Draw

def drawn {α : Type} (xs : List α) (draws : ℕ → Draw) : List (α × Draw) := xs.zipIdx.map fun x => (x.1, draws x.2)

def consolidatePass (steps : List (List Memory × Draw)) (s : Passes) : Passes :=
  (steps.map fun x => (Action.consolidate x.1, x.2)).foldl (act c entryText all dryRun) s

def forgetPass (steps : List (Memory × Draw)) (s : Passes) : Passes :=
  (steps.map fun x => (Action.forget x.1, x.2)).foldl (act c entryText all dryRun) s

def adjustPass (steps : List (Memory × Draw)) (s : Passes) : Passes :=
  (steps.map fun x => (Action.adjust x.1, x.2)).foldl (act c entryText all dryRun) s

def runAutonomyPasses (u : Unicode) (order : List String) (draws : Draws) (db : Db) : Passes :=
  let clusters := findConsolidationClusters u order all
  let merged := consolidatePass c entryText all dryRun (drawn clusters draws.merge)
    { db, report := { clustersFormed := clusters.length } }
  let forgotten := forgetPass c entryText all dryRun (drawn all draws.forget) merged
  adjustPass c entryText all dryRun (drawn all draws.adjust) forgotten

end Run

/-! ## What an action does -/

section Steps

variable {c : Chrono} {entryText : RollbackEntry → String} {all : List Memory} {dryRun : Bool} {s : Passes} {d : Draw}
  {db db' : Db} {i : String} {mem : Memory}

theorem get_insert_eq_none_iff {id : String} (h : db.insert mem = .ok (db', id)) (hne : mem.id ≠ i) :
    db'.get i = none ↔ db.get i = none := by
  constructor
  · intro hnone
    by_contra hsome
    exact (Db.liveOn_insertOnConflict h).get_ne_none hsome hnone
  · exact fun hnone => Db.get_insertOnConflict_eq_none h hnone fun _ => hne

theorem record_db (entry : RollbackEntry) : (record entryText dryRun s entry d).db =
    if dryRun = true ∨ d.entryFault ≠ none then s.db
    else s.db.insertOrSkip (rollbackMemory entry (entryText entry) d.entryId d.entryTs) := by
  unfold record persistRollbackEntry Db.insertOrSkip
  cases dryRun with
  | true => rfl
  | false =>
    cases d.entryFault with
    | some e => rfl
    | none =>
      cases s.db.insert (rollbackMemory entry (entryText entry) d.entryId d.entryTs) with
      | error e => simp [settled, Except.map]
      | ok res => simp [settled, Except.map]

theorem record_sameIn {ns : String} (entry : RollbackEntry) (hns : ns ≠ "_curator/rollback") :
    SameIn ns s.db (record entryText dryRun s entry d).db := by
  rw [record_db]
  split_ifs
  · exact SameIn.refl ns s.db
  · exact Db.sameIn_insertOrSkip (Ne.symm hns)

theorem get_record_eq_none_iff (entry : RollbackEntry) (hne : d.entryId ≠ i) :
    (record entryText dryRun s entry d).db.get i = none ↔ s.db.get i = none := by
  rw [record_db]
  split_ifs
  · rfl
  · rcases Db.insertOrSkip_cases s.db (rollbackMemory entry (entryText entry) d.entryId d.entryTs) with ⟨id, hi⟩ | ⟨he, -, -⟩
    · exact get_insert_eq_none_iff hi hne
    · rw [he]

def after (c : Chrono) (all : List Memory) (dryRun : Bool) (db : Db) (step : Action × Draw) : Db :=
  (attempt c all dryRun db step.1 step.2).1

def entryOf (c : Chrono) (all : List Memory) (dryRun : Bool) (db : Db) (step : Action × Draw) : Option RollbackEntry :=
  match (attempt c all dryRun db step.1 step.2).2 with
  | .ok entry => entry
  | .error _ => none

theorem act_db (step : Action × Draw) : (act c entryText all dryRun s step).db =
    match entryOf c all dryRun s.db step with
    | none => after c all dryRun s.db step
    | some entry => (record entryText dryRun { s with db := after c all dryRun s.db step } entry step.2).db := by
  obtain ⟨a, d⟩ := step
  simp only [act, entryOf, after]
  cases (attempt c all dryRun s.db a d).2 with
  | error e => rfl
  | ok entry => cases entry <;> rfl

/-- The report after an action, but for the errors and the entries written. -/
theorem act_counts (step : Action × Draw) :
    let r := (act c entryText all dryRun s step).report
    let r' := match entryOf c all dryRun s.db step with
      | none => s.report
      | some entry => s.report.count entry
    r.clustersFormed = r'.clustersFormed ∧ r.memoriesConsolidated = r'.memoriesConsolidated ∧
      r.memoriesForgotten = r'.memoriesForgotten ∧ r.priorityAdjustments = r'.priorityAdjustments := by
  have hrecord : ∀ (p : Passes) entry, (record entryText dryRun p entry step.2).report.clustersFormed =
        p.report.clustersFormed ∧ (record entryText dryRun p entry step.2).report.memoriesConsolidated =
        p.report.memoriesConsolidated ∧ (record entryText dryRun p entry step.2).report.memoriesForgotten =
        p.report.memoriesForgotten ∧ (record entryText dryRun p entry step.2).report.priorityAdjustments =
        p.report.priorityAdjustments := by
    intro p entry
    unfold record
    simp only
    split_ifs
    · exact ⟨rfl, rfl, rfl, rfl⟩
    · split <;> exact ⟨rfl, rfl, rfl, rfl⟩
  obtain ⟨a, d⟩ := step
  simp only [act, entryOf]
  cases (attempt c all dryRun s.db a d).2 with
  | error e => exact ⟨rfl, rfl, rfl, rfl⟩
  | ok entry =>
    cases entry with
    | none => exact ⟨rfl, rfl, rfl, rfl⟩
    | some entry =>
      obtain ⟨h₁, h₂, h₃, h₄⟩ := hrecord { s with db := (attempt c all dryRun s.db a d).1 } entry
      cases entry <;> simp only [AutonomyPassReport.count, h₁, h₂, h₃, h₄, and_self]

end Steps

end Curator

end AiMemory
