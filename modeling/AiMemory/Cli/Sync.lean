import AiMemory.Lib.Transitions
import AiMemory.Db.Links

/-!
# `ai-memory sync`

The in-process sync of `cli/sync.rs` between a local and a remote database file. `run` pulls, pushes or
merges: a pull or a push writes every exported row of the source with `insert`, a merge writes the rows
of both sides, exported before either changes, with `insert_if_newer`. `cmdSyncDryRun` is its preview,
which looks a row up by id and compares `updated_at`.

A command reads the clock once here, and the identity of its caller is an argument.
-/

namespace AiMemory

open Relational

namespace Db

/-- `expires_at IS NULL OR expires_at > now`. -/
def unexpired (now : String) (m : Memory) : Bool := m.expiresAt.all (now < ·)

def exportAll (db : Db) (now : String) : List Memory :=
  (db.live.filter (unexpired now)).insertionSort fun a b => a.createdAt ≤ b.createdAt

/-- `export_links`: the links between memories that have not expired. -/
def exportLinks (db : Db) (now : String) : List MemoryLink :=
  (db.links.rows.filter fun l => ((db.get l.sourceId).any fun r => unexpired now r.toMemory) &&
    ((db.get l.targetId).any fun r => unexpired now r.toMemory)).map fun l => l.toMemoryLink

section Export

variable {db : Db} {now : String} {m : Memory}

theorem mem_exportAll : m ∈ db.exportAll now ↔ m ∈ db.live ∧ unexpired now m = true := by
  unfold exportAll
  rw [List.mem_insertionSort, List.mem_filter]

theorem nodup_exportAll {α : Type} {f : Memory → α} (h : (db.live.map f).Nodup) : ((db.exportAll now).map f).Nodup := by
  have hperm := List.perm_insertionSort (fun a b : Memory => a.createdAt ≤ b.createdAt)
    (db.live.filter (unexpired now))
  exact (hperm.map f).nodup_iff.mpr (h.sublist (List.filter_sublist.map f))

theorem nodup_exportAll_id : ((db.exportAll now).map fun m => m.id).Nodup := by
  refine nodup_exportAll ?_
  unfold live
  rw [List.map_map]
  exact db.memories.nodup

theorem nodup_exportAll_key : ((db.exportAll now).map fun m => m.key).Nodup := by
  refine nodup_exportAll ?_
  unfold live
  rw [List.map_map]
  exact db.memories.uniq

end Export

end Db

namespace Cli

/-- `SyncArgs`, less the path of the remote file and the choice of a dry run. -/
structure SyncArgs where
  direction : String := "merge"
  trustSource : Bool := false

/-- `restamp_agent_id`: the caller's id as `metadata.agent_id`, and the original one beside it. -/
def restampAgentId (mem : Memory) (callerId : String) : Memory :=
  let original := (mem.metadata.get "agent_id").bind Json.asStr
  let stamped := mem.metadata.set "agent_id" (.str callerId)
  { mem with
    metadata :=
      match original with
      | some orig => if orig ≠ callerId then stamped.set "imported_from_agent_id" (.str orig) else stamped
      | none => stamped }

/-- A pulled row as it is written: restamped, unless the source is trusted. -/
def SyncArgs.owned (args : SyncArgs) (callerId : String) (mem : Memory) : Memory :=
  if args.trustSource then mem else restampAgentId mem callerId

/-! ## Writing the rows of the other side -/

/-- How a row is written: with `insert` or with `insert_if_newer`. -/
inductive Writer where
  | insert
  | insertIfNewer
  deriving DecidableEq

def Writer.merge : Writer → MemoryRow → Memory → MemoryRow
  | insert => upsertRow
  | insertIfNewer => mergeNewer

theorem Writer.merge_id (w : Writer) (mem : Memory) (r : MemoryRow) : (w.merge r mem).id = r.id := by
  cases w <;> rfl

theorem Writer.merge_key (w : Writer) (mem : Memory) (r : MemoryRow) : (w.merge r mem).key = r.key := by
  cases w <;> rfl

def Writer.write : Writer → Db → Memory → Except String (Db × String)
  | insert => Db.insert
  | insertIfNewer => Db.insertIfNewer

theorem Writer.write_eq (w : Writer) (db : Db) (mem : Memory) : w.write db mem =
    db.insertOnConflict mem (w.merge · mem) (w.merge_id mem) (w.merge_key mem) := by
  cases w <;> rfl

section Loops

variable (rfc3339 : Rfc3339) (w : Writer) (now : String)

/-- One row of the loop over the memories, with the number of rows written so far. -/
def importRow (s : Db × ℕ) (owned : Memory) : Db × ℕ :=
  if ¬Accepts (Validate.validateMemory rfc3339 owned) then s
  else
    match w.write s.1 owned with
    | .ok (db, _) => (db, s.2 + 1)
    | .error _ => s

def importLink (db : Db) (link : MemoryLink) : Db :=
  if ¬Accepts (Validate.validateLink link.sourceId link.targetId link.relation) then db
  else
    match db.createLink link.sourceId link.targetId link.relation now with
    | .ok db => db
    | .error _ => db

def importAll (mems : List Memory) (links : List MemoryLink) (db : Db) : Db × ℕ :=
  let (db, n) := mems.foldl (importRow rfc3339 w) (db, 0)
  (links.foldl (importLink now) db, n)

end Loops

/-- What `run` prints. -/
inductive RunReport where
  | pull (imported : ℕ)
  | push (exported : ℕ)
  | merge (pulled pushed : ℕ)
  deriving DecidableEq

/-- `run`: the two databases afterwards. -/
def run (rfc3339 : Rfc3339) (args : SyncArgs) (callerId now : String) (localDb remoteDb : Db) :
    Except String (Db × Db × RunReport) :=
  let rMems := (remoteDb.exportAll now).map (args.owned callerId)
  let rLinks := remoteDb.exportLinks now
  let lMems := localDb.exportAll now
  let lLinks := localDb.exportLinks now
  if args.direction = "pull" then
    let (db, n) := importAll rfc3339 .insert now rMems rLinks localDb
    .ok (db, remoteDb, .pull n)
  else if args.direction = "push" then
    let (db, n) := importAll rfc3339 .insert now lMems lLinks remoteDb
    .ok (localDb, db, .push n)
  else if args.direction = "merge" then
    let (db, pulled) := importAll rfc3339 .insertIfNewer now rMems rLinks localDb
    let (db', pushed) := importAll rfc3339 .insertIfNewer now lMems lLinks remoteDb
    .ok (db, db', .merge pulled pushed)
  else
    let direction := args.direction
    .error s!"invalid direction: {direction} (use pull, push, merge)"

/-! ## What one row does to the target -/

section Import

variable {rfc3339 : Rfc3339} {w : Writer} {now : String} {db : Db} {m : Memory}

def importDb (rfc3339 : Rfc3339) (w : Writer) (db : Db) (owned : Memory) : Db :=
  (importRow rfc3339 w (db, 0) owned).1

theorem importRow_fst (s : Db × ℕ) (owned : Memory) :
    (importRow rfc3339 w s owned).1 = importDb rfc3339 w s.1 owned := by
  unfold importDb importRow
  split_ifs
  · cases w.write s.1 owned <;> rfl
  · rfl

theorem foldl_importRow_fst (mems : List Memory) (s : Db × ℕ) :
    (mems.foldl (importRow rfc3339 w) s).1 = mems.foldl (importDb rfc3339 w) s.1 := by
  induction mems generalizing s with
  | nil => rfl
  | cons m mems ih => rw [List.foldl_cons, ih, importRow_fst, List.foldl_cons]

/-- The two things a row can do: it is written, or it is skipped because it does not validate or its id
belongs to a row of another title and namespace. -/
theorem importDb_cases (rfc3339 : Rfc3339) (w : Writer) (db : Db) (m : Memory) :
    (∃ id, m.Valid rfc3339 ∧ w.write db m = .ok (importDb rfc3339 w db m, id)) ∨
    (importDb rfc3339 w db m = db ∧ (m.Valid rfc3339 → db.getKey m.key = none ∧ db.get m.id ≠ none)) := by
  unfold importDb importRow
  by_cases hv : Accepts (Validate.validateMemory rfc3339 m)
  · rw [if_neg (not_not.mpr hv)]
    cases hw : w.write db m with
    | ok res => exact Or.inl ⟨res.2, hv, rfl⟩
    | error e =>
      rw [Writer.write_eq] at hw
      exact Or.inr ⟨rfl, fun _ => Db.insertOnConflict_error_iff.mp ⟨e, hw⟩⟩
  · rw [if_pos hv]
    exact Or.inr ⟨rfl, fun hc => absurd hc hv⟩

theorem getKey_importDb_of_ne {k : String × String} (hk : k ≠ m.key) :
    (importDb rfc3339 w db m).getKey k = db.getKey k := by
  obtain ⟨id, -, hw⟩ | ⟨he, -⟩ := importDb_cases rfc3339 w db m
  · rw [Writer.write_eq] at hw
    exact Db.getKey_insertOnConflict_of_ne hw hk
  · rw [he]

theorem liveOn_importDb (rfc3339 : Rfc3339) (w : Writer) (db : Db) (m : Memory) : db.LiveOn (importDb rfc3339 w db m) := by
  obtain ⟨id, -, hw⟩ | ⟨he, -⟩ := importDb_cases rfc3339 w db m
  · rw [Writer.write_eq] at hw
    exact Db.liveOn_insertOnConflict hw
  · exact he.symm ▸ .refl db

theorem get_importDb_eq_none {i : String} (hi : m.id ≠ i) :
    (importDb rfc3339 w db m).get i = none ↔ db.get i = none := by
  constructor
  · intro hnone
    by_contra hsome
    exact (liveOn_importDb rfc3339 w db m).get_ne_none hsome hnone
  · intro hnone
    obtain ⟨id, -, hw⟩ | ⟨he, -⟩ := importDb_cases rfc3339 w db m
    · rw [Writer.write_eq] at hw
      exact Db.get_insertOnConflict_eq_none hw hnone fun _ => hi
    · rwa [he]

/-- A row writes the table `memories` only. -/
theorem importDb_frame (db : Db) (m : Memory) :
    importDb rfc3339 w db m = { db with memories := (importDb rfc3339 w db m).memories } := by
  obtain ⟨id, -, hw⟩ | ⟨he, -⟩ := importDb_cases rfc3339 w db m
  · rw [Writer.write_eq] at hw
    exact Db.insertOnConflict_frame hw
  · rw [he]

theorem foldl_importDb_links (db : Db) (mems : List Memory) :
    (mems.foldl (importDb rfc3339 w) db).links = db.links :=
  Machine.foldl_keeps (fun d m => by rw [importDb_frame d m]) db mems

theorem importLink_memories (db : Db) (link : MemoryLink) : (importLink now db link).memories = db.memories := by
  unfold importLink
  split_ifs
  · split
    · rename_i hl
      rw [Db.createLink_frame hl]
    · rfl
  · rfl

theorem importAll_memories (mems : List Memory) (links : List MemoryLink) (db : Db) :
    (importAll rfc3339 w now mems links db).1.memories = (mems.foldl (importDb rfc3339 w) db).memories := by
  unfold importAll
  rw [← foldl_importRow_fst mems (db, 0)]
  exact Machine.foldl_keeps importLink_memories _ links

end Import

/-! ## The preview -/

inductive MergeOutcome where
  | new
  | update
  | noop
  deriving DecidableEq

def classify (existing : Option Memory) (incoming : Memory) : MergeOutcome :=
  match existing with
  | none => .new
  | some existing => if incoming.updatedAt > existing.updatedAt then .update else .noop

/-- The counters of one direction. -/
structure PreviewCounts where
  new : ℕ := 0
  update : ℕ := 0
  noop : ℕ := 0
  links : ℕ := 0
  deriving DecidableEq

structure SyncPreview where
  pull : PreviewCounts := {}
  push : PreviewCounts := {}
  deriving DecidableEq

def PreviewCounts.count (c : PreviewCounts) : MergeOutcome → PreviewCounts
  | .new => { c with new := c.new + 1 }
  | .update => { c with update := c.update + 1 }
  | .noop => { c with noop := c.noop + 1 }

/-- What the preview makes of a row: it looks for its id among the exported rows of the target. -/
def outcome (target : List Memory) (m : Memory) : MergeOutcome :=
  classify (target.find? fun x => x.id = m.id) m

def preview (target source : List Memory) (links : ℕ) : PreviewCounts :=
  source.foldl (fun c m => c.count (outcome target m)) { links }

def cmdSyncDryRun (direction now : String) (localDb remoteDb : Db) : SyncPreview where
  pull :=
    if direction ≠ "push" then
      preview (localDb.exportAll now) (remoteDb.exportAll now) (remoteDb.exportLinks now).length
    else {}
  push :=
    if direction ≠ "pull" then
      preview (remoteDb.exportAll now) (localDb.exportAll now) (localDb.exportLinks now).length
    else {}

theorem foldl_count (target source : List Memory) (c : PreviewCounts) :
    source.foldl (fun c m => c.count (outcome target m)) c =
      { new := c.new + (source.filter fun m => outcome target m = .new).length
        update := c.update + (source.filter fun m => outcome target m = .update).length
        noop := c.noop + (source.filter fun m => outcome target m = .noop).length
        links := c.links } := by
  induction source generalizing c with
  | nil => rfl
  | cons m source ih =>
    rw [List.foldl_cons, ih]
    cases hm : outcome target m <;> simp [hm, PreviewCounts.count] <;> omega

theorem preview_eq (target source : List Memory) (links : ℕ) : preview target source links =
    { new := (source.filter fun m => outcome target m = .new).length
      update := (source.filter fun m => outcome target m = .update).length
      noop := (source.filter fun m => outcome target m = .noop).length
      links } := by
  unfold preview
  rw [foldl_count]
  simp

end Cli

end AiMemory
