import AiMemory.Db.Consolidate
import AiMemory.Db.Instants

/-!
# The curator's passes

`curator.rs` and `autonomy.rs`. A cycle reads its candidates once and then writes from these snapshots: tags and
contradictions into the metadata, a consolidation for each cluster, a deletion for each superseded memory, and nudges of the
priority. Each of the last three leaves an entry in `_curator/rollback`, and the cycle a report in `_curator/reports`. What
the language model answers is an argument.
-/

namespace AiMemory

open Relational

namespace Curator

/-! ## Candidates -/

def minContentLen : ℕ := 50

/-- `CuratorConfig`, less the interval and the dry run. -/
structure CuratorConfig where
  maxOpsPerCycle : ℕ := 100
  includeNamespaces : List String := []
  excludeNamespaces : List String := []

def isReserved (ns : String) : Bool := ns.toList.head? = some '_'

/-- `collect_candidates`: the clock is read for each of the two tiers. -/
def collectCandidates (cfg : CuratorConfig) (midNow longNow : String) (db : Db) : List Memory :=
  let query := fun tier => { ListQuery.everything (cfg.maxOpsPerCycle * 4) with tier := some tier }
  db.list (query .mid) midNow ++ db.list (query .long) longNow

def needsCuration (cfg : CuratorConfig) (mem : Memory) : Bool :=
  let hasAutoTags :=
    match mem.metadata.get "auto_tags" with
    | some (.arr tags) => !tags.isEmpty
    | _ => false
  !isReserved mem.ns && (cfg.includeNamespaces.isEmpty || cfg.includeNamespaces.contains mem.ns) &&
    !cfg.excludeNamespaces.contains mem.ns && decide (minContentLen ≤ Validate.byteLen mem.content.toList) && !hasAutoTags

/-! ## Tags and contradictions -/

def autoTagged (mem : Memory) (tags : List String) (curatedAt : String) : Json :=
  (mem.metadata.set "auto_tags" (.arr (tags.map .str))).set "curated_at" (.str curatedAt)

def persistAutoTags (db : Db) (mem : Memory) (tags : List String) (curatedAt now : String) : Except String Db :=
  (db.update mem.id { metadata := some (autoTagged mem tags curatedAt) } now).map Prod.fst

/-- The list under `confirmed_contradictions`. -/
def confirmedContradictions (mem : Memory) : List Json :=
  match mem.metadata.get "confirmed_contradictions" with
  | some (.arr ids) => ids
  | _ => []

def contradicted (mem : Memory) (againstId : String) : Json :=
  let ids := (confirmedContradictions mem).filterMap Json.asStr
  mem.metadata.set "confirmed_contradictions"
    (.arr ((if againstId ∈ ids then ids else ids ++ [againstId]).map .str))

def persistContradiction (db : Db) (mem : Memory) (againstId now : String) : Except String Db :=
  (db.update mem.id { metadata := some (contradicted mem againstId) } now).map Prod.fst

/-! ## The autonomy passes -/

inductive RollbackEntry where
  | consolidate (originals : List Memory) (resultId : String)
  | forget (snapshot : Memory)
  | priorityAdjust (memoryId : String) (before after : ℤ)
  deriving DecidableEq

def RollbackEntry.actionTag : RollbackEntry → String
  | consolidate .. => "consolidate"
  | forget _ => "forget"
  | priorityAdjust .. => "priority_adjust"

def source : String := "ai-memory curator (autonomy)"

def consolidatedTitle (cluster : List Memory) : String :=
  let baseTitle := ((cluster.map fun m => m.title).head?).getD "(consolidated)"
  s!"[consolidated] {baseTitle}"

/-- `consolidate_cluster`, where `summary` is the answer of `summarize_memories`. -/
def consolidateCluster (db : Db) (cluster : List Memory) (summary : Except String String) (newId now : String) :
    Except String (Db × Option RollbackEntry) :=
  match cluster with
  | m :: rest =>
    if rest = [] then .ok (db, none)
    else if cluster.any fun m => isReserved m.ns then .ok (db, none)
    else
      match summary with
      | .error e => .error e
      | .ok summary =>
        let tier := rest.foldl (fun t m => max t m.tier) m.tier
        match db.consolidate (cluster.map fun m => m.id) (consolidatedTitle cluster) summary m.ns tier source "ai:curator"
          newId now with
        | .error e => .error e
        | .ok (db, resultId) => .ok (db, some (.consolidate cluster resultId))
  | [] => .ok (db, none)

/-- What a consolidation of a cluster can do: nothing, or consolidate the memories of the cluster. -/
theorem consolidateCluster_cases {db db' : Db} {cluster : List Memory} {summary : Except String String}
    {newId now : String} {entry : Option RollbackEntry}
    (h : consolidateCluster db cluster summary newId now = .ok (db', entry)) : db' = db ∨
    ∃ text ns tier id, summary = .ok text ∧ db.consolidate (cluster.map fun m => m.id) (consolidatedTitle cluster) text ns tier
      source "ai:curator" newId now = .ok (db', id) := by
  unfold consolidateCluster at h
  cases cluster with
  | nil => exact Or.inl (by cases h; rfl)
  | cons m rest =>
    simp only at h
    split_ifs at h
    · exact Or.inl (by cases h; rfl)
    · exact Or.inl (by cases h; rfl)
    · cases summary with
      | error e => cases h
      | ok text =>
        simp only at h
        split at h
        · cases h
        · rename_i id hc
          cases h
          exact Or.inr ⟨text, _, _, id, rfl, hc⟩

/-- The memory has been contradicted by one that is newer and no less certain. -/
def isSuperseded (mem : Memory) (all : List Memory) : Bool :=
  (confirmedContradictions mem).any fun v => v.asStr.any fun otherId =>
    (all.reverse.find? fun m => m.id = otherId).any fun other =>
      mem.updatedAt < other.updatedAt ∧ mem.confidence ≤ other.confidence

def forgetIfSuperseded (db : Db) (mem : Memory) (all : List Memory) : Db × Option RollbackEntry :=
  if isSuperseded mem all then ((db.delete mem.id).1, some (.forget mem)) else (db, none)

/-- `num_days` of the time since a stamp. -/
def daysSince (c : Chrono) (now : ℤ) (stamp : String) : Option ℤ :=
  (c.parseFromRfc3339 stamp).map fun t => (now - t).tdiv (86400 * 10 ^ 9)

def priorityAfter (c : Chrono) (now : ℤ) (mem : Memory) : ℤ :=
  let recent := (mem.lastAccessedAt.bind (daysSince c now)).any (· ≤ 7)
  let coldEnough := (daysSince c now mem.createdAt).any (30 ≤ ·)
  if 10 ≤ mem.accessCount ∧ recent ∧ mem.priority < 10 then min (mem.priority + 1) 10
  else if mem.accessCount = 0 ∧ coldEnough ∧ 1 < mem.priority then max (mem.priority - 1) 1
  else mem.priority

def applyPriorityFeedback (c : Chrono) (db : Db) (mem : Memory) (now : ℤ) (updateNow : String) :
    Except String (Db × Option RollbackEntry) :=
  let after := priorityAfter c now mem
  if after = mem.priority then .ok (db, none)
  else
    match db.update mem.id { priority := some after } updateNow with
    | .error e => .error e
    | .ok (db, _) => .ok (db, some (.priorityAdjust mem.id mem.priority after))

theorem applyPriorityFeedback_cases {c : Chrono} {db db' : Db} {mem : Memory} {now : ℤ} {updateNow : String}
    {entry : Option RollbackEntry} (h : applyPriorityFeedback c db mem now updateNow = .ok (db', entry)) : db' = db ∨
    ∃ found, db.update mem.id { priority := some (priorityAfter c now mem) } updateNow = .ok (db', found) := by
  unfold applyPriorityFeedback at h
  simp only at h
  split_ifs at h
  · exact Or.inl (by cases h; rfl)
  · split at h
    · cases h
    · rename_i found hu
      cases h
      exact Or.inr ⟨found, hu⟩

/-! ## Rollback log and report -/

/-- The memory of a rollback entry; `content` is the entry as `serde_json` prints it. -/
def rollbackMemory (entry : RollbackEntry) (content id ts : String) : Memory :=
  let action := entry.actionTag
  { id
    tier := .long
    ns := "_curator/rollback"
    title := s!"curator {action} @ {ts}"
    content
    tags := ["_curator", "_rollback", action]
    priority := 3
    confidence := 1
    source
    accessCount := 0
    createdAt := ts
    updatedAt := ts
    lastAccessedAt := none
    expiresAt := none
    metadata := .obj [("action", .str action), ("agent_id", .str "ai:curator")] }

def persistRollbackEntry (db : Db) (entry : RollbackEntry) (content id ts : String) : Except String Db :=
  (db.insert (rollbackMemory entry content id ts)).map Prod.fst

/-- The memory of a cycle's report; `content` is the report as `serde_json` prints it. -/
def reportMemory (content id ts : String) : Memory where
  id
  tier := .mid
  ns := "_curator/reports"
  title := s!"curator cycle @ {ts}"
  content
  tags := ["_curator", "_report"]
  priority := 2
  confidence := 1
  source
  accessCount := 0
  createdAt := ts
  updatedAt := ts
  lastAccessedAt := none
  expiresAt := none
  metadata := .obj [("agent_id", .str "ai:curator")]

def persistSelfReport (db : Db) (content id ts : String) : Except String Db :=
  (db.insert (reportMemory content id ts)).map Prod.fst

end Curator

end AiMemory
