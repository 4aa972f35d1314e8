import AiMemory.Db.Enforce
import AiMemory.Db.Inserts
import AiMemory.Lib.Like
import AiMemory.Sync.Push

/-!
# The memory endpoints

The handlers of `handlers.rs` that write the table `memories`: `create_memory`, `bulk_create`, `update_memory`,
`delete_memory`, `forget_memories`, `archive_by_ids`, `import_memories` and `consolidate_memories`. Each takes the lock of the
database for its statements, so a request is one step here; one request reads the clock once.

A reply stands for the response before the fan-out to the peers. What a handler sends them is the memory of the reply for
`create_memory` and `update_memory`, every created memory for `bulk_create`, and the id for `delete_memory` and each archived id.
-/

namespace AiMemory

open Relational Validate

structure CreateMemory where
  tier : Tier := .mid
  ns : String := "global"
  title : String
  content : String
  tags : List String := []
  priority : ℤ := 5
  confidence : ℚ := 1
  source : String := "api"
  expiresAt : Option String := none
  ttlSecs : Option ℤ := none
  metadata : Json := .obj []
  agentId : Option String := none
  scope : Option String := none
  onConflict : Option String := none
  deriving DecidableEq

def CreateMemory.onConflictMode (body : CreateMemory) : String := body.onConflict.getD "error"

/-! ## Validation of requests -/

namespace Validate

def validScopes : List String := ["private", "team", "unit", "org", "collective"]

def validateScope (scope : String) : Except String Unit := do
  bailIf (scope = "") "scope cannot be empty"
  let valid := ", ".intercalate validScopes
  bailIf (!validScopes.contains scope) s!"invalid scope '{scope}' — must be one of: {valid}"

/-- `validate_expires_at`, at the instant `now`. -/
def validateExpiresAt (c : Chrono) (now : ℤ) (ts : String) : Except String Unit := do
  bailIf (!c.rfc3339 ts) s!"expires_at is not valid RFC3339: '{ts}'"
  bailIf ((c.parseFromRfc3339 ts).any (· < now)) "expires_at is in the past"

def validateTtlSecs (secs : ℤ) : Except String Unit := do
  bailIf (secs ≤ 0) s!"ttl_secs must be positive (got {secs})"
  bailIf (365 * 24 * 3600 < secs) "ttl_secs exceeds maximum of 1 year"

def validateCreate (c : Chrono) (now : ℤ) (mem : CreateMemory) : Except String Unit := do
  validateTitle mem.title
  validateContent mem.content
  validateNamespace mem.ns
  validateSource mem.source
  validateTags mem.tags
  validatePriority mem.priority
  validateConfidence mem.confidence
  ifSome (validateExpiresAt c now) mem.expiresAt
  ifSome validateTtlSecs mem.ttlSecs
  validateMetadata mem.metadata

/-- The loop over the ids of a consolidation, with the ones it has seen. -/
def validateDistinctIds : List String → List String → Except String Unit
  | _, [] => pure ()
  | seen, id :: ids => do
    validateId id
    bailIf (seen.contains id) s!"duplicate memory ID: {id}"
    validateDistinctIds (id :: seen) ids

def validateConsolidate (ids : List String) (title summary ns : String) : Except String Unit := do
  bailIf (ids.length < 2) "need at least 2 memory IDs to consolidate"
  bailIf (100 < ids.length) "cannot consolidate more than 100 memories at once"
  validateDistinctIds [] ids
  validateTitle title
  validateContent summary
  validateNamespace ns

end Validate

/-- `resolve_http_agent_id` of a request whose body may name the agent. -/
def resolveBodyAgentId (body header : Option String) (requestId : String) : Except String String :=
  match body with
  | some id =>
    if id = "" then resolveHttpAgentId header requestId else (validateAgentId id).map fun _ => id
  | none => resolveHttpAgentId header requestId

def preserveAgentId (existing incoming : Json) : Json :=
  let merged := if incoming.isObject then incoming else .obj []
  match existing.get "agent_id" with
  | some existingId => merged.set "agent_id" existingId
  | none => merged

namespace Db

def findByTitleNamespace (db : Db) (title ns : String) : Option String := (db.getKey (title, ns)).map fun r => r.id

def maxVersionSuffix : ℕ := 1024

def nextVersionedTitle (db : Db) (baseTitle ns : String) : Except String String :=
  if (db.findByTitleNamespace baseTitle ns).isNone then .ok baseTitle
  else
    match ((List.range' 2 (maxVersionSuffix - 1)).map fun n => s!"{baseTitle} ({n})").find? fun candidate =>
      (db.findByTitleNamespace candidate ns).isNone with
    | some candidate => .ok candidate
    | none => .error
      s!"could not find a free versioned title for '{baseTitle}' in namespace '{ns}' within {maxVersionSuffix} attempts"

def getByPrefix (db : Db) (idPrefix : String) : Except String (Option MemoryRow) :=
  match db.memories.rows.filter fun r => Like.like '\\' (Like.escape '\\' idPrefix.toList ++ ['%']) r.id.toList with
  | [] => .ok none
  | [r] => .ok (some r)
  | rows =>
    let n := rows.length
    let ids := "\n".intercalate (rows.map fun r => r.id)
    .error s!"ambiguous ID prefix '{idPrefix}': {n} matches\n{ids}"

def resolveId (db : Db) (id : String) : Except String (Option MemoryRow) :=
  match db.get id with
  | some r => .ok (some r)
  | none => db.getByPrefix id

end Db

namespace MemoryApi

/-- What the handlers get from outside: `chrono`, the configuration, `serde_json` on a memory, full-text search and the
embedding model. -/
structure App where
  chrono : Chrono
  mode : PermissionsMode
  ttlForTier : Tier → Option ℤ
  archiveOnGc : Bool
  memoryToValue : Memory → Json
  memoryFromValue : Json → Except String Memory
  fts : Fts
  embedder : Option Embedder

/-- What one request draws: the time, the digits of an anonymous request id, and its fresh ids in order. -/
structure Draw (chrono : Chrono) where
  now : chrono.Reading
  requestId : String
  newId : ℕ → String

/-- The responses that are no success, with the texts of their errors. -/
inductive Refusal where
  | badRequest (error : String)
  | forbidden (error : String)
  | notFound (error : String)
  | conflict (error : String) (existingId : Option String)
  | internalServerError (error : String)
  deriving DecidableEq

/-- A response of a governed handler that is a success: done, or queued for approval. -/
inductive Outcome (α : Type) where
  | done (a : α)
  | pending (pendingId : String)
  deriving DecidableEq

/-- `set_embedding` of a text, where a failure is only logged. -/
def App.refresh (app : App) (db : Db) (id text : String) : Db :=
  match app.embedder with
  | none => db
  | some e =>
    match e.embed text with
    | none => db
    | some blob =>
      match db.setEmbedding id blob e.dim with
      | .ok db => db
      | .error _ => db

/-! ## `create_memory` -/

def App.expiresAt (app : App) (now : app.chrono.Reading) (body : CreateMemory) : Option String :=
  body.expiresAt.or ((body.ttlSecs.or (app.ttlForTier body.tier)).map fun s =>
    app.chrono.toRfc3339 (now.instant + s * 10 ^ 9))

/-- The `Memory` that `create_memory` and `bulk_create` build from a body. -/
def App.memory (app : App) (now : app.chrono.Reading) (id title : String) (metadata : Json) (body : CreateMemory) :
    Memory where
  id
  tier := body.tier
  ns := body.ns
  title
  content := body.content
  tags := body.tags
  priority := max 1 (min body.priority 10)
  confidence := max 0 (min body.confidence 1)
  source := body.source
  accessCount := 0
  createdAt := now.text
  updatedAt := now.text
  lastAccessedAt := none
  expiresAt := app.expiresAt now body
  metadata

/-- The metadata to store: the agent's id and the scope of the request go into it. -/
def createMetadata (body : CreateMemory) (agentId : String) : Except String Json :=
  let metadata := body.metadata.set "agent_id" (.str agentId)
  match body.scope with
  | none => .ok metadata
  | some s =>
    match validateScope s with
    | .error e => .error e
    | .ok () => .ok (metadata.set "scope" (.str s))

def resolveTitle (db : Db) (body : CreateMemory) : Except Refusal String :=
  let mode := body.onConflictMode
  if mode = "error" then
    match db.findByTitleNamespace body.title body.ns with
    | some existingId =>
      let title := body.title
      let ns := body.ns
      .error (.conflict s!"memory with title '{title}' already exists in namespace '{ns}'" (some existingId))
    | none => .ok body.title
  else if mode = "version" then
    match db.nextVersionedTitle body.title body.ns with
    | .ok title => .ok title
    | .error _ => .error (.internalServerError "could not pick a versioned title")
  else .ok body.title

/-- The part of `create_memory` before the gate: the memory to store. -/
def App.prepare (app : App) (t : Draw app.chrono) (header : Option String) (body : CreateMemory) (db : Db) :
    Except Refusal Memory :=
  match validateCreate app.chrono t.now.instant body with
  | .error e => .error (.badRequest e)
  | .ok () =>
    match resolveBodyAgentId body.agentId header t.requestId with
    | .error e => .error (.badRequest s!"invalid agent_id: {e}")
    | .ok agentId =>
      match createMetadata body agentId with
      | .error e => .error (.badRequest e)
      | .ok metadata =>
        let mode := body.onConflictMode
        if mode ∉ ["error", "merge", "version"] then
          .error (.badRequest s!"invalid on_conflict '{mode}' (expected error|merge|version)")
        else
          match resolveTitle db body with
          | .error r => .error r
          | .ok title => .ok (app.memory t.now (t.newId 0) title metadata body)

def createMemory (app : App) (t : Draw app.chrono) (header : Option String) (body : CreateMemory) (db : Db) :
    Db × Except Refusal (Outcome Memory) :=
  match app.prepare t header body db with
  | .error r => (db, .error r)
  | .ok mem =>
    match db.enforceGovernance app.mode .store mem.ns ((Db.ownerOf mem).getD "") none none (app.memoryToValue mem)
      (t.newId 1) t.now.text with
    | .error _ => (db, .error (.internalServerError "governance check failed"))
    | .ok (db, .deny reason) => (db, .error (.forbidden s!"store denied by governance: {reason}"))
    | .ok (db, .pending pendingId) => (db, .ok (.pending pendingId))
    | .ok (db, .allow) =>
      match db.insert mem with
      | .error _ => (db, .error (.internalServerError "internal server error"))
      | .ok (db, actualId) =>
        (app.refresh db actualId (body.title ++ " " ++ body.content), .ok (.done { mem with id := actualId }))

/-! ## `bulk_create` -/

/-- One body of `bulk_create`, with the memories created and the errors so far. -/
def App.bulkItem (app : App) (t : Draw app.chrono) (s : Db × List Memory × List String) (item : CreateMemory × ℕ) :
    Db × List Memory × List String :=
  let (body, i) := item
  match validateCreate app.chrono t.now.instant body with
  | .error e =>
    let title := body.title
    (s.1, s.2.1, s.2.2 ++ [s!"{title}: {e}"])
  | .ok () =>
    let mem := app.memory t.now (t.newId i) body.title body.metadata body
    match s.1.insert mem with
    | .ok (db, _) => (db, s.2.1 ++ [mem], s.2.2)
    | .error e => (s.1, s.2.1, s.2.2 ++ [e])

/-- `bulk_create`: the memories created and the errors. -/
def bulkCreate (app : App) (t : Draw app.chrono) (bodies : List CreateMemory) (db : Db) :
    Db × Except Refusal (List Memory × List String) :=
  if maxBulkSize < bodies.length then (db, .error (.badRequest s!"bulk operations limited to {maxBulkSize} items"))
  else
    let (db, created, errors) := bodies.zipIdx.foldl (app.bulkItem t) (db, [], [])
    (db, .ok (created, errors))

/-! ## `update_memory` -/

/-- `str::contains`. -/
def containsText (pattern s : String) : Bool := pattern.toList <:+: s.toList

/-- The answer to a `resolve_id` that did not find a row. -/
def resolveRow (db : Db) (id : String) : Except Refusal MemoryRow :=
  match db.resolveId id with
  | .ok (some r) => .ok r
  | .ok none => .error (.notFound "not found")
  | .error msg =>
    if containsText "ambiguous ID prefix" msg then .error (.badRequest msg)
    else .error (.internalServerError "internal server error")

/-- `update_memory`: the row afterwards. -/
def updateMemory (app : App) (t : Draw app.chrono) (id : String) (body : UpdateMemory) (db : Db) :
    Db × Except Refusal (Option Memory) :=
  match validateId id with
  | .error e => (db, .error (.badRequest e))
  | .ok () =>
    match validateUpdate app.chrono.rfc3339 body with
    | .error e => (db, .error (.badRequest e))
    | .ok () =>
      match resolveRow db id with
      | .error r => (db, .error r)
      | .ok target =>
        let preserved := body.metadata.map (preserveAgentId target.metadata)
        match db.update target.id { body with metadata := preserved } t.now.text with
        | .ok (db, false, _) => (db, .error (.notFound "not found"))
        | .ok (db, true, _) =>
          let mem := (db.get target.id).map fun r => r.toMemory
          let db :=
            match mem with
            | some m =>
              if body.title.isSome ∨ body.content.isSome then app.refresh db target.id (m.title ++ " " ++ m.content)
              else db
            | none => db
          (db, .ok mem)
        | .error msg =>
          if containsText "already exists in namespace" msg then (db, .error (.conflict msg none))
          else (db, .error (.internalServerError "internal server error"))

/-! ## Removals -/

/-- `delete_memory`: the id of the deleted memory. -/
def deleteMemory (app : App) (t : Draw app.chrono) (header : Option String) (id : String) (db : Db) :
    Db × Except Refusal (Outcome String) :=
  match validateId id with
  | .error e => (db, .error (.badRequest e))
  | .ok () =>
    match resolveRow db id with
    | .error r => (db, .error r)
    | .ok target =>
      match resolveHttpAgentId header t.requestId with
      | .error e => (db, .error (.badRequest s!"invalid agent_id: {e}"))
      | .ok agentId =>
        match db.enforceGovernance app.mode .delete target.ns agentId (some target.id) (Db.ownerOf target.toMemory)
          (.obj [("id", .str target.id), ("title", .str target.title)]) (t.newId 0) t.now.text with
        | .error _ => (db, .error (.internalServerError "governance check failed"))
        | .ok (db, .deny reason) => (db, .error (.forbidden s!"delete denied by governance: {reason}"))
        | .ok (db, .pending pendingId) => (db, .ok (.pending pendingId))
        | .ok (db, .allow) =>
          match db.delete target.id with
          | (db, true) => (db, .ok (.done target.id))
          | (db, false) => (db, .error (.notFound "not found"))

structure ForgetQuery where
  ns : Option String := none
  pattern : Option String := none
  tier : Option Tier := none

/-- `forget_memories`: the number of rows deleted. -/
def forgetMemories (app : App) (t : Draw app.chrono) (body : ForgetQuery) (db : Db) : Db × Except Refusal ℕ :=
  match db.forget app.fts body.ns body.pattern body.tier app.archiveOnGc t.now.text with
  | .ok (db, n) => (db, .ok n)
  | .error e => (db, .error (.badRequest e))

def checkIds : List String → Except Refusal Unit
  | [] => .ok ()
  | id :: ids =>
    match validateId id with
    | .error e => .error (.badRequest s!"invalid id {id}: {e}")
    | .ok () => checkIds ids

/-- One id of `archive_by_ids`, with the ids archived and missing so far. -/
def archiveItem (reason now : String) (s : Db × List String × List String) (id : String) :
    Db × List String × List String :=
  match s.1.archiveMemory id (some reason) now with
  | (db, true) => (db, s.2.1 ++ [id], s.2.2)
  | (db, false) => (db, s.2.1, s.2.2 ++ [id])

/-- `archive_by_ids`: the ids archived and the ids missing. -/
def archiveByIds (app : App) (t : Draw app.chrono) (ids : List String) (reason : Option String) (db : Db) :
    Db × Except Refusal (List String × List String) :=
  if maxBulkSize < ids.length then (db, .error (.badRequest s!"archive limited to {maxBulkSize} ids per request"))
  else
    match checkIds ids with
    | .error r => (db, .error r)
    | .ok () =>
      let (db, archived, missing) := ids.foldl (archiveItem (reason.getD "archive") t.now.text) (db, [], [])
      (db, .ok (archived, missing))

/-! ## `import_memories` and `consolidate_memories` -/

/-- One memory of an import, with the count and the errors so far. -/
def App.importItem (app : App) (s : Db × ℕ × List String) (mem : Memory) : Db × ℕ × List String :=
  let id := mem.id
  match validateMemory app.chrono.rfc3339 mem with
  | .error e => (s.1, s.2.1, s.2.2 ++ [s!"{id}: {e}"])
  | .ok () =>
    match s.1.insert mem with
    | .ok (db, _) => (db, s.2.1 + 1, s.2.2)
    | .error e => (s.1, s.2.1, s.2.2 ++ [s!"{id}: {e}"])

/-- `import_memories`: the number of memories imported and the errors. -/
def importMemories (app : App) (t : Draw app.chrono) (mems : List Memory) (links : List MemoryLink) (db : Db) :
    Db × Except Refusal (ℕ × List String) :=
  if maxBulkSize < mems.length then (db, .error (.badRequest s!"import limited to {maxBulkSize} memories"))
  else
    let (db, imported, errors) := mems.foldl app.importItem (db, 0, [])
    (links.foldl (Cli.importLink t.now.text) db, .ok (imported, errors))

structure ConsolidateBody where
  ids : List String
  title : String
  summary : String
  ns : String := "global"
  tier : Option Tier := none
  agentId : Option String := none

/-- `consolidate_memories`: the id of the new memory. -/
def consolidateMemories (app : App) (t : Draw app.chrono) (header : Option String) (body : ConsolidateBody) (db : Db) :
    Db × Except Refusal String :=
  match validateConsolidate body.ids body.title body.summary body.ns with
  | .error e => (db, .error (.badRequest e))
  | .ok () =>
    match resolveBodyAgentId body.agentId header t.requestId with
    | .error e => (db, .error (.badRequest s!"invalid agent_id: {e}"))
    | .ok agentId =>
      match db.consolidate body.ids body.title body.summary body.ns (body.tier.getD .long) "consolidation" agentId
        (t.newId 0) t.now.text with
      | .ok (db, newId) => (db, .ok newId)
      | .error _ => (db, .error (.internalServerError "internal server error"))

/-! ## What the handlers do -/

section Cases

variable {app : App} {t : Draw app.chrono} {header : Option String} {body : CreateMemory} {db db' : Db} {mem : Memory}

theorem refresh_eq (app : App) (db : Db) (id text : String) :
    app.refresh db id text = db ∨ ∃ blob dim, app.refresh db id text = db.writeEmbedding id blob dim := by
  unfold App.refresh
  cases app.embedder with
  | none => exact Or.inl rfl
  | some e =>
    simp only
    cases e.embed text with
    | none => exact Or.inl rfl
    | some blob =>
      simp only
      cases hset : db.setEmbedding id blob e.dim with
      | error _ => exact Or.inl rfl
      | ok db₁ =>
        obtain ⟨d, rfl⟩ := Db.setEmbedding_eq_ok hset
        exact Or.inr ⟨blob, d, rfl⟩

theorem refresh_frame (app : App) (db : Db) (id text : String) :
    app.refresh db id text = { db with memories := (app.refresh db id text).memories } := by
  rcases refresh_eq app db id text with h | ⟨blob, d, h⟩ <;> rw [h]
  rfl

theorem get_refresh (app : App) (db : Db) (id text : String) : ∃ f : MemoryRow → MemoryRow,
    (∀ r, (f r).toMemory = r.toMemory) ∧
      ∀ i, (app.refresh db id text).get i = (db.get i).map fun r => if i = id then f r else r := by
  rcases refresh_eq app db id text with h | ⟨blob, dim, h⟩ <;> rw [h]
  · exact ⟨fun r => r, fun _ => rfl, fun i => by simp⟩
  · refine ⟨fun r => { r with embedding := some blob, embeddingDim := dim }, fun _ => rfl, fun i => ?_⟩
    unfold Db.writeEmbedding
    exact Db.get_updateRow i

theorem nextVersionedTitle_free {base ns title : String} (h : db.nextVersionedTitle base ns = .ok title) :
    db.findByTitleNamespace title ns = none := by
  unfold Db.nextVersionedTitle at h
  split_ifs at h with hfree
  · cases h
    exact Option.isNone_iff_eq_none.mp hfree
  · split at h
    · rename_i candidate hfind
      cases h
      have hfree := List.find?_some hfind
      exact Option.isNone_iff_eq_none.mp hfree
    · cases h

/-- A title picked under `error` or `version` is free. -/
theorem resolveTitle_free {title : String} (h : resolveTitle db body = .ok title)
    (hmode : body.onConflictMode = "error" ∨ body.onConflictMode = "version") : db.getKey (title, body.ns) = none := by
  suffices db.findByTitleNamespace title body.ns = none from Option.map_eq_none_iff.mp this
  unfold resolveTitle at h
  simp only at h
  split_ifs at h with herror hversion
  · split at h
    · cases h
    · rename_i hfree
      cases h
      exact hfree
  · split at h
    · rename_i hnext
      cases h
      exact nextVersionedTitle_free hnext
    · cases h
  · rcases hmode with hmode | hmode
    · exact absurd hmode herror
    · exact absurd hmode hversion

/-- The memory that `create_memory` stores or queues. -/
theorem prepare_eq_ok (h : app.prepare t header body db = .ok mem) : ∃ agentId metadata title,
    Accepts (validateCreate app.chrono t.now.instant body) ∧
      resolveBodyAgentId body.agentId header t.requestId = .ok agentId ∧ createMetadata body agentId = .ok metadata ∧
      resolveTitle db body = .ok title ∧ mem = app.memory t.now (t.newId 0) title metadata body := by
  unfold App.prepare at h
  cases hvalid : validateCreate app.chrono t.now.instant body with
  | error e => rw [hvalid] at h; cases h
  | ok u =>
    rw [hvalid] at h
    cases hagent : resolveBodyAgentId body.agentId header t.requestId with
    | error e => rw [hagent] at h; cases h
    | ok agentId =>
      rw [hagent] at h
      simp only at h
      cases hmeta : createMetadata body agentId with
      | error e => rw [hmeta] at h; cases h
      | ok metadata =>
        rw [hmeta] at h
        split_ifs at h with hmode
        cases htitle : resolveTitle db body with
        | error r => rw [htitle] at h; cases h
        | ok title =>
          rw [htitle] at h
          cases h
          exact ⟨agentId, metadata, title, rfl, rfl, hmeta, rfl, rfl⟩

theorem isObject_of_validateCreate {now : ℤ} (h : Accepts (validateCreate app.chrono now body)) :
    body.metadata.isObject := by
  unfold validateCreate validateMetadata at h
  simp only [accepts_bind, accepts_bailIf, Bool.not_eq_false'] at h
  exact h.2.2.2.2.2.2.2.2.2.1

variable {agentId : String}

theorem get_createMetadata {metadata : Json} (hobj : body.metadata.isObject)
    (h : createMetadata body agentId = .ok metadata) : metadata.get "agent_id" = some (.str agentId) := by
  unfold createMetadata at h
  split at h
  · cases h
    exact Json.get_set hobj
  · split at h
    · cases h
    · cases h
      rw [Json.get_set_of_ne (by decide), Json.get_set hobj]

theorem isObject_createMetadata {metadata : Json} (hobj : body.metadata.isObject)
    (h : createMetadata body agentId = .ok metadata) : metadata.isObject := by
  unfold createMetadata at h
  split at h
  · cases h
    rwa [Json.isObject_set]
  · split at h
    · cases h
    · cases h
      rwa [Json.isObject_set, Json.isObject_set]

theorem ownerOf_prepare (hagent : resolveBodyAgentId body.agentId header t.requestId = .ok agentId)
    (h : app.prepare t header body db = .ok mem) : Db.ownerOf mem = some agentId := by
  obtain ⟨agentId', metadata, title, hvalid, hagent', hmeta, -, rfl⟩ := prepare_eq_ok h
  cases hagent.symm.trans hagent'
  show (metadata.get "agent_id").bind Json.asStr = some agentId
  rw [get_createMetadata (isObject_of_validateCreate hvalid) hmeta]
  rfl

/-- What `create_memory` can do: refuse, queue the memory for approval, or store it. -/
theorem createMemory_cases (app : App) (t : Draw app.chrono) (header : Option String) (body : CreateMemory) (db : Db) :
    ((createMemory app t header body db).1 = db ∧ ∃ r, (createMemory app t header body db).2 = .error r) ∨
    (∃ mem, app.prepare t header body db = .ok mem ∧
      (createMemory app t header body db).2 = .ok (.pending (t.newId 1)) ∧
      db.queuePendingAction .store mem.ns none ((Db.ownerOf mem).getD "") (app.memoryToValue mem) (t.newId 1)
        t.now.text = .ok ((createMemory app t header body db).1, t.newId 1)) ∨
    (∃ mem db₁ id, app.prepare t header body db = .ok mem ∧
      db.enforceGovernance app.mode .store mem.ns ((Db.ownerOf mem).getD "") none none (app.memoryToValue mem) (t.newId 1)
        t.now.text = .ok (db, .allow) ∧ db.insert mem = .ok (db₁, id) ∧
      createMemory app t header body db =
        (app.refresh db₁ id (body.title ++ " " ++ body.content), .ok (.done { mem with id }))) := by
  unfold createMemory
  cases hprep : app.prepare t header body db with
  | error r => exact Or.inl ⟨rfl, r, rfl⟩
  | ok mem =>
    simp only
    cases hgate : db.enforceGovernance app.mode .store mem.ns ((Db.ownerOf mem).getD "") none none
      (app.memoryToValue mem) (t.newId 1) t.now.text with
    | error e => exact Or.inl ⟨rfl, _, rfl⟩
    | ok res =>
      obtain ⟨db', d⟩ := res
      rcases Db.enforceGovernance_cases hgate with ⟨rfl, hd⟩ | ⟨rfl, hqueue⟩
      · cases d with
        | pending id => exact absurd rfl (hd id)
        | deny reason => exact Or.inl ⟨rfl, _, rfl⟩
        | allow =>
          simp only
          cases hi : db'.insert mem with
          | error e => exact Or.inl ⟨rfl, _, rfl⟩
          | ok res => exact Or.inr (Or.inr ⟨mem, res.1, res.2, rfl, hgate, hi, rfl⟩)
      · exact Or.inr (Or.inl ⟨mem, rfl, rfl, hqueue⟩)

theorem get_resolveRow {id : String} {target : MemoryRow} (h : resolveRow db id = .ok target) :
    db.get target.id = some target := by
  unfold resolveRow Db.resolveId at h
  cases hget : db.get id with
  | some r =>
    rw [hget] at h
    cases h
    exact Db.get_of_mem (Db.get_eq_some.mp hget).1
  | none =>
    rw [hget] at h
    simp only at h
    unfold Db.getByPrefix at h
    split at h
    · rename_i r hr
      cases h
      split at hr
      · cases hr
      · rename_i hrows
        cases hr
        have hmem := List.mem_of_mem_filter (hrows.symm ▸ List.mem_singleton_self target)
        exact Db.get_of_mem hmem
      · cases hr
    · cases h
    · split_ifs at h

/-- What `update_memory` can do: nothing, when a check fails or another row has the title and namespace, or update a row and
perhaps its embedding. -/
theorem updateMemory_cases (app : App) (t : Draw app.chrono) (id : String) (u : UpdateMemory) (db : Db) :
    ((updateMemory app t id u db).1 = db ∧ (Accepts (validateId id) →
      Accepts (validateUpdate app.chrono.rfc3339 u) → ∀ target, resolveRow db id = .ok target →
        db.Collides target u)) ∨
    ∃ target db₁ changed, Accepts (validateId id) ∧ Accepts (validateUpdate app.chrono.rfc3339 u) ∧
      resolveRow db id = .ok target ∧
      db.update target.id { u with metadata := u.metadata.map (preserveAgentId target.metadata) } t.now.text =
        .ok (db₁, true, changed) ∧
      ((updateMemory app t id u db).1 = db₁ ∨
        ∃ text, (updateMemory app t id u db).1 = app.refresh db₁ target.id text) := by
  unfold updateMemory
  cases hid : validateId id with
  | error e => exact Or.inl ⟨rfl, fun h => by cases h⟩
  | ok a =>
    cases hvalid : validateUpdate app.chrono.rfc3339 u with
    | error e => exact Or.inl ⟨rfl, fun _ h => by cases h⟩
    | ok a =>
      cases hrow : resolveRow db id with
      | error r => exact Or.inl ⟨rfl, fun _ _ _ h => by cases h⟩
      | ok target =>
        simp only
        have hget := get_resolveRow hrow
        have hok := Db.update_isOk_iff t.now.text hget
          (u := { u with metadata := u.metadata.map (preserveAgentId target.metadata) })
        cases hu : db.update target.id { u with metadata := u.metadata.map (preserveAgentId target.metadata) }
          t.now.text with
        | error msg =>
          have hcollides : db.Collides target u := by
            by_contra hfree
            obtain ⟨db', changed, h⟩ := hok.mpr hfree
            cases hu.symm.trans h
          refine Or.inl ⟨?_, fun _ _ target' h => by cases h; exact hcollides⟩
          simp only
          split_ifs <;> rfl
        | ok res =>
          obtain ⟨db₁, found, changed⟩ := res
          rcases Db.update_cases hu with ⟨hnone, -, -⟩ | ⟨existing, -, rfl, -, -⟩
          · rw [hget] at hnone
            cases hnone
          · refine Or.inr ⟨target, db₁, changed, rfl, rfl, rfl, hu, ?_⟩
            simp only
            split
            · split_ifs
              · exact Or.inr ⟨_, rfl⟩
              · exact Or.inl rfl
            · exact Or.inl rfl

theorem get_updateMemory {u : UpdateMemory} {target : MemoryRow} {db₁ : Db} {changed : Bool}
    (hu : db.update target.id { u with metadata := u.metadata.map (preserveAgentId target.metadata) } t.now.text =
      .ok (db₁, true, changed)) (hget : db.get target.id = some target)
    (h : db' = db₁ ∨ ∃ text, db' = app.refresh db₁ target.id text) :
    ∃ r, r.ns = u.ns.getD target.ns ∧ r.updatedAt = t.now.text ∧
      ∀ i, db'.get i = if i = target.id then some r else db.get i := by
  have hrow : ∀ i, db₁.get i = if i = target.id then
      some (applyUpdate { u with metadata := u.metadata.map (preserveAgentId target.metadata) } t.now.text target)
      else db.get i := by
    intro i
    rw [Db.get_update hu]
    by_cases hi : i = target.id
    · rw [hi, hget, Option.map_some, if_pos rfl, if_pos rfl]
    · simp only [if_neg hi, Option.map_id']
  rcases h with rfl | ⟨text, rfl⟩
  · exact ⟨_, rfl, rfl, hrow⟩
  · obtain ⟨f, hf, hfget⟩ := get_refresh app db₁ target.id text
    refine ⟨f (applyUpdate { u with metadata := u.metadata.map (preserveAgentId target.metadata) } t.now.text target),
      congrArg Memory.ns (hf _), congrArg Memory.updatedAt (hf _), fun i => ?_⟩
    rw [hfget, hrow]
    by_cases hi : i = target.id
    · rw [if_pos hi, if_pos hi, Option.map_some, if_pos hi]
    · simp only [if_neg hi, Option.map_id']

/-- What `delete_memory` can do: refuse, queue the deletion, or delete the row. -/
theorem deleteMemory_cases (app : App) (t : Draw app.chrono) (header : Option String) (id : String) (db : Db) :
    (deleteMemory app t header id db).1 = db ∨
    (∃ target agentId payload, db.get target.id = some target ∧
      db.queuePendingAction .delete target.ns (some target.id) agentId payload (t.newId 0) t.now.text =
        .ok ((deleteMemory app t header id db).1, t.newId 0)) ∨
    (∃ target agentId payload, db.get target.id = some target ∧ resolveHttpAgentId header t.requestId = .ok agentId ∧
      db.enforceGovernance app.mode .delete target.ns agentId (some target.id) (Db.ownerOf target.toMemory) payload
        (t.newId 0) t.now.text = .ok (db, .allow) ∧
      (deleteMemory app t header id db).1 = (db.delete target.id).1) := by
  unfold deleteMemory
  cases hid : validateId id with
  | error e => exact Or.inl rfl
  | ok a =>
    cases hrow : resolveRow db id with
    | error r => exact Or.inl rfl
    | ok target =>
      cases hagent : resolveHttpAgentId header t.requestId with
      | error e => exact Or.inl rfl
      | ok agentId =>
        simp only
        cases hgate : db.enforceGovernance app.mode .delete target.ns agentId (some target.id)
          (Db.ownerOf target.toMemory) (.obj [("id", .str target.id), ("title", .str target.title)]) (t.newId 0)
          t.now.text with
        | error e => exact Or.inl rfl
        | ok res =>
          obtain ⟨db', d⟩ := res
          rcases Db.enforceGovernance_cases hgate with ⟨rfl, hd⟩ | ⟨rfl, hqueue⟩
          · cases d with
            | pending id => exact absurd rfl (hd id)
            | deny reason => exact Or.inl rfl
            | allow =>
              refine Or.inr (Or.inr ⟨target, agentId, _, get_resolveRow hrow, rfl, hgate, ?_⟩)
              simp only
              cases hdel : db'.delete target.id with
              | mk db₁ found => cases found <;> rfl
          · exact Or.inr (Or.inl ⟨target, agentId, _, get_resolveRow hrow, hqueue⟩)

end Cases

/-! ## Batches and consolidation -/

section Batches

variable {app : App} {t : Draw app.chrono} {header : Option String} {db : Db}

/-- The memories that `bulk_create` tries to store. -/
def App.bulkMemories (app : App) (t : Draw app.chrono) (bodies : List CreateMemory) : List Memory :=
  if maxBulkSize < bodies.length then []
  else bodies.zipIdx.filterMap fun item =>
    if Accepts (validateCreate app.chrono t.now.instant item.1) then
      some (app.memory t.now (t.newId item.2) item.1.title item.1.metadata item.1)
    else none

/-- The memories that `import_memories` tries to store. -/
def App.importable (app : App) (mems : List Memory) : List Memory :=
  if maxBulkSize < mems.length then [] else mems.filter fun m => decide (m.Valid app.chrono.rfc3339)

theorem bulkItem_fst (s : Db × List Memory × List String) (item : CreateMemory × ℕ) : (app.bulkItem t s item).1 =
    if Accepts (validateCreate app.chrono t.now.instant item.1) then
      s.1.insertOrSkip (app.memory t.now (t.newId item.2) item.1.title item.1.metadata item.1)
    else s.1 := by
  obtain ⟨body, i⟩ := item
  simp only [App.bulkItem]
  by_cases hv : Accepts (validateCreate app.chrono t.now.instant body)
  · rw [if_pos hv, show validateCreate app.chrono t.now.instant body = .ok () from hv]
    cases hi : s.1.insert (app.memory t.now (t.newId i) body.title body.metadata body) with
    | error e => rw [Db.insertOrSkip_of_error hi]
    | ok res => rw [Db.insertOrSkip_of_ok hi]
  · rw [if_neg hv]
    cases hc : validateCreate app.chrono t.now.instant body with
    | error e => rfl
    | ok u => exact absurd hc hv

theorem bulkCreate_fst (app : App) (t : Draw app.chrono) (bodies : List CreateMemory) (db : Db) :
    (bulkCreate app t bodies db).1 = db.insertAll (app.bulkMemories t bodies) := by
  unfold bulkCreate App.bulkMemories
  split_ifs
  · rfl
  · show (bodies.zipIdx.foldl (app.bulkItem t) (db, [], [])).1 = _
    generalize bodies.zipIdx = items
    generalize hs : (db, ([] : List Memory), ([] : List String)) = s
    obtain rfl : s.1 = db := by rw [← hs]
    clear hs
    induction items generalizing s with
    | nil => rfl
    | cons item items ih =>
      rw [List.foldl_cons, ih, bulkItem_fst, List.filterMap_cons]
      split_ifs <;> rfl

theorem importItem_fst (s : Db × ℕ × List String) (mem : Memory) : (app.importItem s mem).1 =
    if mem.Valid app.chrono.rfc3339 then s.1.insertOrSkip mem else s.1 := by
  simp only [App.importItem]
  by_cases hv : mem.Valid app.chrono.rfc3339
  · rw [if_pos hv, show validateMemory app.chrono.rfc3339 mem = .ok () from hv]
    cases hi : s.1.insert mem with
    | error e => rw [Db.insertOrSkip_of_error hi]
    | ok res => rw [Db.insertOrSkip_of_ok hi]
  · rw [if_neg hv]
    cases hc : validateMemory app.chrono.rfc3339 mem with
    | error e => rfl
    | ok u => exact absurd hc hv

theorem foldl_importItem_fst (mems : List Memory) (s : Db × ℕ × List String) : (mems.foldl app.importItem s).1 =
    s.1.insertAll (mems.filter fun m => decide (m.Valid app.chrono.rfc3339)) := by
  induction mems generalizing s with
  | nil => rfl
  | cons m mems ih =>
    rw [List.foldl_cons, ih, importItem_fst, List.filter_cons]
    by_cases hv : m.Valid app.chrono.rfc3339
    · rw [if_pos hv, if_pos (decide_eq_true hv)]
      rfl
    · rw [if_neg hv, if_neg (by simpa using hv)]

theorem importLink_frame (now : String) (db : Db) (link : MemoryLink) :
    Cli.importLink now db link = { db with links := (Cli.importLink now db link).links } := by
  unfold Cli.importLink
  split_ifs
  · cases hl : db.createLink link.sourceId link.targetId link.relation now with
    | error e => rfl
    | ok db' => exact Db.createLink_frame hl
  · rfl

theorem foldl_importLink_frame (now : String) (db : Db) (links : List MemoryLink) : links.foldl (Cli.importLink now) db =
    { db with links := (links.foldl (Cli.importLink now) db).links } := by
  induction links generalizing db with
  | nil => rfl
  | cons l links ih => rw [List.foldl_cons, ih, importLink_frame]

theorem importMemories_fst (app : App) (t : Draw app.chrono) (mems : List Memory) (links : List MemoryLink) (db : Db) :
    ∃ written, (importMemories app t mems links db).1 = { db.insertAll (app.importable mems) with links := written } := by
  unfold importMemories App.importable
  split_ifs
  · exact ⟨db.links, rfl⟩
  · show ∃ written, links.foldl (Cli.importLink t.now.text) (mems.foldl app.importItem (db, 0, [])).1 = _
    rw [foldl_importItem_fst, foldl_importLink_frame]
    exact ⟨_, rfl⟩

/-- What `consolidate_memories` can do: nothing, or a consolidation. -/
theorem consolidateMemories_cases (app : App) (t : Draw app.chrono) (header : Option String) (body : ConsolidateBody)
    (db : Db) : ((consolidateMemories app t header body db).1 = db ∧
      ∀ agentId db' id, Accepts (validateConsolidate body.ids body.title body.summary body.ns) →
        resolveBodyAgentId body.agentId header t.requestId = .ok agentId →
        db.consolidate body.ids body.title body.summary body.ns (body.tier.getD .long) "consolidation" agentId (t.newId 0)
          t.now.text ≠ .ok (db', id)) ∨
    ∃ agentId id, Accepts (validateConsolidate body.ids body.title body.summary body.ns) ∧
      resolveBodyAgentId body.agentId header t.requestId = .ok agentId ∧
      db.consolidate body.ids body.title body.summary body.ns (body.tier.getD .long) "consolidation" agentId (t.newId 0)
        t.now.text = .ok ((consolidateMemories app t header body db).1, id) := by
  unfold consolidateMemories
  cases hvalid : validateConsolidate body.ids body.title body.summary body.ns with
  | error e => exact Or.inl ⟨rfl, fun _ _ _ h => by cases h⟩
  | ok u =>
    cases hagent : resolveBodyAgentId body.agentId header t.requestId with
    | error e => exact Or.inl ⟨rfl, fun _ _ _ _ h => by cases h⟩
    | ok agentId =>
      simp only
      cases hc : db.consolidate body.ids body.title body.summary body.ns (body.tier.getD .long) "consolidation" agentId
        (t.newId 0) t.now.text with
      | error e =>
        refine Or.inl ⟨rfl, fun agentId' db' id _ h => ?_⟩
        cases h
        rw [hc]
        exact nofun
      | ok res => exact Or.inr ⟨agentId, res.2, rfl, rfl, hc⟩

/-- The ids of an archive request pass the checks. -/
def ArchiveAccepts (ids : List String) : Prop := ids.length ≤ maxBulkSize ∧ ∀ id ∈ ids, Accepts (validateId id)

theorem checkIds_eq_ok {ids : List String} : checkIds ids = .ok () ↔ ∀ id ∈ ids, Accepts (validateId id) := by
  induction ids with
  | nil => simp [checkIds]
  | cons id ids ih =>
    rw [List.forall_mem_cons, checkIds]
    cases hv : validateId id with
    | error e => exact iff_of_false nofun fun h => by cases h.1
    | ok u => exact ih.trans (and_iff_right rfl).symm

theorem archiveItem_fst (reason now : String) (s : Db × List String × List String) (id : String) :
    (archiveItem reason now s id).1 = (s.1.archiveMemory id (some reason) now).1 := by
  unfold archiveItem
  cases h : s.1.archiveMemory id (some reason) now with
  | mk db moved => cases moved <;> rfl

theorem archiveByIds_fst (app : App) (t : Draw app.chrono) (ids : List String) (reason : Option String) (db : Db) :
    (¬ArchiveAccepts ids ∧ (archiveByIds app t ids reason db).1 = db) ∨
    (ArchiveAccepts ids ∧ (archiveByIds app t ids reason db).1 =
      ids.foldl (fun d id => (d.archiveMemory id (some (reason.getD "archive")) t.now.text).1) db) := by
  unfold archiveByIds
  by_cases hlen : maxBulkSize < ids.length
  · rw [if_pos hlen]
    exact Or.inl ⟨fun h => absurd h.1 (not_le.mpr hlen), rfl⟩
  rw [if_neg hlen]
  cases hcheck : checkIds ids with
  | error r =>
    refine Or.inl ⟨fun h => ?_, rfl⟩
    rw [checkIds_eq_ok.mpr h.2] at hcheck
    cases hcheck
  | ok u =>
    refine Or.inr ⟨⟨not_lt.mp hlen, checkIds_eq_ok.mp hcheck⟩, ?_⟩
    show (ids.foldl (archiveItem (reason.getD "archive") t.now.text) (db, [], [])).1 = _
    generalize hs : (db, ([] : List String), ([] : List String)) = s
    obtain rfl : s.1 = db := by rw [← hs]
    clear hs hcheck hlen
    induction ids generalizing s with
    | nil => rfl
    | cons id ids ih => rw [List.foldl_cons, ih, archiveItem_fst, List.foldl_cons]

end Batches

/-! ## A small node -/

def hours : List (ℤ × String) :=
  [(1772442000000000000, "2026-03-02T09:00:00+00:00"), (1772445600000000000, "2026-03-02T10:00:00+00:00"),
    (1772449200000000000, "2026-03-02T11:00:00+00:00"), (1772452800000000000, "2026-03-02T12:00:00+00:00")]

def morning : Chrono where
  toRfc3339 t := ((hours.find? fun h => h.1 = t).map Prod.snd).getD ""
  parseFromRfc3339 s := (hours.find? fun h => h.2 = s).map Prod.fst

def nine : morning.Reading := ⟨1772442000000000000, by decide⟩

def ten : morning.Reading := ⟨1772445600000000000, by decide⟩

def eleven : morning.Reading := ⟨1772449200000000000, by decide⟩

def toValue (m : Memory) : Json :=
  let orNull := fun s : Option String => (s.map Json.str).getD .null
  .obj [("access_count", .int m.accessCount), ("confidence", .float "1.0"), ("content", .str m.content),
    ("created_at", .str m.createdAt), ("expires_at", orNull m.expiresAt), ("id", .str m.id),
    ("last_accessed_at", orNull m.lastAccessedAt), ("metadata", m.metadata), ("namespace", .str m.ns),
    ("priority", .int m.priority), ("source", .str m.source), ("tags", .arr (m.tags.map .str)),
    ("tier", .str m.tier.asStr), ("title", .str m.title), ("updated_at", .str m.updatedAt)]

def fromValue (j : Json) : Except String Memory :=
  let text := fun k => (j.get k).bind Json.asStr
  match text "id", (text "tier").bind Tier.fromStr, text "namespace", text "title", text "content", text "source",
    j.get "priority", j.get "access_count", text "created_at", text "updated_at", j.get "metadata", j.get "tags" with
  | some id, some tier, some ns, some title, some content, some source, some (.int priority), some (.int accessCount),
    some createdAt, some updatedAt, some metadata, some (.arr tags) =>
    .ok {
      id, tier, ns, title, content, source, priority, accessCount, createdAt, updatedAt, metadata
      tags := tags.filterMap Json.asStr
      confidence := 1
      lastAccessedAt := text "last_accessed_at"
      expiresAt := text "expires_at" }
  | _, _, _, _, _, _, _, _, _, _, _, _ => .error "invalid type"

/-- A node that enforces its policies, without an embedding model. -/
def node : App where
  chrono := morning
  mode := .enforce
  ttlForTier
    | .short => some 21600
    | .mid => some 604800
    | .long => none
  archiveOnGc := true
  memoryToValue := toValue
  memoryFromValue := fromValue
  fts _ _ := true
  embedder := none

def draw (now : morning.Reading) (ids : List String) : Draw node.chrono := ⟨now, "0a1b2c3d", fun n => ids.getD n ""⟩

/-- A request to store `title` in `ns`. -/
def request (ns title content agentId : String) : CreateMemory :=
  { tier := .long, ns, title, content, agentId := some agentId }

/-- A store in a namespace without a policy goes through. -/
example : ((createMemory node (draw nine ["m-1", "p-1"]) none (request "notes" "Plan" "draft" "alice") Db.empty).1.get
    "m-1").map (fun r => (r.content, r.metadata)) = some ("draft", .obj [("agent_id", .str "alice")]) := by decide

end MemoryApi

end AiMemory
