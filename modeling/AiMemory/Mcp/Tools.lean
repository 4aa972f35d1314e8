import AiMemory.Audit.Log
import AiMemory.Http.Memories
import AiMemory.Identity.Links
import AiMemory.Mcp.Approvals
import AiMemory.Permissions.Synthetic
import AiMemory.Quotas.Counters

/-!
# The tools

The tools of `mcp.rs` that write: `handle_store`, `handle_update`, `handle_delete`, `handle_promote`, `handle_forget`, `handle_link`,
`handle_consolidate`, and the decisions on pending actions. A tool answers with JSON or an error text. `dispatch` runs one and emits
its audit event, unless the tool has done so itself.

Each handler asks the permission rules and the governance gate by hand, or does not ask. The two gates are `permitted` and `governed`
here; what a handler asks them about is in its own definition.
-/

namespace AiMemory

namespace Mcp

open MemoryApi Audit Quotas Relational Validate
open Permissions (PermissionRule)

/-- `OllamaClient`, where a failure is only logged. -/
structure OllamaClient where
  autoTag : String → String → Option (List String)
  detectContradiction : String → String → Option Bool
  summarizeMemories : List (String × String) → Except String String

/-- What the tools get from outside: that of the endpoints, the process, the rules of the configuration, the format `?`, the reading of a
decimal fraction, the order of `fts.rank`, the language model and the key of the node. -/
structure Host where
  app : App
  process : Process
  debug : String → String
  activeRules : List PermissionRule
  asF64 : String → ℚ
  ranks : Db → String → MemoryRow → MemoryRow → Bool
  autonomousHooks : Bool
  llm : Option OllamaClient
  ed : Identity.Ed25519
  keypair : Option Identity.AgentKeypair

/-- A node, with the events it emitted; an enabled sink that does not fail writes each of them. -/
structure Node extends ApprovalApi.Server where
  quotas : AgentQuotas
  audit : List EventBuilder := []

/-! ## Parameters -/

/-- `as_i64`. -/
def intParam (params : Json) (key : String) : Option ℤ :=
  match params.get key with
  | some (.int n) => if -2 ^ 63 ≤ n ∧ n < 2 ^ 63 then some n else none
  | _ => none

/-- `as_u64`. -/
def natParam (params : Json) (key : String) : Option ℕ :=
  match params.get key with
  | some (.int n) => if 0 ≤ n ∧ n < 2 ^ 64 then some n.toNat else none
  | _ => none

/-- `as_f64`. -/
def Host.floatParam (h : Host) (params : Json) (key : String) : Option ℚ :=
  match params.get key with
  | some (.int n) => some n
  | some (.float repr) => some (h.asF64 repr)
  | _ => none

/-- `as_bool`. -/
def boolParam (params : Json) (key : String) : Option Bool :=
  match params.get key with
  | some (.bool b) => some b
  | _ => none

/-- The strings of `as_array`. -/
def stringsParam (params : Json) (key : String) : Option (List String) :=
  match params.get key with
  | some (.arr items) => some (items.filterMap Json.asStr)
  | _ => none

def objectParam (params : Json) (key : String) : Option Json := (params.get key).filter fun j => j.isObject

def required (params : Json) (key : String) : Except String String :=
  match strParam params key with
  | some s => .ok s
  | none => .error s!"{key} is required"

/-- `i32::try_from(n).expect("i64 as i32")`, where the panic is an error. -/
def i32Of (n : ℤ) : Except String ℤ := if -2 ^ 31 ≤ n ∧ n < 2 ^ 31 then .ok n else .error "i64 as i32"

/-- `Tier::from_str` on a parameter that has to name a tier. -/
def tierOf (s : String) : Except String Tier :=
  match Tier.fromStr s with
  | some tier => .ok tier
  | none => .error s!"invalid tier: {s}"

/-! ## The two gates -/

/-- `Permissions::evaluate` on the context of a handler. -/
def Host.evaluate (h : Host) (n : Node) (op : Permissions.Op) (ns agentId : String) (payload : Json) : Permissions.Decision :=
  Permissions.evaluate h.debug n.rules h.activeRules h.app.mode ⟨op, ns, agentId, payload⟩ []

/-- The permission gate of the handlers: a rule that denies or asks ends the call. `context` is what the question repeats. -/
def permitted (h : Host) (n : Node) (op : Permissions.Op) (ns agentId : String) (payload : Json) (action : String)
    (context : List (String × Json)) (next : Node × Except String Json) : Node × Except String Json :=
  match h.evaluate n op ns agentId payload with
  | .deny reason => (n, .error s!"{action} denied by permission rule: {reason}")
  | .ask prompt => (n, .ok (.obj ([("action", .str action), ("reason", .str prompt), ("status", .str "ask")] ++ context)))
  | _ => next

def governed (h : Host) (n : Node) (action : GovernedAction) (ns agentId : String) (memoryId memoryOwner : Option String) (payload : Json)
    (newId now : String) (context : List (String × Json)) (next : Node → Node × Except String Json) : Node × Except String Json :=
  match n.db.enforceGovernance h.app.mode action ns agentId memoryId memoryOwner payload newId now with
  | .error e => (n, .error e)
  | .ok (db, .allow) => next { n with db }
  | .ok (db, .deny reason) =>
    let name := action.asStr
    ({ n with db }, .error s!"{name} denied by governance: {reason}")
  | .ok (db, .pending pendingId) => ({ n with db }, .ok (.obj ([("action", .str action.asStr), ("pending_id", .str pendingId),
      ("reason", .str "governance requires approval"), ("status", .str "pending")] ++ context)))

/-! ## `handle_store` -/

inductive OnConflict where
  | error
  | merge
  | version
  deriving DecidableEq

def OnConflict.parse (s : String) : Except String OnConflict :=
  if s = "error" then .ok .error
  else if s = "merge" then .ok .merge
  else if s = "version" then .ok .version
  else .error s!"invalid on_conflict '{s}' (expected error|merge|version)"

def v2ClientPrefixes : List String := ["ai:claude-code", "ai:ai-memory-cli/v2"]

def defaultOnConflictForClient (mcpClient : Option String) : OnConflict :=
  match mcpClient with
  | none => .merge
  | some client =>
    let normalized := (toAsciiLowercase (String.ofList (client.toList.takeWhile (· ≠ '@')))).toList
    if v2ClientPrefixes.any fun s => s.toList.isPrefixOf normalized then .error else .merge

/-- What `handle_store` works out before its gates: the memory, the agent, the scope and the policy for a title that is taken. -/
structure StoreRequest where
  mem : Memory
  agentId : String
  scope : Option String
  onConflict : OnConflict
  deriving DecidableEq

def resolvedTitle (db : Db) (title ns : String) : OnConflict → Except String String
  | .error =>
    match db.findByTitleNamespace title ns with
    | some existingId => .error (s!"CONFLICT: memory with title '{title}' already exists in namespace '{ns}' " ++
        s!"(existing id: {existingId}). Pass on_conflict='merge' to update in place or 'version' to suffix the title.")
    | none => .ok title
  | .version => db.nextVersionedTitle title ns
  | .merge => .ok title

/-- The metadata to store, with the agent's id and the scope in it. -/
def storeMetadata (metadata : Json) (agentId : String) (scope : Option String) : Json :=
  let metadata := metadata.set "agent_id" (.str agentId)
  match scope with
  | some s => metadata.set "scope" (.str s)
  | none => metadata

/-- The part of `handle_store` before the gates. -/
def Host.storeRequest (h : Host) (t : Draw h.app.chrono) (params : Json) (mcpClient : Option String) (db : Db) :
    Except String StoreRequest := do
  let title ← required params "title"
  let content ← required params "content"
  let tier ← tierOf ((strParam params "tier").getD "mid")
  let ns := (strParam params "namespace").getD "global"
  let source := (strParam params "source").getD "claude"
  let onConflict ← ((strParam params "on_conflict").map OnConflict.parse).getD (.ok (defaultOnConflictForClient mcpClient))
  let priority ← i32Of ((intParam params "priority").getD 5)
  let confidence := (h.floatParam params "confidence").getD 1
  let tags := (stringsParam params "tags").getD []
  validateTitle title
  validateContent content
  validateNamespace ns
  validateSource source
  validateTags tags
  validatePriority priority
  validateConfidence confidence
  let metadata := (objectParam params "metadata").getD (.obj [])
  let agentId ← h.process.resolveAgentId ((strParam params "agent_id").or (strParam metadata "agent_id")) mcpClient
  let scope := (strParam params "scope").or (strParam metadata "scope")
  ifSome validateScope scope
  let metadata := storeMetadata metadata agentId scope
  validateMetadata metadata
  let title ← resolvedTitle db title ns onConflict
  return {
    mem := {
      id := t.newId 0
      tier
      ns
      title
      content
      tags
      priority := max 1 (min priority 10)
      confidence := max 0 (min confidence 1)
      source
      accessCount := 0
      createdAt := t.now.text
      updatedAt := t.now.text
      lastAccessedAt := none
      metadata
      expiresAt := (h.app.ttlForTier tier).map fun s => h.app.chrono.toRfc3339 (t.now.instant + s * 10 ^ 9) }
    agentId
    scope
    onConflict }

def Host.findContradictions (h : Host) (db : Db) (title ns : String) : List MemoryRow :=
  let query := sanitizeFtsQuery title true
  ((db.memories.rows.filter fun r => h.app.fts query r && r.ns = ns).mergeSort (h.ranks db query)).take 5

/-- How the actor of an event is known. -/
def synthesisSource (mcpClient : Option String) : String :=
  if mcpClient.isSome then "mcp_client_info" else "host_fallback"

def duplicateUpdate (mem : Memory) (preserved : Json) : UpdateMemory where
  content := some mem.content
  tier := some mem.tier
  tags := some mem.tags
  priority := some mem.priority
  confidence := some mem.confidence
  metadata := some preserved

def storeDuplicate (h : Host) (now : String) (mem : Memory) (dup : MemoryRow) (n : Node) : Node × Except String Json :=
  let preserved := preserveAgentId dup.metadata mem.metadata
  match n.db.update dup.id (duplicateUpdate mem preserved) now with
  | .error e => (n, .error e)
  | .ok (db, _, contentChanged) =>
    let db := if contentChanged then h.app.refresh db dup.id (mem.title ++ " " ++ mem.content) else db
    ({ n with db }, .ok (.obj [("action", .str "updated existing memory"), ("agent_id", optStr (strParam preserved "agent_id")),
      ("duplicate", .bool true), ("id", .str dup.id), ("namespace", .str mem.ns), ("tier", .str mem.tier.asStr),
      ("title", .str mem.title)]))

def autonomyMinContentLen : ℕ := 50

/-- The autonomy hooks: the tags and the contradictions that they find. -/
def Host.hookFindings (h : Host) (mem : Memory) (actualId : String) (existing : List MemoryRow) : List String × List String :=
  match h.llm with
  | some llm =>
    if h.autonomousHooks ∧ autonomyMinContentLen ≤ byteLen mem.content.toList ∧ mem.ns.toList.head? ≠ some '_' then
      (((llm.autoTag mem.title mem.content).getD []).take 8,
        (existing.filter fun cand => cand.id ≠ actualId ∧ cand.id ≠ mem.id ∧
          llm.detectContradiction mem.content cand.content = some true).map fun cand => cand.id)
    else ([], [])
  | none => ([], [])

/-- The metadata that the hooks persist, if they found something. -/
def hookMetadata (metadata : Json) : List String × List String → Option Json
  | ([], []) => none
  | (autoTags, confirmed) =>
    let metadata := if autoTags = [] then metadata else metadata.set "auto_tags" (.arr (autoTags.map .str))
    some (if confirmed = [] then metadata else metadata.set "confirmed_contradictions" (.arr (confirmed.map .str)))

def persistHooks (db : Db) (id now : String) (metadata : Option Json) : Db :=
  match metadata with
  | none => db
  | some metadata =>
    match db.update id { metadata := some metadata } now with
    | .ok (db, _) => db
    | .error _ => db

def listField (key : String) (items : List String) : List (String × Json) :=
  if items = [] then [] else [(key, .arr (items.map .str))]

def payloadBytes (mem : Memory) : ℕ :=
  byteLen mem.title.toList + byteLen mem.content.toList + byteLen mem.metadata.render

/-- The event of a store. -/
def storeEvent (mcpClient : Option String) (req : StoreRequest) (actualId : String) : EventBuilder :=
  .new .store ⟨req.agentId, req.scope, synthesisSource mcpClient⟩
    ⟨actualId, req.mem.ns, some req.mem.title, some req.mem.tier.asStr, req.scope⟩

def storeNew (h : Host) (now : String) (mcpClient : Option String) (req : StoreRequest) (existing : List MemoryRow) (n : Node) :
    Node × Except String Json :=
  let mem := req.mem
  let op := QuotaOp.memory (payloadBytes mem)
  match charge n.quotas req.agentId op now with
  | (quotas, .error e) => ({ n with quotas }, .error e.display)
  | (quotas, .ok ()) =>
    match n.db.insert mem with
    | .error e => ({ n with quotas := refundOp quotas req.agentId op now }, .error e)
    | .ok (db, actualId) =>
      let found := h.hookFindings mem actualId existing
      let db := h.app.refresh db actualId (mem.title ++ " " ++ mem.content)
      let db := persistHooks db actualId now (hookMetadata mem.metadata found)
      ({ n with db, quotas, audit := n.audit ++ [storeEvent mcpClient req actualId] },
        .ok (.obj ([("agent_id", .str req.agentId)] ++ listField "auto_tags" found.1 ++ listField "confirmed_contradictions" found.2 ++
          [("id", .str actualId), ("namespace", .str mem.ns)] ++
          listField "potential_contradictions" ((existing.filter fun c => c.id ≠ mem.id ∧ c.id ≠ actualId).map fun c => c.id) ++
          [("tier", .str mem.tier.asStr), ("title", .str mem.title)])))

/-- `exact_dup`: the memory found under the title and the namespace of the store. -/
def StoreRequest.exactDup (req : StoreRequest) (existing : List MemoryRow) : Option MemoryRow :=
  if req.onConflict = .merge then existing.find? fun c => c.title = req.mem.title ∧ c.ns = req.mem.ns else none

/-- The part of `handle_store` behind the gates. -/
def storeAllowed (h : Host) (now : String) (mcpClient : Option String) (req : StoreRequest) (n : Node) : Node × Except String Json :=
  let existing := h.findContradictions n.db req.mem.title req.mem.ns
  match req.exactDup existing with
  | some dup => storeDuplicate h now req.mem dup n
  | none => storeNew h now mcpClient req existing n

def handleStore (h : Host) (t : Draw h.app.chrono) (params : Json) (mcpClient : Option String) (n : Node) : Node × Except String Json :=
  match h.storeRequest t params mcpClient n.db with
  | .error e => (n, .error e)
  | .ok req =>
    let payload := h.app.memoryToValue req.mem
    let context := [("namespace", Json.str req.mem.ns)]
    permitted h n .memoryStore req.mem.ns req.agentId payload "store" context <|
      governed h n .store req.mem.ns req.agentId none none payload (t.newId 1) t.now.text context
        (storeAllowed h t.now.text mcpClient req)

/-! ## Tools on a stored memory -/

/-- The memory that the parameter `id` names, in full or by a prefix. -/
def withTarget (params : Json) (n : Node) (next : MemoryRow → Node × Except String Json) : Node × Except String Json :=
  match required params "id" with
  | .error e => (n, .error e)
  | .ok id =>
    match validateId id with
    | .error e => (n, .error e)
    | .ok () =>
      match n.db.resolveId id with
      | .error e => (n, .error e)
      | .ok none => (n, .error "memory not found")
      | .ok (some target) => next target

/-- The agent that `resolve_agent_id` gives for the parameter `agent_id`. -/
def withAgent (h : Host) (params : Json) (mcpClient : Option String) (n : Node) (next : String → Node × Except String Json) :
    Node × Except String Json :=
  match h.process.resolveAgentId (strParam params "agent_id") mcpClient with
  | .error e => (n, .error e)
  | .ok agentId => next agentId

/-- The changes that `handle_update` is asked for. -/
def Host.updateRequest (h : Host) (params : Json) : Except String UpdateMemory := do
  let priority ← match intParam params "priority" with
    | some p => (i32Of p).map some
    | none => .ok none
  let u : UpdateMemory := {
    title := strParam params "title"
    content := strParam params "content"
    tier := (strParam params "tier").bind Tier.fromStr
    ns := strParam params "namespace"
    tags := stringsParam params "tags"
    priority
    confidence := h.floatParam params "confidence"
    expiresAt := strParam params "expires_at"
    metadata := objectParam params "metadata" }
  validateUpdate h.app.chrono.rfc3339 u
  return u

/-- The update of a row keeps the `agent_id` of its metadata. -/
def preservedUpdate (u : UpdateMemory) (target : MemoryRow) : UpdateMemory :=
  { u with metadata := u.metadata.map (preserveAgentId target.metadata) }

def handleUpdate (h : Host) (t : Draw h.app.chrono) (params : Json) (n : Node) : Node × Except String Json :=
  withTarget params n fun target =>
    match h.updateRequest params with
    | .error e => (n, .error e)
    | .ok u =>
      match n.db.update target.id (preservedUpdate u target) t.now.text with
      | .error e => (n, .error e)
      | .ok (db, false, _) => ({ n with db }, .error "memory not found")
      | .ok (db, true, contentChanged) =>
        let mem := (db.get target.id).map fun r => r.toMemory
        let db :=
          match mem with
          | some m => if contentChanged then h.app.refresh db target.id (m.title ++ " " ++ m.content) else db
          | none => db
        ({ n with db }, .ok (.obj [("memory", (mem.map h.app.memoryToValue).getD .null), ("updated", .bool true)]))

/-- The event of a deletion. Its actor is the owner of the memory. -/
def deleteEvent (mcpClient : Option String) (target : MemoryRow) : EventBuilder :=
  .new .delete ⟨(Db.ownerOf target.toMemory).getD "unknown", none, synthesisSource mcpClient⟩
    ⟨target.id, target.ns, some target.title, some target.tier.asStr, none⟩

def handleDelete (h : Host) (t : Draw h.app.chrono) (params : Json) (mcpClient : Option String) (n : Node) :
    Node × Except String Json :=
  withTarget params n fun target =>
    withAgent h params mcpClient n fun agentId =>
      let payload := Json.obj [("id", .str target.id), ("title", .str target.title)]
      let context := [("memory_id", Json.str target.id)]
      permitted h n .memoryDelete target.ns agentId payload "delete" context <|
        governed h n .delete target.ns agentId (some target.id) (Db.ownerOf target.toMemory) payload (t.newId 0) t.now.text context
          fun n =>
            match n.db.delete target.id with
            | (db, true) => ({ n with db, audit := n.audit ++ [deleteEvent mcpClient target] }, .ok (.obj [("deleted", .bool true)]))
            | (db, false) => ({ n with db }, .error "memory not found")

/-- The update of a promotion to the tier `long`; the empty text clears the expiry. -/
def promoteUpdate : UpdateMemory where
  tier := some .long
  expiresAt := some ""

/-- The part of `handle_promote` behind the gate. -/
def promoteAllowed {c : Chrono} (t : Draw c) (params : Json) (target : MemoryRow) (n : Node) : Node × Except String Json :=
  match strParam params "to_namespace" with
  | some toNs =>
    match validateNamespace toNs with
    | .error e => (n, .error e)
    | .ok () =>
      match n.db.promoteToNamespace target.id toNs (t.newId 1) t.now.text with
      | .error e => (n, .error e)
      | .ok (db, cloneId) => ({ n with db }, .ok (.obj [("clone_id", .str cloneId), ("mode", .str "vertical"), ("promoted", .bool true),
          ("source_id", .str target.id), ("to_namespace", .str toNs)]))
  | none =>
    match n.db.update target.id promoteUpdate t.now.text with
    | .error e => (n, .error e)
    | .ok (db, false, _) => ({ n with db }, .error "memory not found")
    | .ok (db, true, _) => ({ n with db }, .ok (.obj [("id", .str target.id), ("mode", .str "tier"), ("promoted", .bool true),
        ("tier", .str "long")]))

def handlePromote (h : Host) (t : Draw h.app.chrono) (params : Json) (mcpClient : Option String) (n : Node) :
    Node × Except String Json :=
  withTarget params n fun target =>
    withAgent h params mcpClient n fun agentId =>
      let payload := Json.obj [("id", .str target.id), ("to_namespace", optStr (strParam params "to_namespace"))]
      governed h n .promote target.ns agentId (some target.id) (Db.ownerOf target.toMemory) payload (t.newId 0) t.now.text
        [("memory_id", Json.str target.id)] (promoteAllowed t params target)

/-! ## `handle_forget` -/

def forgetCount (db : Db) (fts : Fts) (ns pattern : Option String) (tier : Option Tier) : Except String ℕ :=
  if pattern.isNone ∧ ns.isNone ∧ tier.isNone then .error "at least one of namespace, pattern, or tier is required"
  else .ok (db.memories.rows.filter (Db.forgetSelects fts ns pattern tier)).length

def handleForget (h : Host) (t : Draw h.app.chrono) (params : Json) (n : Node) : Node × Except String Json :=
  let ns := strParam params "namespace"
  let pattern := strParam params "pattern"
  let tier := (strParam params "tier").bind Tier.fromStr
  if (boolParam params "dry_run").getD false then
    match forgetCount n.db h.app.fts ns pattern tier with
    | .error e => (n, .error e)
    | .ok count => (n, .ok (.obj [("dry_run", .bool true), ("would_delete", .int count)]))
  else
    match n.db.forget h.app.fts ns pattern tier h.app.archiveOnGc t.now.text with
    | .error e => (n, .error e)
    | .ok (db, deleted) => ({ n with db }, .ok (.obj [("archived", .bool h.app.archiveOnGc), ("deleted", .int deleted)]))

/-! ## `handle_link` -/

/-- The write of a link, with the quota of the owner of its source charged first and given back if it fails. -/
def linkCharged (h : Host) (now sourceId targetId relation : String) (n : Node) : Node × Except String Json :=
  let owner := (n.db.get sourceId).bind fun r => Db.ownerOf r.toMemory
  let charged : AgentQuotas × Except QuotaCheckError Unit :=
    match owner with
    | some agentId => charge n.quotas agentId .link now
    | none => (n.quotas, .ok ())
  match charged with
  | (quotas, .error e) => ({ n with quotas }, .error e.display)
  | (quotas, .ok ()) =>
    match n.db.createLinkSigned h.ed sourceId targetId relation now h.keypair with
    | .error e => ({ n with quotas := owner.elim quotas fun agentId => refundOp quotas agentId .link now }, .error e)
    | .ok (db, attestLevel) => ({ n with db, quotas }, .ok (.obj [("attest_level", .str attestLevel), ("linked", .bool true),
        ("relation", .str relation), ("source_id", .str sourceId), ("target_id", .str targetId)]))

/-- `handle_link`. It does not know the name of the client. -/
def handleLink (h : Host) (t : Draw h.app.chrono) (params : Json) (n : Node) : Node × Except String Json :=
  match required params "source_id", required params "target_id" with
  | .error e, _ => (n, .error e)
  | .ok _, .error e => (n, .error e)
  | .ok sourceId, .ok targetId =>
    let relation := (strParam params "relation").getD "related_to"
    match validateLink sourceId targetId relation with
    | .error e => (n, .error e)
    | .ok () =>
      withAgent h params none n fun agentId =>
        let linkNs := ((n.db.get sourceId).map fun r => r.ns).getD "global"
        permitted h n .memoryLink linkNs agentId
          (.obj [("relation", .str relation), ("source_id", .str sourceId), ("target_id", .str targetId)]) "link"
          [("source_id", .str sourceId), ("target_id", .str targetId)] (linkCharged h t.now.text sourceId targetId relation n)

/-! ## `handle_consolidate` -/

/-- The ids of the parameter `ids`. -/
def checkedIds : ℕ → List Json → Except String (List String)
  | _, [] => .ok []
  | i, j :: items =>
    match j.asStr with
    | none => .error s!"ids[{i}] must be a string"
    | some id =>
      match validateId id with
      | .error e => .error e
      | .ok () => (checkedIds (i + 1) items).map (id :: ·)

def memoryPairs (db : Db) : List String → Except String (List (String × String))
  | [] => .ok []
  | id :: ids =>
    match db.get id with
    | none => .error s!"memory not found: {id}"
    | some r => (memoryPairs db ids).map ((r.title, r.content) :: ·)

/-- The summary: that of the call, or one that the language model writes. -/
def Host.summaryFor (h : Host) (params : Json) (ids : List String) (db : Db) : Except String String :=
  match strParam params "summary", h.llm with
  | some s, _ => .ok s
  | none, some llm =>
    match memoryPairs db ids with
    | .error e => .error e
    | .ok pairs =>
      match llm.summarizeMemories pairs with
      | .ok s => .ok s
      | .error e => .error s!"LLM summarization failed: {e}"
  | none, none => .error "summary is required (or use smart/autonomous tier for auto-summarization)"

/-- What `handle_consolidate` works out before its gate. -/
structure ConsolidateRequest where
  ids : List String
  title : String
  summary : String
  ns : String

/-- The part of `handle_consolidate` before the gate. -/
def Host.consolidateRequest (h : Host) (params : Json) (db : Db) : Except String ConsolidateRequest := do
  let items ← match params.get "ids" with
    | some (.arr items) => .ok items
    | _ => .error "ids is required (array of memory IDs)"
  let ids ← checkedIds 0 items
  let title ← required params "title"
  let ns := (strParam params "namespace").getD "global"
  let summary ← h.summaryFor params ids db
  validateConsolidate ids title summary ns
  return { ids, title, summary, ns }

def isNamespaceStandard (db : Db) (id : String) : Bool := db.namespaceMeta.rows.any fun row => row.standardId = id

/-- The warning about standards among the sources, once they are gone. -/
def standardsWarning (db : Db) (ids : List String) (newId : String) : List (String × Json) :=
  let standards := ids.filter (isNamespaceStandard db)
  if standards = [] then []
  else
    let names := ", ".intercalate standards
    [("warning", .str
      s!"consolidated memories included namespace standard(s): {names}. Re-set the standard to the new memory ID: {newId}")]

def handleConsolidate (h : Host) (t : Draw h.app.chrono) (params : Json) (mcpClient : Option String) (n : Node) :
    Node × Except String Json :=
  match h.consolidateRequest params n.db with
  | .error e => (n, .error e)
  | .ok req =>
    withAgent h params mcpClient n fun agentId =>
      permitted h n .memoryConsolidate req.ns agentId
        (.obj [("source_ids", .arr (req.ids.map .str)), ("summary_chars", .int (byteLen req.summary.toList)),
          ("title", .str req.title)])
        "consolidate" [("namespace", .str req.ns), ("source_count", .int req.ids.length)] <|
        match n.db.consolidate req.ids req.title req.summary req.ns .long "consolidation" agentId (t.newId 0) t.now.text with
        | .error e => (n, .error e)
        | .ok (db, newId) =>
          let db := h.app.refresh db newId (req.title ++ " " ++ req.summary)
          let preview : List (String × Json) :=
            if (strParam params "summary").isNone then
              [("auto_summary", .bool true), ("summary_preview", .str (String.ofList (req.summary.toList.take 200)))]
            else []
          ({ n with db }, .ok (.obj ([("consolidated", .int req.ids.length), ("id", .str newId)] ++ preview ++
            standardsWarning db req.ids newId)))

/-! ## `tools/call` -/

/-- The tools that write. -/
inductive Tool where
  | store
  | update
  | delete
  | promote
  | forget
  | link
  | consolidate
  | pendingApprove
  | pendingReject
  deriving DecidableEq

/-- A call of a tool, with what it draws. -/
structure Call (h : Host) where
  tool : Tool
  params : Json
  mcpClient : Option String
  draw : Draw h.app.chrono
  tick : Tick

/-- A decision runs on the part of the node that the transports share. -/
def onServer (n : Node) (r : ApprovalApi.Server × Except String Json) : Node × Except String Json :=
  ({ n with toServer := r.1 }, r.2)

def Call.handle {h : Host} (c : Call h) (n : Node) : Node × Except String Json :=
  match c.tool with
  | .store => handleStore h c.draw c.params c.mcpClient n
  | .update => handleUpdate h c.draw c.params n
  | .delete => handleDelete h c.draw c.params c.mcpClient n
  | .promote => handlePromote h c.draw c.params c.mcpClient n
  | .forget => handleForget h c.draw c.params n
  | .link => handleLink h c.draw c.params n
  | .consolidate => handleConsolidate h c.draw c.params c.mcpClient n
  | .pendingApprove =>
    onServer n (handlePendingApprove h.app.memoryFromValue h.process c.tick c.params c.mcpClient n.toServer)
  | .pendingReject => onServer n (handlePendingReject h.process c.tick c.params c.mcpClient n.toServer)

/-- The action that `audit_emit_for_mcp_dispatch` reports for a tool; the first two report themselves. -/
def Tool.action : Tool → Option AuditAction
  | store => none
  | delete => none
  | update => some .update
  | promote => some .promote
  | forget => some .forget
  | link => some .link
  | consolidate => some .consolidate
  | pendingApprove => some .approve
  | pendingReject => some .reject

/-- The agent that the event of a call names. -/
def dispatchAgent (params : Json) (mcpClient : Option String) : String :=
  (strParam params "agent_id").getD ((mcpClient.map fun c => "ai:" ++ c).getD "anonymous")

/-- The id that the event of a call names. -/
def dispatchTarget (params : Json) : String := (((params.get "id").or (params.get "memory_id")).bind Json.asStr).getD "*"

/-- The event of `audit_emit_for_mcp_dispatch`. -/
def dispatchEvent (action : AuditAction) (params : Json) (mcpClient : Option String) (result : Except String Json) : EventBuilder :=
  let builder : EventBuilder := .new action ⟨dispatchAgent params mcpClient, none, synthesisSource mcpClient⟩
    ⟨dispatchTarget params, (strParam params "namespace").getD "global", none, none, none⟩
  match result with
  | .ok _ => builder
  | .error e => builder.withError e

/-- A call of `tools/call`. -/
def Call.dispatch {h : Host} (c : Call h) (n : Node) : Node × Except String Json :=
  let (n, result) := c.handle n
  match c.tool.action with
  | none => (n, result)
  | some action => ({ n with audit := n.audit ++ [dispatchEvent action c.params c.mcpClient result] }, result)

/-! ## A small host -/

/-- A host without rules, without a language model and without a key. -/
def host : Host where
  app := node
  process := process
  debug s := s
  activeRules := []
  asF64 _ := 1
  ranks _ _ _ _ := true
  autonomousHooks := false
  llm := none
  ed := ⟨fun _ _ => [], fun _ _ _ => false⟩
  keypair := none

def Node.start (db : Db) : Node := { db, quotas := ⟨[], List.nodup_nil⟩ }

/-- The parameters of a store by `alice`. -/
def storeParams (title content : String) : Json :=
  .obj [("agent_id", .str "alice"), ("content", .str content), ("namespace", .str "notes"), ("tier", .str "long"), ("title", .str title)]

/-- A store in an empty node is kept and reported. -/
example : ((handleStore host (draw nine ["m-1", "p-1"]) (storeParams "Plan" "draft") none (.start .empty)).1.audit.map fun b =>
    (b.actor.agentId, b.target.memoryId)) = [("alice", "m-1")] := by decide +kernel

end Mcp

end AiMemory
