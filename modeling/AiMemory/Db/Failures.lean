import AiMemory.Db.Entities
import AiMemory.Lib.Sessions

/-!
# Operations whose statements fail

Nine operations of `db.rs`, statement by statement. SQLite may answer any of their statements with an error. `archive_memory`,
`restore_archived`, `gc`, `consolidate` and `touch` run theirs in a transaction; `delete`, `forget`, `promote_to_namespace` and
`entity_register` do not, and keep what the statements before the error did.

`failed_unchanged_iff` says in which cases an operation that returns an error has left the tables as they were.
-/

namespace AiMemory

open Relational Sessions

namespace Entities

/-- A statement on the tables of `Db`. -/
def Registry.onDb (reg : Registry) (f : Db → Db) : Registry := { reg with db := f reg.db }

end Entities

namespace Failures

open Entities

/-- The statements of the operations. Those in a loop carry their place. -/
inductive Stmt where
  | begin
  | commit
  | present
  | live
  | metadata
  | reset
  | archive
  | standards
  | memories
  | unarchive
  | restore
  | source (k : ℕ)
  | insert
  | standardsOf (k : ℕ)
  | memoriesOf (k : ℕ)
  | sourceEnd
  | targetEnd
  | link
  | entity
  | collision
  | prepare
  | claim (k : ℕ)
  | listAliases
  | bump
  | promote
  | reinforce
  deriving DecidableEq

/-- The statements that SQLite answers with an error. -/
abbrev Faults := Stmt → Option Fault

/-- `INSERT INTO memories .. ON CONFLICT`. -/
def insert (fault : Option Fault) (m : Memory) : Sql Registry String :=
  exec fault fun reg => (reg.db.insert m).map fun x => (x.2, { reg with db := x.1 })

/-- `SELECT COUNT(*) > 0 FROM memories WHERE id = ?`, where an error counts as no. -/
def isLive (fault : Option Fault) (id : String) : Sql Registry Bool :=
  orDefault (read fault fun reg => (reg.db.get id).isSome) false

/-- `DELETE FROM memories WHERE id = ?`. -/
def remove (fault : Option Fault) (id : String) : Sql Registry Bool :=
  exec fault fun reg => .ok ((reg.db.get id).isSome, reg.onDb (·.deleteMemories fun r => r.id ≠ id))

def delete (onStandards onMemories : Option Fault) (id : String) : Sql Registry Bool := do
  write onStandards (·.onDb (·.dropStandard id))
  remove onMemories id

variable (faults : Faults)

def forget (fts : Fts) (ns pattern : Option String) (tier : Option Tier) (archive : Bool) (now : String) : Sql Registry ℕ :=
  if pattern.isNone ∧ ns.isNone ∧ tier.isNone then bail "at least one of namespace, pattern, or tier is required"
  else do
    let sel := Db.forgetSelects fts ns pattern tier
    if archive then write (faults .archive) (·.onDb (·.archiveWhere sel (forgetRow now)))
    exec (faults .memories) fun reg =>
      .ok ((reg.db.memories.rows.filter sel).length, reg.onDb (·.deleteMemories fun r => !sel r))

def createLink (sourceId targetId relation now : String) : Sql Registry Unit := do
  if !(← isLive (faults .sourceEnd) sourceId) then bail s!"source memory not found: {sourceId}"
  else if !(← isLive (faults .targetEnd) targetId) then bail s!"target memory not found: {targetId}"
  else write (faults .link) (·.onDb (·.insertLink {
    sourceId, targetId, relation, createdAt := now, validFrom := some now, validUntil := none,
    signature := none, observedBy := none, attestLevel := some "unsigned" }))

def promoteToNamespace (sourceId toNamespace newId now : String) : Sql Registry String :=
  if toNamespace = "" then bail "to_namespace cannot be empty"
  else do
    match ← read (faults (.source 0)) fun reg => reg.db.get sourceId with
    | none => bail s!"source memory not found: {sourceId}"
    | some source =>
      let ns := source.ns
      if toNamespace = ns then
        bail s!"to_namespace must be a proper ancestor of the memory's namespace (got self: {ns})"
      else if toNamespace ∉ namespaceAncestors ns then
        let ancestors := debugStrings (namespaceAncestors ns)
        bail s!"to_namespace '{toNamespace}' is not an ancestor of '{ns}' (ancestors: {ancestors})"
      else do
        let actualId ← insert (faults .insert) (promotionClone source.toMemory toNamespace newId now)
        createLink faults actualId sourceId "derived_from" now
        pure actualId

/-- The loop of `entity_register` over the aliases. -/
def claimAliases (entityId now : String) (aliases : List String) : Sql Registry Unit :=
  each (fun k given => if trimmed given = "" then pure ()
    else write (faults (.claim k)) fun reg => reg.addAlias entityId (trimmed given) now) 0 aliases

def entityOf (call : Call) (d : Draw) : Sql Registry (String × Bool) := do
  match ← read (faults .entity) fun reg => findEntity reg.db call with
  | some id => pure (id, false)
  | none =>
    match ← read (faults .collision) fun reg => findCollision reg.db call with
    | some _ =>
      let name := call.canonicalName
      let ns := call.ns
      bail s!"entity_register: title '{name}' in namespace '{ns}' is already used by a non-entity memory"
    | none =>
      let id ← context "insert entity memory" (insert (faults .insert) (call.memory d.newId d.now))
      pure (id, true)

/-- What `entity_register` does once it has its entity. -/
def claimAll (entityId now : String) (call : Call) (created : Bool) : Sql Registry EntityRegistration := do
  read (faults .prepare) fun _ => ()
  claimAliases faults entityId now call.aliases
  let aliases ← read (faults .listAliases) fun reg => reg.listEntityAliases entityId
  pure ⟨entityId, call.canonicalName, call.ns, aliases, created⟩

def entityRegister (call : Call) (d : Draw) : Sql Registry EntityRegistration := do
  let (entityId, created) ← entityOf faults call d
  claimAll faults entityId d.aliasNow call created

/-- `archive_memory`, inside its transaction. -/
def archiveBody (id : String) (reason : Option String) (now : String) : Sql Registry Bool := do
  if !(← isLive (faults .present) id) then pure false
  else do
    write (faults .archive) (·.onDb (·.archiveWhere (fun r => r.id = id) (archiveRow now (reason.getD "archive"))))
    delete (faults .standards) (faults .memories) id

def archiveMemory (id : String) (reason : Option String) (now : String) : Sql Registry Bool :=
  transaction (faults .begin) (faults .commit) (archiveBody faults id reason now)

/-- `UPDATE archived_memories SET metadata = '\x7b\x7d' WHERE id = ?`. -/
def resetMetadata (id : String) (db : Db) : Db :=
  { db with archived := db.archived.modify id (fun a => { a with metadata := .obj [] }) fun _ => rfl }

/-- `INSERT INTO memories .. SELECT .. FROM archived_memories WHERE id = ?`. -/
def restoreRow (db : Db) (id now : String) : Except String Db :=
  match db.archived.find id with
  | none => .ok db
  | some a =>
    match db.memories.insertNew? { AiMemory.restoreRow now a with metadata := a.metadata } with
    | some t => .ok { db with memories := t }
    | none => .error "UNIQUE constraint failed: memories.title, memories.namespace"

/-- The metadata that `restore_archived` checks. -/
def archivedMetadata (id : String) : Sql Registry Json :=
  orDefault (read (faults .metadata) fun reg => (reg.db.archived.find id).elim (.obj []) fun a => a.metadata) (.obj [])

/-- The last two statements of `restore_archived`. -/
def moveRow (id now : String) : Sql Registry Bool := do
  exec (faults .restore) fun reg => (restoreRow reg.db id now).map fun db => ((), { reg with db })
  write (faults .unarchive) (·.onDb fun db => { db with archived := db.archived.filter fun a => a.id ≠ id })
  pure true

/-- `restore_archived`, after its checks. -/
def moveBack (id now : String) (metadata : Json) : Sql Registry Bool := do
  if ¬Accepts (Validate.validateMetadata metadata) then write (faults .reset) (·.onDb (resetMetadata id))
  moveRow faults id now

/-- `restore_archived`, inside its transaction. -/
def restoreBody (id now : String) : Sql Registry Bool := do
  if !(← orDefault (read (faults .present) fun reg => (reg.db.archived.find id).isSome) false) then pure false
  else if ← isLive (faults .live) id then
    bail s!"cannot restore: memory {id} already exists in active table (would overwrite)"
  else do
    let metadata ← archivedMetadata faults id
    moveBack faults id now metadata

def restoreArchived (id now : String) : Sql Registry Bool :=
  transaction (faults .begin) (faults .commit) (restoreBody faults id now)

/-- `gc`, inside its transaction. -/
def gcBody (archive : Bool) (now : String) : Sql Registry ℕ := do
  if archive then write (faults .archive) (·.onDb (·.archiveWhere (Db.isExpired now) (archiveRow now "ttl_expired")))
  exec (faults .memories) fun reg =>
    .ok ((reg.db.memories.rows.filter (Db.isExpired now)).length, reg.onDb (·.deleteMemories fun r => !Db.isExpired now r))

def gc (archive : Bool) (now : String) : Sql Registry ℕ := do
  let deleted ← transaction (faults .begin) (faults .commit) (gcBody faults archive now)
  orDefault (write (faults .standards) (·.onDb fun db =>
    { db with namespaceMeta := db.namespaceMeta.filter fun e => (db.get e.standardId).isSome })) ()
  pure deleted

/-- The loop of `consolidate` over its sources. -/
def collect : ℕ → List String → Consolidation → Sql Registry Consolidation
  | _, [], c => pure c
  | k, id :: ids, c => do
    match ← read (faults (.source k)) fun reg => reg.db.get id with
    | some mem => collect (k + 1) ids (c.add mem.toMemory)
    | none => bail s!"memory not found: {id}"

def deleteSource (k : ℕ) (id : String) : Sql Registry Unit := do
  let _ ← delete (faults (.standardsOf k)) (faults (.memoriesOf k)) id
  pure ()

/-- `consolidate`, inside its transaction. -/
def consolidateBody (ids : List String) (title summary ns : String) (tier : Tier) (source consolidatorAgentId newId now : String) :
    Sql Registry String := do
  let c ← collect faults 0 ids {}
  let metadata := c.metadata ids consolidatorAgentId
  match Validate.validateMetadata metadata with
  | .error _ => bail "merged metadata exceeds size limit"
  | .ok () => do
    exec (faults .insert) fun reg =>
      match reg.db.memories.insertNew? (c.row newId title summary ns tier source now metadata) with
      | none => .error "UNIQUE constraint failed"
      | some t => .ok ((), reg.onDb fun db => { db with memories := t })
    each (deleteSource faults) 0 ids
    pure newId

def consolidate (ids : List String) (title summary ns : String) (tier : Tier) (source consolidatorAgentId newId now : String) :
    Sql Registry String :=
  transaction (faults .begin) (faults .commit) (consolidateBody faults ids title summary ns tier source consolidatorAgentId newId now)

theorem bumpRow_id (t : Db.TouchTimes) (r : MemoryRow) : (Db.bumpRow t r).id = r.id := rfl

theorem bumpRow_key (t : Db.TouchTimes) (r : MemoryRow) : (Db.bumpRow t r).key = r.key := rfl

theorem promoteRow_id (now : String) (r : MemoryRow) : (Db.promoteRow now r).id = r.id := by
  unfold Db.promoteRow
  split_ifs <;> rfl

theorem promoteRow_key (now : String) (r : MemoryRow) : (Db.promoteRow now r).key = r.key := by
  unfold Db.promoteRow
  split_ifs <;> rfl

theorem reinforceRow_id (r : MemoryRow) : (Db.reinforceRow r).id = r.id := by
  unfold Db.reinforceRow
  split_ifs <;> rfl

theorem reinforceRow_key (r : MemoryRow) : (Db.reinforceRow r).key = r.key := by
  unfold Db.reinforceRow
  split_ifs <;> rfl

/-- `touch`, inside its transaction. -/
def touchBody (id : String) (t : Db.TouchTimes) : Sql Registry Unit := do
  write (faults .bump) (·.onDb (·.updateRow id (Db.bumpRow t) (bumpRow_id t) (bumpRow_key t)))
  write (faults .promote) (·.onDb (·.updateRow id (Db.promoteRow t.now) (promoteRow_id t.now) (promoteRow_key t.now)))
  write (faults .reinforce) (·.onDb (·.updateRow id Db.reinforceRow reinforceRow_id reinforceRow_key))

def touch (id : String) (t : Db.TouchTimes) : Sql Registry Unit :=
  transaction (faults .begin) (faults .commit) (touchBody faults id t)

/-! ## The nine operations -/

/-- A call of one of the operations, with the ids and the clock readings it draws. -/
inductive Op where
  | delete (id : String)
  | forget (ns pattern : Option String) (tier : Option Tier) (archive : Bool) (now : String)
  | promoteToNamespace (sourceId toNamespace newId now : String)
  | entityRegister (call : Call) (d : Draw)
  | archiveMemory (id : String) (reason : Option String) (now : String)
  | restoreArchived (id now : String)
  | gc (archive : Bool) (now : String)
  | consolidate (ids : List String) (title summary ns : String) (tier : Tier) (source consolidatorAgentId newId now : String)
  | touch (id : String) (t : Db.TouchTimes)

/-- The statements of a call, on a connection without an open transaction. -/
def Op.run (fts : Fts) : Op → Sql Registry Unit
  | delete id => outcome (Failures.delete (faults .standards) (faults .memories) id)
  | forget ns pattern tier archive now => outcome (Failures.forget faults fts ns pattern tier archive now)
  | promoteToNamespace sourceId toNamespace newId now => outcome (Failures.promoteToNamespace faults sourceId toNamespace newId now)
  | entityRegister call d => outcome (Failures.entityRegister faults call d)
  | archiveMemory id reason now => outcome (Failures.archiveMemory faults id reason now)
  | restoreArchived id now => outcome (Failures.restoreArchived faults id now)
  | gc archive now => outcome (Failures.gc faults archive now)
  | consolidate ids title summary ns tier source consolidatorAgentId newId now =>
    outcome (Failures.consolidate faults ids title summary ns tier source consolidatorAgentId newId now)
  | touch id t => outcome (Failures.touch faults id t)

end Failures

end AiMemory
