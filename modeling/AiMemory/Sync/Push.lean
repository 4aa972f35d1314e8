import AiMemory.Lib.Transitions
import AiMemory.Db.Archive
import AiMemory.Db.Pending
import AiMemory.Db.SyncState

/-!
# Receiving a push

`sync_push` of `handlers.rs`. A body carries ten kinds of records, applied phase by phase in a fixed
order under one lock; a record that does not validate or whose write fails is skipped, and the
response is 200 all the same. One request reads the clock once here: nothing compares two readings of
one request.

`Host` is what the receiver gets from outside the repository, `Tick` what one request draws from the
clock and the random source.
-/

namespace AiMemory

open Relational Validate

structure SignableLink where
  srcId : String
  dstId : String
  relation : String
  observedBy : Option String
  validFrom : Option String
  validUntil : Option String
  deriving DecidableEq

/-- An embedding model: its dimension, and the encoded vector of a text. -/
structure Embedder where
  dim : ℕ
  embed : String → Option (List UInt8)

/-- The receiver's surroundings: `chrono`, SQLite faults, enrolled keys with Ed25519, `serde` and the
embedding model. -/
structure Host where
  rfc3339 : Rfc3339
  insertFault : Memory → Bool
  lookupPeerPublicKey : String → Option (List UInt8)
  verify : List UInt8 → SignableLink → List UInt8 → Bool
  memoryFromValue : Json → Except String Memory
  embedder : Option Embedder

/-- The digits of `short_uuid`. -/
def isHexDigit (c : Char) : Bool := c ∈ "0123456789abcdef".toList

/-- The clock, the eight digits of an anonymous request id, and a fresh id for each executed action. -/
structure Tick where
  now : String
  requestId : String
  newId : String → String
  requestId_length : requestId.toList.length = 8
  requestId_hex : requestId.toList.all isHexDigit

/-- `insert_if_newer` on this host, where it may also fail for a reason of its own. -/
def Host.insertIfNewer (h : Host) (db : Db) (mem : Memory) : Except String (Db × String) :=
  if h.insertFault mem then .error "database error" else db.insertIfNewer mem

/-- A received row: validated and merged, and skipped when either fails. -/
def Host.takeIn (h : Host) (db : Db) (mem : Memory) : Db :=
  if Accepts (validateMemory h.rfc3339 mem) then
    match h.insertIfNewer db mem with
    | .ok (db, _) => db
    | .error _ => db
  else db

section TakeIn

variable {h : Host} {db : Db} {mem m : Memory}

theorem takeIn_cases (h : Host) (db : Db) (mem : Memory) :
    (∃ id, mem.Valid h.rfc3339 ∧ h.insertFault mem = false ∧
      db.insertIfNewer mem = .ok (h.takeIn db mem, id)) ∨
    (h.takeIn db mem = db ∧ (mem.Valid h.rfc3339 → h.insertFault mem = true ∨
      db.getKey mem.key = none ∧ db.get mem.id ≠ none)) := by
  unfold Host.takeIn Host.insertIfNewer
  by_cases hv : Accepts (validateMemory h.rfc3339 mem)
  · rw [if_pos hv]
    by_cases hf : h.insertFault mem = true
    · rw [if_pos hf]
      exact Or.inr ⟨rfl, fun _ => Or.inl hf⟩
    · rw [if_neg hf]
      cases hi : db.insertIfNewer mem with
      | ok res => exact Or.inl ⟨res.2, hv, by simpa using hf, rfl⟩
      | error e => exact Or.inr ⟨rfl, fun _ => Or.inr (Db.insertOnConflict_error_iff.mp ⟨e, hi⟩)⟩
  · rw [if_neg hv]
    exact Or.inr ⟨rfl, fun hc => absurd hc hv⟩

theorem liveOn_takeIn (h : Host) (db : Db) (mem : Memory) : db.LiveOn (h.takeIn db mem) := by
  obtain ⟨id, -, -, hi⟩ | ⟨he, -⟩ := takeIn_cases h db mem
  · exact Db.liveOn_insertOnConflict hi
  · exact he.symm ▸ .refl db

theorem Db.Covers.takeIn (hc : db.Covers m) : (h.takeIn db mem).Covers m := by
  obtain ⟨id, -, -, hi⟩ | ⟨he, -⟩ := takeIn_cases h db mem
  · exact hc.insertIfNewer hi
  · rwa [he]

/-- The row is there afterwards: it is now, or its merge goes through. -/
def Host.Takes (h : Host) (db : Db) (mem : Memory) : Prop :=
  db.Covers mem ∨ h.insertFault mem = false ∧ (db.getKey mem.key ≠ none ∨ db.get mem.id = none)

theorem covers_takeIn_iff (hv : mem.Valid h.rfc3339) : (h.takeIn db mem).Covers mem ↔ h.Takes db mem := by
  obtain ⟨id, -, hf, hi⟩ | ⟨he, hskip⟩ := takeIn_cases h db mem
  · refine iff_of_true (Db.covers_insertIfNewer hi) (Or.inr ⟨hf, ?_⟩)
    by_contra hc
    rw [not_or, not_not] at hc
    obtain ⟨e, herr⟩ := Db.insertOnConflict_error_iff.mpr hc
    rw [show db.insertIfNewer mem = .error e from herr] at hi
    cases hi
  · rw [he]
    refine ⟨Or.inl, fun ht => ht.elim id fun ⟨hf, hfree⟩ => ?_⟩
    rcases hskip hv with hfault | ⟨hkey, hid⟩
    · rw [hf] at hfault
      cases hfault
    · exact (hfree.elim (absurd hkey ·) (absurd · hid))

theorem takeIn_syncState (mem : Memory) : (h.takeIn db mem).syncState = db.syncState := by
  obtain ⟨id, -, -, hi⟩ | ⟨he, -⟩ := takeIn_cases h db mem
  · rw [Db.insertOnConflict_frame hi]
  · rw [he]

theorem foldl_takeIn_syncState (page : List Memory) : (page.foldl h.takeIn db).syncState = db.syncState :=
  Machine.foldl_keeps (fun _ mem => takeIn_syncState mem) db page

end TakeIn

/-! ### The newest valid row -/

/-- The newest `updated_at` of the valid rows. -/
def latestValid (h : Host) (page : List Memory) : Option String :=
  page.foldl (fun latest mem =>
    if Accepts (validateMemory h.rfc3339 mem) ∧ latest.all (mem.updatedAt > ·) then
      some mem.updatedAt
    else latest) none

/-- The newest valid stamp is one of the page, and no valid row is newer. -/
theorem latestValid_spec (h : Host) (page : List Memory) :
    (∀ ts, latestValid h page = some ts → ∃ m ∈ page, m.Valid h.rfc3339 ∧ m.updatedAt = ts) ∧
    (∀ m ∈ page, m.Valid h.rfc3339 → ∃ ts, latestValid h page = some ts ∧ m.updatedAt ≤ ts) := by
  induction page using List.reverseRecOn with
  | nil => simp [latestValid]
  | append_singleton page mem ih =>
    obtain ⟨ih₁, ih₂⟩ := ih
    have heq : latestValid h (page ++ [mem]) =
        if mem.Valid h.rfc3339 ∧ (latestValid h page).all (mem.updatedAt > ·) then some mem.updatedAt
        else latestValid h page := by
      unfold latestValid
      rw [List.foldl_append]
      rfl
    rw [heq]
    split_ifs with hnew
    · refine ⟨fun ts hts => ?_, fun m hm hv => ⟨_, rfl, ?_⟩⟩
      · cases hts
        exact ⟨mem, by simp, hnew.1, rfl⟩
      · rcases List.mem_append.mp hm with hm | hm
        · obtain ⟨ts, hts, hle⟩ := ih₂ m hm hv
          have hlt : mem.updatedAt > ts := by simpa [hts] using hnew.2
          exact hle.trans hlt.le
        · rw [List.mem_singleton.mp hm]
    · refine ⟨fun ts hts => ?_, fun m hm hv => ?_⟩
      · obtain ⟨m, hm, hv, rfl⟩ := ih₁ ts hts
        exact ⟨m, List.mem_append_left _ hm, hv, rfl⟩
      · rcases List.mem_append.mp hm with hm | hm
        · exact ih₂ m hm hv
        · rw [List.mem_singleton.mp hm] at hv ⊢
          cases hl : latestValid h page with
          | none => exact absurd ⟨hv, by simp [hl]⟩ hnew
          | some ts =>
            refine ⟨ts, rfl, not_lt.mp fun hlt => hnew ⟨hv, ?_⟩⟩
            simpa [hl] using hlt

/-- `resolve_http_agent_id` without a body field. -/
def resolveHttpAgentId (header : Option String) (requestId : String) : Except String String :=
  let id :=
    match header with
    | some id => if id = "" then s!"anonymous:req-{requestId}" else id
    | none => s!"anonymous:req-{requestId}"
  match validateAgentId id with
  | .ok () => .ok id
  | .error e => .error e

theorem isHexDigit_spec {c : Char} (h : isHexDigit c) : isAgentIdChar c ∧ c.utf8Size = 1 := by
  have hall : "0123456789abcdef".toList.all
      (fun c => decide (isAgentIdChar c = true ∧ c.utf8Size = 1)) = true := by decide
  unfold isHexDigit at h
  simpa using List.all_eq_true.mp hall c (by simpa using h)

/-- The id made up for an anonymous request is a valid agent id. -/
theorem accepts_anonymous (t : Tick) :
    Accepts (validateAgentId s!"anonymous:req-{t.requestId}") := by
  have hchars : (s!"anonymous:req-{t.requestId}").toList = "anonymous:req-".toList ++ t.requestId.toList := by
    simp [toString]
  have hbytes : (t.requestId.toList.map Char.utf8Size).sum = 8 := by
    have : t.requestId.toList.map Char.utf8Size = List.replicate 8 1 := by
      rw [List.eq_replicate_iff]
      refine ⟨by simpa using t.requestId_length, fun n hn => ?_⟩
      obtain ⟨c, hc, rfl⟩ := List.mem_map.mp hn
      exact (isHexDigit_spec (List.all_eq_true.mp t.requestId_hex c hc)).2
    rw [this]
    rfl
  have hlead : "anonymous:req-".toList.all isAgentIdChar = true := by decide
  unfold validateAgentId byteLen
  rw [accepts_bind, accepts_bind, accepts_bailIf, accepts_bailIf, hchars]
  refine ⟨?_, ?_, ?_⟩
  · rw [decide_eq_false_iff_not]
    intro hc
    have := congrArg String.toList hc
    rw [hchars] at this
    simp at this
  · rw [List.map_append, List.sum_append, hbytes]
    decide
  · have hnone : ("anonymous:req-".toList ++ t.requestId.toList).find? (!isAgentIdChar ·) = none := by
      rw [List.find?_eq_none]
      intro c hc
      rcases List.mem_append.mp hc with hc | hc
      · simp [List.all_eq_true.mp hlead c hc]
      · simp [(isHexDigit_spec (List.all_eq_true.mp t.requestId_hex c hc)).1]
    rw [hnone]
    rfl

theorem resolveHttpAgentId_none (t : Tick) :
    resolveHttpAgentId none t.requestId = .ok s!"anonymous:req-{t.requestId}" := by
  unfold resolveHttpAgentId
  simp only
  rw [show validateAgentId s!"anonymous:req-{t.requestId}" = .ok () from accepts_anonymous t]

def maxBulkSize : ℕ := 1000

structure SyncPushBody where
  senderAgentId : String
  memories : List Memory
  deletions : List String := []
  archives : List String := []
  restores : List String := []
  links : List MemoryLink := []
  pendings : List PendingAction := []
  pendingDecisions : List PendingDecision := []
  namespaceMeta : List NamespaceMetaEntry := []
  namespaceMetaClears : List String := []
  dryRun : Bool := false

/-- The counters of the response. -/
structure PushReport where
  applied : ℕ := 0
  deleted : ℕ := 0
  archived : ℕ := 0
  restored : ℕ := 0
  linksApplied : ℕ := 0
  pendingsApplied : ℕ := 0
  pendingDecisionsApplied : ℕ := 0
  namespaceMetaApplied : ℕ := 0
  namespaceMetaCleared : ℕ := 0
  noop : ℕ := 0
  skipped : ℕ := 0
  deriving DecidableEq

/-- The local variables of `sync_push` while it goes through a body. -/
structure Push where
  db : Db
  report : PushReport := {}
  latestSeen : Option String := none
  embeddingRefresh : List (String × String) := []

namespace Push

def skip (s : Push) : Push := { s with report := { s.report with skipped := s.report.skipped + 1 } }

def noop (s : Push) : Push := { s with report := { s.report with noop := s.report.noop + 1 } }

/-- Counts a record that was written, in the counter `count` adds to. -/
def wrote (s : Push) (db : Db) (count : PushReport → PushReport) : Push :=
  { s with db, report := count s.report }

section Phases

variable (h : Host) (t : Tick) (dryRun : Bool)

def memory (s : Push) (mem : Memory) : Push :=
  if ¬Accepts (validateMemory h.rfc3339 mem) then s.skip
  else
    let s := if s.latestSeen.all (mem.updatedAt > ·) then { s with latestSeen := some mem.updatedAt } else s
    if dryRun then s.noop
    else
      match h.insertIfNewer s.db mem with
      | .ok (db, actualId) =>
        { s.wrote db (fun r => { r with applied := r.applied + 1 }) with
          embeddingRefresh := s.embeddingRefresh ++ [(actualId, mem.title ++ " " ++ mem.content)] }
      | .error _ => s.skip

def deletion (s : Push) (delId : String) : Push :=
  if ¬Accepts (validateId delId) then s.skip
  else if dryRun then s.noop
  else
    match s.db.delete delId with
    | (db, true) => s.wrote db fun r => { r with deleted := r.deleted + 1 }
    | (db, false) => { s.noop with db }

def archive (s : Push) (archId : String) : Push :=
  if ¬Accepts (validateId archId) then s.skip
  else if dryRun then s.noop
  else
    match s.db.archiveMemory archId (some "sync_push") t.now with
    | (db, true) => s.wrote db fun r => { r with archived := r.archived + 1 }
    | (_, false) => s.noop

def restore (s : Push) (resId : String) : Push :=
  if ¬Accepts (validateId resId) then s.skip
  else if dryRun then s.noop
  else
    match s.db.restoreArchived resId t.now with
    | .ok (db, true) => s.wrote db fun r => { r with restored := r.restored + 1 }
    | .ok (_, false) => s.noop
    | .error _ => s.skip

/-- The attest level of an incoming link, or none for a rejected signature. -/
def attestLevel (link : MemoryLink) : Option String :=
  match link.signature, link.observedBy with
  | some sig, some observedBy =>
    match h.lookupPeerPublicKey observedBy with
    | some key =>
      if h.verify key ⟨link.sourceId, link.targetId, link.relation, some observedBy, link.validFrom,
        link.validUntil⟩ sig then some "peer_attested" else none
    | none => some "unsigned"
  | _, _ => some "unsigned"

def link (s : Push) (link : MemoryLink) : Push :=
  if ¬Accepts (validateLink link.sourceId link.targetId link.relation) then s.skip
  else if dryRun then s.noop
  else
    match attestLevel h link with
    | none => s.skip
    | some level =>
      match s.db.createLinkInbound link level t.now with
      | .ok db => s.wrote db fun r => { r with linksApplied := r.linksApplied + 1 }
      | .error _ => s.skip

def pending (s : Push) (pa : PendingAction) : Push :=
  if ¬Accepts (validateId pa.id) then s.skip
  else if dryRun then s.noop
  else s.wrote (s.db.upsertPendingAction pa) fun r => { r with pendingsApplied := r.pendingsApplied + 1 }

/-- The database after a decision: an approval that changes the status runs the action, and a failure
of the action is only logged. -/
def decide (db : Db) (dec : PendingDecision) : Db × Bool :=
  match db.decidePendingAction dec.id dec.approved dec.decider t.now with
  | (db, true) =>
    if dec.approved then
      match db.executePendingAction ⟨h.memoryFromValue, t.newId dec.id, t.now⟩ dec.id with
      | .ok (db, _) => (db, true)
      | .error _ => (db, true)
    else (db, true)
  | (db, false) => (db, false)

def decision (s : Push) (dec : PendingDecision) : Push :=
  if ¬Accepts (validateId dec.id) then s.skip
  else if dryRun then s.noop
  else
    match decide h t s.db dec with
    | (db, true) =>
      s.wrote db fun r => { r with pendingDecisionsApplied := r.pendingDecisionsApplied + 1 }
    | (_, false) => s.noop

def namespaceMeta (s : Push) (entry : NamespaceMetaEntry) : Push :=
  if ¬Accepts (validateNamespace entry.ns) ∨ ¬Accepts (validateId entry.standardId) then
    s.skip
  else if dryRun then s.noop
  else
    match s.db.setNamespaceStandard entry.ns entry.standardId entry.parentNamespace t.now with
    | .ok db => s.wrote db fun r => { r with namespaceMetaApplied := r.namespaceMetaApplied + 1 }
    | .error _ => s.skip

def namespaceMetaClear (s : Push) (ns : String) : Push :=
  if ¬Accepts (validateNamespace ns) then s.skip
  else if dryRun then s.noop
  else
    match s.db.clearNamespaceStandard ns with
    | (db, true) => s.wrote db fun r => { r with namespaceMetaCleared := r.namespaceMetaCleared + 1 }
    | (_, false) => s.noop

def refresh (e : Embedder) (db : Db) (row : String × String) : Db :=
  match e.embed row.2 with
  | none => db
  | some blob =>
    match db.setEmbedding row.1 blob e.dim with
    | .ok db => db
    | .error _ => db

def records (b : SyncPushBody) (db : Db) : Push :=
  let s := b.memories.foldl (memory h b.dryRun) { db }
  let s := b.deletions.foldl (deletion b.dryRun) s
  let s := b.archives.foldl (archive t b.dryRun) s
  let s := b.restores.foldl (restore t b.dryRun) s
  let s := b.links.foldl (link h t b.dryRun) s
  let s := b.pendings.foldl (pending b.dryRun) s
  let s := b.pendingDecisions.foldl (decision h t b.dryRun) s
  let s := b.namespaceMeta.foldl (namespaceMeta t b.dryRun) s
  b.namespaceMetaClears.foldl (namespaceMetaClear b.dryRun) s

def observed (localAgentId : String) (b : SyncPushBody) (s : Push) : Push :=
  match s.latestSeen with
  | some seen =>
    if b.dryRun then s
    else { s with db := s.db.syncStateObserve localAgentId b.senderAgentId seen t.now }
  | none => s

def body (localAgentId : String) (b : SyncPushBody) (db : Db) : Push :=
  let s := observed t localAgentId b (records h t b db)
  match h.embedder with
  | some e => if b.dryRun then s else { s with db := s.embeddingRefresh.foldl (refresh e) s.db }
  | none => s

end Phases

/-! ### What a body does to the rows and to the watermarks -/

section Rows

variable {h : Host} {t : Tick}

theorem memory_db (s : Push) (mem : Memory) : (memory h false s mem).db = h.takeIn s.db mem := by
  unfold memory Host.takeIn
  by_cases hv : Accepts (validateMemory h.rfc3339 mem)
  · simp only [hv, not_true, if_false, if_true, Bool.false_eq_true]
    have hdb : (if s.latestSeen.all (mem.updatedAt > ·) then { s with latestSeen := some mem.updatedAt }
        else s).db = s.db := by split_ifs <;> rfl
    rw [hdb]
    cases h.insertIfNewer s.db mem with
    | error e => exact hdb
    | ok res => rfl
  · simp only [hv, not_false_eq_true, if_true, if_false]
    rfl

theorem foldl_memory_db (s : Push) (mems : List Memory) :
    (mems.foldl (memory h false) s).db = mems.foldl h.takeIn s.db := by
  induction mems generalizing s with
  | nil => rfl
  | cons mem mems ih => rw [List.foldl_cons, ih, memory_db, List.foldl_cons]

theorem refresh_live (e : Embedder) (db : Db) (row : String × String) :
    (refresh e db row).live = db.live := by
  unfold refresh
  cases e.embed row.2 with
  | none => rfl
  | some blob =>
    simp only
    split
    · rename_i db' hs
      obtain ⟨d, rfl⟩ := Db.setEmbedding_eq_ok hs
      exact Db.live_writeEmbedding db row.1 blob d
    · rfl

theorem body_live (agent : String) (b : SyncPushBody) (db : Db) :
    (body h t agent b db).db.live = (records h t b db).db.live := by
  have hobserve : (observed t agent b (records h t b db)).db.live = (records h t b db).db.live := by
    unfold observed
    split
    · split_ifs <;> rfl
    · rfl
  unfold body
  rw [← hobserve]
  split
  · split_ifs
    · rfl
    · exact Machine.foldl_keeps (refresh_live _) _ _
  · rfl

theorem covers_body_iff {agent : String} {b : SyncPushBody} {db : Db} {m : Memory} :
    (body h t agent b db).db.Covers m ↔ (records h t b db).db.Covers m := by
  rw [Db.covers_iff_live, Db.covers_iff_live, body_live]

end Rows

end Push

/-- The response: 400 with an error, or 200 with the counters and the receiver's identity. -/
inductive PushResponse where
  | badRequest (error : String)
  | ok (report : PushReport) (dryRun : Bool) (receiverAgentId : String)
      (receiverClock : List (String × String))
  deriving DecidableEq

def PushResponse.isSuccess : PushResponse → Bool
  | ok .. => true
  | badRequest _ => false

def SyncPushBody.check (b : SyncPushBody) : Except String Unit := do
  match validateAgentId b.senderAgentId with
  | .error e => .error s!"invalid sender_agent_id: {e}"
  | .ok () => .ok ()
  let limited := fun (n : ℕ) (what : String) =>
    bailIf (decide (n > maxBulkSize)) s!"sync_push limited to {maxBulkSize} {what} per request"
  limited b.memories.length "memories"
  limited b.deletions.length "deletions"
  limited b.archives.length "archives"
  limited b.restores.length "restores"
  limited b.pendings.length "pendings"
  limited b.pendingDecisions.length "pending_decisions"
  limited b.namespaceMeta.length "namespace_meta"
  limited b.namespaceMetaClears.length "namespace_meta_clears"

def syncPush (h : Host) (t : Tick) (header : Option String) (b : SyncPushBody) (db : Db) :
    Db × PushResponse :=
  match b.check with
  | .error e => (db, .badRequest e)
  | .ok () =>
    match resolveHttpAgentId header t.requestId with
    | .error e => (db, .badRequest s!"invalid x-agent-id: {e}")
    | .ok localAgentId =>
      let s := Push.body h t localAgentId b db
      let clock := (s.db.syncState.rows.filter fun r => r.agentId = localAgentId).map fun r =>
        (r.peerId, r.lastSeenAt)
      (s.db, .ok s.report b.dryRun localAgentId clock)

theorem syncPush_cases (h : Host) (t : Tick) (header : Option String) (b : SyncPushBody) (db : Db) :
    (∃ agent, resolveHttpAgentId header t.requestId = .ok agent ∧
      (syncPush h t header b db).1 = (Push.body h t agent b db).db ∧
      (syncPush h t header b db).2.isSuccess) ∨
    ((syncPush h t header b db).1 = db ∧ (syncPush h t header b db).2.isSuccess = false) := by
  unfold syncPush
  cases b.check with
  | error e => exact Or.inr ⟨rfl, rfl⟩
  | ok u =>
    cases hr : resolveHttpAgentId header t.requestId with
    | error e => exact Or.inr ⟨rfl, rfl⟩
    | ok agent => exact Or.inl ⟨agent, rfl, rfl, rfl⟩

/-- The request gets past the checks. -/
def SyncPushBody.Accepted (b : SyncPushBody) (t : Tick) (header : Option String) : Prop :=
  b.check = .ok () ∧ ∃ agent, resolveHttpAgentId header t.requestId = .ok agent

theorem syncPush_accepted (h : Host) (t : Tick) (header : Option String) (b : SyncPushBody) (db : Db) :
    (b.Accepted t header ∧ ∃ agent, (syncPush h t header b db).1 = (Push.body h t agent b db).db) ∨
    (¬b.Accepted t header ∧ (syncPush h t header b db).1 = db) := by
  unfold SyncPushBody.Accepted syncPush
  cases b.check with
  | error e => exact Or.inr ⟨(fun hr => nomatch hr.1), rfl⟩
  | ok u =>
    cases resolveHttpAgentId header t.requestId with
    | error e => exact Or.inr ⟨(fun hr => nomatch hr.2), rfl⟩
    | ok agent => exact Or.inl ⟨⟨rfl, agent, rfl⟩, agent, rfl⟩

theorem isSuccess_syncPush (h : Host) (t : Tick) (header : Option String) (b : SyncPushBody) (db : Db) :
    (syncPush h t header b db).2.isSuccess ↔ b.Accepted t header := by
  unfold SyncPushBody.Accepted syncPush
  cases b.check with
  | error e => exact iff_of_false Bool.false_ne_true (fun hr => nomatch hr.1)
  | ok u =>
    cases resolveHttpAgentId header t.requestId with
    | error e => exact iff_of_false Bool.false_ne_true (fun hr => nomatch hr.2)
    | ok agent => exact iff_of_true rfl ⟨rfl, agent, rfl⟩

/-! ## A plain receiver -/

/-- A note of `alice` in the namespace `team`. -/
def note (id title stamp : String) : Memory where
  id := id
  tier := .long
  ns := "team"
  title := title
  content := "see the wiki"
  tags := []
  priority := 5
  confidence := 1
  source := "user"
  accessCount := 0
  createdAt := stamp
  updatedAt := stamp
  lastAccessedAt := none
  expiresAt := none
  metadata := .obj [("agent_id", .str "alice")]

/-- A receiver without enrolled keys or embedding model, that reads the given stamps. -/
def plainHost (stamps : List String) (fault : Memory → Bool) : Host where
  rfc3339 := fun s => s ∈ stamps
  insertFault := fault
  lookupPeerPublicKey := fun _ => none
  verify := fun _ _ _ => false
  memoryFromValue := fun _ => .error "invalid type"
  embedder := none

def tickAt (now : String) : Tick := ⟨now, "0a1b2c3d", fun _ => "", by decide, by decide⟩

end AiMemory
