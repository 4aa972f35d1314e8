import AiMemory.Sync.Push
import AiMemory.Replication.AckTracker

/-!
# Quorum writes to the peers

`broadcast_store_quorum` of `federation.rs` posts a memory to every peer and counts acks until the
quorum is met or the deadline has passed. A peer runs `sync_push`; any 2xx is an ack unless the
response names other ids, which `sync_push` never does.

The network is the order in which the posts complete, with what became of each of the two attempts.
-/

namespace AiMemory

/-- `FederationConfig`, with what `build` establishes: distinct peers, and a policy over them and the
local node. -/
structure FederationConfig where
  policy : QuorumPolicy
  peers : List String
  senderAgentId : String
  peers_nodup : peers.Nodup
  policy_n : policy.n = 1 + peers.length
  one_le_w : 1 ≤ policy.w
  w_le_n : policy.w ≤ policy.n

inductive AckOutcome where
  | ack
  | idDrift
  | fail (reason : String)
  deriving DecidableEq

/-- What becomes of one POST: lost on the way, processed with the answer lost, or answered. -/
inductive Delivery where
  | lost
  | answerLost
  | answered
  deriving DecidableEq

def storeBody (senderAgentId : String) (mem : Memory) : SyncPushBody :=
  { senderAgentId, memories := [mem] }

/-- How `post_once` reads a 2xx response with the given `ids`. -/
def classifyIds (ids : Option (List String)) (expectedId : String) : AckOutcome :=
  match ids with
  | some ids => if ids ≠ [] ∧ expectedId ∉ ids then .idDrift else .ack
  | none => .ack

/-- `post_once` to a peer that runs `sync_push`. The request has no `x-agent-id`, the response no
`ids`. -/
def postOnce (h : Host) (t : Tick) (body : SyncPushBody) (expectedId : String) (db : Db) :
    Delivery → Db × AckOutcome
  | .lost => (db, .fail "network")
  | .answerLost => ((syncPush h t none body db).1, .fail "network")
  | .answered =>
    match syncPush h t none body db with
    | (db, .ok ..) => (db, classifyIds none expectedId)
    | (db, .badRequest _) => (db, .fail "http 400 Bad Request")

/-- `post_and_classify`: one retry after a failure. -/
def postAndClassify (h : Host) (t : Tick) (body : SyncPushBody) (expectedId : String) (db : Db)
    (first second : Delivery) : Db × AckOutcome :=
  match postOnce h t body expectedId db first with
  | (db, .fail firstReason) =>
    match postOnce h t body expectedId db second with
    | (db, .fail retryReason) => (db, .fail s!"first: {firstReason}; retry: {retryReason}")
    | (db, outcome) => (db, outcome)
  | (db, outcome) => (db, outcome)

/-- The completion of the posts to one peer. -/
structure Arrival where
  peer : String
  instant : ℕ
  tick : Tick
  first : Delivery
  second : Delivery

def AckTracker.record (t : AckTracker) (peer : String) : AckOutcome → AckTracker
  | .ack => t.recordPeerAck peer
  | .idDrift => t.recordIdDrift peer
  | .fail _ => t

/-- The collection loop: stops at the deadline, when the posts are drained, or when the quorum is met. -/
def collectAcks (hosts : String → Host) (body : SyncPushBody) (mem : Memory) :
    List Arrival → AckTracker → (String → Db) → AckTracker × (String → Db)
  | [], tracker, nodes => (tracker, nodes)
  | a :: rest, tracker, nodes =>
    if tracker.deadline ≤ a.instant then (tracker, nodes)
    else
      let (db, outcome) := postAndClassify (hosts a.peer) a.tick body mem.id (nodes a.peer) a.first a.second
      let tracker := tracker.record a.peer outcome
      let nodes := Function.update nodes a.peer db
      if tracker.isQuorumMet a.instant then (tracker, nodes)
      else collectAcks hosts body mem rest tracker nodes

/-- `broadcast_store_quorum`, started at `start`, with the posts completing as `arrivals` says. -/
def broadcastStoreQuorum (config : FederationConfig) (hosts : String → Host) (mem : Memory) (start : ℕ)
    (arrivals : List Arrival) (nodes : String → Db) : AckTracker × (String → Db) :=
  collectAcks hosts (storeBody config.senderAgentId mem) mem arrivals
    (AckTracker.new config.policy start).recordLocal nodes

def finaliseQuorum (tracker : AckTracker) (now : ℕ) : Except QuorumError ℕ := tracker.finalise now

/-! ## One post -/

section Post

variable {h : Host} {t : Tick} {sender : String} {mem : Memory} {db : Db}

theorem check_storeBody : (storeBody sender mem).check = .ok () ↔ Accepts (Validate.validateAgentId sender) := by
  unfold SyncPushBody.check storeBody
  cases hv : Validate.validateAgentId sender with
  | error e => simp [Accepts, bind, Except.bind]
  | ok u => simp [Accepts, bind, Except.bind, maxBulkSize, Validate.bailIf]

theorem covers_syncPush_storeBody (hs : Accepts (Validate.validateAgentId sender)) (m : Memory) :
    (syncPush h t none (storeBody sender mem) db).1.Covers m ↔ (h.takeIn db mem).Covers m := by
  unfold syncPush
  rw [check_storeBody.mpr hs, resolveHttpAgentId_none]
  show (Push.body h t _ (storeBody sender mem) db).db.Covers m ↔ _
  rw [Push.covers_body_iff]
  show (Push.memory h false _ mem).db.Covers m ↔ _
  rw [Push.memory_db]

theorem isSuccess_syncPush_storeBody :
    (syncPush h t none (storeBody sender mem) db).2.isSuccess ↔ Accepts (Validate.validateAgentId sender) := by
  unfold syncPush
  rw [resolveHttpAgentId_none, ← @check_storeBody sender mem]
  cases hc : (storeBody sender mem).check with
  | error e => simp [PushResponse.isSuccess]
  | ok u => simp [PushResponse.isSuccess]

end Post

end AiMemory
