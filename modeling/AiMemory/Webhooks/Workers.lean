import AiMemory.Lib.Transitions
import AiMemory.Webhooks.Dispatch
import AiMemory.Webhooks.Guard

/-!
# Delivery workers

The threads that `dispatch_event_with_details` of `subscriptions.rs` spawns, one for each matching subscription, and the
three tables they write. Each statement of a worker opens a connection of its own, so the steps of different workers, and
calls that add or remove subscriptions, may come in any order.

An event is recorded as `pending`. After the retries of `deliver_with_retry` a worker counts the dispatch, sets the status
of the event, and files a dead letter if it failed. The lookup of the secret comes before that, and it ends the worker when
the subscription is gone.
-/

namespace AiMemory

open Relational

namespace Webhooks

/-! ## Tables -/

/-- A row of `subscriptions`. -/
structure SubscriptionRow extends Subscription where
  secretHash : Option String
  createdBy : Option String
  createdAt : String
  dispatchCount : ℤ
  failureCount : ℤ
  lastDispatchedAt : Option String
  deriving DecidableEq

structure SubscriptionEvent where
  id : ℕ
  subscriptionId : String
  correlationId : String
  eventType : String
  payload : String
  deliveredAt : String
  deliveryStatus : String
  deriving DecidableEq

structure DlqEntry where
  id : ℕ
  subscriptionId : String
  correlationId : String
  eventType : String
  payload : String
  retryCount : ℤ
  lastError : String
  firstFailedAt : String
  lastFailedAt : String
  deriving DecidableEq

def SubscriptionRow.dispatched (ok : Bool) (now : String) (r : SubscriptionRow) : SubscriptionRow :=
  { r with
    dispatchCount := r.dispatchCount + 1
    failureCount := if ok then r.failureCount else r.failureCount + 1
    lastDispatchedAt := some now }

abbrev Subscriptions := Table fun r : SubscriptionRow => r.id

/-! ## Subscribing -/

def webhookEventTypes : List String :=
  ["memory_store", "memory_promote", "memory_delete", "memory_link_created", "memory_link_invalidated",
    "memory_consolidated", "approval_requested"]

structure NewSubscription where
  url : String
  events : String
  secret : Option String
  namespaceFilter : Option String
  agentFilter : Option String
  createdBy : Option String
  eventTypes : Option (List String)

/-- The digests, the secret of the server, and whether loopback addresses are allowed. -/
structure Settings where
  sha256Hex : String → String
  hmacSha256Hex : String → String → String
  hooksHmacSecret : Option String
  allowLoopback : Bool

def NewSubscription.row (st : Settings) (req : NewSubscription) (id now : String) : SubscriptionRow where
  id := id
  url := req.url
  events := req.eventTypes.elim req.events (",".intercalate ·)
  eventTypes := req.eventTypes
  namespaceFilter := req.namespaceFilter
  agentFilter := req.agentFilter
  secretHash := req.secret.map st.sha256Hex
  createdBy := req.createdBy
  createdAt := now
  dispatchCount := 0
  failureCount := 0
  lastDispatchedAt := none

/-- A list of names as `{:?}` writes it. -/
def debugNames (names : List String) : String := "[" ++ ", ".intercalate (names.map String.quote) ++ "]"

/-- `insert`, with a new id. -/
def insert (st : Settings) (subs : Subscriptions) (req : NewSubscription) (id now : String) :
    Except String Subscriptions :=
  match validateUrlWith req.url st.allowLoopback with
  | .error e => .error e
  | .ok () =>
    match req.eventTypes.bind (·.find? fun ev => ev ∉ webhookEventTypes) with
    | some ev => .error s!"unknown webhook event type {ev.quote}; valid types: {debugNames webhookEventTypes}"
    | none =>
      match subs.insertNew? (req.row st id now) with
      | some subs' => .ok subs'
      | none => .error "UNIQUE constraint failed: subscriptions.id"

def delete (subs : Subscriptions) (id : String) : Subscriptions := subs.filter fun r => r.id ≠ id

/-! ## One delivery -/

/-- `RETRY_BACKOFFS`, in milliseconds. -/
def retryBackoffs : List ℕ := [200, 1000, 5000]

structure DeliveryOutcome where
  success : Bool
  attempts : ℤ
  lastError : String
  firstFailedAt : String
  lastFailedAt : String
  deriving DecidableEq

/-- The loop of `deliver_with_retry` over the attempts that are left. -/
def deliverLoop (send : ℕ → Except String Unit) (clock : ℕ → String) : List ℕ → DeliveryOutcome → DeliveryOutcome
  | [], outcome => outcome
  | attemptIdx :: rest, outcome =>
    match send attemptIdx with
    | .ok () => { outcome with success := true, attempts := outcome.attempts + 1, lastError := "" }
    | .error e =>
      deliverLoop send clock rest
        { success := false
          attempts := outcome.attempts + 1
          lastError := e
          firstFailedAt := if outcome.firstFailedAt = "" then clock attemptIdx else outcome.firstFailedAt
          lastFailedAt := clock attemptIdx }

/-- `deliver_with_retry`, on what each attempt meets. -/
def deliverWithRetry (send : ℕ → Except String Unit) (clock : ℕ → String) : DeliveryOutcome :=
  deliverLoop send clock (List.range (retryBackoffs.length + 1)) ⟨false, 0, "", "", ""⟩

/-- What the closure of a worker owns. -/
structure Job where
  subId : String
  correlationId : String
  event : String
  url : String
  body : String
  timestamp : String

/-- What is sent. -/
structure Post where
  url : String
  body : String
  timestamp : String
  signature : Option String
  correlationId : String

/-- The signature of a body, with the secret of the subscription or that of the server. -/
def signature (st : Settings) (job : Job) (secretHash : Option String) : Option String :=
  let canonical := job.timestamp ++ "." ++ job.body
  match secretHash with
  | some h => some (st.hmacSha256Hex h canonical)
  | none => st.hooksHmacSecret.map fun plain => st.hmacSha256Hex (st.sha256Hex plain) canonical

def Job.post (job : Job) (signature : Option String) : Post :=
  ⟨job.url, job.body, job.timestamp, signature, job.correlationId⟩

/-- Where a worker is: what it has just done. `ended none` is the return after a failed lookup of the secret. -/
inductive Phase where
  | spawned
  | stamped (now : String)
  | recorded
  | loaded (signature : Option String)
  | delivered (outcome : DeliveryOutcome)
  | counted (outcome : DeliveryOutcome)
  | marked (outcome : DeliveryOutcome)
  | ended (outcome : Option DeliveryOutcome)

structure Worker where
  job : Job
  phase : Phase

/-- The tables. -/
structure Tables where
  subscriptions : Subscriptions
  events : List SubscriptionEvent
  dlq : List DlqEntry

/-- What a step reads from outside: the clock, and what the attempts of a delivery meet. -/
structure Draw where
  now : String
  send : Post → ℕ → Except String Unit
  clock : ℕ → String

namespace Tables

/-! ## Statements -/

/-- The insert of `record_subscription_event`, after the clock was read. -/
def recordSubscriptionEvent (t : Tables) (job : Job) (now : String) : Tables :=
  { t with events := t.events ++
      [⟨t.events.length + 1, job.subId, job.correlationId, job.event, job.body, now, "pending"⟩] }

def loadSecretHash (t : Tables) (subId : String) : Except String (Option String) :=
  match t.subscriptions.find subId with
  | some r => .ok r.secretHash
  | none => .error "load_secret_hash query"

def recordDispatch (t : Tables) (subId : String) (ok : Bool) (now : String) : Tables :=
  { t with subscriptions := t.subscriptions.modify subId (SubscriptionRow.dispatched ok now) fun _ => rfl }

def status (ok : Bool) : String := if ok then "ack" else "failed"

def updateEventStatus (t : Tables) (correlationId : String) (ok : Bool) : Tables :=
  { t with events := t.events.map fun e =>
      if e.correlationId = correlationId then { e with deliveryStatus := status ok } else e }

def recordDlq (t : Tables) (job : Job) (outcome : DeliveryOutcome) : Tables :=
  { t with dlq := t.dlq ++
      [⟨t.dlq.length + 1, job.subId, job.correlationId, job.event, job.body, outcome.attempts, outcome.lastError,
        outcome.firstFailedAt, outcome.lastFailedAt⟩] }

/-- The next statement of a worker: what it leaves in the tables, and where it leaves the worker. -/
def advance (st : Settings) (t : Tables) (w : Worker) (d : Draw) : Tables × Phase :=
  match w.phase with
  | .spawned => (t, .stamped d.now)
  | .stamped now => (t.recordSubscriptionEvent w.job now, .recorded)
  | .recorded =>
    match t.loadSecretHash w.job.subId with
    | .ok secretHash => (t, .loaded (signature st w.job secretHash))
    | .error _ => (t, .ended none)
  | .loaded signature => (t, .delivered (deliverWithRetry (d.send (w.job.post signature)) d.clock))
  | .delivered outcome => (t.recordDispatch w.job.subId outcome.success d.now, .counted outcome)
  | .counted outcome => (t.updateEventStatus w.job.correlationId outcome.success, .marked outcome)
  | .marked outcome => (if outcome.success then t else t.recordDlq w.job outcome, .ended (some outcome))
  | .ended outcome => (t, .ended outcome)

end Tables

/-- The tables and the threads. -/
structure Hub extends Tables where
  workers : List Worker

variable {st : Settings}

namespace Hub

variable {hub : Hub} {i : ℕ} {d : Draw} {w : Worker}

def empty : Hub := ⟨⟨Table.empty, [], []⟩, []⟩

/-! ## Steps -/

def work (st : Settings) (hub : Hub) (i : ℕ) (d : Draw) : Hub :=
  match hub.workers[i]? with
  | none => hub
  | some w =>
    let (tables, phase) := hub.advance st w d
    ⟨tables, hub.workers.set i { w with phase := phase }⟩

def list (hub : Hub) : List SubscriptionRow := 
  hub.subscriptions.rows.insertionSort fun a b => b.createdAt ≤ a.createdAt

/-- `dispatch_event_with_details`: what a dispatch is about, and its readings of the clock and of the id generator. -/
structure Dispatch where
  event : String
  memoryId : String
  ns : String
  agentId : Option String
  details : Option Value
  timestamp : String
  stamp : Subscription → Stamp

def jobs (hub : Hub) (c : Dispatch) : List Job :=
  hub.list.flatMap fun sub =>
    (dispatchEventWithDetails [sub.toSubscription] c.stamp c.event c.memoryId c.ns c.agentId c.details).map fun d =>
      ⟨sub.id, d.payload.correlationId, c.event, d.url, d.body, c.timestamp⟩

def dispatch (hub : Hub) (c : Dispatch) : Hub :=
  { hub with workers := hub.workers ++ (hub.jobs c).map fun job => ⟨job, .spawned⟩ }

/-- What may happen. -/
inductive Op where
  | subscribe (req : NewSubscription) (id now : String)
  | unsubscribe (id : String)
  | dispatch (c : Dispatch)
  | work (i : ℕ) (d : Draw)

def step (st : Settings) (hub : Hub) : Op → Hub
  | .subscribe req id now =>
    match insert st hub.subscriptions req id now with
    | .ok subs => { hub with subscriptions := subs }
    | .error _ => hub
  | .unsubscribe id => { hub with subscriptions := delete hub.subscriptions id }
  | .dispatch c => hub.dispatch c
  | .work i d => hub.work st i d

/-- New ids are new: no worker has the id of a new subscription, or the correlation id of a new event. -/
def Legal (hub : Hub) : Op → Prop
  | .subscribe _ id _ => ∀ w ∈ hub.workers, w.job.subId ≠ id
  | .dispatch c => ((hub.jobs c).map fun j => j.correlationId).Nodup ∧
      ∀ j ∈ hub.jobs c, ∀ w ∈ hub.workers, w.job.correlationId ≠ j.correlationId
  | _ => True

theorem work_of_none (h : hub.workers[i]? = none) : hub.work st i d = hub := by
  unfold work
  rw [h]

theorem work_of_some (h : hub.workers[i]? = some w) : hub.work st i d =
    ⟨(hub.advance st w d).1, hub.workers.set i { w with phase := (hub.advance st w d).2 }⟩ := by
  unfold work
  rw [h]

end Hub

theorem rows_insert {subs subs' : Subscriptions} {req : NewSubscription} {id now : String}
    (h : insert st subs req id now = .ok subs') : subs'.rows = subs.rows ++ [req.row st id now] := by
  unfold insert at h
  split at h
  · cases h
  · split at h
    · cases h
    · split at h
      · rename_i hnew
        cases h
        exact Table.insertNew?_rows hnew
      · cases h

/-! ## Samples -/

def plainSettings : Settings := ⟨id, fun _ body => body, none, false⟩

def everyEvent : NewSubscription := ⟨"https://hooks.example.com/in", "*", none, none, none, none, none⟩

def stored : Hub.Dispatch := ⟨"memory_store", "m-1", "notes", none, none, "1767225600", firstStamp⟩

end Webhooks

end AiMemory
