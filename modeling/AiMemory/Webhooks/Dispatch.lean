import AiMemory.Db.Pending

/-!
# Webhook bodies

`dispatch_event_with_details` and `dispatch_approval_requested` of `subscriptions.rs`, up to the body that each matching
subscription gets. A body is a JSON object whose members are written in order: the fields of the envelope, then those of
the flattened details. Nothing keeps a name from being written twice.
-/

namespace AiMemory

namespace Webhooks

/-- `Subscription`: the columns that a dispatch reads. -/
structure Subscription where
  id : String
  url : String
  events : String
  eventTypes : Option (List String)
  namespaceFilter : Option String
  agentFilter : Option String
  deriving DecidableEq

/-- The members of an object, in the order in which they are written. -/
abbrev Members := List (String × Json)

/-- A `serde_json::Value`: an object has each key once. -/
structure Value where
  json : Json
  nodup : ∀ fields, json = .obj fields → (fields.map Prod.fst).Nodup

structure DispatchPayload where
  event : String
  memoryId : String
  ns : String
  agentId : Option String
  deliveredAt : String
  correlationId : String
  details : Option Value

/-- `sub_events` names the event, or all events. -/
def namesEvent (subEvents event : String) : Bool :=
  subEvents = "*" ||
    (subEvents.toList.splitOn ',').any fun e =>
      let e := Validate.trim (String.ofList e)
      e = event.toList || e = ['*']

def matchesFilters (sub : Subscription) (event ns : String) (agent : Option String) : Bool :=
  (match sub.eventTypes with
    | some list => list.contains event
    | none => namesEvent sub.events event) &&
  sub.namespaceFilter.all (fun filter => filter = "" || filter = ns) &&
  sub.agentFilter.all fun filter => filter = "" || agent = some filter

def optional (s : Option String) : Json := s.elim .null .str

namespace DispatchPayload

def identity (p : DispatchPayload) : Members :=
  [("event", .str p.event), ("memory_id", .str p.memoryId), ("namespace", .str p.ns), ("agent_id", optional p.agentId),
    ("correlation_id", .str p.correlationId)]

def envelope (p : DispatchPayload) : Members :=
  [("event", .str p.event), ("memory_id", .str p.memoryId), ("namespace", .str p.ns), ("agent_id", optional p.agentId),
    ("delivered_at", .str p.deliveredAt), ("correlation_id", .str p.correlationId)]

def envelopeKeys : List String := ["event", "memory_id", "namespace", "agent_id", "delivered_at", "correlation_id"]

end DispatchPayload

/-- `#[serde(flatten)]`: an object gives its fields, nothing gives none, and the rest is refused. -/
def flatten : Option Value → Except String Members
  | none => .ok []
  | some v =>
    match v.json with
    | .null => .ok []
    | .obj fields => .ok fields
    | .bool _ => .error "can only flatten structs and maps (got a boolean)"
    | .int _ => .error "can only flatten structs and maps (got an integer)"
    | .float _ => .error "can only flatten structs and maps (got a float)"
    | .str _ => .error "can only flatten structs and maps (got a string)"
    | .arr _ => .error "can only flatten structs and maps (got a sequence)"

/-- What `serde_json::to_string` writes of a payload. -/
def DispatchPayload.members (p : DispatchPayload) : Except String Members := (flatten p.details).map (p.envelope ++ ·)

/-- One delivery: where it goes, the payload, and the members of its body. -/
structure Delivery where
  url : String
  payload : DispatchPayload
  members : Members

def Delivery.body (d : Delivery) : String := (Json.obj d.members).toText

/-- What is read anew for each subscription: the correlation id and the time. -/
structure Stamp where
  correlationId : String
  deliveredAt : String

/-- `dispatch_event_with_details`. A payload that does not serialise is skipped. -/
def dispatchEventWithDetails (subs : List Subscription) (stamp : Subscription → Stamp) (event memoryId ns : String)
    (agentId : Option String) (details : Option Value) : List Delivery :=
  (subs.filter fun sub => matchesFilters sub event ns agentId).filterMap fun sub =>
    let payload : DispatchPayload :=
      ⟨event, memoryId, ns, agentId, (stamp sub).deliveredAt, (stamp sub).correlationId, details⟩
    payload.members.toOption.map fun members => ⟨sub.url, payload, members⟩

structure ApprovalRequestedEventDetails where
  actionType : String
  requestedAt : String
  memoryId : Option String
  status : String

/-- `serde_json::to_value` of the details: keys in order, no `memory_id` where there is none. -/
def ApprovalRequestedEventDetails.fields (d : ApprovalRequestedEventDetails) : Members :=
  ("action_type", .str d.actionType) :: ((d.memoryId.toList.map fun id => ("memory_id", .str id)) ++
    [("requested_at", .str d.requestedAt), ("status", .str d.status)])

def ApprovalRequestedEventDetails.toValue (d : ApprovalRequestedEventDetails) : Value where
  json := .obj d.fields
  nodup := by
    rintro fields ⟨⟩
    unfold ApprovalRequestedEventDetails.fields
    cases d.memoryId <;> simp

def dispatchApprovalRequested (db : Db) (subs : List Subscription) (stamp : Subscription → Stamp) (pendingId : String) :
    List Delivery :=
  match db.getPendingAction pendingId with
  | none => []
  | some pa =>
    let details : ApprovalRequestedEventDetails := ⟨pa.actionType, pa.requestedAt, pa.memoryId, pa.status⟩
    dispatchEventWithDetails subs stamp "approval_requested" pa.id pa.ns (some pa.requestedBy) (some details.toValue)

/-! ## Saying it once -/

/-- A body that names nothing twice and from which every reader gets the envelope. -/
structure SaidOnce (p : DispatchPayload) (members : Members) : Prop where
  nodup : (members.map Prod.fst).Nodup
  reads : ∀ e ∈ p.identity, ∀ v, (e.1, v) ∈ members ↔ v = e.2

/-- The details have no key of the envelope. -/
def Apart (details : Option Value) : Prop :=
  ∀ v ∈ details, ∀ fields, v.json = .obj fields → ∀ k ∈ fields.map Prod.fst, k ∉ DispatchPayload.envelopeKeys

variable {p : DispatchPayload} {members extra : Members} {db : Db} {subs : List Subscription}
  {stamp : Subscription → Stamp} {event memoryId ns pendingId : String} {agentId : Option String}
  {details : Option Value} {d : Delivery}

namespace DispatchPayload

theorem map_fst_envelope : p.envelope.map Prod.fst = envelopeKeys := rfl

theorem nodup_envelopeKeys : envelopeKeys.Nodup := by decide

theorem identity_subset : p.identity ⊆ p.envelope := by
  intro e he
  simp only [identity, envelope, List.mem_cons, List.not_mem_nil, or_false] at he ⊢
  tauto

end DispatchPayload

theorem eq_of_nodup {k : String} {v w : Json} (hn : (members.map Prod.fst).Nodup) (hv : (k, v) ∈ members)
    (hw : (k, w) ∈ members) : v = w :=
  congrArg Prod.snd (List.inj_on_of_nodup_map hn hv hw rfl)

theorem nodup_flatten (h : flatten details = .ok extra) : (extra.map Prod.fst).Nodup := by
  cases details with
  | none =>
    cases h
    exact List.nodup_nil
  | some v =>
    cases hjson : v.json with
    | obj fields =>
      rw [flatten, hjson] at h
      cases h
      exact v.nodup extra hjson
    | null =>
      rw [flatten, hjson] at h
      cases h
      exact List.nodup_nil
    | _ =>
      rw [flatten, hjson] at h
      cases h

theorem apart_iff (h : flatten details = .ok extra) :
    Apart details ↔ ∀ k ∈ extra.map Prod.fst, k ∉ DispatchPayload.envelopeKeys := by
  cases details with
  | none =>
    cases h
    exact iff_of_true (fun v hv => by cases hv) (fun k hk => by cases hk)
  | some v =>
    cases hjson : v.json with
    | obj fields =>
      rw [flatten, hjson] at h
      cases h
      constructor
      · exact fun hapart => hapart v rfl extra hjson
      · rintro hkeys v' ⟨⟩ fields' hfields
        rw [hjson] at hfields
        cases hfields
        exact hkeys
    | null =>
      rw [flatten, hjson] at h
      cases h
      refine iff_of_true ?_ (fun k hk => by cases hk)
      rintro v' ⟨⟩ fields' hfields
      rw [hjson] at hfields
      cases hfields
    | _ =>
      rw [flatten, hjson] at h
      cases h

theorem saidOnce_iff (h : p.members = .ok members) : SaidOnce p members ↔ Apart p.details := by
  obtain ⟨extra, hextra, rfl⟩ : ∃ extra, flatten p.details = .ok extra ∧ p.envelope ++ extra = members := by
    unfold DispatchPayload.members at h
    cases hflat : flatten p.details with
    | error e =>
      rw [hflat] at h
      cases h
    | ok extra =>
      rw [hflat] at h
      exact ⟨extra, rfl, Except.ok.inj h⟩
  have hnodup : ((p.envelope ++ extra).map Prod.fst).Nodup ↔
      ∀ k ∈ extra.map Prod.fst, k ∉ DispatchPayload.envelopeKeys := by
    rw [List.map_append, List.nodup_append', DispatchPayload.map_fst_envelope]
    refine ⟨fun h k hk henv => h.2.2 henv hk, fun h => ⟨DispatchPayload.nodup_envelopeKeys, nodup_flatten hextra, ?_⟩⟩
    exact fun k henv hk => h k hk henv
  rw [apart_iff hextra, ← hnodup]
  refine ⟨SaidOnce.nodup, fun hn => ⟨hn, fun e he v => ⟨fun hv => ?_, ?_⟩⟩⟩
  · exact eq_of_nodup hn hv (List.mem_append_left extra (DispatchPayload.identity_subset he))
  · rintro rfl
    exact List.mem_append_left extra (DispatchPayload.identity_subset he)

/-! ## Deliveries -/

theorem mem_dispatchEventWithDetails (h : d ∈ dispatchEventWithDetails subs stamp event memoryId ns agentId details) :
    d.payload.members = .ok d.members ∧ d.payload.event = event ∧ d.payload.memoryId = memoryId ∧ d.payload.ns = ns ∧
      d.payload.agentId = agentId ∧ d.payload.details = details := by
  obtain ⟨sub, -, hd⟩ := List.mem_filterMap.mp h
  obtain ⟨members, hmembers, rfl⟩ := Option.map_eq_some_iff.mp hd
  refine ⟨?_, rfl, rfl, rfl, rfl, rfl⟩
  revert hmembers
  cases DispatchPayload.members _ with
  | error e => exact fun h => by cases h
  | ok members' => exact fun h => congrArg Except.ok (Option.some.inj h)

theorem apart_toValue_iff {a : ApprovalRequestedEventDetails} : Apart (some a.toValue) ↔ a.memoryId = none := by
  have hflat : flatten (some a.toValue) = .ok a.fields := rfl
  rw [apart_iff hflat]
  unfold ApprovalRequestedEventDetails.fields
  cases a.memoryId with
  | none => exact iff_of_true (by simp [DispatchPayload.envelopeKeys]) rfl
  | some id => exact iff_of_false (by simp [DispatchPayload.envelopeKeys]) (by simp)

/-- The two dispatchers. -/
inductive Call where
  | event (event memoryId ns : String) (agentId : Option String) (details : Option Value)
  | approvalRequested (pendingId : String)

def Call.deliveries (db : Db) (subs : List Subscription) (stamp : Subscription → Stamp) : Call → List Delivery
  | .event event memoryId ns agentId details =>
    dispatchEventWithDetails subs stamp event memoryId ns agentId details
  | .approvalRequested pendingId => dispatchApprovalRequested db subs stamp pendingId

/-- The details have no key of the envelope; the pending action is about no memory. -/
def Call.Separate (db : Db) : Call → Prop
  | .event _ _ _ _ details => Apart details
  | .approvalRequested pendingId => ∀ pa, db.getPendingAction pendingId = some pa → pa.memoryId = none

/-- Each body says what happened once exactly when no detail has the name of a field of the envelope. -/
theorem delivered_once_iff {call : Call} (h : d ∈ call.deliveries db subs stamp) :
    SaidOnce d.payload d.members ↔ call.Separate db := by
  cases call with
  | event event memoryId ns agentId details =>
    obtain ⟨hmembers, -, -, -, -, hdetails⟩ := mem_dispatchEventWithDetails h
    rw [saidOnce_iff hmembers, hdetails]
    rfl
  | approvalRequested pendingId =>
    change d ∈ dispatchApprovalRequested db subs stamp pendingId at h
    unfold dispatchApprovalRequested at h
    unfold Call.Separate
    cases hpa : db.getPendingAction pendingId with
    | none =>
      rw [hpa] at h
      cases h
    | some pa =>
      rw [hpa] at h
      obtain ⟨hmembers, -, -, -, -, hdetails⟩ := mem_dispatchEventWithDetails h
      rw [saidOnce_iff hmembers, hdetails, apart_toValue_iff]
      exact ⟨fun hnone pa' hpa' => Option.some.inj (hpa.symm.trans hpa') ▸ hnone, fun hall => hall pa hpa⟩

def everything : Subscription := ⟨"sub-1", "https://hooks.example.com/in", "*", none, none, none⟩

def firstStamp : Subscription → Stamp := fun _ =>
  ⟨"0195a3c4-7b2e-7cc0-9a51-3d1f6a2b8e10", "2026-01-01T00:00:00+00:00"⟩

/-- The details of a promotion to the tier `long`. -/
def promoted : Value where
  json := .obj [("mode", .str "tier"), ("tier", .str "long")]
  nodup := by
    rintro fields ⟨⟩
    decide

def promotion : Call := .event "memory_promote" "m-1" "chat" (some "alice") (some promoted)

theorem promotion_delivered : ∃ d ∈ promotion.deliveries Db.empty [everything] firstStamp,
    SaidOnce d.payload d.members ↔ promotion.Separate Db.empty := by
  have hmem : (⟨everything.url, _, _⟩ : Delivery) ∈ promotion.deliveries Db.empty [everything] firstStamp :=
    List.mem_singleton.mpr rfl
  exact ⟨_, hmem, delivered_once_iff hmem⟩

def deletion : PendingAction where
  id := "pa-1"
  actionType := "delete"
  memoryId := some "m-1"
  ns := "chat"
  payload := .obj []
  requestedBy := "alice"
  requestedAt := "2026-01-01T00:00:00+00:00"
  status := "pending"
  decidedBy := none
  decidedAt := none
  approvals := []

/-- Its event names two memories. -/
theorem deletion_said_twice :
    ∃ d ∈ (Call.approvalRequested "pa-1").deliveries (Db.empty.upsertPendingAction deletion) [everything] firstStamp,
      ("memory_id", .str "pa-1") ∈ d.members ∧ ("memory_id", .str "m-1") ∈ d.members ∧
        ¬SaidOnce d.payload d.members := by
  have hmem : (⟨everything.url, _, _⟩ : Delivery) ∈
      (Call.approvalRequested "pa-1").deliveries (Db.empty.upsertPendingAction deletion) [everything] firstStamp :=
    List.mem_singleton.mpr rfl
  refine ⟨_, hmem, by decide, by decide, fun h => ?_⟩
  have hnodup := h.nodup
  revert hnodup
  decide

end Webhooks

end AiMemory
