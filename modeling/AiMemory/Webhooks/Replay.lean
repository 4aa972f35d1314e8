import AiMemory.Lib.Cursor
import AiMemory.Webhooks.Workers

/-!
# Replay from a cursor

`replay_subscription_events` of `subscriptions.rs`, called again and again by a client that passes the greatest
`delivered_at` it has been given. The stamp of an event is read from the clock one step before its row is inserted. What the
client sees of one subscription is a `Cursor.Feed`: the rows as they were inserted, since their status may change later.
-/

namespace AiMemory

open Machine Cursor

namespace Webhooks

def Tables.replaySubscriptionEvents (t : Tables) (subscriptionId since : String) : List SubscriptionEvent :=
  (t.events.filter fun e => e.subscriptionId = subscriptionId ∧ since ≤ e.deliveredAt).insertionSort
    fun a b => a.deliveredAt < b.deliveredAt ∨ a.deliveredAt = b.deliveredAt ∧ a.id ≤ b.id

/-- The cursor of a client, and the results of its calls. -/
structure Client where
  cursor : String
  calls : List (List SubscriptionEvent)

def Client.call (c : Client) (t : Tables) (subscriptionId : String) : Client :=
  let result := t.replaySubscriptionEvents subscriptionId c.cursor
  ⟨result.foldl (fun cursor e => max cursor e.deliveredAt) c.cursor, c.calls ++ [result]⟩

structure Session where
  hub : Hub
  client : Client

def Session.empty : Session := ⟨Hub.empty, ⟨"", []⟩⟩

inductive Act where
  | hub (op : Hub.Op)
  | replay

def Session.step (st : Settings) (sub : String) (s : Session) : Act → Session
  | .hub op => { s with hub := s.hub.step st op }
  | .replay => { s with client := s.client.call s.hub.toTables sub }

/-! ## New rows -/

def SubscriptionEvent.recorded (e : SubscriptionEvent) : SubscriptionEvent := { e with deliveryStatus := "pending" }

def Hub.newEvent (hub : Hub) : Op → Option SubscriptionEvent
  | .work i _ =>
    match hub.workers[i]? with
    | some ⟨job, .stamped now⟩ =>
      some ⟨hub.events.length + 1, job.subId, job.correlationId, job.event, job.body, now, "pending"⟩
    | _ => none
  | _ => none

variable {st : Settings} {sub : String} {t : Tables} {hub : Hub} {w : Worker} {d : Draw} {s : Session} {c : Client}

theorem recorded_updateEventStatus (correlationId : String) (ok : Bool) :
    (t.updateEventStatus correlationId ok).events.map SubscriptionEvent.recorded =
      t.events.map SubscriptionEvent.recorded := by
  rw [Tables.updateEventStatus, List.map_map]
  refine List.map_congr_left fun e _ => ?_
  rw [Function.comp_apply]
  split_ifs <;> rfl

variable (st) in
theorem recorded_step (hub : Hub) (op : Hub.Op) :
    (hub.step st op).events.map SubscriptionEvent.recorded =
      hub.events.map SubscriptionEvent.recorded ++ (hub.newEvent op).toList := by
  cases op with
  | subscribe req id now =>
    rw [Hub.step]
    cases insert st hub.subscriptions req id now <;> exact (List.append_nil _).symm
  | unsubscribe id => exact (List.append_nil _).symm
  | dispatch c => exact (List.append_nil _).symm
  | work i d =>
    rw [Hub.step, Hub.newEvent]
    cases hw : hub.workers[i]? with
    | none =>
      rw [Hub.work_of_none hw]
      exact (List.append_nil _).symm
    | some w =>
      rw [Hub.work_of_some hw]
      obtain ⟨job, phase⟩ := w
      cases phase with
      | stamped now => exact List.map_append
      | counted outcome =>
        exact (recorded_updateEventStatus job.correlationId outcome.success).trans (List.append_nil _).symm
      | recorded =>
        simp only [Tables.advance]
        cases hub.loadSecretHash job.subId <;> exact (List.append_nil _).symm
      | marked outcome =>
        simp only [Tables.advance]
        cases outcome.success <;> exact (List.append_nil _).symm
      | _ => exact (List.append_nil _).symm

/-- Ids count the rows. -/
def Numbered (hub : Hub) : Prop := ∀ e ∈ hub.events.map SubscriptionEvent.recorded, e.id ≤ hub.events.length

theorem id_newEvent {op : Hub.Op} {e : SubscriptionEvent} (h : hub.newEvent op = some e) :
    e.id = hub.events.length + 1 := by
  unfold Hub.newEvent at h
  split at h
  · split at h
    · cases h
      rfl
    · cases h
  · cases h

theorem numbered_step {op : Hub.Op} (h : Numbered hub) : Numbered (hub.step st op) := by
  have hrows := recorded_step st hub op
  have hlen : (hub.step st op).events.length = hub.events.length + (hub.newEvent op).toList.length := by
    simpa using congrArg List.length hrows
  intro e he
  rw [hrows] at he
  rcases List.mem_append.mp he with he | he
  · exact (h e he).trans (by omega)
  · obtain hnew := Option.mem_toList.mp he
    rw [hlen, id_newEvent hnew, hnew]
    rfl

/-! ## What the client sees -/

namespace Session

/-- The rows of the subscription, the cursor, and what the client was given. -/
def view (sub : String) (s : Session) : Feed SubscriptionEvent String where
  log := (s.hub.events.map SubscriptionEvent.recorded).filter (·.subscriptionId = sub)
  cursor := s.client.cursor
  given := {e | ∃ call ∈ s.client.calls, e ∈ call.map SubscriptionEvent.recorded}

theorem replay_perm : ((s.hub.replaySubscriptionEvents sub s.client.cursor).map SubscriptionEvent.recorded).Perm
    ((s.view sub).result SubscriptionEvent.deliveredAt) := by
  have hfilter : (s.view sub).result SubscriptionEvent.deliveredAt = (s.hub.events.filter fun e =>
      e.subscriptionId = sub ∧ s.client.cursor ≤ e.deliveredAt).map SubscriptionEvent.recorded := by
    rw [Feed.result, view, List.filter_filter, List.filter_map]
    refine congrArg _ (List.filter_congr fun e _ => ?_)
    simp only [SubscriptionEvent.recorded, Function.comp_apply, Bool.decide_and]
    exact Bool.and_comm _ _
  rw [hfilter]
  exact (List.perm_insertionSort _ _).map _

theorem view_replay : (s.step st sub .replay).view sub = (s.view sub).read SubscriptionEvent.deliveredAt := by
  refine Feed.ext rfl ?_ (Set.ext fun e => ?_)
  · rw [← Feed.cursor_read_of_perm replay_perm, List.foldl_map]
    rfl
  · have hperm : e ∈ (s.hub.replaySubscriptionEvents sub s.client.cursor).map SubscriptionEvent.recorded ↔
        e ∈ (s.view sub).result SubscriptionEvent.deliveredAt := replay_perm.mem_iff
    show (∃ call ∈ s.client.calls ++ [_], e ∈ call.map SubscriptionEvent.recorded) ↔ _ ∨ _
    simp only [List.mem_append, List.mem_singleton, or_and_right, exists_or, exists_eq_left]
    exact or_congr_right hperm

theorem log_hub (op : Hub.Op) : ((s.step st sub (.hub op)).view sub).log =
    (s.view sub).log ++ (s.hub.newEvent op).toList.filter (·.subscriptionId = sub) := by
  show List.filter _ (List.map _ (s.hub.step st op).events) = List.filter _ _ ++ _
  rw [recorded_step, List.filter_append]

theorem view_new {op : Hub.Op} {e : SubscriptionEvent} (hnew : s.hub.newEvent op = some e) (hsub : e.subscriptionId = sub) :
    (s.step st sub (.hub op)).view sub = (s.view sub).append e := by
  refine Feed.ext ?_ rfl rfl
  rw [log_hub, hnew, Option.toList_some, List.filter_singleton, decide_eq_true hsub]
  rfl

theorem view_quiet {op : Hub.Op} (h : ∀ e ∈ s.hub.newEvent op, e.subscriptionId ≠ sub) :
    (s.step st sub (.hub op)).view sub = s.view sub := by
  refine Feed.ext ?_ rfl rfl
  rw [log_hub, List.filter_eq_nil_iff.mpr, List.append_nil]
  intro e he
  exact fun hsub => h e (Option.mem_toList.mp he) (of_decide_eq_true hsub)

/-- A row is inserted at or after the cursor. -/
def InOrder (sub : String) (s : Session) : Act → Prop
  | .hub op => ∀ e ∈ s.hub.newEvent op, e.subscriptionId = sub → s.client.cursor ≤ e.deliveredAt
  | .replay => True

/-- No row of the subscription is inserted. -/
def Quiet (sub : String) (s : Session) : Act → Prop
  | .hub op => ∀ e ∈ s.hub.newEvent op, e.subscriptionId ≠ sub
  | .replay => True

/-- Each event of the subscription is in the result of a call. -/
def Replayed (sub : String) (s : Session) : Prop :=
  ∀ e ∈ s.hub.events, e.subscriptionId = sub → ∃ call ∈ s.client.calls, ∃ x ∈ call, x.recorded = e.recorded

theorem replayed_iff : s.Replayed sub ↔ (s.view sub).Complete := by
  constructor
  · intro h e he
    obtain ⟨he, hsub⟩ := List.mem_filter.mp he
    obtain ⟨x, hx, rfl⟩ := List.mem_map.mp he
    obtain ⟨call, hcall, y, hy, hrec⟩ := h x hx (of_decide_eq_true hsub)
    exact ⟨call, hcall, List.mem_map.mpr ⟨y, hy, hrec⟩⟩
  · intro h e he hsub
    obtain ⟨call, hcall, hmem⟩ := h e.recorded
      (List.mem_filter.mpr ⟨List.mem_map_of_mem he, decide_eq_true hsub⟩)
    obtain ⟨x, hx, hrec⟩ := List.mem_map.mp hmem
    exact ⟨call, hcall, x, hx, hrec⟩

/-- What was given is in the table, and ids count the rows. -/
structure Sound (sub : String) (s : Session) : Prop where
  numbered : Numbered s.hub
  given : ∀ e ∈ (s.view sub).given, e ∈ (s.view sub).log

theorem sound_step {a : Act} (h : Sound sub s) : Sound sub (s.step st sub a) := by
  cases a with
  | hub op =>
    refine ⟨numbered_step h.numbered, fun e he => ?_⟩
    rw [log_hub]
    exact List.mem_append_left _ (h.given e he)
  | replay =>
    refine ⟨h.numbered, ?_⟩
    rw [view_replay]
    exact Feed.given_read h.given

/-- A step misses an event when it inserts it behind the cursor, and only then. -/
theorem missed_step_iff {a : Act} (h : Sound sub s) :
    ¬((s.step st sub a).view sub).Missed SubscriptionEvent.deliveredAt ↔
      ¬(s.view sub).Missed SubscriptionEvent.deliveredAt ∧ s.InOrder sub a := by
  cases a with
  | replay =>
    rw [view_replay, Feed.missed_read_iff]
    exact (and_iff_left trivial).symm
  | hub op =>
    by_cases hquiet : s.Quiet sub (.hub op)
    · rw [view_quiet hquiet]
      exact (and_iff_left fun e he hsub => absurd hsub (hquiet e he)).symm
    · obtain ⟨e, hnew, hsub⟩ : ∃ e ∈ s.hub.newEvent op, e.subscriptionId = sub := by
        simpa [Quiet] using hquiet
      have hfresh : e ∉ (s.view sub).given := by
        intro hgiven
        have hle := h.numbered e (List.mem_of_mem_filter (h.given e hgiven))
        rw [id_newEvent hnew] at hle
        omega
      have hin : s.InOrder sub (.hub op) ↔ s.client.cursor ≤ e.deliveredAt := by
        refine ⟨fun hall => hall e hnew hsub, fun hle x hx _ => ?_⟩
        cases hnew.symm.trans hx
        exact hle
      rw [view_new hnew hsub, Feed.missed_append_iff hfresh, hin]
      rfl

/-- After a call: something was missed exactly when `p`, and the rest was given. -/
structure Told (sub : String) (p : Prop) (s : Session) : Prop where
  complete : (s.view sub).Complete ↔ ¬p
  missed : (s.view sub).Missed SubscriptionEvent.deliveredAt ↔ p

theorem told_replay : Told sub ((s.view sub).Missed SubscriptionEvent.deliveredAt) (s.step st sub .replay) := by
  constructor
  · rw [view_replay, Feed.complete_read_iff]
  · rw [view_replay, Feed.missed_read_iff]

theorem told_quiet {p : Prop} {a : Act} (h : Told sub p s) (hquiet : s.Quiet sub a) : Told sub p (s.step st sub a) := by
  cases a with
  | replay => exact propext h.missed ▸ told_replay
  | hub op =>
    constructor
    · rw [view_quiet hquiet, h.complete]
    · rw [view_quiet hquiet, h.missed]

theorem sound_empty : Sound sub empty :=
  ⟨fun _ he => absurd he List.not_mem_nil, fun _ ⟨_, hcall, _⟩ => absurd hcall List.not_mem_nil⟩

/-- When the client calls after the last insert, it has been given every event exactly when each was inserted at or after
the cursor of the time. -/
theorem replayed_iff_in_order (before after : List Act)
    (hquiet : Meets (step st sub) (Quiet sub) ((before ++ [Act.replay]).foldl (step st sub) empty) after) :
    ((before ++ Act.replay :: after).foldl (step st sub) empty).Replayed sub ↔
      Meets (step st sub) (InOrder sub) empty before := by
  have hsound : ∀ s ∈ states (step st sub) empty before, Sound sub s :=
    forall_states_of_meets (fun _ _ h _ => sound_step h) sound_empty meets_true
  have hmissed : ¬((before.foldl (step st sub) empty).view sub).Missed SubscriptionEvent.deliveredAt ↔
      ¬(empty.view sub).Missed SubscriptionEvent.deliveredAt ∧ Meets (step st sub) (InOrder sub) empty before :=
    foldl_iff_meets (P := fun s => ¬(s.view sub).Missed SubscriptionEvent.deliveredAt) hsound
      fun _ _ h => missed_step_iff h
  have hempty : ¬(empty.view sub).Missed SubscriptionEvent.deliveredAt := fun ⟨_, he, _⟩ => absurd he List.not_mem_nil
  rw [and_iff_right hempty] at hmissed
  rw [List.foldl_append, List.foldl_cons, List.foldl_nil] at hquiet
  rw [← hmissed, List.foldl_append, List.foldl_cons, replayed_iff]
  exact (forall_states_of_meets (fun _ _ h hq => told_quiet h hq) told_replay hquiet _ foldl_mem_states).complete

end Session

/-! ## Two workers -/

def storedToo : Hub.Dispatch :=
  ⟨"memory_store", "m-2", "notes", none, none, "1767225601", fun _ =>
    ⟨"0195a3c4-7b2f-7d11-8c02-51e0a9d3f774", "2026-01-01T00:00:01+00:00"⟩⟩

def clockAt (now : String) : Draw := ⟨now, fun _ _ => .error "unreachable", fun _ => now⟩

/-- The first worker reads the clock; the second one reads it later, and inserts its row. -/
def overtaking : List Act :=
  [.hub (.subscribe everyEvent "sub-1" "2026-01-01T00:00:00+00:00"), .hub (.dispatch stored), .hub (.dispatch storedToo),
    .hub (.work 0 (clockAt "2026-01-01T00:00:02+00:00")), .hub (.work 1 (clockAt "2026-01-01T00:00:03+00:00")),
    .hub (.work 1 (clockAt ""))]

theorem overtaking_replayed :
    ((overtaking ++ [Act.replay]).foldl (Session.step plainSettings "sub-1") Session.empty).Replayed "sub-1" ↔
      Meets (Session.step plainSettings "sub-1") (Session.InOrder "sub-1") Session.empty overtaking :=
  Session.replayed_iff_in_order overtaking [] trivial

/-- The session in which the client calls before the first worker inserts its row, and after. -/
def overtaken : Session :=
  (overtaking ++ [Act.replay, .hub (.work 0 (clockAt "")), .replay]).foldl (Session.step plainSettings "sub-1") Session.empty

/-- The client is given the second row; the first one is inserted behind its cursor and never given. -/
theorem overtaken_missed :
    overtaken.hub.events.map (fun e => (e.subscriptionId, e.deliveredAt)) =
        [("sub-1", "2026-01-01T00:00:03+00:00"), ("sub-1", "2026-01-01T00:00:02+00:00")] ∧
      overtaken.client.calls.map (fun call => call.map fun e => e.deliveredAt) =
        [["2026-01-01T00:00:03+00:00"], ["2026-01-01T00:00:03+00:00"]] ∧
      ¬overtaken.Replayed "sub-1" := by
  have hevents : overtaken.hub.events.map (fun e => (e.subscriptionId, e.deliveredAt)) =
    [("sub-1", "2026-01-01T00:00:03+00:00"), ("sub-1", "2026-01-01T00:00:02+00:00")] := rfl
  have hcalls : overtaken.client.calls.map (fun call => call.map fun e => e.deliveredAt) =
    [["2026-01-01T00:00:03+00:00"], ["2026-01-01T00:00:03+00:00"]] := by decide
  refine ⟨hevents, hcalls, fun h => ?_⟩
  have hslow : ("sub-1", "2026-01-01T00:00:02+00:00") ∈
      overtaken.hub.events.map fun e => (e.subscriptionId, e.deliveredAt) := hevents ▸ by decide
  obtain ⟨e, he, hkey⟩ := List.mem_map.mp hslow
  obtain ⟨hsub, hstamp⟩ := Prod.mk.inj hkey
  obtain ⟨call, hcall, x, hx, hrec⟩ := h e he hsub
  have hgiven : call.map (fun e => e.deliveredAt) ∈
      overtaken.client.calls.map fun call => call.map fun e => e.deliveredAt := List.mem_map_of_mem hcall
  have hx' : x.deliveredAt ∈ call.map fun e => e.deliveredAt := List.mem_map_of_mem hx
  have hcallEq : call.map (fun e => e.deliveredAt) = ["2026-01-01T00:00:03+00:00"] := by simpa [hcalls] using hgiven
  have hlate : x.deliveredAt = "2026-01-01T00:00:03+00:00" := List.mem_singleton.mp (hcallEq ▸ hx')
  have hsame : x.recorded.deliveredAt = e.recorded.deliveredAt := congrArg SubscriptionEvent.deliveredAt hrec
  exact absurd (hlate.symm.trans (hsame.trans hstamp)) (by decide)

end Webhooks

end AiMemory
