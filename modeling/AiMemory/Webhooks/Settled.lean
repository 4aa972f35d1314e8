import AiMemory.Lib.Threads
import AiMemory.Webhooks.Workers

/-!
# Deliveries that settle

Each event in the table belongs to one worker, and what the tables say of it is a function of where that worker is
(`Phase.entry`, `Phase.dead`, `Phase.counted`): `Tracks` says so, and every step keeps it. When all workers have ended, the
only events without an outcome are those of workers that did not find their subscription.
-/

namespace AiMemory

open Relational Machine

namespace Webhooks

/-! ## What a worker has written -/

namespace Phase

/-- The status of the event of a worker, once it is recorded. -/
def entry : Phase → Option String
  | spawned | stamped _ => none
  | recorded | loaded _ | delivered _ | counted _ | ended none => some "pending"
  | marked outcome | ended (some outcome) => some (Tables.status outcome.success)

def dead : Phase → Bool
  | ended (some outcome) => !outcome.success
  | _ => false

def tally : Phase → Option DeliveryOutcome
  | counted outcome | marked outcome | ended (some outcome) => some outcome
  | _ => none

end Phase

namespace Worker

/-- The subscription, the correlation id and the status of the event of a worker. -/
def entry (w : Worker) : Option (String × String × String) :=
  w.phase.entry.map fun status => (w.job.subId, w.job.correlationId, status)

def dead (w : Worker) : Option String := if w.phase.dead then some w.job.correlationId else none

def countedFor (id : String) (w : Worker) : Bool := w.phase.tally.isSome && w.job.subId = id

def failedFor (id : String) (w : Worker) : Bool := w.phase.tally.any (!·.success) && w.job.subId = id

end Worker

def SubscriptionEvent.key (e : SubscriptionEvent) : String × String × String :=
  (e.subscriptionId, e.correlationId, e.deliveryStatus)

/-- What `update_event_status` does to the key of an event. -/
def settle (correlationId : String) (ok : Bool) (k : String × String × String) : String × String × String :=
  if k.2.1 = correlationId then (k.1, k.2.1, Tables.status ok) else k

/-- What the tables say is what the workers have written. -/
structure Tracks (t : Tables) (ws : List Worker) : Prop where
  nodup : (ws.map fun w => w.job.correlationId).Nodup
  events : (t.events.map SubscriptionEvent.key).Perm (ws.filterMap Worker.entry)
  dlq : (t.dlq.map fun d => d.correlationId).Perm (ws.filterMap Worker.dead)
  dispatched : ∀ r ∈ t.subscriptions, r.dispatchCount = ws.countP (Worker.countedFor r.id)
  failed : ∀ r ∈ t.subscriptions, r.failureCount = ws.countP (Worker.failedFor r.id)

variable {t : Tables} {ws ws' rest : List Worker} {w : Worker} {hub : Hub} {st : Settings} {d : Draw} {i : ℕ}
  {ops : List Hub.Op}

namespace Tracks

theorem perm (hperm : ws.Perm ws') (h : Tracks t ws) : Tracks t ws' where
  nodup := (hperm.map _).nodup_iff.mp h.nodup
  events := h.events.trans (hperm.filterMap _)
  dlq := h.dlq.trans (hperm.filterMap _)
  dispatched r hr := (h.dispatched r hr).trans (congrArg Nat.cast (hperm.countP_eq _))
  failed r hr := (h.failed r hr).trans (congrArg Nat.cast (hperm.countP_eq _))

variable {job : Job} {now : String} {outcome : DeliveryOutcome} {secret : Option String}

theorem ne_of_nodup (h : Tracks t (w :: rest)) : ∀ v ∈ rest, v.job.correlationId ≠ w.job.correlationId := by
  intro v hv he
  exact (List.nodup_cons.mp h.nodup).1 (List.mem_map.mpr ⟨v, hv, he⟩)

theorem record (h : Tracks t (⟨job, .stamped now⟩ :: rest)) :
    Tracks (t.recordSubscriptionEvent job now) (⟨job, .recorded⟩ :: rest) where
  nodup := h.nodup
  events := by
    have hrow : (t.recordSubscriptionEvent job now).events.map SubscriptionEvent.key =
        t.events.map SubscriptionEvent.key ++ [(job.subId, job.correlationId, "pending")] := List.map_append
    rw [hrow]
    exact (List.perm_append_singleton _ _).trans (h.events.cons _)
  dlq := h.dlq
  dispatched := h.dispatched
  failed := h.failed

theorem mem_recordDispatch {r' : SubscriptionRow} {ok : Bool}
    (h : r' ∈ (t.recordDispatch job.subId ok now).subscriptions) :
    ∃ r ∈ t.subscriptions, r' = if r.id = job.subId then r.dispatched ok now else r := by
  obtain ⟨r, hr, hr'⟩ := List.mem_map.mp h
  exact ⟨r, hr, hr'.symm⟩

theorem count (h : Tracks t (⟨job, .delivered outcome⟩ :: rest)) :
    Tracks (t.recordDispatch job.subId outcome.success now) (⟨job, .counted outcome⟩ :: rest) where
  nodup := h.nodup
  events := h.events
  dlq := h.dlq
  dispatched r' hr' := by
    obtain ⟨r, hr, rfl⟩ := mem_recordDispatch hr'
    have hold : r.dispatchCount = rest.countP (Worker.countedFor r.id) := h.dispatched r hr
    by_cases hid : r.id = job.subId
    · simp [hid, SubscriptionRow.dispatched, hold, Worker.countedFor, Phase.tally]
    · simp [hid, Ne.symm hid, hold, Worker.countedFor, Phase.tally]
  failed r' hr' := by
    obtain ⟨r, hr, rfl⟩ := mem_recordDispatch hr'
    have hold : r.failureCount = rest.countP (Worker.failedFor r.id) := h.failed r hr
    by_cases hid : r.id = job.subId
    · cases hok : outcome.success <;>
        simp [hid, SubscriptionRow.dispatched, hold, hok, Worker.failedFor, Phase.tally]
    · simp [hid, Ne.symm hid, hold, Worker.failedFor, Phase.tally]

/-- The status: no other event has the correlation id of this worker. -/
theorem mark (h : Tracks t (⟨job, .counted outcome⟩ :: rest)) :
    Tracks (t.updateEventStatus job.correlationId outcome.success) (⟨job, .marked outcome⟩ :: rest) where
  nodup := h.nodup
  events := by
    have hmap : (t.updateEventStatus job.correlationId outcome.success).events.map SubscriptionEvent.key =
        (t.events.map SubscriptionEvent.key).map (settle job.correlationId outcome.success) := by
      rw [Tables.updateEventStatus, List.map_map, List.map_map]
      refine List.map_congr_left fun e _ => ?_
      by_cases hcid : e.correlationId = job.correlationId <;> simp [SubscriptionEvent.key, settle, hcid]
    have hrest : (rest.filterMap Worker.entry).map (settle job.correlationId outcome.success) =
        rest.filterMap Worker.entry := by
      refine (List.map_congr_left fun k hk => ?_).trans (List.map_id _)
      obtain ⟨v, hv, hk⟩ := List.mem_filterMap.mp hk
      obtain ⟨status, -, rfl⟩ := Option.map_eq_some_iff.mp hk
      exact if_neg (h.ne_of_nodup v hv)
    rw [hmap]
    refine (h.events.map _).trans ?_
    have hthis : settle job.correlationId outcome.success (job.subId, job.correlationId, "pending") =
        (job.subId, job.correlationId, Tables.status outcome.success) := if_pos rfl
    show List.Perm (settle _ _ (job.subId, job.correlationId, "pending") :: (rest.filterMap Worker.entry).map _) _
    rw [hthis, hrest]
    rfl
  dlq := h.dlq
  dispatched := h.dispatched
  failed := h.failed

theorem file (h : Tracks t (⟨job, .marked outcome⟩ :: rest)) :
    Tracks (if outcome.success then t else t.recordDlq job outcome) (⟨job, .ended (some outcome)⟩ :: rest) := by
  by_cases hok : outcome.success
  · rw [if_pos hok]
    refine ⟨h.nodup, h.events, ?_, h.dispatched, h.failed⟩
    have hnone : Worker.dead ⟨job, .ended (some outcome)⟩ = none := by simp [Worker.dead, Phase.dead, hok]
    rw [List.filterMap_cons_none hnone]
    exact h.dlq
  · rw [if_neg hok]
    refine ⟨h.nodup, h.events, ?_, h.dispatched, h.failed⟩
    have hsome : Worker.dead ⟨job, .ended (some outcome)⟩ = some job.correlationId := by
      simp [Worker.dead, Phase.dead, hok]
    have hrow : (t.recordDlq job outcome).dlq.map (fun d => d.correlationId) =
        t.dlq.map (fun d => d.correlationId) ++ [job.correlationId] := List.map_append
    rw [hrow, List.filterMap_cons_some hsome]
    exact (List.perm_append_singleton _ _).trans (List.Perm.cons _ h.dlq)

theorem advance (h : Tracks t (w :: rest)) :
    Tracks (t.advance st w d).1 ({ w with phase := (t.advance st w d).2 } :: rest) := by
  obtain ⟨job, phase⟩ := w
  cases phase with
  | stamped now => exact h.record
  | delivered outcome => exact h.count
  | counted outcome => exact h.mark
  | marked outcome => exact h.file
  | recorded =>
    unfold Tables.advance
    cases t.loadSecretHash job.subId with
    | ok secretHash => exact ⟨h.nodup, h.events, h.dlq, h.dispatched, h.failed⟩
    | error e => exact ⟨h.nodup, h.events, h.dlq, h.dispatched, h.failed⟩
  | _ => exact ⟨h.nodup, h.events, h.dlq, h.dispatched, h.failed⟩

end Tracks

theorem mem_insert {subs : Subscriptions} {req : NewSubscription} {id now : String} {r : SubscriptionRow}
    (h : insert st hub.subscriptions req id now = .ok subs) (hr : r ∈ subs) :
    r ∈ hub.subscriptions ∨ r = req.row st id now := by
  rw [Table.mem_def, rows_insert h] at hr
  exact (List.mem_append.mp hr).imp_right List.mem_singleton.mp

theorem countP_eq_zero {p : String → Worker → Bool} {id : String} (hp : ∀ w, p id w = true → w.job.subId = id)
    (h : ∀ w ∈ ws, w.job.subId ≠ id) : ws.countP (p id) = 0 :=
  List.countP_eq_zero.mpr fun w hw hc => h w hw (hp w hc)

theorem Tracks.spawn {jobs : List Job} (hn : (jobs.map fun j => j.correlationId).Nodup)
    (hnew : ∀ j ∈ jobs, ∀ w ∈ ws, w.job.correlationId ≠ j.correlationId) (h : Tracks t ws) :
    Tracks t (ws ++ jobs.map fun job => ⟨job, .spawned⟩) := by
  have hentry : (jobs.map fun job => (⟨job, .spawned⟩ : Worker)).filterMap Worker.entry = [] := by
    simp [List.filterMap_map, Worker.entry, Phase.entry, Function.comp_def]
  have hdead : (jobs.map fun job => (⟨job, .spawned⟩ : Worker)).filterMap Worker.dead = [] := by
    simp [List.filterMap_map, Worker.dead, Phase.dead, Function.comp_def]
  refine ⟨?_, ?_, ?_, fun r hr => ?_, fun r hr => ?_⟩
  · rw [List.map_append, List.map_map, List.nodup_append]
    refine ⟨h.nodup, hn, fun a ha b hb => ?_⟩
    obtain ⟨w, hw, rfl⟩ := List.mem_map.mp ha
    obtain ⟨j, hj, rfl⟩ := List.mem_map.mp hb
    exact hnew j hj w hw
  · rw [List.filterMap_append, hentry, List.append_nil]
    exact h.events
  · rw [List.filterMap_append, hdead, List.append_nil]
    exact h.dlq
  · rw [h.dispatched r hr, List.countP_append]
    simp [List.countP_map, Worker.countedFor, Phase.tally, Function.comp_def]
  · rw [h.failed r hr, List.countP_append]
    simp [List.countP_map, Worker.failedFor, Phase.tally, Function.comp_def]

theorem tracks_step {op : Hub.Op} (h : Tracks hub.toTables hub.workers) (hL : hub.Legal op) :
    Tracks (Hub.step st hub op).toTables (Hub.step st hub op).workers := by
  cases op with
  | subscribe req id now =>
    rw [Hub.step]
    cases hins : insert st hub.subscriptions req id now with
    | error e => exact h
    | ok subs =>
      refine ⟨h.nodup, h.events, h.dlq, fun r hr => ?_, fun r hr => ?_⟩
      · rcases mem_insert hins hr with hr | rfl
        · exact h.dispatched r hr
        · exact (congrArg Nat.cast (countP_eq_zero (by simp [Worker.countedFor]) hL)).symm
      · rcases mem_insert hins hr with hr | rfl
        · exact h.failed r hr
        · exact (congrArg Nat.cast (countP_eq_zero (by simp [Worker.failedFor]) hL)).symm
  | unsubscribe id =>
    exact ⟨h.nodup, h.events, h.dlq, fun r hr => h.dispatched r (List.mem_of_mem_filter hr),
      fun r hr => h.failed r (List.mem_of_mem_filter hr)⟩
  | dispatch c => exact h.spawn hL.1 hL.2
  | work i d =>
    rw [Hub.step]
    cases hw : hub.workers[i]? with
    | none =>
      rw [Hub.work_of_none hw]
      exact h
    | some w =>
      rw [Hub.work_of_some hw]
      exact Threads.set_induct (fun _ _ => Tracks.perm) (fun _ _ => Tracks.perm) hw _ (fun _ => Tracks.advance) h

/-! ## Workers that gave up before they sent anything -/

namespace Hub

/-- A worker that looks up the secret finds its subscription. -/
def Found (hub : Hub) : Op → Prop
  | .work i _ => ∀ w ∈ hub.workers[i]?, w.phase = .recorded → (hub.subscriptions.find w.job.subId).isSome
  | _ => True

/-- A worker ended without an outcome. -/
def Lost (hub : Hub) : Prop := ∃ w ∈ hub.workers, w.phase = .ended none

theorem ended_advance_iff : (hub.advance st w d).2 = .ended none ↔
    w.phase = .ended none ∨ w.phase = .recorded ∧ ¬(hub.subscriptions.find w.job.subId).isSome := by
  obtain ⟨job, phase⟩ := w
  cases phase with
  | recorded =>
    unfold Tables.advance Tables.loadSecretHash
    cases hub.subscriptions.find job.subId <;> simp
  | ended outcome => simp [Tables.advance]
  | _ => simp [Tables.advance]

theorem lost_step_iff {op : Op} : ¬(step st hub op).Lost ↔ ¬hub.Lost ∧ hub.Found op := by
  cases op with
  | subscribe req id now =>
    rw [step]
    cases insert st hub.subscriptions req id now <;> exact (and_iff_left trivial).symm
  | unsubscribe id => exact (and_iff_left trivial).symm
  | dispatch c =>
    refine (not_congr ?_).trans (and_iff_left trivial).symm
    simp [step, dispatch, Lost, or_and_right, exists_or]
  | work i d =>
    rw [step]
    cases hw : hub.workers[i]? with
    | none =>
      rw [work_of_none hw]
      exact (and_iff_left fun w hc => by rw [hw] at hc; cases hc).symm
    | some w =>
      have hfound : hub.Found (.work i d) ↔
          (w.phase = .recorded → (hub.subscriptions.find w.job.subId).isSome) := by
        simp [Found, hw]
      obtain ⟨rest, hperm, hset⟩ := Threads.exists_rest hw
      rw [work_of_some hw, hfound]
      unfold Lost
      simp only [(hset _).mem_iff, hperm.mem_iff, List.exists_mem_cons_iff, ended_advance_iff]
      rw [or_right_comm, not_or, not_and, not_not]

end Hub

/-! ## Outcomes -/

/-- The dead letters of an event. -/
def Tables.deadLetters (t : Tables) (correlationId : String) : ℕ := t.dlq.countP (·.correlationId = correlationId)

/-- Each event has an outcome, with a dead letter if it failed, and the subscriptions have counted their events. -/
structure Settled (t : Tables) : Prop where
  outcome : ∀ e ∈ t.events, e.deliveryStatus = "ack" ∧ t.deadLetters e.correlationId = 0 ∨
    e.deliveryStatus = "failed" ∧ t.deadLetters e.correlationId = 1
  dispatched : ∀ r ∈ t.subscriptions, r.dispatchCount = t.events.countP (·.subscriptionId = r.id)
  failed : ∀ r ∈ t.subscriptions,
    r.failureCount = t.events.countP fun e => e.subscriptionId = r.id ∧ e.deliveryStatus = "failed"

/-- All threads have ended. -/
def Hub.Idle (hub : Hub) : Prop := ∀ w ∈ hub.workers, ∃ outcome, w.phase = .ended outcome

namespace Tracks

theorem countP_events (h : Tracks t ws) (p : String × String × String → Bool) :
    t.events.countP (fun e => p e.key) = ws.countP fun w => w.entry.any p := by
  have hkeys : t.events.countP (fun e => p e.key) = (t.events.map SubscriptionEvent.key).countP p :=
    (List.countP_map).symm
  rw [hkeys, h.events.countP_eq, List.countP_filterMap]
  refine List.countP_congr fun w _ => ?_
  cases w.entry <;> rfl

/-- The dead letters of a worker's event. -/
theorem deadLetters_eq (h : Tracks t ws) (hw : w ∈ ws) :
    t.deadLetters w.job.correlationId = if w.phase.dead then 1 else 0 := by
  have hkeys : t.deadLetters w.job.correlationId =
      (t.dlq.map fun d => d.correlationId).countP (· = w.job.correlationId) := by
    rw [List.countP_map]
    rfl
  obtain ⟨i, hi⟩ := List.mem_iff_getElem?.mp hw
  obtain ⟨rest, hperm, -⟩ := Threads.exists_rest hi
  have hrest : (rest.filterMap Worker.dead).countP (· = w.job.correlationId) = 0 := by
    refine List.countP_eq_zero.mpr fun c hc he => ?_
    obtain ⟨v, hv, hdead⟩ := List.mem_filterMap.mp hc
    unfold Worker.dead at hdead
    split_ifs at hdead
    exact (h.perm hperm).ne_of_nodup v hv ((Option.some.inj hdead).trans (of_decide_eq_true he))
  rw [hkeys, h.dlq.countP_eq, (hperm.filterMap _).countP_eq]
  by_cases hdead : w.phase.dead
  · have hsome : w.dead = some w.job.correlationId := if_pos hdead
    rw [List.filterMap_cons_some hsome, List.countP_cons, hrest, if_pos hdead, if_pos (decide_eq_true rfl)]
  · have hnone : w.dead = none := if_neg hdead
    rw [List.filterMap_cons_none hnone, hrest, if_neg hdead]

theorem settled (h : Tracks t ws) (hended : ∀ w ∈ ws, ∃ outcome, w.phase = .ended (some outcome)) : Settled t where
  outcome e he := by
    have hkey : e.key ∈ ws.filterMap Worker.entry := h.events.mem_iff.mp (List.mem_map_of_mem he)
    obtain ⟨w, hw, hentry⟩ := List.mem_filterMap.mp hkey
    obtain ⟨outcome, hphase⟩ := hended w hw
    have hdead := h.deadLetters_eq hw
    simp only [Worker.entry, hphase, Phase.entry, Option.map_some, Option.some.injEq, SubscriptionEvent.key,
      Prod.mk.injEq] at hentry
    obtain ⟨-, hcid, hstatus⟩ := hentry
    rw [← hcid, ← hstatus, hdead, hphase]
    cases hok : outcome.success <;> simp [Phase.dead, Tables.status, hok]
  dispatched r hr := by
    rw [h.dispatched r hr]
    refine congrArg Nat.cast (Eq.trans ?_ (h.countP_events fun k => k.1 = r.id).symm)
    refine List.countP_congr fun w hw => ?_
    obtain ⟨outcome, hphase⟩ := hended w hw
    simp [Worker.countedFor, Worker.entry, hphase, Phase.tally, Phase.entry]
  failed r hr := by
    rw [h.failed r hr]
    refine congrArg Nat.cast (Eq.trans ?_ (h.countP_events fun k => k.1 = r.id ∧ k.2.2 = "failed").symm)
    refine List.countP_congr fun w hw => ?_
    obtain ⟨outcome, hphase⟩ := hended w hw
    cases hok : outcome.success <;>
      simp [Worker.failedFor, Worker.entry, hphase, Phase.tally, Phase.entry, Tables.status, hok]

/-- The event of a worker that gave up is pending. -/
theorem not_settled (h : Tracks t ws) (hw : w ∈ ws) (hphase : w.phase = .ended none) : ¬Settled t := by
  intro hsettled
  have hentry : w.entry = some (w.job.subId, w.job.correlationId, "pending") := by
    simp only [Worker.entry, hphase, Phase.entry, Option.map_some]
  have hmem := h.events.mem_iff.mpr (List.mem_filterMap.mpr ⟨w, hw, hentry⟩)
  obtain ⟨e, he, hkey⟩ := List.mem_map.mp hmem
  have hpending : e.deliveryStatus = "pending" := congrArg (fun k => k.2.2) hkey
  rcases hsettled.outcome e he with ⟨hack, -⟩ | ⟨hfailed, -⟩
  · exact absurd (hpending.symm.trans hack) (by decide)
  · exact absurd (hpending.symm.trans hfailed) (by decide)

theorem settled_iff (h : Tracks hub.toTables hub.workers) (hidle : hub.Idle) :
    Settled hub.toTables ↔ ¬hub.Lost := by
  constructor
  · rintro hsettled ⟨w, hw, hphase⟩
    exact h.not_settled hw hphase hsettled
  · intro hlost
    refine h.settled fun w hw => ?_
    obtain ⟨outcome, hphase⟩ := hidle w hw
    cases outcome with
    | none => exact absurd ⟨w, hw, hphase⟩ hlost
    | some outcome => exact ⟨outcome, hphase⟩

end Tracks

theorem tracks_empty : Tracks Hub.empty.toTables Hub.empty.workers :=
  ⟨List.nodup_nil, List.Perm.refl _, List.Perm.refl _, fun _ hr => absurd hr List.not_mem_nil,
    fun _ hr => absurd hr List.not_mem_nil⟩

/-- Once all threads have ended, every event has an outcome and is counted exactly when each worker found its
subscription. -/
theorem settled_iff_found (hL : Meets (Hub.step st) Hub.Legal Hub.empty ops)
    (hidle : (ops.foldl (Hub.step st) Hub.empty).Idle) :
    Settled (ops.foldl (Hub.step st) Hub.empty).toTables ↔ Meets (Hub.step st) Hub.Found Hub.empty ops := by
  have hall : ∀ hub ∈ states (Hub.step st) Hub.empty ops, Tracks hub.toTables hub.workers :=
    forall_states_of_meets (fun _ _ h hop => tracks_step h hop) tracks_empty hL
  have hnew : ¬Hub.empty.Lost := fun ⟨w, hw, _⟩ => absurd hw List.not_mem_nil
  have hlost : ¬(ops.foldl (Hub.step st) Hub.empty).Lost ↔
      ¬Hub.empty.Lost ∧ Meets (Hub.step st) Hub.Found Hub.empty ops :=
    foldl_iff_meets (P := fun hub => ¬hub.Lost) hall fun _ _ _ => Hub.lost_step_iff
  rw [(hall _ foldl_mem_states).settled_iff hidle, hlost, and_iff_right hnew]

/-! ## Two runs -/

def answered : Draw := ⟨"2026-01-01T00:00:01+00:00", fun _ _ => .ok (), fun _ => "2026-01-01T00:00:02+00:00"⟩

/-- Subscribe, dispatch, and let the worker take `n` steps; `ops` happens before the third. -/
def deliveryRun (ops : List Hub.Op) (n : ℕ) : List Hub.Op :=
  [.subscribe everyEvent "sub-1" "2026-01-01T00:00:00+00:00", .dispatch stored, .work 0 answered, .work 0 answered] ++ ops ++
    List.replicate n (.work 0 answered)

theorem deliveryRun_settled : Settled ((deliveryRun [] 5).foldl (Hub.step plainSettings) Hub.empty).toTables ↔
    Meets (Hub.step plainSettings) Hub.Found Hub.empty (deliveryRun [] 5) := by
  refine settled_iff_found ?_ ?_
  · refine ⟨fun w hw => absurd hw List.not_mem_nil, ⟨List.nodup_singleton _, fun _ _ w hw => absurd hw List.not_mem_nil⟩, ?_⟩
    exact ⟨trivial, trivial, trivial, trivial, trivial, trivial, trivial, trivial⟩
  · intro w hw
    exact ⟨_, congrArg Worker.phase (List.mem_singleton.mp hw)⟩

/-- The subscription goes away while the worker starts: its event stays pending, without a dead letter. -/
theorem unsubscribed_pending :
    let ops := deliveryRun [.unsubscribe "sub-1"] 1
    let hub := ops.foldl (Hub.step plainSettings) Hub.empty
    Meets (Hub.step plainSettings) Hub.Legal Hub.empty ops ∧ hub.Idle ∧
      hub.events.map (fun e => e.deliveryStatus) = ["pending"] ∧ hub.dlq = [] ∧ ¬Settled hub.toTables := by
  intro ops hub
  have hevents : hub.events.map (fun e => e.deliveryStatus) = ["pending"] := rfl
  refine ⟨⟨fun w hw => absurd hw List.not_mem_nil, ⟨List.nodup_singleton _, fun _ _ w hw => absurd hw List.not_mem_nil⟩,
    trivial, trivial, trivial, trivial, trivial⟩, ?_, hevents, rfl, fun h => ?_⟩
  · intro w hw
    exact ⟨none, congrArg Worker.phase (List.mem_singleton.mp hw)⟩
  · obtain ⟨e, he, hpending⟩ := List.mem_map.mp (hevents ▸ List.mem_singleton.mpr rfl :
      "pending" ∈ hub.events.map fun e => e.deliveryStatus)
    rcases h.outcome e he with ⟨hack, -⟩ | ⟨hfailed, -⟩
    · exact absurd (hpending.symm.trans hack) (by decide)
    · exact absurd (hpending.symm.trans hfailed) (by decide)

end Webhooks

end AiMemory
