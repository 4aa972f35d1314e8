import AiMemory.Lib.Tail
import AiMemory.Permissions.Evaluate

/-!
# The stream of approvals

Approval events go to every subscriber over one bounded broadcast channel, and each subscriber passes on what it may see
under the rules of the moment. What was published since it subscribed falls into events that were shown, events that the
rules of the turn that read them hid, and gaps, of which it is told the length (`feed_spec`); a subscriber that stays within
the capacity has no gaps.
-/

namespace AiMemory.Feed

open Permissions

/-! ## Events and who sees them -/

inductive ApprovalEvent where
  | approvalRequested (pendingId actionType ns requestedBy requestedAt : String)
  | approvalDecided (pendingId decision decidedBy remember ns requestedBy : String)

namespace ApprovalEvent

def tenantAgentId : ApprovalEvent → String
  | approvalRequested _ _ _ requestedBy _ => requestedBy
  | approvalDecided _ _ _ _ _ requestedBy => requestedBy

def tenantNamespace : ApprovalEvent → String
  | approvalRequested _ _ ns _ _ => ns
  | approvalDecided _ _ _ _ ns _ => ns

end ApprovalEvent

/-- `sse_event_visible_to`, under the active rules. -/
def sseEventVisibleTo (rules : List PermissionRule) (subscriberAgent : String) (event : ApprovalEvent) : Bool :=
  if subscriberAgent = "" then false
  else if "host:".toList <+: subscriberAgent.toList then true
  else if event.tenantAgentId ≠ "" ∧ event.tenantAgentId = subscriberAgent then true
  else if event.tenantNamespace = "" then false
  else
    rules.any fun r => r.decision = .allow && globMatches r.agentPattern subscriberAgent &&
      globMatches r.nsPattern event.tenantNamespace

/-! ## The channel -/

/-- What a receiver is given. -/
inductive Recv where
  | pending
  | value
  | lagged (n : ℕ)

/-- `tokio::sync::broadcast`: what a receiver is given that has read the first `next` of the `sent` values. -/
abbrev Broadcast := (next sent : ℕ) → Recv

/-- A channel keeps the last values, as many as its capacity; a receiver that is further behind is told how many it lost. -/
structure Broadcast.Documented (recv : Broadcast) (capacity : ℕ) : Prop where
  pending : ∀ next sent, recv next sent = .pending ↔ sent ≤ next
  lagged : ∀ next sent n, recv next sent = .lagged n → 0 < n ∧ next + n ≤ sent ∧ next + capacity < sent

def approvalBroadcastCapacity : ℕ := 1024

/-- A frame of the stream. -/
inductive Frame where
  | event (event : ApprovalEvent)
  | lagged (n : ℕ)

/-- An `ApprovalSseStream`, and what it has written. -/
structure Subscriber where
  agent : String
  next : ℕ
  frames : List Frame

structure Bus where
  published : List ApprovalEvent
  rules : List PermissionRule
  subscribers : List Subscriber

/-- `publish`, `approvals_sse` with the header `X-Agent-Id`, a change of the active rules, and one turn of the loop of
`poll_next`. -/
inductive Act where
  | publish (event : ApprovalEvent)
  | subscribe (xAgentId : Option String)
  | reload (rules : List PermissionRule)
  | poll (i : ℕ)

variable (recv : Broadcast)

/-- One turn of the loop of `poll_next`. -/
def turn (bus : Bus) (s : Subscriber) : Subscriber :=
  match recv s.next bus.published.length with
  | .pending => s
  | .lagged n =>
    { s with
      next := s.next + n
      frames := s.frames ++ [.lagged n] }
  | .value =>
    match bus.published[s.next]? with
    | none => s
    | some event =>
      { s with
        next := s.next + 1
        frames := if sseEventVisibleTo bus.rules s.agent event then s.frames ++ [.event event] else s.frames }

def step (bus : Bus) : Act → Bus
  | .publish event => { bus with published := bus.published ++ [event] }
  | .subscribe xAgentId => { bus with subscribers := bus.subscribers ++ [⟨xAgentId.getD "", bus.published.length, []⟩] }
  | .reload rules => { bus with rules := rules }
  | .poll i => { bus with subscribers := bus.subscribers.modify i (turn recv bus) }

def start (rules : List PermissionRule) : Bus where
  published := []
  rules := rules
  subscribers := []

def run (bus : Bus) (acts : List Act) : Bus := acts.foldl (step recv) bus

/-! ## What a subscriber is told -/

/-- A stretch of what was published, as one subscriber met it. -/
inductive Stretch where
  | shown (event : ApprovalEvent)
  | hidden (event : ApprovalEvent)
  | missed (events : List ApprovalEvent)

def Stretch.events : Stretch → List ApprovalEvent
  | shown event => [event]
  | hidden event => [event]
  | missed events => events

def Stretch.frame : Stretch → Option Frame
  | shown event => some (.event event)
  | hidden _ => none
  | missed events => some (.lagged events.length)

/-- The subscriber turned when the bus was such. -/
def Turned (bus : Bus) (acts : List Act) (i : ℕ) (P : Bus → Prop) : Prop :=
  ∃ as₁ as₂, acts = as₁ ++ .poll i :: as₂ ∧ P (run recv bus as₁)

/-- Why a subscriber is shown a stretch or misses it: by the rules, or by how far it is behind. -/
def Stretch.Due (bus : Bus) (s : Subscriber) : Stretch → Prop
  | shown event => sseEventVisibleTo bus.rules s.agent event = true
  | hidden event => sseEventVisibleTo bus.rules s.agent event = false
  | missed events => events ≠ [] ∧ s.next + approvalBroadcastCapacity < bus.published.length

def Subscriber.past (s : Subscriber) (t : Stretch) : Subscriber :=
  { s with next := s.next + t.events.length, frames := s.frames ++ t.frame.toList }

/-- On this bus the next turn of the subscriber, which began at `base` and has met the stretches `before`, takes it past
the stretch `t`. -/
def Meets (i base : ℕ) (before : List Stretch) (t : Stretch) (bus : Bus) : Prop :=
  ∃ s ∈ bus.subscribers[i]?, s.next = base + (before.flatMap Stretch.events).length ∧
    s.frames = before.filterMap Stretch.frame ∧ turn recv bus s = s.past t ∧ t.Due bus s

/-- What an agent may see: as the host, of its own requests, or where a rule allows it. -/
def MaySee (rules : List PermissionRule) (agent : String) (event : ApprovalEvent) : Prop :=
  agent ≠ "" ∧ ("host:".toList <+: agent.toList ∨ event.tenantAgentId = agent ∨
    ∃ r ∈ rules, r.decision = .allow ∧ globMatches r.agentPattern agent = true ∧
      globMatches r.nsPattern event.tenantNamespace = true)

/-- On this bus the next turn of the subscriber, which has written `frames`, writes the event, which its agent may see. -/
def Shows (i : ℕ) (frames : List Frame) (event : ApprovalEvent) (bus : Bus) : Prop :=
  ∃ s ∈ bus.subscribers[i]?, s.frames = frames ∧ (turn recv bus s).frames = frames ++ [.event event] ∧
    MaySee bus.rules s.agent event

/-- What one subscriber was told, which began at `base`: each stretch was met in a turn of its own. -/
structure Told (bus : Bus) (acts : List Act) (i : ℕ) (s : Subscriber) (base : ℕ) (stretches : List Stretch) : Prop where
  begun : ∃ as₁ as₂ xAgentId, acts = as₁ ++ .subscribe xAgentId :: as₂ ∧ (run recv bus as₁).subscribers.length = i ∧
    (run recv bus as₁).published.length = base ∧ s.agent = xAgentId.getD "" ∧
    (run recv bus acts).published.take s.next = (run recv bus as₁).published ++ stretches.flatMap Stretch.events
  next : s.next ≤ (run recv bus acts).published.length
  frames : s.frames = stretches.filterMap Stretch.frame
  due : ∀ before t after, stretches = before ++ t :: after → Turned recv bus acts i (Meets recv i base before t)

section Runs

variable {recv : Broadcast} {bus : Bus} {acts : List Act} {a : Act} {i : ℕ} {s : Subscriber} {stretches : List Stretch}
  {agent : String} {t : Stretch} {base : ℕ}

theorem run_append_one : run recv bus (acts ++ [a]) = step recv (run recv bus acts) a := List.foldl_concat ..

theorem Turned.append {P : Bus → Prop} (h : Turned recv bus acts i P) (a : Act) : Turned recv bus (acts ++ [a]) i P :=
  Tail.exists_split_append_one.mpr (.inl h)

theorem turned_now {P : Bus → Prop} (h : P (run recv bus acts)) : Turned recv bus (acts ++ [.poll i]) i P :=
  Tail.exists_split_append_one.mpr (.inr ⟨rfl, h⟩)

theorem published_step (bus : Bus) (a : Act) : bus.published <+: (step recv bus a).published := by
  cases a with
  | publish event => exact List.prefix_append _ _
  | _ => exact List.prefix_rfl

theorem take_stays {l l' : List ApprovalEvent} {n : ℕ} (h : l <+: l') (hn : n ≤ l.length) : l'.take n = l.take n := by
  obtain ⟨rest, rfl⟩ := h
  exact List.take_append_of_le_length hn

theorem Told.append (h : Told recv bus acts i s base stretches) (a : Act) : Told recv bus (acts ++ [a]) i s base stretches := by
  obtain ⟨as₁, as₂, xAgentId, hacts, hlen, hbase, hagent, htake⟩ := h.begun
  have hprefix : (run recv bus acts).published <+: (run recv bus (acts ++ [a])).published := by
    rw [run_append_one]
    exact published_step _ a
  refine ⟨⟨as₁, as₂ ++ [a], xAgentId, ?_, hlen, hbase, hagent, ?_⟩, h.next.trans hprefix.length_le, h.frames,
    fun before t after hsplit => (h.due before t after hsplit).append a⟩
  · rw [hacts, List.append_assoc, List.cons_append]
  · rw [take_stays hprefix h.next, htake]

theorem Told.next_eq (h : Told recv bus acts i s base stretches) :
    s.next = base + (stretches.flatMap Stretch.events).length := by
  obtain ⟨as₁, as₂, xAgentId, -, -, hbase, -, htake⟩ := h.begun
  have hlen := congrArg List.length htake
  rwa [List.length_take, min_eq_left h.next, List.length_append, hbase] at hlen

theorem told_subscribe (xAgentId : Option String) : Told recv bus (acts ++ [.subscribe xAgentId])
    (run recv bus acts).subscribers.length ⟨xAgentId.getD "", (run recv bus acts).published.length, []⟩
    (run recv bus acts).published.length [] := by
  refine ⟨⟨acts, [], xAgentId, rfl, rfl, rfl, rfl, ?_⟩, ?_, rfl, fun before t after hsplit => ?_⟩
  · rw [run_append_one, step, List.take_length]
    exact (List.append_nil _).symm
  · rw [run_append_one]
    exact le_rfl
  · exact absurd hsplit.symm (by simp)

theorem Told.past (h : Told recv bus acts i s base stretches) (hs : (run recv bus acts).subscribers[i]? = some s)
    (hevents : t.events <+: (run recv bus acts).published.drop s.next)
    (hturn : turn recv (run recv bus acts) s = s.past t) (hdue : t.Due (run recv bus acts) s) :
    Told recv bus (acts ++ [.poll i]) i (s.past t) base (stretches ++ [t]) := by
  have hnow := h.append (.poll i)
  have hpublished : (run recv bus (acts ++ [.poll i])).published = (run recv bus acts).published := by
    rw [run_append_one]
    rfl
  obtain ⟨as₁, as₂, xAgentId, hacts, hlen, hbase, hsub, htake⟩ := hnow.begun
  have hlength := hevents.length_le
  rw [List.length_drop] at hlength
  have hle := h.next
  refine ⟨⟨as₁, as₂, xAgentId, hacts, hlen, hbase, hsub, ?_⟩, ?_, ?_, fun before u after hsplit => ?_⟩
  · rw [Subscriber.past, List.take_add, htake, hpublished, ← List.prefix_iff_eq_take.mp hevents, List.flatMap_append,
      List.flatMap_singleton, List.append_assoc]
  · rw [hpublished, Subscriber.past]
    show s.next + t.events.length ≤ _
    omega
  · rw [Subscriber.past, h.frames, List.filterMap_append]
    cases hframe : t.frame with
    | none => simp [hframe]
    | some frame => simp [hframe]
  · obtain ⟨l₁, l₂, hold, rfl⟩ | ⟨rfl, rfl⟩ :=
      (Tail.exists_split_append_one (P := (· = before))).mp ⟨before, after, hsplit, rfl⟩
    · exact hnow.due l₁ u l₂ hold
    · exact turned_now ⟨s, hs, h.next_eq, h.frames, hturn, hdue⟩

/-- One turn of the loop. -/
theorem Told.turn (hrecv : recv.Documented approvalBroadcastCapacity) (h : Told recv bus acts i s base stretches)
    (hs : (run recv bus acts).subscribers[i]? = some s) :
    ∃ stretches', Told recv bus (acts ++ [.poll i]) i (turn recv (run recv bus acts) s) base stretches' := by
  cases hgiven : recv s.next (run recv bus acts).published.length with
  | pending =>
    have hturn : Feed.turn recv (run recv bus acts) s = s := by
      rw [Feed.turn, hgiven]
    rw [hturn]
    exact ⟨stretches, h.append (.poll i)⟩
  | lagged n =>
    obtain ⟨hpos, hn, hfar⟩ := hrecv.lagged _ _ n hgiven
    have hlen : (((run recv bus acts).published.drop s.next).take n).length = n := by
      rw [List.length_take, List.length_drop]
      omega
    have hturn : Feed.turn recv (run recv bus acts) s =
        s.past (.missed (((run recv bus acts).published.drop s.next).take n)) := by
      rw [Feed.turn, hgiven, Subscriber.past, Stretch.events, Stretch.frame, hlen]
      rfl
    rw [hturn]
    exact ⟨_, h.past hs (List.take_prefix _ _) hturn ⟨List.ne_nil_of_length_pos (hpos.trans_eq hlen.symm), hfar⟩⟩
  | value =>
    cases hevent : (run recv bus acts).published[s.next]? with
    | none =>
      have hturn : Feed.turn recv (run recv bus acts) s = s := by
        rw [Feed.turn, hgiven]
        rw [hevent]
      rw [hturn]
      exact ⟨stretches, h.append (.poll i)⟩
    | some event =>
      have hdrop : [event] <+: (run recv bus acts).published.drop s.next := by
        obtain ⟨hlt, rfl⟩ := List.getElem?_eq_some_iff.mp hevent
        rw [List.drop_eq_getElem_cons hlt]
        exact List.prefix_append [_] _
      cases hvisible : sseEventVisibleTo (run recv bus acts).rules s.agent event with
      | true =>
        have hturn : Feed.turn recv (run recv bus acts) s = s.past (.shown event) := by
          rw [Feed.turn, hgiven]
          rw [hevent]
          dsimp only
          rw [if_pos hvisible]
          rfl
        rw [hturn]
        exact ⟨_, h.past hs hdrop hturn hvisible⟩
      | false =>
        have hturn : Feed.turn recv (run recv bus acts) s = s.past (.hidden event) := by
          rw [Feed.turn, hgiven]
          rw [hevent]
          dsimp only
          rw [if_neg (Bool.eq_false_iff.mp hvisible)]
          exact congrArg (fun frames => ({ s with next := s.next + 1, frames } : Subscriber)) (List.append_nil _).symm
        rw [hturn]
        exact ⟨_, h.past hs hdrop hturn hvisible⟩

theorem exists_told (hrecv : recv.Documented approvalBroadcastCapacity) (rules : List PermissionRule)
    (acts : List Act) (i : ℕ)
    (s : Subscriber) (hs : (run recv (start rules) acts).subscribers[i]? = some s) :
    ∃ base stretches, Told recv (start rules) acts i s base stretches := by
  induction acts using List.reverseRecOn generalizing i s with
  | nil => exact absurd hs (Option.some_ne_none s).symm
  | append_singleton acts a ih =>
    have hsame (hold : (run recv (start rules) acts).subscribers[i]? = some s) :
        ∃ base stretches, Told recv (start rules) (acts ++ [a]) i s base stretches := by
      obtain ⟨base, stretches, h⟩ := ih i s hold
      exact ⟨base, stretches, h.append a⟩
    rw [run_append_one] at hs
    cases a with
    | publish event => exact hsame hs
    | reload rules => exact hsame hs
    | subscribe xAgentId =>
      rw [step] at hs
      by_cases hi : i < (run recv (start rules) acts).subscribers.length
      · rw [List.getElem?_append_left hi] at hs
        exact hsame hs
      · obtain ⟨hlt, hnew⟩ := List.getElem?_eq_some_iff.mp hs
        have hlast : i = (run recv (start rules) acts).subscribers.length := by
          rw [List.length_append, List.length_singleton] at hlt
          omega
        subst hlast
        rw [List.getElem_concat_length rfl] at hnew
        exact ⟨_, [], hnew ▸ told_subscribe xAgentId⟩
    | poll j =>
      rw [step] at hs
      by_cases hij : j = i
      · subst hij
        rw [List.getElem?_modify_eq] at hs
        obtain ⟨s₀, hs₀, rfl⟩ := Option.map_eq_some_iff.mp hs
        obtain ⟨base, stretches, h⟩ := ih j s₀ hs₀
        exact ⟨base, h.turn hrecv hs₀⟩
      · rw [List.getElem?_modify_ne _ _ hij] at hs
        exact hsame hs

theorem maySee_of_visible {rules : List PermissionRule} {event : ApprovalEvent}
    (h : sseEventVisibleTo rules agent event = true) :
    MaySee rules agent event := by
  rw [sseEventVisibleTo] at h
  split_ifs at h with hempty hhost hown hns
  · exact ⟨hempty, .inl hhost⟩
  · exact ⟨hempty, .inr (.inl hown.2)⟩
  · obtain ⟨r, hr, h⟩ := List.any_eq_true.mp h
    rw [Bool.and_eq_true, Bool.and_eq_true, decide_eq_true_eq] at h
    exact ⟨hempty, .inr (.inr ⟨r, hr, h.1.1, h.1.2, h.2⟩)⟩

/-- An event that was written was shown by the turn that wrote it. -/
theorem Told.shows (h : Told recv bus acts i s base stretches) {before after : List Frame} {event : ApprovalEvent}
    (hframes : s.frames = before ++ .event event :: after) : Turned recv bus acts i (Shows recv i before event) := by
  rw [h.frames] at hframes
  obtain ⟨past, rest, rfl, rfl, hrest⟩ := List.filterMap_eq_append_iff.mp hframes
  obtain ⟨quiet, t, rest, rfl, hquiet, hframe, -⟩ := List.filterMap_eq_cons_iff.mp hrest
  obtain ⟨as₁, as₂, hacts, s', hs', -, hwritten, hturn, hdue⟩ := h.due (past ++ quiet) t rest (by rw [List.append_assoc])
  have hnone : quiet.filterMap Stretch.frame = [] := List.filterMap_eq_nil_iff.mpr hquiet
  rw [List.filterMap_append, hnone, List.append_nil] at hwritten
  have hwrites : (Feed.turn recv (run recv bus as₁) s').frames = past.filterMap Stretch.frame ++ [.event event] := by
    rw [hturn, Subscriber.past, hwritten, hframe]
    rfl
  refine ⟨as₁, as₂, hacts, s', hs', hwritten, hwrites, ?_⟩
  cases t with
  | shown event' =>
    obtain rfl := Frame.event.inj (Option.some.inj hframe)
    exact maySee_of_visible hdue
  | hidden event' => exact absurd hframe (Option.some_ne_none _).symm
  | missed events => exact Frame.noConfusion (Option.some.inj hframe)

/-- Whatever is published, whoever subscribes, and however the rules change between turns: what a subscriber was told is what
was published since it subscribed, up to where it has read, but for what the rules hid from it in the turn that read it and
for gaps of told lengths, each met in a turn that began more than the capacity behind. An event that it was shown is one that
the rules of the turn that wrote it let its agent see. -/
theorem feed_spec (hrecv : recv.Documented approvalBroadcastCapacity) (rules : List PermissionRule) (acts : List Act) (i : ℕ)
    (s : Subscriber) (hs : (run recv (start rules) acts).subscribers[i]? = some s) :
    (∃ base stretches, Told recv (start rules) acts i s base stretches) ∧
      ∀ before event after, s.frames = before ++ .event event :: after →
        Turned recv (start rules) acts i (Shows recv i before event) := by
  obtain ⟨base, stretches, h⟩ := exists_told hrecv rules acts i s hs
  exact ⟨⟨base, stretches, h⟩, fun _ _ _ => h.shows⟩

def ring : Broadcast := fun next sent =>
  if sent ≤ next then .pending
  else if sent ≤ next + approvalBroadcastCapacity then .value
  else .lagged (sent - approvalBroadcastCapacity - next)

theorem ring_documented : ring.Documented approvalBroadcastCapacity where
  pending next sent := by
    rw [ring]
    split_ifs with h₁ h₂
    · exact iff_of_true rfl h₁
    · exact iff_of_false not_false h₁
    · exact iff_of_false not_false h₁
  lagged next sent n h := by
    rw [ring] at h
    split_ifs at h with h₁ h₂
    have hn := Recv.lagged.inj h
    omega

def requested (by' : String) : ApprovalEvent := .approvalRequested "p-1" "store" "team" by' "2026-01-01T00:00:00Z"

theorem feed_spec_two :
    (∃ base stretches, Told ring (start []) [.subscribe (some "alice"), .publish (requested "bob"), .publish (requested "alice"),
      .poll 0, .poll 0] 0 ⟨"alice", 2, [.event (requested "alice")]⟩ base stretches) ∧
    ∀ before event after, [Frame.event (requested "alice")] = before ++ .event event :: after →
      Turned ring (start []) [.subscribe (some "alice"), .publish (requested "bob"), .publish (requested "alice"), .poll 0, .poll 0] 0
        (Shows ring 0 before event) :=
  feed_spec ring_documented [] _ 0 ⟨"alice", 2, [.event (requested "alice")]⟩ rfl

end Runs

end AiMemory.Feed
