import Mathlib.Data.Finset.Card
import Mathlib.Data.Finset.Max
import Mathlib.Algebra.Order.Group.Nat
import Mathlib.Tactic

/-!
# Quorum policies and the ack tracker

`replication.rs`: the policy of one quorum write and the tracker that collects its acks. Instants and
durations are numbers of milliseconds. The tracker never sees the clock while it records; only
`isQuorumMet` and `finalise` are told the time.
-/

namespace AiMemory

/-! ## The policy -/

structure QuorumPolicy where
  n : ℕ
  w : ℕ
  ackTimeout : ℕ
  clockSkewWarn : ℕ
  deriving DecidableEq

inductive QuorumFailureReason where
  | unreachable
  | timeout
  | idDrift
  | inFlight
  deriving DecidableEq

inductive QuorumError where
  | quorumNotMet (got needed : ℕ) (reason : QuorumFailureReason)
  | invalidPolicy (detail : String)
  | localWriteFailed (detail : String)
  deriving DecidableEq

/-- `QuorumPolicy::new`: `w` is clamped to `[1, n]`. -/
def QuorumPolicy.new (n w ackTimeout clockSkewWarn : ℕ) : Except QuorumError QuorumPolicy :=
  if n = 0 then .error (.invalidPolicy "n must be >= 1")
  else .ok { n, w := max 1 (min w n), ackTimeout, clockSkewWarn }

def QuorumPolicy.majority (n : ℕ) : Except QuorumError QuorumPolicy :=
  let w := max ((n + 1) / 2) 1
  QuorumPolicy.new n w 2000 30000

theorem QuorumPolicy.majority_w {n : ℕ} {p : QuorumPolicy} (h : QuorumPolicy.majority n = .ok p) :
    0 < n ∧ p.w = (n + 1) / 2 := by
  unfold QuorumPolicy.majority QuorumPolicy.new at h
  split_ifs at h with hn
  cases h
  refine ⟨Nat.pos_of_ne_zero hn, ?_⟩
  show max 1 (min (max ((n + 1) / 2) 1) n) = (n + 1) / 2
  omega

/-! ## The tracker -/

structure AckTracker where
  policy : QuorumPolicy
  deadline : ℕ
  localCommitted : Bool
  acks : Finset String
  idDrifts : List String
  deriving DecidableEq

namespace AckTracker

def new (policy : QuorumPolicy) (now : ℕ) : AckTracker where
  policy
  deadline := now + policy.ackTimeout
  localCommitted := false
  acks := ∅
  idDrifts := []

def recordLocal (t : AckTracker) : AckTracker := { t with localCommitted := true }

def recordPeerAck (t : AckTracker) (peerId : String) : AckTracker :=
  { t with acks := insert peerId t.acks }

def recordIdDrift (t : AckTracker) (peerId : String) : AckTracker :=
  { t with idDrifts := t.idDrifts ++ [peerId] }

def isQuorumMet (t : AckTracker) (now : ℕ) : Bool :=
  if !t.localCommitted || now > t.deadline then false
  else
    let total := t.acks.card + 1
    total ≥ t.policy.w

def finalise (t : AckTracker) (now : ℕ) : Except QuorumError ℕ :=
  if !t.localCommitted then .error (.localWriteFailed "local commit not recorded before finalise")
  else
    let got := t.acks.card + 1
    if got ≥ t.policy.w then .ok got
    else
      let reason :=
        if now > t.deadline then
          if t.acks = ∅ then QuorumFailureReason.unreachable else .timeout
        else .inFlight
      .error (.quorumNotMet got t.policy.w reason)

theorem isQuorumMet_iff {t : AckTracker} {now : ℕ} :
    t.isQuorumMet now ↔ t.localCommitted ∧ now ≤ t.deadline ∧ t.policy.w ≤ t.acks.card + 1 := by
  unfold isQuorumMet
  cases t.localCommitted <;> simp

theorem finalise_eq_ok_iff {t : AckTracker} {now k : ℕ} :
    t.finalise now = .ok k ↔ t.localCommitted ∧ t.policy.w ≤ t.acks.card + 1 ∧ k = t.acks.card + 1 := by
  unfold finalise
  cases t.localCommitted with
  | false => simp
  | true =>
    by_cases h : t.policy.w ≤ t.acks.card + 1
    · simp [h, eq_comm]
    · simp [h]

theorem isQuorumMet_iff_finalise {t : AckTracker} {now : ℕ} (h : now ≤ t.deadline) :
    t.isQuorumMet now ↔ ∃ k, t.finalise now = .ok k := by
  rw [isQuorumMet_iff]
  constructor
  · rintro ⟨hl, -, hw⟩
    exact ⟨_, finalise_eq_ok_iff.mpr ⟨hl, hw, rfl⟩⟩
  · rintro ⟨k, hk⟩
    obtain ⟨hl, hw, -⟩ := finalise_eq_ok_iff.mp hk
    exact ⟨hl, h, hw⟩

/-! ## Runs -/

/-- What a caller can tell a tracker. -/
inductive Event where
  | recordLocal
  | recordPeerAck (peerId : String)
  | recordIdDrift (peerId : String)
  deriving DecidableEq

def apply (t : AckTracker) : Event → AckTracker
  | .recordLocal => t.recordLocal
  | .recordPeerAck p => t.recordPeerAck p
  | .recordIdDrift p => t.recordIdDrift p

/-- A sequence of calls, each stamped with the instant it is made at. -/
def run (t : AckTracker) (events : List (ℕ × Event)) : AckTracker :=
  events.foldl (fun t e => t.apply e.2) t

/-- The peers with an ack event among `events`. -/
def ackers (events : List (ℕ × Event)) : Finset String :=
  (events.filterMap fun e =>
    match e.2 with
    | .recordPeerAck p => some p
    | _ => none).toFinset

/-- The peers with an ack event at or before `deadline`. -/
def ackersBy (deadline : ℕ) (events : List (ℕ × Event)) : Finset String :=
  ackers (events.filter fun e => e.1 ≤ deadline)

theorem mem_ackers {events : List (ℕ × Event)} {p : String} :
    p ∈ ackers events ↔ ∃ t, (t, Event.recordPeerAck p) ∈ events := by
  unfold ackers
  rw [List.mem_toFinset, List.mem_filterMap]
  constructor
  · rintro ⟨⟨t, e⟩, he, hp⟩
    cases e with
    | recordPeerAck q => cases hp; exact ⟨t, he⟩
    | recordLocal => cases hp
    | recordIdDrift q => cases hp
  · rintro ⟨t, ht⟩
    exact ⟨_, ht, rfl⟩

theorem mem_ackersBy {deadline : ℕ} {events : List (ℕ × Event)} {p : String} :
    p ∈ ackersBy deadline events ↔ ∃ t ≤ deadline, (t, Event.recordPeerAck p) ∈ events := by
  unfold ackersBy
  rw [mem_ackers]
  simp only [List.mem_filter, decide_eq_true_eq]
  exact ⟨fun ⟨t, h, ht⟩ => ⟨t, ht, h⟩, fun ⟨t, ht, h⟩ => ⟨t, h, ht⟩⟩

theorem ackersBy_subset (deadline : ℕ) (events : List (ℕ × Event)) :
    ackersBy deadline events ⊆ ackers events := by
  intro p hp
  obtain ⟨t, -, ht⟩ := mem_ackersBy.mp hp
  exact mem_ackers.mpr ⟨t, ht⟩

theorem ackers_append (events events' : List (ℕ × Event)) :
    ackers (events ++ events') = ackers events ∪ ackers events' := by
  unfold ackers
  rw [List.filterMap_append, List.toFinset_append]

theorem apply_spec (t : AckTracker) (e : Event) :
    (t.apply e).policy = t.policy ∧ (t.apply e).deadline = t.deadline ∧
      ((t.apply e).localCommitted ↔ t.localCommitted ∨ e = .recordLocal) ∧
      ∀ i, (t.apply e).acks = t.acks ∪ ackers [(i, e)] := by
  cases e with
  | recordLocal => simp [apply, recordLocal, ackers]
  | recordPeerAck p =>
    refine ⟨rfl, rfl, by simp [apply, recordPeerAck], fun i => ?_⟩
    show insert p t.acks = t.acks ∪ {p}
    rw [Finset.union_comm, Finset.insert_eq]
  | recordIdDrift p => simp [apply, recordIdDrift, ackers]

/-- A run keeps the policy and the deadline, and its acks are the ack events, whenever they came. -/
theorem run_spec (t : AckTracker) (events : List (ℕ × Event)) :
    (t.run events).policy = t.policy ∧ (t.run events).deadline = t.deadline ∧
      ((t.run events).localCommitted ↔ t.localCommitted ∨ ∃ i, (i, Event.recordLocal) ∈ events) ∧
      (t.run events).acks = t.acks ∪ ackers events := by
  induction events generalizing t with
  | nil => simp [run, ackers]
  | cons e events ih =>
    obtain ⟨i, e⟩ := e
    obtain ⟨hp, hd, hl, ha⟩ := apply_spec t e
    obtain ⟨ihp, ihd, ihl, iha⟩ := ih (t.apply e)
    refine ⟨ihp.trans hp, ihd.trans hd, ?_, ?_⟩
    · show ((t.apply e).run events).localCommitted ↔ _
      rw [ihl, hl]
      simp only [List.mem_cons, Prod.mk.injEq]
      constructor
      · rintro ((h | rfl) | ⟨j, h⟩)
        · exact Or.inl h
        · exact Or.inr ⟨i, Or.inl ⟨rfl, rfl⟩⟩
        · exact Or.inr ⟨j, Or.inr h⟩
      · rintro (h | ⟨j, ⟨-, rfl⟩ | h⟩)
        · exact Or.inl (Or.inl h)
        · exact Or.inl (Or.inr rfl)
        · exact Or.inr ⟨j, h⟩
    · show ((t.apply e).run events).acks = _
      rw [iha, ha i, Finset.union_assoc, ← ackers_append]
      rfl

section Fresh

variable (policy : QuorumPolicy) (start : ℕ) (events : List (ℕ × Event))

theorem run_new_policy : ((new policy start).run events).policy = policy := (run_spec _ _).1

theorem run_new_deadline : ((new policy start).run events).deadline = start + policy.ackTimeout :=
  (run_spec _ _).2.1

theorem run_new_localCommitted :
    ((new policy start).run events).localCommitted ↔ ∃ i, (i, Event.recordLocal) ∈ events := by
  rw [(run_spec _ _).2.2.1]
  simp [new]

theorem run_new_acks : ((new policy start).run events).acks = ackers events := by
  rw [(run_spec _ _).2.2.2]
  simp [new]

/-- When an attempt succeeds, in terms of its events. -/
theorem finalise_run_new_iff {now k : ℕ} :
    ((new policy start).run events).finalise now = .ok k ↔
      (∃ i, (i, Event.recordLocal) ∈ events) ∧ policy.w ≤ (ackers events).card + 1 ∧
        k = (ackers events).card + 1 := by
  rw [finalise_eq_ok_iff, run_new_localCommitted, run_new_policy, run_new_acks]

end Fresh

end AckTracker

end AiMemory
