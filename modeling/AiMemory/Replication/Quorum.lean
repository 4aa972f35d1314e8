import AiMemory.Replication.AckTracker

/-!
# What a finished quorum write means

Two laws one expects of a tracker: an attempt that finalises counts the peers that acked in time, and
two attempts under a majority policy share a node. Both are characterised over every sequence of
events.

`finalise` does not look at the deadline when the acks suffice, so a late ack is counted. The
threshold of `majority` is half the nodes rounded up, so with an even number of nodes two halves
finalise apart.
-/

namespace AiMemory

namespace AckTracker

/-! ## Acks in time -/

/-- What `finalise` at `now` promises about a tracker created at `start` and told `events`. -/
def SoundAt (policy : QuorumPolicy) (start : ℕ) (events : List (ℕ × Event)) (now : ℕ) : Prop :=
  let t := (new policy start).run events
  (∀ k, t.finalise now = .ok k →
    (∃ i, (i, Event.recordLocal) ∈ events) ∧
      policy.w - 1 ≤ (ackersBy t.deadline events).card ∧
      k = 1 + (ackersBy t.deadline events).card) ∧
  (∀ p, (∀ i, (i, Event.recordPeerAck p) ∉ events) → p ∉ t.acks) ∧
  (∀ i ≤ t.deadline, t.isQuorumMet i ↔ ∃ k, t.finalise i = .ok k)

/-- A quorum was reached and one of its peers acked only after the deadline. -/
def LateAckCounts (policy : QuorumPolicy) (start : ℕ) (events : List (ℕ × Event)) : Prop :=
  (∃ i, (i, Event.recordLocal) ∈ events) ∧ policy.w ≤ (ackers events).card + 1 ∧
    ∃ p ∈ ackers events, p ∉ ackersBy (start + policy.ackTimeout) events

theorem ackersBy_eq_of_not_late {deadline : ℕ} {events : List (ℕ × Event)}
    (h : ¬∃ p ∈ ackers events, p ∉ ackersBy deadline events) :
    ackersBy deadline events = ackers events := by
  refine (ackersBy_subset deadline events).antisymm fun p hp => ?_
  by_contra hc
  exact h ⟨p, hp, hc⟩

/-- The tracker is sound on an attempt exactly when no late ack stands in its quorum. -/
theorem soundAt_iff_not_lateAckCounts (policy : QuorumPolicy) (start : ℕ) (events : List (ℕ × Event))
    (now : ℕ) : SoundAt policy start events now ↔ ¬LateAckCounts policy start events := by
  constructor
  · rintro ⟨hk, -, -⟩ ⟨hl, hw, p, hp, hlate⟩
    obtain ⟨-, -, hcard⟩ := hk _ ((finalise_run_new_iff policy start events).mpr ⟨hl, hw, rfl⟩)
    rw [run_new_deadline] at hcard
    have hlt : (ackersBy (start + policy.ackTimeout) events).card < (ackers events).card :=
      Finset.card_lt_card ((Finset.ssubset_iff_of_subset (ackersBy_subset _ _)).mpr ⟨p, hp, hlate⟩)
    omega
  · intro h
    refine ⟨fun k hk => ?_, fun p hp => ?_, fun i hi => isQuorumMet_iff_finalise hi⟩
    · obtain ⟨hl, hw, rfl⟩ := (finalise_run_new_iff policy start events).mp hk
      have hin : ackersBy (start + policy.ackTimeout) events = ackers events :=
        ackersBy_eq_of_not_late fun hlate => h ⟨hl, hw, hlate⟩
      rw [run_new_deadline, hin]
      exact ⟨hl, by omega, by omega⟩
    · rw [run_new_acks, mem_ackers]
      rintro ⟨i, hi⟩
      exact hp i hi

/-- Three nodes, two acks needed, and the only peer ack ten milliseconds after the deadline. -/
theorem late_ack_finalises :
    ¬SoundAt ⟨3, 2, 2000, 30000⟩ 0 [(0, .recordLocal), (2010, .recordPeerAck "peer-1")] 2020 := by
  rintro ⟨hk, -, -⟩
  have := (hk 2 (by decide)).2.1
  revert this
  decide

/-! ## Majorities -/

/-- One attempt over `nodes`: its originator, and events whose acks and drifts name nodes. -/
structure Attempt (nodes : Finset String) where
  originator : String
  originator_mem : originator ∈ nodes
  start : ℕ
  events : List (ℕ × Event)
  names_mem : ∀ i p, (i, Event.recordPeerAck p) ∈ events ∨ (i, Event.recordIdDrift p) ∈ events →
    p ∈ nodes

namespace Attempt

variable {nodes : Finset String}

/-- The tracker of the attempt under `policy`. -/
def tracker (a : Attempt nodes) (policy : QuorumPolicy) : AckTracker :=
  (new policy a.start).run a.events

def ackSet (a : Attempt nodes) (policy : QuorumPolicy) : Finset String :=
  insert a.originator (a.tracker policy).acks

/-- The tracker finalises at some instant. -/
def Finalises (a : Attempt nodes) (policy : QuorumPolicy) : Prop :=
  ∃ now k, (a.tracker policy).finalise now = .ok k

/-- No peer ack names the originator. -/
def PeersOnly (a : Attempt nodes) : Prop := ∀ i, (i, Event.recordPeerAck a.originator) ∉ a.events

theorem ackSet_eq (a : Attempt nodes) (policy : QuorumPolicy) :
    a.ackSet policy = insert a.originator (ackers a.events) := by
  unfold ackSet tracker
  rw [run_new_acks]

theorem ackSet_subset (a : Attempt nodes) (policy : QuorumPolicy) : a.ackSet policy ⊆ nodes := by
  rw [ackSet_eq]
  refine Finset.insert_subset a.originator_mem fun p hp => ?_
  obtain ⟨i, hi⟩ := mem_ackers.mp hp
  exact a.names_mem i p (Or.inl hi)

theorem finalises_iff (a : Attempt nodes) (policy : QuorumPolicy) :
    a.Finalises policy ↔
      (∃ i, (i, Event.recordLocal) ∈ a.events) ∧ policy.w ≤ (ackers a.events).card + 1 := by
  unfold Finalises tracker
  simp only [finalise_run_new_iff]
  exact ⟨fun ⟨_, _, hl, hw, _⟩ => ⟨hl, hw⟩, fun ⟨hl, hw⟩ => ⟨0, _, hl, hw, rfl⟩⟩

/-- With acks of peers only, a finalised attempt has `w` nodes behind it. -/
theorem le_card_ackSet {a : Attempt nodes} {policy : QuorumPolicy} (hp : a.PeersOnly)
    (h : a.Finalises policy) : policy.w ≤ (a.ackSet policy).card := by
  have hnot : a.originator ∉ ackers a.events := fun hc =>
    (mem_ackers.mp hc).elim fun i hi => hp i hi
  rw [ackSet_eq, Finset.card_insert_of_notMem hnot]
  exact ((finalises_iff a policy).mp h).2

/-- The attempt in which the originator commits and then every node of `peers` acks. -/
def acked (originator : String) (peers : List String) (ho : originator ∈ nodes)
    (hp : ∀ p ∈ peers, p ∈ nodes) : Attempt nodes where
  originator
  originator_mem := ho
  start := 0
  events := (0, .recordLocal) :: peers.map fun p => (0, .recordPeerAck p)
  names_mem := by
    rintro i p (h | h)
    · simp only [List.mem_cons, Prod.mk.injEq, reduceCtorEq, and_false, false_or, List.mem_map,
        Event.recordPeerAck.injEq] at h
      obtain ⟨q, hq, -, rfl⟩ := h
      exact hp q hq
    · simp at h

theorem mem_ackers_acked {o : String} {peers : List String} {ho : o ∈ nodes}
    {hp : ∀ p ∈ peers, p ∈ nodes} {p : String} :
    p ∈ ackers (acked o peers ho hp).events ↔ p ∈ peers := by
  rw [mem_ackers]
  simp [acked]

theorem ackers_acked {o : String} {peers : List String} {ho : o ∈ nodes}
    {hp : ∀ p ∈ peers, p ∈ nodes} : ackers (acked o peers ho hp).events = peers.toFinset := by
  ext p
  rw [mem_ackers_acked, List.mem_toFinset]

theorem finalises_acked {o : String} {peers : List String} {ho : o ∈ nodes}
    {hp : ∀ p ∈ peers, p ∈ nodes} {policy : QuorumPolicy} (h : policy.w ≤ peers.toFinset.card + 1) :
    (acked o peers ho hp).Finalises policy := by
  rw [finalises_iff, ackers_acked]
  exact ⟨⟨0, List.mem_cons_self⟩, h⟩

end Attempt

/-- Any two attempts of `kind` that finalise under the majority policy share a node. -/
def MajoritiesIntersect (nodes : Finset String) (kind : Attempt nodes → Prop) : Prop :=
  ∀ (policy : QuorumPolicy), QuorumPolicy.majority nodes.card = .ok policy →
    ∀ a b : Attempt nodes, kind a → kind b → a.Finalises policy → b.Finalises policy →
      (a.ackSet policy ∩ b.ackSet policy).Nonempty

theorem exists_majority {n : ℕ} (h : 0 < n) : ∃ policy, QuorumPolicy.majority n = .ok policy := by
  unfold QuorumPolicy.majority QuorumPolicy.new
  rw [if_neg (by omega)]
  exact ⟨_, rfl⟩

section Majority

open Attempt

variable {nodes : Finset String}

theorem majoritiesIntersect_of_odd (h : Odd nodes.card) : MajoritiesIntersect nodes PeersOnly := by
  intro policy hp a b ha hb fa fb
  have hw := (QuorumPolicy.majority_w hp).2
  have hca := le_card_ackSet ha fa
  have hcb := le_card_ackSet hb fb
  obtain ⟨k, hk⟩ := h
  refine Finset.inter_nonempty_of_card_lt_card_add_card (ackSet_subset a policy)
    (ackSet_subset b policy) ?_
  omega

theorem exists_attempt_of_half {half : Finset String} (hsub : half ⊆ nodes) (hne : half.Nonempty)
    (policy : QuorumPolicy) (hw : policy.w ≤ half.card) :
    ∃ a : Attempt nodes, a.PeersOnly ∧ a.Finalises policy ∧ a.ackSet policy = half := by
  obtain ⟨o, ho⟩ := hne
  have hcard := Finset.card_erase_of_mem ho
  refine ⟨acked o (half.erase o).toList (hsub ho) fun p hp => ?_, fun i hi => ?_, ?_, ?_⟩
  · exact hsub (Finset.mem_of_mem_erase (Finset.mem_toList.mp hp))
  · have : o ∈ (half.erase o).toList := mem_ackers_acked.mp (mem_ackers.mpr ⟨i, hi⟩)
    simp at this
  · refine finalises_acked ?_
    rw [Finset.toList_toFinset, hcard]
    omega
  · rw [ackSet_eq, ackers_acked, Finset.toList_toFinset]
    exact Finset.insert_erase ho

/-- An even number of nodes splits into two halves that both finalise. -/
theorem not_majoritiesIntersect_of_even (hpos : 0 < nodes.card) (h : Even nodes.card) :
    ¬MajoritiesIntersect nodes PeersOnly := by
  intro hm
  obtain ⟨k, hk⟩ := h
  obtain ⟨policy, hp⟩ := exists_majority hpos
  have hw := (QuorumPolicy.majority_w hp).2
  obtain ⟨half, hsub, hcard⟩ := Finset.exists_subset_card_eq (show k ≤ nodes.card by omega)
  have hrest : (nodes \ half).card = k := by
    rw [Finset.card_sdiff_of_subset hsub]
    omega
  obtain ⟨a, ha, fa, ea⟩ := exists_attempt_of_half hsub (Finset.card_pos.mp (by omega))
    policy (by omega)
  obtain ⟨b, hb, fb, eb⟩ := exists_attempt_of_half (Finset.sdiff_subset (s := nodes) (t := half))
    (Finset.card_pos.mp (by omega)) policy (by omega)
  have := hm policy hp a b ha hb fa fb
  rw [ea, eb, Finset.inter_sdiff_self] at this
  exact Finset.not_nonempty_empty this

/-- A tracker told that the originator acked itself counts it twice, so then even an odd number of
nodes splits. -/
theorem majoritiesIntersect_true_iff (hpos : 0 < nodes.card) :
    MajoritiesIntersect nodes (fun _ => True) ↔ nodes.card = 1 := by
  constructor
  · intro hm
    by_contra hne
    -- each half, its originator listed among the acking peers, counts one node more than it has
    obtain ⟨policy, hp⟩ := exists_majority hpos
    have hw := (QuorumPolicy.majority_w hp).2
    obtain ⟨half, hsub, hcard⟩ := Finset.exists_subset_card_eq
      (show nodes.card / 2 ≤ nodes.card by omega)
    have hrest : (nodes \ half).card = nodes.card - nodes.card / 2 := by
      rw [Finset.card_sdiff_of_subset hsub, hcard]
    obtain ⟨o, ho⟩ := Finset.card_pos.mp (show 0 < half.card by omega)
    obtain ⟨o', ho'⟩ := Finset.card_pos.mp (show 0 < (nodes \ half).card by omega)
    have hsub' : nodes \ half ⊆ nodes := Finset.sdiff_subset
    have := hm policy hp
      (acked o half.toList (hsub ho) fun p hp => hsub (Finset.mem_toList.mp hp))
      (acked o' (nodes \ half).toList (hsub' ho') fun p hp => hsub' (Finset.mem_toList.mp hp))
      trivial trivial (finalises_acked (by rw [Finset.toList_toFinset]; omega))
      (finalises_acked (by rw [Finset.toList_toFinset]; omega))
    rw [ackSet_eq, ackSet_eq, ackers_acked, ackers_acked, Finset.toList_toFinset,
      Finset.toList_toFinset] at this
    simp only [acked, Finset.insert_eq_of_mem ho, Finset.insert_eq_of_mem ho',
      Finset.inter_sdiff_self, Finset.not_nonempty_empty] at this
  · intro h policy _ a b _ _ _ _
    obtain ⟨x, hx⟩ := Finset.card_eq_one.mp h
    have ha : a.originator = x := Finset.mem_singleton.mp (hx ▸ a.originator_mem)
    have hb : b.originator = x := Finset.mem_singleton.mp (hx ▸ b.originator_mem)
    refine ⟨x, Finset.mem_inter.mpr ⟨?_, ?_⟩⟩
    · exact ha ▸ Finset.mem_insert_self _ _
    · exact hb ▸ Finset.mem_insert_self _ _

/-- Majority attempts share a node exactly for an odd number of nodes when acks name other nodes,
and only for a single node when an ack may name the originator itself. -/
theorem majorities_intersect_iff (nodes : Finset String) (hpos : 1 ≤ nodes.card) :
    (MajoritiesIntersect nodes PeersOnly ↔ Odd nodes.card) ∧
      (MajoritiesIntersect nodes (fun _ => True) ↔ nodes.card = 1) := by
  refine ⟨⟨fun h => ?_, majoritiesIntersect_of_odd⟩, majoritiesIntersect_true_iff hpos⟩
  by_contra hodd
  exact not_majoritiesIntersect_of_even hpos (Nat.not_odd_iff_even.mp hodd) h

end Majority

/-- Three nodes intersect. -/
theorem majorities_intersect_three :
    MajoritiesIntersect {"a", "b", "c"} Attempt.PeersOnly :=
  ((majorities_intersect_iff {"a", "b", "c"} (by decide)).1).mpr (by decide)

/-- Two nodes that each commit their own write finalise apart. -/
theorem two_nodes_finalise_apart : ¬MajoritiesIntersect {"a", "b"} Attempt.PeersOnly := by
  intro h
  have := h ⟨2, 1, 2000, 30000⟩ (by decide)
    (Attempt.acked "a" [] (by decide) (by simp)) (Attempt.acked "b" [] (by decide) (by simp))
    (by intro i; simp [Attempt.acked]) (by intro i; simp [Attempt.acked])
    (Attempt.finalises_acked (by decide)) (Attempt.finalises_acked (by decide))
  rw [Attempt.ackSet_eq, Attempt.ackSet_eq, Attempt.ackers_acked, Attempt.ackers_acked] at this
  revert this
  decide

end AckTracker

end AiMemory
