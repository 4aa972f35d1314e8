import AiMemory.Replication.Federation

/-!
# What an acknowledged write is worth

A quorum write that finalises should be held by `w` nodes: the originator and the peers that acked.
A peer acks with a 200 that says nothing about the row, so the guarantee rests on every peer taking
the row in. A peer does not when the row's id is in use there under another title, or when the insert
fails.
-/

namespace AiMemory

open AckTracker Validate

section Post

variable {h : Host} {t : Tick} {sender : String} {mem : Memory} {db : Db}

theorem syncPush_storeBody_of_invalid (hs : ¬Accepts (validateAgentId sender)) :
    (syncPush h t none (storeBody sender mem) db).1 = db := by
  obtain ⟨agent, -, -, hok⟩ | ⟨hdb, -⟩ := syncPush_cases h t none (storeBody sender mem) db
  · exact absurd (isSuccess_syncPush_storeBody.mp hok) hs
  · exact hdb

/-- A processed post covers the memory on a peer that takes it, unless the sender is refused. -/
theorem takes_syncPush (hv : mem.Valid h.rfc3339) (ht : h.Takes db mem) :
    h.Takes (syncPush h t none (storeBody sender mem) db).1 mem := by
  by_cases hs : Accepts (validateAgentId sender)
  · exact Or.inl ((covers_syncPush_storeBody hs mem).mpr ((covers_takeIn_iff hv).mpr ht))
  · rwa [syncPush_storeBody_of_invalid hs]

theorem covers_syncPush (hc : db.Covers mem) :
    (syncPush h t none (storeBody sender mem) db).1.Covers mem := by
  by_cases hs : Accepts (validateAgentId sender)
  · exact (covers_syncPush_storeBody hs mem).mpr hc.takeIn
  · rwa [syncPush_storeBody_of_invalid hs]

theorem postOnce_answered : (postOnce h t (storeBody sender mem) mem.id db .answered).1 =
      (syncPush h t none (storeBody sender mem) db).1 ∧
    ((postOnce h t (storeBody sender mem) mem.id db .answered).2 = .ack ↔
      Accepts (validateAgentId sender)) := by
  rw [← @isSuccess_syncPush_storeBody h t sender mem db]
  simp only [postOnce]
  cases hp : syncPush h t none (storeBody sender mem) db with
  | mk db' resp => cases resp <;> simp [PushResponse.isSuccess, classifyIds]

theorem postOnce_spec (hv : mem.Valid h.rfc3339) (d : Delivery) :
    (h.Takes db mem → h.Takes (postOnce h t (storeBody sender mem) mem.id db d).1 mem) ∧
    (db.Covers mem → (postOnce h t (storeBody sender mem) mem.id db d).1.Covers mem) ∧
    (h.Takes db mem → (postOnce h t (storeBody sender mem) mem.id db d).2 = .ack →
      (postOnce h t (storeBody sender mem) mem.id db d).1.Covers mem) := by
  cases d with
  | lost => exact ⟨fun ht => ht, fun hc => hc, fun _ hack => by cases hack⟩
  | answerLost => exact ⟨takes_syncPush hv, covers_syncPush, fun _ hack => by cases hack⟩
  | answered =>
    obtain ⟨hdb, hack⟩ := @postOnce_answered h t sender mem db
    rw [hdb, hack]
    exact ⟨takes_syncPush hv, covers_syncPush, fun ht hs =>
      (covers_syncPush_storeBody hs mem).mpr ((covers_takeIn_iff hv).mpr ht)⟩

theorem postAndClassify_spec (hv : mem.Valid h.rfc3339) (d d' : Delivery) :
    (h.Takes db mem → h.Takes (postAndClassify h t (storeBody sender mem) mem.id db d d').1 mem) ∧
    (db.Covers mem → (postAndClassify h t (storeBody sender mem) mem.id db d d').1.Covers mem) ∧
    (h.Takes db mem → (postAndClassify h t (storeBody sender mem) mem.id db d d').2 = .ack →
      (postAndClassify h t (storeBody sender mem) mem.id db d d').1.Covers mem) := by
  obtain ⟨htakes, hcovers, hack⟩ := @postOnce_spec h t sender mem db hv d
  unfold postAndClassify
  cases hp : postOnce h t (storeBody sender mem) mem.id db d with
  | mk db₁ out =>
    rw [hp] at htakes hcovers hack
    cases out with
    | ack => exact ⟨htakes, hcovers, hack⟩
    | idDrift => exact ⟨htakes, hcovers, hack⟩
    | fail reason =>
      obtain ⟨htakes', hcovers', hack'⟩ := @postOnce_spec h t sender mem db₁ hv d'
      simp only
      cases hp' : postOnce h t (storeBody sender mem) mem.id db₁ d' with
      | mk db₂ out' =>
        rw [hp'] at htakes' hcovers' hack'
        cases out' with
        | ack => exact ⟨fun ht => htakes' (htakes ht), fun hc => hcovers' (hcovers hc),
            fun ht _ => hack' (htakes ht) rfl⟩
        | idDrift => exact ⟨fun ht => htakes' (htakes ht), fun hc => hcovers' (hcovers hc),
            fun _ hc => by cases hc⟩
        | fail reason' => exact ⟨fun ht => htakes' (htakes ht), fun hc => hcovers' (hcovers hc),
            fun _ hc => by cases hc⟩

end Post

/-! ## The collection loop -/

section Loop

variable {hosts : String → Host} {sender : String} {mem : Memory}

/-- When every peer takes the memory, every acking peer has it. -/
theorem covers_of_mem_acks {arrivals : List Arrival} {tracker : AckTracker} {nodes : String → Db}
    (hpeers : ∀ a ∈ arrivals, mem.Valid (hosts a.peer).rfc3339 ∧ (hosts a.peer).Takes (nodes a.peer) mem)
    (hacks : ∀ p ∈ tracker.acks, (nodes p).Covers mem) :
    ∀ p ∈ (collectAcks hosts (storeBody sender mem) mem arrivals tracker nodes).1.acks,
      ((collectAcks hosts (storeBody sender mem) mem arrivals tracker nodes).2 p).Covers mem := by
  induction arrivals generalizing tracker nodes with
  | nil => exact hacks
  | cons a rest ih =>
    obtain ⟨hv, ht⟩ := hpeers a List.mem_cons_self
    obtain ⟨htakes, hcovers, hack⟩ :=
      @postAndClassify_spec (hosts a.peer) a.tick sender mem (nodes a.peer) hv a.first a.second
    unfold collectAcks
    split_ifs with hlate
    · exact hacks
    · cases hp : postAndClassify (hosts a.peer) a.tick (storeBody sender mem) mem.id (nodes a.peer)
        a.first a.second with
      | mk db out =>
        rw [hp] at htakes hcovers hack
        simp only
        have hacks' : ∀ p ∈ (tracker.record a.peer out).acks,
            (Function.update nodes a.peer db p).Covers mem := by
          intro p hpa
          by_cases hpe : p = a.peer
          · subst hpe
            rw [Function.update_self]
            cases out with
            | ack => exact hack ht rfl
            | idDrift => exact hcovers (hacks _ hpa)
            | fail reason => exact hcovers (hacks _ hpa)
          · rw [Function.update_of_ne hpe]
            refine hacks p ?_
            cases out with
            | ack => exact (Finset.mem_insert.mp hpa).resolve_left hpe
            | idDrift => exact hpa
            | fail reason => exact hpa
        have hpeers' : ∀ b ∈ rest, mem.Valid (hosts b.peer).rfc3339 ∧
            (hosts b.peer).Takes (Function.update nodes a.peer db b.peer) mem := by
          intro b hb
          obtain ⟨hvb, htb⟩ := hpeers b (List.mem_cons_of_mem _ hb)
          refine ⟨hvb, ?_⟩
          by_cases hpe : b.peer = a.peer
          · rw [hpe, Function.update_self]
            exact htakes ht
          · rwa [Function.update_of_ne hpe]
        split_ifs with hmet
        · exact hacks'
        · exact ih hpeers' hacks'

def answeredArrival (tick : Tick) (peer : String) : Arrival := ⟨peer, 0, tick, .answered, .lost⟩

/-- What the loop leaves when posts are answered at once by a valid sender: a met quorum as soon as
there are enough peers, and never one ack more than it needs. -/
theorem collectAcks_answered (hs : Accepts (validateAgentId sender)) (tick : Tick)
    {peers : List String} {tracker : AckTracker} {nodes : String → Db} (hl : tracker.localCommitted)
    (hd : 0 < tracker.deadline) (hw : tracker.acks.card + 1 < tracker.policy.w) (hn : peers.Nodup)
    (hdisj : ∀ p ∈ peers, p ∉ tracker.acks) :
    let res := collectAcks hosts (storeBody sender mem) mem (peers.map (answeredArrival tick)) tracker nodes
    res.1.policy = tracker.policy ∧ res.1.localCommitted ∧ tracker.acks ⊆ res.1.acks ∧
      res.1.acks.card + 1 ≤ tracker.policy.w ∧
      (tracker.policy.w ≤ tracker.acks.card + 1 + peers.length →
        tracker.policy.w ≤ res.1.acks.card + 1) ∧
      (∀ q ∉ peers, res.2 q = nodes q) ∧
      (∀ p ∈ peers.head?, p ∈ res.1.acks ∧
        res.2 p = (syncPush (hosts p) tick none (storeBody sender mem) (nodes p)).1) := by
  induction peers generalizing tracker nodes with
  | nil =>
    exact ⟨rfl, hl, Finset.Subset.refl _, hw.le, fun h => h, fun _ _ => rfl, fun _ h => by cases h⟩
  | cons p peers ih =>
    obtain ⟨hp, hn⟩ := List.nodup_cons.mp hn
    have hpost : postAndClassify (hosts p) tick (storeBody sender mem) mem.id (nodes p) .answered .lost =
        ((syncPush (hosts p) tick none (storeBody sender mem) (nodes p)).1, .ack) := by
      obtain ⟨hdb, hack⟩ := @postOnce_answered (hosts p) tick sender mem (nodes p)
      unfold postAndClassify
      rw [show postOnce (hosts p) tick (storeBody sender mem) mem.id (nodes p) .answered =
        (_, .ack) from Prod.ext hdb (hack.mpr hs)]
    have hnot : p ∉ tracker.acks := hdisj p List.mem_cons_self
    have hcard : (tracker.recordPeerAck p).acks.card = tracker.acks.card + 1 :=
      Finset.card_insert_of_notMem hnot
    simp only [List.map_cons, collectAcks]
    rw [if_neg (show ¬tracker.deadline ≤ (answeredArrival tick p).instant from not_le.mpr hd)]
    simp only [answeredArrival, hpost, record]
    by_cases hmet : ((tracker.recordPeerAck p).isQuorumMet 0) = true
    · rw [if_pos hmet]
      obtain ⟨-, -, hw'⟩ := isQuorumMet_iff.mp hmet
      refine ⟨rfl, hl, Finset.subset_insert _ _, ?_, fun _ => hw', fun q hq => ?_, ?_⟩
      · rw [hcard]
        omega
      · rw [List.mem_cons, not_or] at hq
        exact Function.update_of_ne hq.1 _ _
      · rintro q hq
        cases hq
        exact ⟨Finset.mem_insert_self _ _, Function.update_self _ _ _⟩
    · rw [if_neg hmet]
      have hw' : (tracker.recordPeerAck p).acks.card + 1 < (tracker.recordPeerAck p).policy.w := by
        by_contra hc
        exact hmet (isQuorumMet_iff.mpr ⟨hl, hd.le, not_lt.mp hc⟩)
      have hdisj' : ∀ q ∈ peers, q ∉ (tracker.recordPeerAck p).acks := by
        intro q hq hmem
        rcases Finset.mem_insert.mp hmem with rfl | hmem
        · exact hp hq
        · exact hdisj q (List.mem_cons_of_mem _ hq) hmem
      obtain ⟨hpol, hloc, hsub, hle, hge, hrest, -⟩ := @ih (tracker.recordPeerAck p)
        (Function.update nodes p (syncPush (hosts p) tick none (storeBody sender mem) (nodes p)).1)
        hl hd hw' hn hdisj'
      refine ⟨hpol, hloc, (Finset.subset_insert _ _).trans hsub, hle, fun h => hge ?_, fun q hq => ?_, ?_⟩
      · rw [hcard]
        rw [List.length_cons] at h
        exact h.trans (by omega)
      · rw [List.mem_cons, not_or] at hq
        exact (hrest q hq.2).trans (Function.update_of_ne hq.1 _ _)
      · rintro q hq
        cases hq
        exact ⟨hsub (Finset.mem_insert_self _ _), (hrest p hp).trans (Function.update_self _ _ _)⟩

end Loop

/-! ## The quorum -/

/-- How many nodes hold the memory after a broadcast: the originator and the acking peers. -/
def holders (origin : Db) (mem : Memory) (res : AckTracker × (String → Db)) : ℕ :=
  (if origin.Covers mem then 1 else 0) + (res.1.acks.filter fun p => (res.2 p).Covers mem).card

/-- Whatever the order of the responses, a write that finalises is held by `w` nodes. -/
def HeldByQuorum (config : FederationConfig) (hosts : String → Host) (origin : Db)
    (nodes : String → Db) (mem : Memory) : Prop :=
  ∀ start (arrivals : List Arrival), (arrivals.map fun a => a.peer).Nodup →
    (∀ a ∈ arrivals, a.peer ∈ config.peers ∧ start ≤ a.instant) → ∀ now k,
      finaliseQuorum (broadcastStoreQuorum config hosts mem start arrivals nodes).1 now = .ok k →
      config.policy.w ≤ holders origin mem (broadcastStoreQuorum config hosts mem start arrivals nodes)

section Quorum

variable {config : FederationConfig} {hosts : String → Host} {origin : Db} {nodes : String → Db}
  {mem : Memory}

theorem broadcast_policy (start : ℕ) (arrivals : List Arrival) :
    (broadcastStoreQuorum config hosts mem start arrivals nodes).1.policy = config.policy := by
  unfold broadcastStoreQuorum
  generalize hT : (new config.policy start).recordLocal = tracker
  have hpol : tracker.policy = config.policy := by rw [← hT]; rfl
  clear hT
  induction arrivals generalizing tracker nodes with
  | nil => exact hpol
  | cons a rest ih =>
    unfold collectAcks
    split_ifs with hlate
    · exact hpol
    · simp only
      have hrec : ∀ out, (tracker.record a.peer out).policy = config.policy := by
        intro out
        cases out <;> exact hpol
      split_ifs
      · exact hrec _
      · exact ih _ (hrec _)

theorem broadcast_answered (hs : Accepts (validateAgentId config.senderAgentId))
    (htime : config.policy.ackTimeout ≠ 0) (hw : 1 < config.policy.w) (tick : Tick) {p : String}
    {others : List String} (hn : (p :: others).Nodup)
    (hlen : config.policy.w ≤ 1 + (p :: others).length) :
    let res := broadcastStoreQuorum config hosts mem 0 ((p :: others).map (answeredArrival tick)) nodes
    res.1.localCommitted ∧ res.1.acks.card + 1 = config.policy.w ∧ p ∈ res.1.acks ∧
      res.2 p = (syncPush (hosts p) tick none (storeBody config.senderAgentId mem) (nodes p)).1 := by
  obtain ⟨-, hloc, -, hle, hge, -, hfirst⟩ := @collectAcks_answered hosts config.senderAgentId mem hs tick
    (p :: others) (new config.policy 0).recordLocal nodes rfl
    (show 0 < 0 + config.policy.ackTimeout by omega)
    (show (∅ : Finset String).card + 1 < config.policy.w by rw [Finset.card_empty]; exact hw)
    hn (fun q _ => Finset.notMem_empty q)
  exact ⟨hloc, le_antisymm hle (hge (by simpa [new, recordLocal] using hlen)),
    hfirst p rfl⟩

theorem heldByQuorum_of_takes (hlocal : origin.Covers mem)
    (hv : ∀ p ∈ config.peers, mem.Valid (hosts p).rfc3339)
    (ht : ∀ p ∈ config.peers, (hosts p).Takes (nodes p) mem) :
    HeldByQuorum config hosts origin nodes mem := by
  intro start arrivals _ hpeers now k hk
  have hall : ∀ p ∈ (broadcastStoreQuorum config hosts mem start arrivals nodes).1.acks,
      ((broadcastStoreQuorum config hosts mem start arrivals nodes).2 p).Covers mem :=
    covers_of_mem_acks (fun a ha => ⟨hv _ (hpeers a ha).1, ht _ (hpeers a ha).1⟩)
      (fun p hp => absurd hp (Finset.notMem_empty p))
  obtain ⟨-, hw, -⟩ := finalise_eq_ok_iff.mp hk
  rw [broadcast_policy] at hw
  unfold holders
  rw [if_pos hlocal, Finset.filter_true_of_mem hall]
  omega

/-- Necessary, once a quorum of two can be met at all: the peer that does not take the memory is the
first to answer. -/
theorem takes_of_heldByQuorum (hv : ∀ p ∈ config.peers, mem.Valid (hosts p).rfc3339)
    (hw : config.policy.w ≠ 1) (htime : config.policy.ackTimeout ≠ 0)
    (hs : Accepts (validateAgentId config.senderAgentId))
    (h : HeldByQuorum config hosts origin nodes mem) :
    ∀ p ∈ config.peers, (hosts p).Takes (nodes p) mem := by
  intro p hp
  by_contra hnot
  have hone := config.one_le_w
  have hn := config.w_le_n
  rw [config.policy_n] at hn
  -- `p` answers first, then as many others as the quorum still needs
  let tick : Tick := ⟨"", "00000000", fun _ => "", by decide, by decide⟩
  let others := (config.peers.erase p).take (config.policy.w - 2)
  have hothers : others.length = config.policy.w - 2 := by
    rw [List.length_take, List.length_erase_of_mem hp]
    omega
  have hpo : p ∉ others := fun hc =>
    (List.Nodup.mem_erase_iff config.peers_nodup).mp (List.mem_of_mem_take hc) |>.1 rfl
  have hnodup : others.Nodup := (config.peers_nodup.erase p).sublist (List.take_sublist _ _)
  have hmem : ∀ q ∈ p :: others, q ∈ config.peers := by
    intro q hq
    rcases List.mem_cons.mp hq with rfl | hq
    · exact hp
    · exact List.mem_of_mem_erase (List.mem_of_mem_take hq)
  have hcons : (p :: others).Nodup := List.nodup_cons.mpr ⟨hpo, hnodup⟩
  obtain ⟨hloc, hcard, hpack, hpdb⟩ := @broadcast_answered config hosts nodes mem hs htime (by omega) tick
    p others hcons (by rw [List.length_cons, hothers]; omega)
  have hheld := h 0 ((p :: others).map (answeredArrival tick))
    (by rw [List.map_map]; exact (List.map_id _).symm ▸ hcons)
    (by
      intro a ha
      obtain ⟨q, hq, rfl⟩ := List.mem_map.mp ha
      exact ⟨hmem q hq, le_rfl⟩)
    0 _ (finalise_eq_ok_iff.mpr ⟨hloc, by rw [broadcast_policy, hcard], rfl⟩)
  -- so the acks are exactly enough, and `p` is one of them without holding the memory
  have hmiss : ¬(Db.Covers (Prod.snd (broadcastStoreQuorum config hosts mem 0
      ((p :: others).map (answeredArrival tick)) nodes) p) mem) := by
    rw [hpdb, covers_syncPush_storeBody hs, covers_takeIn_iff (hv p hp)]
    exact hnot
  unfold holders at hheld
  generalize broadcastStoreQuorum config hosts mem 0 ((p :: others).map (answeredArrival tick)) nodes = res
    at hcard hpack hmiss hheld
  have hlt : (res.1.acks.filter fun q => (res.2 q).Covers mem).card < res.1.acks.card :=
    Finset.card_lt_card (Finset.filter_ssubset.mpr ⟨p, hpack, hmiss⟩)
  split_ifs at hheld <;> omega

/-- No ack comes back from peers that refuse the sender. -/
theorem postAndClassify_of_invalid {h : Host} {t : Tick} {sender : String} {db : Db}
    (hs : ¬Accepts (validateAgentId sender)) (d d' : Delivery) :
    ∃ reason, (postAndClassify h t (storeBody sender mem) mem.id db d d').2 = .fail reason := by
  have honce : ∀ db d, ∃ reason, (postOnce h t (storeBody sender mem) mem.id db d).2 = .fail reason := by
    intro db d
    cases d with
    | lost => exact ⟨_, rfl⟩
    | answerLost => exact ⟨_, rfl⟩
    | answered =>
      have hno : ¬(syncPush h t none (storeBody sender mem) db).2.isSuccess := fun hc =>
        hs (isSuccess_syncPush_storeBody.mp hc)
      simp only [postOnce]
      cases hp : syncPush h t none (storeBody sender mem) db with
      | mk db' resp =>
        rw [hp] at hno
        cases resp with
        | badRequest e => exact ⟨_, rfl⟩
        | ok report dryRun agent clock => exact absurd rfl hno
  obtain ⟨reason, hr⟩ := honce db d
  unfold postAndClassify
  cases hp : postOnce h t (storeBody sender mem) mem.id db d with
  | mk db₁ out =>
    rw [hp] at hr
    cases hr
    obtain ⟨reason', hr'⟩ := honce db₁ d'
    simp only
    cases hp' : postOnce h t (storeBody sender mem) mem.id db₁ d' with
    | mk db₂ out' =>
      rw [hp'] at hr'
      cases hr'
      exact ⟨_, rfl⟩

theorem acks_eq_empty (hno : config.policy.ackTimeout = 0 ∨
      ¬Accepts (validateAgentId config.senderAgentId))
    {start : ℕ} {arrivals : List Arrival} (hstart : ∀ a ∈ arrivals, start ≤ a.instant) :
    (broadcastStoreQuorum config hosts mem start arrivals nodes).1.acks = ∅ := by
  unfold broadcastStoreQuorum
  generalize hT : (new config.policy start).recordLocal = tracker
  have hacks : tracker.acks = ∅ := by rw [← hT]; rfl
  have hdead : tracker.deadline = start + config.policy.ackTimeout := by rw [← hT]; rfl
  clear hT
  induction arrivals generalizing nodes with
  | nil => exact hacks
  | cons a rest ih =>
    unfold collectAcks
    by_cases hlate : tracker.deadline ≤ a.instant
    · rw [if_pos hlate]
      exact hacks
    · rw [if_neg hlate]
      have hsender : ¬Accepts (validateAgentId config.senderAgentId) := by
        refine hno.resolve_left fun hzero => hlate ?_
        rw [hdead, hzero]
        exact hstart a List.mem_cons_self
      obtain ⟨reason, hr⟩ := @postAndClassify_of_invalid mem (hosts a.peer) a.tick config.senderAgentId
        (nodes a.peer) hsender a.first a.second
      simp only [hr, record]
      split_ifs
      · exact hacks
      · exact ih fun b hb => hstart b (List.mem_cons_of_mem _ hb)

/-- A finalised write is held by a quorum, whatever the order of the responses, exactly when no peer is
needed or can ack, or every peer takes the memory. -/
theorem heldByQuorum_iff (config : FederationConfig) (hosts : String → Host) (origin : Db)
    (nodes : String → Db) (mem : Memory) (hlocal : origin.Covers mem)
    (hv : ∀ p ∈ config.peers, mem.Valid (hosts p).rfc3339) :
    HeldByQuorum config hosts origin nodes mem ↔
      config.policy.w = 1 ∨ config.policy.ackTimeout = 0 ∨
        ¬Accepts (validateAgentId config.senderAgentId) ∨
        ∀ p ∈ config.peers, (hosts p).Takes (nodes p) mem := by
  constructor
  · intro h
    by_contra hc
    simp only [not_or, not_not] at hc
    obtain ⟨hw, htime, hs, hnot⟩ := hc
    exact hnot (takes_of_heldByQuorum hv hw htime hs h)
  · rintro (hw | hrest)
    · intro start arrivals _ _ now k _
      unfold holders
      rw [if_pos hlocal, hw]
      omega
    · rcases or_assoc.mpr hrest with hno | ht
      · intro start arrivals _ hpeers now k hk
        obtain ⟨-, hw, -⟩ := finalise_eq_ok_iff.mp hk
        rw [broadcast_policy, acks_eq_empty hno fun a ha => (hpeers a ha).2] at hw
        unfold holders
        rw [if_pos hlocal]
        rw [Finset.card_empty] at hw
        omega
      · exact heldByQuorum_of_takes hlocal hv ht

end Quorum

/-- The memory `alice` stores. -/
def aliceNote : Memory := note "m1" "Release plan" "2026-01-01T00:00:00+00:00"

def alicePeer : Host := plainHost ["2026-01-01T00:00:00+00:00"] fun _ => false

def threeNodes : FederationConfig where
  policy := ⟨3, 2, 2000, 30000⟩
  peers := ["peer-0", "peer-1"]
  senderAgentId := "node-a"
  peers_nodup := by decide
  policy_n := rfl
  one_le_w := by decide
  w_le_n := by decide

/-- Empty peers hold what they ack. -/
theorem aliceNote_held_by_quorum :
    HeldByQuorum threeNodes (fun _ => alicePeer) (Db.single aliceNote.toRow) (fun _ => Db.empty) aliceNote :=
  (heldByQuorum_iff threeNodes (fun _ => alicePeer) (Db.single aliceNote.toRow) (fun _ => Db.empty) aliceNote
    (by decide) (by decide)).mpr (Or.inr (Or.inr (Or.inr (fun _ _ => Or.inr ⟨rfl, Or.inr rfl⟩))))

/-- A peer that has the id under another title answers 200 without taking the memory, and the write
finalises with the originator alone. -/
theorem aliceNote_acked_not_held :
    ¬HeldByQuorum threeNodes (fun _ => alicePeer) (Db.single aliceNote.toRow)
      (fun _ => Db.single (note "m1" "Old plan" "2026-01-01T00:00:00+00:00").toRow) aliceNote := by
  intro h
  let tick : Tick := ⟨"2026-01-01T00:00:01+00:00", "0a1b2c3d", fun _ => "", by decide, by decide⟩
  have := h 0 [⟨"peer-0", 5, tick, .answered, .lost⟩] (by decide) (by decide) 10 2 (by decide)
  revert this
  decide

end AiMemory
