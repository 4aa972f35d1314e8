import AiMemory.Sync.Once

/-!
# One decision, delivered in any order

`broadcast_pending_quorum` sends the row of a queued action, `broadcast_pending_decision_quorum` the decision on
it, and either can arrive first and more than once. A decision that arrives before the row is a no-op, and a row
that arrives after the decision reopens the action, so a peer ends with the status its last message gives.
`converge_iff` says for any two peers with the same messages when they end with the same status and either both
or neither have performed the queued write.
-/

namespace AiMemory

open Relational Push

namespace Arrivals

/-- The two messages about an action. -/
inductive Message where
  | row
  | decision
  deriving DecidableEq

/-- An action as it was queued, and the one decision on it. -/
structure Case where
  action : PendingAction
  approved : Bool
  decider : String
  queued : action.status = "pending"
  valid : Accepts (Validate.validateId action.id)

def Case.dec (c : Case) : PendingDecision := ⟨c.action.id, c.approved, c.decider⟩

/-- One message at a peer. -/
structure Arrival where
  message : Message
  sender : String
  tick : Tick
  header : Option String

def Case.body (c : Case) (a : Arrival) : SyncPushBody :=
  match a.message with
  | .row => { senderAgentId := a.sender, memories := [], pendings := [c.action] }
  | .decision => { senderAgentId := a.sender, memories := [], pendingDecisions := [c.dec] }

/-- A message that a peer receives, with an id for an executed action that is new there. -/
structure Received (c : Case) (db : Db) (a : Arrival) : Prop where
  accepted : (c.body a).Accepted a.tick a.header
  fresh : db.get (a.tick.newId c.action.id) = none

/-- A peer that does not know the action, and the messages it receives, in their order. -/
structure Peer (c : Case) where
  host : Host
  db : Db
  arrivals : List Arrival
  unknown : db.pending.find c.action.id = none
  received : ∀ a ∈ arrivals, Received c db a

def receive (c : Case) (h : Host) (s : Once.Node) (a : Arrival) : Once.Node :=
  Once.step s (.syncPush h a.tick a.header (c.body a))

namespace Peer

variable {c : Case} (p : Peer c)

def messages : List Message := p.arrivals.map Arrival.message

def after : Once.Node := p.arrivals.foldl (receive c p.host) { db := p.db }

def status : Option String := (p.after.db.getPendingAction c.action.id).map fun pa => pa.status

/-- The queued write has been performed there. -/
def TookEffect : Prop := c.action.id ∈ p.after.ran

/-- A decision arrives after the row, and the queued write can be performed there. -/
def Effective : Prop :=
  [Message.row, Message.decision].Sublist p.messages ∧ Db.CanExecute p.host.memoryFromValue p.db c.action

end Peer

/-! ## One message -/

section Receive

variable {c : Case} {h : Host} {db : Db} {s : Once.Node} {a : Arrival} {ms : List Message}

def Case.decided (c : Case) : String := if c.approved then "approved" else "rejected"

theorem Case.decided_ne_pending (c : Case) : c.decided ≠ "pending" := by
  unfold Case.decided
  cases c.approved <;> decide

theorem receive_eq (hacc : (c.body a).Accepted a.tick a.header) :
    ∃ agent, receive c h s a =
      ⟨(body h a.tick agent (c.body a) s.db).db, s.ran ++ Once.pushRuns h a.tick (c.body a) s.db⟩ := by
  obtain ⟨-, agent, hdb⟩ | ⟨hrej, -⟩ := syncPush_accepted h a.tick a.header (c.body a) s.db
  · refine ⟨agent, ?_⟩
    show (⟨(syncPush h a.tick a.header (c.body a) s.db).1,
      if (syncPush h a.tick a.header (c.body a) s.db).2.isSuccess then
        s.ran ++ Once.pushRuns h a.tick (c.body a) s.db else s.ran⟩ : Once.Node) = _
    rw [if_pos ((isSuccess_syncPush h a.tick a.header (c.body a) s.db).mpr hacc), hdb]
  · exact absurd hacc hrej

theorem body_memories_of_nil {t : Tick} {b : SyncPushBody} (hdry : b.dryRun = false) (hnil : b.memories = [])
    (agent : String) (db : Db) : (body h t agent b db).db.memories = (writes h t b db).memories := by
  rw [body_memories hdry, hnil]
  unfold refreshed
  cases h.embedder <;> rfl

theorem receive_row (hmsg : a.message = .row) (hacc : (c.body a).Accepted a.tick a.header) :
    (receive c h s a).db.memories = s.db.memories ∧
    (receive c h s a).db.pending.find c.action.id = fileInto (s.db.pending.find c.action.id) c.action ∧
    (receive c h s a).ran = s.ran := by
  have hbody : c.body a = { senderAgentId := a.sender, memories := [], pendings := [c.action] } := by
    unfold Case.body
    rw [hmsg]
  have hdry : (c.body a).dryRun = false := by rw [hbody]
  obtain ⟨agent, hr⟩ := receive_eq (h := h) (s := s) hacc
  rw [hr]
  refine ⟨?_, ?_, ?_⟩
  · show (body h a.tick agent (c.body a) s.db).db.memories = _
    rw [body_memories_of_nil hdry (by rw [hbody]), hbody]
    show (onPending s.db c.action).memories = _
    unfold onPending
    rw [if_pos c.valid]
    rfl
  · show (body h a.tick agent (c.body a) s.db).db.pending.find _ = _
    rw [find_body_pending hdry, hbody]
    unfold filesOf decisionsOf
    simp [c.valid]
  · show s.ran ++ Once.pushRuns h a.tick (c.body a) s.db = _
    rw [hbody]
    exact List.append_nil _

theorem receive_decision (hmsg : a.message = .decision) (hacc : (c.body a).Accepted a.tick a.header) :
    (receive c h s a).db.pending.find c.action.id =
      decideInto a.tick.now (s.db.pending.find c.action.id) c.dec ∧
    (receive c h s a).ran = s.ran ++ (if Once.decisionRuns h a.tick s.db c.dec then [c.action.id] else []) ∧
    (Once.decisionRuns h a.tick s.db c.dec = false → (receive c h s a).db.memories = s.db.memories) := by
  have hbody : c.body a = { senderAgentId := a.sender, memories := [], pendingDecisions := [c.dec] } := by
    unfold Case.body
    rw [hmsg]
  have hdry : (c.body a).dryRun = false := by rw [hbody]
  obtain ⟨agent, hr⟩ := receive_eq (h := h) (s := s) hacc
  have hvalid : Accepts (Validate.validateId c.dec.id) := c.valid
  rw [hr]
  refine ⟨?_, ?_, fun hno => ?_⟩
  · show (body h a.tick agent (c.body a) s.db).db.pending.find _ = _
    rw [find_body_pending hdry, hbody]
    unfold filesOf decisionsOf
    simp [Case.dec, c.valid]
  · show s.ran ++ Once.pushRuns h a.tick (c.body a) s.db = _
    rw [hbody]
    show s.ran ++ ((if Once.decisionRuns h a.tick s.db c.dec then [c.action.id] else []) ++ []) = _
    rw [List.append_nil]
  · show (body h a.tick agent (c.body a) s.db).db.memories = _
    rw [body_memories_of_nil hdry (by rw [hbody]), hbody]
    show (onDecision h a.tick s.db c.dec).memories = _
    exact Once.onDecision_memories hno

end Receive

/-! ## A run -/

section Run

variable {c : Case} {h : Host} {db : Db} {s : Once.Node} {a : Arrival} {ms : List Message}

/-- The status that the messages so far give. -/
def Case.statusAfter (c : Case) (ms : List Message) : Option String :=
  if .row ∈ ms then some (if ms.getLast? = some .decision then c.decided else "pending") else none

/-- What a node has done with the messages so far. -/
structure Inv (c : Case) (h : Host) (db : Db) (ms : List Message) (s : Once.Node) : Prop where
  status : (s.db.pending.find c.action.id).map (fun r => r.status) = c.statusAfter ms
  action : ∀ r, s.db.pending.find c.action.id = some r → r.status = "pending" → r.toPendingAction = c.action
  ran : c.action.id ∈ s.ran ↔
    c.approved ∧ [Message.row, .decision].Sublist ms ∧ Db.CanExecute h.memoryFromValue db c.action
  memories : c.action.id ∉ s.ran → s.db.memories = db.memories

theorem sublist_concat_decision : [Message.row, .decision].Sublist (ms ++ [.decision]) ↔ .row ∈ ms := by
  show ([Message.row] ++ [Message.decision]).Sublist (ms ++ [Message.decision]) ↔ _
  rw [List.append_sublist_append_right, List.singleton_sublist]

theorem sublist_concat_row :
    [Message.row, .decision].Sublist (ms ++ [.row]) ↔ [Message.row, .decision].Sublist ms := by
  refine ⟨fun hsub => ?_, fun hsub => hsub.trans (List.sublist_append_left ms _)⟩
  obtain ⟨l₁, l₂, heq, h₁, h₂⟩ := List.sublist_append_iff.mp hsub
  rcases List.sublist_singleton.mp h₂ with rfl | rfl
  · rw [List.append_nil] at heq
    rwa [heq]
  · have hlast := congrArg List.getLast? heq
    simp at hlast

theorem Inv.row (hs : Inv c h db ms s) (hmsg : a.message = .row) (hacc : (c.body a).Accepted a.tick a.header) :
    Inv c h db (ms ++ [.row]) (receive c h s a) := by
  obtain ⟨hmem, hfind, hran⟩ := receive_row (h := h) (s := s) hmsg hacc
  refine ⟨?_, fun r hr _ => ?_, ?_, fun hno => ?_⟩
  · rw [hfind]
    unfold fileInto Case.statusAfter
    cases s.db.pending.find c.action.id <;> simp [PendingAction.toRow, c.queued]
  · rw [hfind] at hr
    unfold fileInto at hr
    cases hp : s.db.pending.find c.action.id with
    | none =>
      rw [hp] at hr
      cases hr
      rfl
    | some r₀ =>
      rw [hp] at hr
      cases hr
      rfl
  · rw [hran, sublist_concat_row]
    exact hs.ran
  · rw [hran] at hno
    rw [hmem]
    exact hs.memories hno

theorem sublist_of_getLast? (hrow : .row ∈ ms) (hlast : ms.getLast? = some .decision) :
    [Message.row, .decision].Sublist ms := by
  obtain ⟨init, rfl⟩ := List.getLast?_eq_some_iff.mp hlast
  rw [sublist_concat_decision]
  simpa using hrow

theorem Inv.status_eq (hs : Inv c h db ms s) {r : PendingRow} (hr : s.db.pending.find c.action.id = some r) :
    .row ∈ ms ∧ r.status = if ms.getLast? = some .decision then c.decided else "pending" := by
  have hstatus := hs.status
  unfold Case.statusAfter at hstatus
  rw [hr, Option.map_some] at hstatus
  by_cases hrow : .row ∈ ms
  · rw [if_pos hrow] at hstatus
    exact ⟨hrow, Option.some.inj hstatus⟩
  · rw [if_neg hrow] at hstatus
    cases hstatus

theorem Inv.row_not_mem (hs : Inv c h db ms s) (hr : s.db.pending.find c.action.id = none) : .row ∉ ms := by
  have hstatus := hs.status
  unfold Case.statusAfter at hstatus
  intro hrow
  rw [hr, if_pos hrow] at hstatus
  cases hstatus

theorem Inv.decisionRuns_iff (hs : Inv c h db ms s) (hget : db.get (a.tick.newId c.action.id) = none)
    (hno : c.action.id ∉ s.ran) : Once.decisionRuns h a.tick s.db c.dec = true ↔
      c.approved ∧ .row ∈ ms ∧ Db.CanExecute h.memoryFromValue db c.action := by
  have hmem := hs.memories hno
  cases hr : s.db.pending.find c.action.id with
  | none =>
    rw [Once.decisionRuns_of_not_pending (fun ⟨r, hr', _⟩ => nomatch hr.symm.trans hr')]
    exact iff_of_false Bool.false_ne_true fun hc => hs.row_not_mem hr hc.2.1
  | some r =>
    obtain ⟨hrow, hst⟩ := hs.status_eq hr
    split_ifs at hst with hlast
    · -- decided already: had the write been possible, an earlier decision would have performed it
      have hclosed : ¬IsPending (s.db.pending.find c.dec.id) := by
        rintro ⟨r', hr', hst'⟩
        cases hr.symm.trans hr'
        exact c.decided_ne_pending (hst.symm.trans hst')
      rw [Once.decisionRuns_of_not_pending hclosed]
      exact iff_of_false Bool.false_ne_true fun hc =>
        hno (hs.ran.mpr ⟨hc.1, sublist_of_getLast? hrow hlast, hc.2.2⟩)
    · have hget' : s.db.get (a.tick.newId c.dec.id) = none := by
        unfold Db.get
        rw [hmem]
        exact hget
      rw [Once.decisionRuns_iff c.dec c.valid hr hst hget', hs.action r hr hst, Db.canExecute_congr hmem]
      exact and_congr_right fun _ => (and_iff_right hrow).symm

/-- A decision arrives. -/
theorem Inv.decision (hs : Inv c h db ms s) (hmsg : a.message = .decision) (ha : Received c db a) :
    Inv c h db (ms ++ [.decision]) (receive c h s a) := by
  obtain ⟨hfind, hran, hmem⟩ := receive_decision (h := h) (s := s) hmsg ha.accepted
  refine ⟨?_, fun r hr hst => ?_, ?_, fun hno => ?_⟩
  · have hstatus : c.statusAfter (ms ++ [.decision]) = if .row ∈ ms then some c.decided else none := by
      unfold Case.statusAfter
      simp
    rw [hfind, hstatus]
    cases hr : s.db.pending.find c.action.id with
    | none =>
      rw [if_neg (hs.row_not_mem hr)]
      rfl
    | some r =>
      obtain ⟨hrow, hst⟩ := hs.status_eq hr
      rw [if_pos hrow]
      unfold decideInto decideRow
      rw [Option.map_some, Option.map_some]
      by_cases hpend : r.status = "pending"
      · rw [if_pos hpend]
        rfl
      · rw [if_neg hpend]
        split_ifs at hst
        · rw [hst]
        · exact absurd hst hpend
  · rw [hfind] at hr
    exact absurd ⟨r, hr, hst⟩ (not_isPending_decideInto _ c.dec)
  · rw [hran, sublist_concat_decision, List.mem_append]
    by_cases hin : c.action.id ∈ s.ran
    · obtain ⟨happ, hsub, hcan⟩ := hs.ran.mp hin
      exact iff_of_true (Or.inl hin) ⟨happ, hsub.subset List.mem_cons_self, hcan⟩
    · rw [← hs.decisionRuns_iff ha.fresh hin, or_iff_right hin]
      split_ifs with hrun
      · exact iff_of_true (List.mem_singleton.mpr rfl) hrun
      · exact iff_of_false List.not_mem_nil hrun
  · rw [hran, List.mem_append, not_or] at hno
    have hidle : Once.decisionRuns h a.tick s.db c.dec = false := by
      by_contra hrun
      rw [if_pos (by simpa using hrun)] at hno
      exact hno.2 (List.mem_singleton.mpr rfl)
    rw [hmem hidle]
    exact hs.memories hno.1

theorem inv_foldl (hunknown : db.pending.find c.action.id = none) (as : List Arrival)
    (has : ∀ a ∈ as, Received c db a) : Inv c h db (as.map Arrival.message) (as.foldl (receive c h) { db }) := by
  induction as using List.reverseRecOn with
  | nil =>
    refine ⟨?_, fun r hr _ => ?_, ?_, fun _ => rfl⟩
    · show (db.pending.find c.action.id).map _ = _
      rw [hunknown]
      rfl
    · cases hunknown.symm.trans hr
    · exact iff_of_false List.not_mem_nil fun hc => nomatch hc.2.1
  | append_singleton as a ih =>
    have hs := ih fun x hx => has x (List.mem_append_left _ hx)
    have ha := has a (List.mem_append_right _ (List.mem_singleton.mpr rfl))
    rw [List.map_append, List.foldl_append]
    show Inv c h db (as.map Arrival.message ++ [a.message]) (receive c h (as.foldl (receive c h) { db }) a)
    cases hmsg : a.message with
    | row => exact hs.row hmsg ha.accepted
    | decision => exact hs.decision hmsg ha

end Run

/-! ## Two peers -/

section Converge

variable {c : Case}

theorem Peer.status_eq (p : Peer c) : p.status = c.statusAfter p.messages := by
  have hs := (inv_foldl (h := p.host) p.unknown p.arrivals p.received).status
  unfold Peer.status Db.getPendingAction
  rw [Option.map_map]
  exact hs

theorem Peer.tookEffect_iff (p : Peer c) : p.TookEffect ↔ c.approved ∧ p.Effective :=
  (inv_foldl (h := p.host) p.unknown p.arrivals p.received).ran

/-- Two orders of the same messages give one status exactly when they end with the same message. -/
theorem statusAfter_eq_iff {ms ms' : List Message} (hsame : ∀ m, m ∈ ms ↔ m ∈ ms') :
    c.statusAfter ms = c.statusAfter ms' ↔ ms.getLast? = ms'.getLast? := by
  unfold Case.statusAfter
  have hlast : ∀ {l : List Message}, l ≠ [] → l.getLast? = some .row ∨ l.getLast? = some .decision := by
    intro l hne
    obtain ⟨init, m, rfl⟩ := List.eq_nil_or_concat' l |>.resolve_left hne
    cases m <;> simp
  by_cases hrow : .row ∈ ms
  · rw [if_pos hrow, if_pos ((hsame _).mp hrow), Option.some.injEq]
    have hne : ms ≠ [] := List.ne_nil_of_mem hrow
    have hne' : ms' ≠ [] := List.ne_nil_of_mem ((hsame _).mp hrow)
    rcases hlast hne with h | h <;> rcases hlast hne' with h' | h' <;>
      simp [h, h', c.decided_ne_pending, c.decided_ne_pending.symm]
  · -- without the row there are decisions only
    rw [if_neg hrow, if_neg (mt (hsame _).mpr hrow)]
    refine iff_of_true rfl ?_
    have hdec : ∀ {l : List Message}, .row ∉ l → l ≠ [] → l.getLast? = some .decision := by
      intro l hno hne
      refine (hlast hne).resolve_left fun h => hno (List.mem_of_getLast? h)
    by_cases hne : ms = []
    · subst hne
      rw [List.eq_nil_iff_forall_not_mem.mpr fun m hm => List.not_mem_nil ((hsame m).mpr hm)]
    · have hne' : ms' ≠ [] := by
        rintro rfl
        exact hne (List.eq_nil_iff_forall_not_mem.mpr fun m hm => List.not_mem_nil ((hsame m).mp hm))
      rw [hdec hrow hne, hdec (mt (hsame _).mpr hrow) hne']

/-- Two peers with the same messages end with the same status, and with the queued write performed on both or on
neither, exactly when the same message came last and, if the decision is an approval, it came after the row and
could be performed on both or on neither. -/
theorem converge_iff (p q : Peer c) (hsame : ∀ m, m ∈ p.messages ↔ m ∈ q.messages) :
    (p.status = q.status ∧ (p.TookEffect ↔ q.TookEffect)) ↔
      p.messages.getLast? = q.messages.getLast? ∧ (c.approved → (p.Effective ↔ q.Effective)) := by
  rw [p.status_eq, q.status_eq, statusAfter_eq_iff hsame, p.tookEffect_iff, q.tookEffect_iff]
  exact and_congr_right fun _ => and_congr_right_iff

end Converge

/-- The approval of `alice`'s request. -/
def approval : Case where
  action := Decided.request
  approved := true
  decider := "carol"
  queued := rfl
  valid := by decide

/-- A message that `bob` sends. -/
def fromBob (message : Message) : Arrival := ⟨message, "bob", tickAt "2026-01-02T00:00:00+00:00", none⟩

theorem received_fromBob (message : Message) : Received approval Db.empty (fromBob message) := by
  refine ⟨⟨?_, _, resolveHttpAgentId_none _⟩, rfl⟩
  cases message <;> decide

/-- A new node that receives messages of `bob`. -/
def newPeer (messages : List Message) : Peer approval where
  host := plainHost [] fun _ => false
  db := Db.empty
  arrivals := messages.map fromBob
  unknown := rfl
  received := by
    intro a ha
    obtain ⟨message, -, rfl⟩ := List.mem_map.mp ha
    exact received_fromBob message

/-- Repeats in front of the decision do no harm. -/
theorem repeats_converge :
    let p := newPeer [.row, .decision]
    let q := newPeer [.row, .decision, .row, .row, .decision]
    p.status = q.status ∧ (p.TookEffect ↔ q.TookEffect) := by
  intro p q
  refine (converge_iff p q fun m => ?_).mpr
    ⟨by decide, fun _ => iff_of_true ⟨by decide, trivial⟩ ⟨by decide, trivial⟩⟩
  cases m <;> decide

/-- A peer that gets the decision first drops it, and keeps the action pending. -/
theorem decision_first_diverges :
    let p := newPeer [.row, .decision]
    let q := newPeer [.decision, .row]
    (∀ m, m ∈ p.messages ↔ m ∈ q.messages) ∧ (p.status = some "approved" ∧ p.TookEffect) ∧
      q.status = some "pending" ∧ ¬q.TookEffect := by
  intro p q
  refine ⟨fun m => by cases m <;> decide, ⟨by decide, ?_⟩, by decide, ?_⟩
  · unfold Peer.TookEffect
    decide
  · unfold Peer.TookEffect
    decide

end Arrivals

end AiMemory
