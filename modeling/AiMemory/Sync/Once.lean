import AiMemory.Db.Decided
import AiMemory.Sync.DryRun
import AiMemory.Sync.Replay

/-!
# Approved actions run once

`execute_pending_action` leaves no mark on the row it runs, so that an action runs once rests on its status
alone: a local approval and a pushed decision run it when they move the status away from `pending`. A pushed
row overwrites the status whatever it is. `ran_once_of_meets` says that on a node no action runs twice as long
as no push files an action as pending that has run there.
-/

namespace AiMemory

open Relational Decided

namespace Once

/-- A node, with the ids of the actions whose queued write it has performed. -/
structure Node where
  db : Db
  ran : List String := []

/-- `execute_pending_action` performs the queued write. -/
def performs (db : Db) (x : Db.Execution) (id : String) : Bool :=
  match db.executePendingAction x id with
  | .ok _ => true
  | .error _ => false

theorem performs_iff {db : Db} {x : Db.Execution} {id : String} :
    performs db x id = true ↔ ∃ res, db.executePendingAction x id = .ok res := by
  unfold performs
  split
  · rename_i hx
    exact iff_of_true rfl ⟨_, hx⟩
  · rename_i hx
    rw [hx]
    exact iff_of_false Bool.false_ne_true fun ⟨res, h⟩ => nomatch h

/-- What `execute_pending_action` leaves; its callers only log a failure. -/
def executed (db : Db) (x : Db.Execution) (id : String) : Db :=
  match db.executePendingAction x id with
  | .ok (db, _) => db
  | .error _ => db

def decisionRuns (h : Host) (t : Tick) (db : Db) (dec : PendingDecision) : Bool :=
  decide (Accepts (Validate.validateId dec.id)) && dec.approved &&
    match db.decidePendingAction dec.id dec.approved dec.decider t.now with
    | (db, true) => performs db ⟨h.memoryFromValue, t.newId dec.id, t.now⟩ dec.id
    | (_, false) => false

/-- The actions that the decisions of a push run, in their order. -/
def decisionsRun (h : Host) (t : Tick) : Db → List PendingDecision → List String
  | _, [] => []
  | db, dec :: rest =>
    (if decisionRuns h t db dec then [dec.id] else []) ++ decisionsRun h t (Push.onDecision h t db dec) rest

def pushRuns (h : Host) (t : Tick) (b : SyncPushBody) (db : Db) : List String :=
  if b.dryRun then []
  else decisionsRun h t (b.pendings.foldl Push.onPending (Push.rows h t b db)) b.pendingDecisions

/-- The calls of a run on one node. -/
inductive Op where
  | queue (action : GovernedAction) (ns : String) (memoryId : Option String) (requestedBy : String)
      (payload : Json) (newId now : String)
  | approve (id agentId approvedAt now : String) (x : Db.Execution)
  | reject (id agentId now : String)
  | sweep (globalDefaultSecs : ℤ) (age : Db.AgeSecs) (now : String)
  | syncPush (h : Host) (t : Tick) (header : Option String) (b : SyncPushBody)

/-- One call. A local approval that decides the action runs it, as the approval handlers do. -/
def step (s : Node) : Op → Node
  | .queue action ns memoryId requestedBy payload newId now =>
    match s.db.queuePendingAction action ns memoryId requestedBy payload newId now with
    | .ok (db, _) => { s with db }
    | .error _ => s
  | .approve id agentId approvedAt now x =>
    match s.db.approveWithApproverType id agentId approvedAt now with
    | (db, .approved) =>
      { db := executed db x id, ran := if performs db x id then s.ran ++ [id] else s.ran }
    | (db, _) => { s with db }
  | .reject id agentId now => { s with db := (s.db.decidePendingAction id false agentId now).1 }
  | .sweep secs age now => { s with db := (s.db.sweepPendingActionTimeouts secs age now).1 }
  | .syncPush h t header b =>
    let (db, answer) := AiMemory.syncPush h t header b s.db
    { db, ran := if answer.isSuccess then s.ran ++ pushRuns h t b s.db else s.ran }

/-- A push files no action as pending that has run here. -/
def OpOk (s : Node) : Op → Prop
  | .syncPush _ t header b => b.Accepted t header → b.dryRun = false →
      ∀ pa ∈ b.pendings, Accepts (Validate.validateId pa.id) → pa.id ∈ s.ran → pa.status ≠ "pending"
  | _ => True

/-- The action has a row, and it is not pending. -/
def Closed (db : Db) (id : String) : Prop := ∃ r, db.pending.find id = some r ∧ r.status ≠ "pending"

/-- No action ran twice, and what ran is closed. -/
structure Inv (s : Node) : Prop where
  nodup : s.ran.Nodup
  closed : ∀ id ∈ s.ran, Closed s.db id

section Steps

variable {db db' : Db} {id : String}

theorem Closed.of_keeps (hk : KeepsDecisions db db') (hc : Closed db id) : Closed db' id := by
  obtain ⟨r, hr, hst⟩ := hc
  obtain ⟨r', hr', heq⟩ := hk id r hr hst
  refine ⟨r', hr', ?_⟩
  rw [show r'.status = r.status from congrArg Prod.fst heq]
  exact hst

theorem Closed.of_pending (he : db'.pending = db.pending) (hc : Closed db id) : Closed db' id := by
  unfold Closed
  rwa [he]

theorem executed_pending (db : Db) (x : Db.Execution) (id : String) : (executed db x id).pending = db.pending := by
  unfold executed
  split
  · rename_i he
    exact (Push.executePendingAction_frame he).2
  · rfl

theorem decide_changes {approve : Bool} {decidedBy now : String}
    (h : (db.decidePendingAction id approve decidedBy now).2 = true) :
    ¬Closed db id ∧ Closed (db.decidePendingAction id approve decidedBy now).1 id := by
  unfold Db.decidePendingAction at h ⊢
  cases hr : db.pending.find id with
  | none =>
    rw [hr] at h
    cases h
  | some r =>
    rw [hr] at h
    have hst : r.status = "pending" := by simpa using h
    refine ⟨?_, { r with
      status := if approve then "approved" else "rejected", decidedBy := some decidedBy, decidedAt := some now },
      ?_, ?_⟩
    · rintro ⟨r', hr', hst'⟩
      rw [hr] at hr'
      cases hr'
      exact hst' hst
    · rw [Db.find_updatePending, hr, Option.map_some, if_pos ⟨rfl, hst⟩]
    · cases approve <;> simp

/-- So does an approval. -/
theorem approve_changes {agentId approvedAt now : String}
    (h : (db.approveWithApproverType id agentId approvedAt now).2 = .approved) :
    ¬Closed db id ∧ Closed (db.approveWithApproverType id agentId approvedAt now).1 id := by
  have hby : ∀ (d : Db) (approver failure : String), (d.approveBy id approver now failure).2 = .approved →
      ¬Closed d id ∧ Closed (d.approveBy id approver now failure).1 id := by
    intro d approver failure hd
    refine decide_changes ?_
    unfold Db.approveBy at hd
    simp only at hd
    split_ifs at hd with hok
    · exact hok
  unfold Db.approveWithApproverType at h ⊢
  cases hpa : db.getPendingAction id with
  | none =>
    rw [hpa] at h
    cases h
  | some pa =>
    rw [hpa] at h
    simp only at h ⊢
    by_cases hst : pa.status ≠ "pending"
    · rw [if_pos hst] at h
      cases h
    · rw [if_neg hst] at h ⊢
      cases hap : ((db.resolveGovernancePolicy pa.ns).map (·.approver)).getD .human with
      | human =>
        rw [hap] at h
        exact hby db _ _ h
      | agent required =>
        rw [hap] at h
        simp only at h ⊢
        split_ifs at h ⊢
        exact hby db _ _ h
      | consensus quorum =>
        rw [hap] at h
        simp only at h ⊢
        split_ifs at h ⊢
        obtain ⟨hopen, hclosed⟩ := hby _ _ _ h
        exact ⟨fun hc => hopen (hc.of_keeps keepsDecisions_addVote), hclosed⟩

end Steps

/-! ## A push -/

section Push

variable {h : Host} {t : Tick} {db : Db} {id : String}

theorem Closed.onDecision (dec : PendingDecision) (hc : Closed db id) : Closed (Push.onDecision h t db dec) id := by
  obtain ⟨r, hr, hst⟩ := hc
  refine ⟨r, ?_, hst⟩
  rw [Push.find_onDecision, hr]
  unfold Push.decideInto Push.decideRow
  rw [Option.map_some, if_neg hst]
  split_ifs <;> rfl

variable {dec : PendingDecision}

theorem decisionRuns_changes (hr : decisionRuns h t db dec = true) :
    ¬Closed db dec.id ∧ Closed (Push.onDecision h t db dec) dec.id := by
  unfold decisionRuns at hr
  rw [Bool.and_eq_true, Bool.and_eq_true, decide_eq_true_eq] at hr
  obtain ⟨⟨hv, -⟩, hr⟩ := hr
  have hchanged : (db.decidePendingAction dec.id dec.approved dec.decider t.now).2 = true := by
    split at hr
    · rename_i hp
      rw [hp]
    · cases hr
  obtain ⟨hopen, r, hfind, hst⟩ := decide_changes hchanged
  refine ⟨hopen, r, ?_, hst⟩
  rw [Push.find_onDecision, if_pos ⟨hv, rfl⟩, ← hfind]
  unfold Db.decidePendingAction Push.decideInto Push.decideRow
  rw [Db.find_updatePending]
  simp

theorem onDecision_memories (hno : decisionRuns h t db dec = false) :
    (Push.onDecision h t db dec).memories = db.memories := by
  unfold decisionRuns performs at hno
  unfold Push.onDecision Push.decide
  by_cases hv : Accepts (Validate.validateId dec.id)
  · rw [if_pos hv]
    have hdecide : (db.decidePendingAction dec.id dec.approved dec.decider t.now).1.memories = db.memories := rfl
    cases hp : db.decidePendingAction dec.id dec.approved dec.decider t.now with
    | mk db₁ changed =>
      rw [hp] at hno hdecide
      cases changed with
      | false => exact hdecide
      | true =>
        simp only
        cases ha : dec.approved with
        | false => exact hdecide
        | true =>
          cases he : db₁.executePendingAction ⟨h.memoryFromValue, t.newId dec.id, t.now⟩ dec.id with
          | error e => exact hdecide
          | ok res => simp [ha, he, hv] at hno
  · rw [if_neg hv]

/-- A decision runs the action it finds pending when it is an approval and the write can be performed. -/
theorem decisionRuns_iff (dec : PendingDecision) {r : PendingRow} (hv : Accepts (Validate.validateId dec.id))
    (hr : db.pending.find dec.id = some r) (hst : r.status = "pending") (hget : db.get (t.newId dec.id) = none) :
    decisionRuns h t db dec = true ↔ dec.approved ∧ Db.CanExecute h.memoryFromValue db r.toPendingAction := by
  have hchanged : (db.decidePendingAction dec.id dec.approved dec.decider t.now).2 = true := by
    show (db.pending.find dec.id).any _ = true
    rw [hr]
    simpa using hst
  unfold decisionRuns
  rw [Bool.and_eq_true, Bool.and_eq_true, decide_eq_true_eq, and_assoc, and_iff_right hv]
  refine and_congr_right fun ha => ?_
  have hfind : (db.decidePendingAction dec.id dec.approved dec.decider t.now).1.getPendingAction dec.id =
      some { r.toPendingAction with
        status := "approved", decidedBy := some dec.decider, decidedAt := some t.now } := by
    unfold Db.decidePendingAction Db.getPendingAction
    rw [Db.find_updatePending, hr, ha]
    simp [hst]
  have hiff := Db.executePendingAction_isOk_iff (x := ⟨h.memoryFromValue, t.newId dec.id, t.now⟩) hfind rfl hget
  have hsame : Db.CanExecute h.memoryFromValue (db.decidePendingAction dec.id dec.approved dec.decider t.now).1
      { r.toPendingAction with status := "approved", decidedBy := some dec.decider, decidedAt := some t.now } ↔
      Db.CanExecute h.memoryFromValue db r.toPendingAction := Iff.rfl
  rw [hsame] at hiff
  rw [← hiff, ← performs_iff]
  cases hp : db.decidePendingAction dec.id dec.approved dec.decider t.now with
  | mk db₁ changed =>
    rw [show changed = true from (congrArg Prod.snd hp).symm.trans hchanged]

theorem decisionRuns_of_not_pending (hno : ¬Push.IsPending (db.pending.find dec.id)) :
    decisionRuns h t db dec = false := by
  have hchanged : (db.decidePendingAction dec.id dec.approved dec.decider t.now).2 = false := by
    show (db.pending.find dec.id).any _ = false
    rw [Push.isPending_iff] at hno
    simpa using hno
  unfold decisionRuns
  cases hp : db.decidePendingAction dec.id dec.approved dec.decider t.now with
  | mk db₁ changed =>
    rw [show changed = false from (congrArg Prod.snd hp).symm.trans hchanged]
    exact Bool.and_false _

theorem decisionsRun_once (decs : List PendingDecision) {ran : List String} (hn : ran.Nodup)
    (hc : ∀ id ∈ ran, Closed db id) : (ran ++ decisionsRun h t db decs).Nodup ∧
      ∀ id ∈ ran ++ decisionsRun h t db decs, Closed (decs.foldl (Push.onDecision h t) db) id := by
  induction decs generalizing db ran with
  | nil =>
    rw [decisionsRun, List.append_nil]
    exact ⟨hn, hc⟩
  | cons dec rest ih =>
    rw [decisionsRun, List.foldl_cons, ← List.append_assoc]
    by_cases hr : decisionRuns h t db dec = true
    · obtain ⟨hopen, hclosed⟩ := decisionRuns_changes hr
      have hnew : dec.id ∉ ran := fun hmem => hopen (hc dec.id hmem)
      rw [if_pos hr]
      refine ih ?_ fun id hid => ?_
      · rw [List.nodup_append]
        exact ⟨hn, List.nodup_singleton _, fun a ha b hb => fun he =>
          hnew (List.mem_singleton.mp hb ▸ he ▸ ha)⟩
      · rcases List.mem_append.mp hid with hid | hid
        · exact (hc id hid).onDecision dec
        · rw [List.mem_singleton.mp hid]
          exact hclosed
    · rw [if_neg hr, List.append_nil]
      exact ih hn fun id hid => (hc id hid).onDecision dec

theorem Closed.foldl_onPending {pas : List PendingAction} (hc : Closed db id)
    (hok : ∀ pa ∈ pas, Accepts (Validate.validateId pa.id) → pa.id = id → pa.status ≠ "pending") :
    Closed (pas.foldl Push.onPending db) id := by
  refine Machine.foldl_induct (P := fun d : Db => Closed d id) (fun d pa hpa hd => ?_) hc
  obtain ⟨r, hr, hst⟩ := hd
  unfold Closed
  rw [Push.find_onPending, hr]
  split_ifs with hfile
  · exact ⟨_, rfl, hok pa hpa hfile.1 hfile.2⟩
  · exact ⟨r, rfl, hst⟩

theorem inv_syncPush {s : Node} {header : Option String} {b : SyncPushBody} (hs : Inv s)
    (hok : OpOk s (.syncPush h t header b)) : Inv (step s (.syncPush h t header b)) := by
  show Inv ⟨(syncPush h t header b s.db).1, if (syncPush h t header b s.db).2.isSuccess then
    s.ran ++ pushRuns h t b s.db else s.ran⟩
  obtain ⟨hacc, agent, hdb⟩ | ⟨hrej, hdb⟩ := syncPush_accepted h t header b s.db
  · rw [if_pos ((isSuccess_syncPush h t header b s.db).mpr hacc), hdb]
    unfold pushRuns
    cases hd : b.dryRun with
    | true =>
      rw [if_pos rfl, List.append_nil, Push.body_dry agent hd, (Push.records_spec b s.db).2, hd]
      exact hs
    | false =>
      have hfiled : ∀ id ∈ s.ran, Closed (b.pendings.foldl Push.onPending (Push.rows h t b s.db)) id := by
        intro id hid
        refine ((hs.closed id hid).of_pending (Push.rows_pending h t b s.db)).foldl_onPending ?_
        intro pa hpa hv he
        exact hok hacc hd pa hpa hv (he ▸ hid)
      obtain ⟨hnodup, hclosed⟩ := decisionsRun_once (h := h) (t := t) b.pendingDecisions hs.nodup hfiled
      refine ⟨hnodup, fun id hid => (hclosed id hid).of_pending ?_⟩
      rw [(Push.body_tables hd agent s.db).2.2.1, Push.writes_eq, Push.filings_eq, Push.standards_frame]
  · rw [if_neg (mt (isSuccess_syncPush h t header b s.db).mp hrej), hdb]
    exact hs

end Push

/-- The step: a call that files no action as pending that has run here runs none twice. -/
theorem inv_step {s : Node} {op : Op} (hs : Inv s) (hok : OpOk s op) : Inv (step s op) := by
  have hkeep : ∀ db, KeepsDecisions s.db db → Inv { s with db } := fun db hk =>
    ⟨hs.nodup, fun id hid => (hs.closed id hid).of_keeps hk⟩
  cases op with
  | queue action ns memoryId requestedBy payload newId now =>
    unfold step
    simp only
    split
    · rename_i hq
      exact hkeep _ (keepsDecisions_queue hq)
    · exact hs
  | approve id agentId approvedAt now x =>
    have hk := @keepsDecisions_approve s.db id agentId approvedAt now
    unfold step
    simp only
    split
    · rename_i db hap
      have hchange := approve_changes (congrArg Prod.snd hap)
      rw [hap] at hk hchange
      have hclosed : ∀ i ∈ s.ran, Closed (executed db x id) i := fun i hi =>
        ((hs.closed i hi).of_keeps hk).of_pending (executed_pending db x id)
      by_cases hp : performs db x id = true
      · rw [if_pos hp]
        refine ⟨?_, fun i hi => ?_⟩
        · rw [List.nodup_append]
          refine ⟨hs.nodup, List.nodup_singleton _, fun a ha b hb he => ?_⟩
          rw [List.mem_singleton.mp hb] at he
          exact hchange.1 (he ▸ hs.closed a ha)
        · rcases List.mem_append.mp hi with hi | hi
          · exact hclosed i hi
          · rw [List.mem_singleton.mp hi]
            exact hchange.2.of_pending (executed_pending db x id)
      · rw [if_neg hp]
        exact ⟨hs.nodup, hclosed⟩
    · rename_i db _ _ hap
      rw [hap] at hk
      exact hkeep _ hk
  | reject id agentId now => exact hkeep _ keepsDecisions_decide
  | sweep secs age now => exact hkeep _ keepsDecisions_sweep
  | syncPush h t header b => exact inv_syncPush hs hok

/-- In every run on one node of queued actions, local approvals and rejections, timeouts and pushes in which no
push files an action as pending that has run there, no queued write is performed twice. -/
theorem ran_once_of_meets (db : Db) (ops : List Op) (hok : Machine.Meets step OpOk { db } ops) :
    ∀ s ∈ Machine.states step { db } ops, ∀ id, s.ran.count id ≤ 1 := by
  intro s hs id
  have hinv := Machine.forall_states_of_meets (fun s op hs hC => inv_step hs hC)
    (⟨List.nodup_nil, fun i hi => absurd hi List.not_mem_nil⟩ : Inv { db }) hok s hs
  exact List.nodup_iff_count_le_one.mp hinv.nodup id

/-- A push from `bob` that a node takes in. -/
def fromBob (now : String) (b : SyncPushBody) : Op :=
  .syncPush (plainHost ["2026-01-03T00:00:00+00:00"] fun _ => false) (tickAt now) none b

def requestPush : SyncPushBody := { senderAgentId := "bob", memories := [], pendings := [request] }

def approvalPush : SyncPushBody :=
  { senderAgentId := "bob", memories := [], pendingDecisions := [⟨"p1", true, "carol"⟩] }

/-- A request arrives, then its approval, twice. -/
theorem approval_twice_runs_once :
    let ops := [fromBob "2026-01-02T00:00:00+00:00" requestPush, fromBob "2026-01-02T00:00:01+00:00" approvalPush,
      fromBob "2026-01-02T00:00:02+00:00" approvalPush]
    (ops.foldl step { db := Db.empty }).ran = ["p1"] ∧
      ∀ s ∈ Machine.states step { db := Db.empty } ops, ∀ id, s.ran.count id ≤ 1 := by
  intro ops
  refine ⟨by decide, ran_once_of_meets Db.empty _ ⟨?_, ?_, ?_, trivial⟩⟩
  · intro _ _ pa _ _ hran
    cases hran
  · intro _ _ pa hpa
    cases hpa
  · intro _ _ pa hpa
    cases hpa

/-- After an approved deletion the memory is stored again; then both pushes are sent once more, and the deletion
runs once more. -/
theorem deletion_runs_twice :
    let ops := [fromBob "2026-01-02T00:00:00+00:00" requestPush,
      fromBob "2026-01-02T00:00:01+00:00" approvalPush,
      fromBob "2026-01-03T00:00:00+00:00"
        { senderAgentId := "bob", memories := [note "m1" "Rota" "2026-01-03T00:00:00+00:00"] },
      fromBob "2026-01-03T00:00:01+00:00" requestPush, fromBob "2026-01-03T00:00:02+00:00" approvalPush]
    let run := fun n => (ops.take n).foldl step { db := Db.empty }
    ((run 2).ran = ["p1"] ∧ (run 3).db.get "m1" ≠ none) ∧ (run 5).ran = ["p1", "p1"] ∧ (run 5).db.get "m1" = none ∧
      ¬∀ s ∈ Machine.states step { db := Db.empty } ops, ∀ id, s.ran.count id ≤ 1 := by
  intro ops run
  have htwice : (run 5).ran = ["p1", "p1"] := by decide
  refine ⟨by decide, htwice, by decide, fun h => ?_⟩
  have hcount := h (run 5) Machine.foldl_mem_states "p1"
  rw [htwice] at hcount
  revert hcount
  decide

end Once

end AiMemory
