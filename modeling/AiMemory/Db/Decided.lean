import AiMemory.Lib.Transitions
import AiMemory.Db.Pending

/-!
# Decided actions stay decided

A cluster of nodes, each with its own database, queues, votes on, decides, times out and replicates
pending actions in any order. A replicated row is one that some node once had. Once a row has left
the status `pending`, its status, `decided_by` and `decided_at` should be final.

Every writer but `upsert_pending_action` respects that. The upsert does exactly when the row it meets
is still pending or already carries the decision that arrives.
-/

namespace AiMemory

open Relational

def PendingAction.decision (pa : PendingAction) : String × Option String × Option String :=
  (pa.status, pa.decidedBy, pa.decidedAt)

namespace Decided

/-- The nodes' databases, and every state a pending action has had on one of them. -/
structure World where
  nodes : String → Db
  seen : List PendingAction

/-- One call on one node. -/
inductive Op where
  | queuePendingAction (node : String) (action : GovernedAction) (ns : String) (memoryId : Option String)
      (requestedBy : String) (payload : Json) (newId now : String)
  | approveWithApproverType (node pendingId approverAgentId approvedAt now : String)
  | decidePendingAction (node id : String) (approve : Bool) (decidedBy now : String)
  | sweepPendingActionTimeouts (node : String) (globalDefaultSecs : ℤ) (age : Db.AgeSecs) (now : String)
  | upsertPendingAction (node : String) (pa : PendingAction)

def Op.node : Op → String
  | queuePendingAction node .. => node
  | approveWithApproverType node .. => node
  | decidePendingAction node .. => node
  | sweepPendingActionTimeouts node .. => node
  | upsertPendingAction node _ => node

/-- The database after a call. A row arrives by sync only when `seen` has it. -/
def Op.run (seen : List PendingAction) (db : Db) : Op → Db
  | queuePendingAction _ action ns memoryId requestedBy payload newId now =>
    match db.queuePendingAction action ns memoryId requestedBy payload newId now with
    | .ok (db', _) => db'
    | .error _ => db
  | approveWithApproverType _ id approver approvedAt now =>
    (db.approveWithApproverType id approver approvedAt now).1
  | decidePendingAction _ id approve decidedBy now => (db.decidePendingAction id approve decidedBy now).1
  | sweepPendingActionTimeouts _ secs age now => (db.sweepPendingActionTimeouts secs age now).1
  | upsertPendingAction _ pa => if pa ∈ seen then db.upsertPendingAction pa else db

def step (w : World) (op : Op) : World :=
  let db := op.run w.seen (w.nodes op.node)
  { nodes := Function.update w.nodes op.node db
    seen := w.seen ++ db.pending.rows.map fun r => r.toPendingAction }

/-- Every decided action of `db` has the same decision in `db'`. -/
def KeepsDecisions (db db' : Db) : Prop :=
  ∀ id r, db.pending.find id = some r → r.status ≠ "pending" →
    ∃ r', db'.pending.find id = some r' ∧ r'.decision = r.decision

/-- On every node the decided actions keep their decision. -/
def Keeps (w w' : World) : Prop := ∀ node, KeepsDecisions (w.nodes node) (w'.nodes node)

/-- A row replicated to a node meets no row there, a pending one, or one with its own decision. -/
def StepOk (w : World) : Op → Prop
  | .upsertPendingAction node pa => pa ∈ w.seen →
      ∀ r, (w.nodes node).pending.find pa.id = some r → r.status ≠ "pending" → pa.decision = r.decision
  | _ => True

/-! ## One call -/

section Call

variable {db db' db'' : Db}

theorem KeepsDecisions.refl (db : Db) : KeepsDecisions db db := fun _ r hr _ => ⟨r, hr, rfl⟩

theorem KeepsDecisions.trans (h : KeepsDecisions db db') (h' : KeepsDecisions db' db'') :
    KeepsDecisions db db'' := by
  intro id r hr hdec
  obtain ⟨r', hr', heq⟩ := h id r hr hdec
  have hdec' : r'.status ≠ "pending" := by
    rw [show r'.status = r.status from congrArg Prod.fst heq]
    exact hdec
  obtain ⟨r'', hr'', heq'⟩ := h' id r' hr' hdec'
  exact ⟨r'', hr'', heq'.trans heq⟩

/-- The guard `status = 'pending'` keeps every decision. -/
theorem keepsDecisions_updatePending (id : String) (f : PendingRow → PendingRow)
    (hf : ∀ r, (f r).id = r.id) : KeepsDecisions db (db.updatePending id f hf) := by
  intro i r hr hdec
  refine ⟨r, ?_, rfl⟩
  rw [Db.find_updatePending, hr, Option.map_some, if_neg (fun h => hdec h.2)]

theorem keepsDecisions_decide {id decidedBy now : String} {approve : Bool} :
    KeepsDecisions db (db.decidePendingAction id approve decidedBy now).1 := by
  unfold Db.decidePendingAction
  apply keepsDecisions_updatePending
  exact fun _ => rfl

theorem keepsDecisions_addVote {id : String} {vote : Approval} :
    KeepsDecisions db (db.addVote id vote) := by
  unfold Db.addVote
  apply keepsDecisions_updatePending

theorem keepsDecisions_approve {id approver approvedAt now : String} :
    KeepsDecisions db (db.approveWithApproverType id approver approvedAt now).1 :=
  Db.approve_keeps (P := KeepsDecisions db) (fun _ _ h => h.trans keepsDecisions_addVote)
    (fun _ _ h => h.trans keepsDecisions_decide) (KeepsDecisions.refl db)

theorem keepsDecisions_sweep {secs : ℤ} {age : Db.AgeSecs} {now : String} :
    KeepsDecisions db (db.sweepPendingActionTimeouts secs age now).1 := by
  unfold Db.sweepPendingActionTimeouts
  split_ifs
  · exact KeepsDecisions.refl db
  · simp only
    generalize (db.pending.rows.filter _).map _ = rows
    induction rows generalizing db with
    | nil => exact KeepsDecisions.refl db
    | cons row rows ih =>
      refine KeepsDecisions.trans ?_ ih
      apply keepsDecisions_updatePending

theorem keepsDecisions_queue {action : GovernedAction} {ns requestedBy newId now id : String}
    {memoryId : Option String} {payload : Json}
    (h : db.queuePendingAction action ns memoryId requestedBy payload newId now = .ok (db', id)) :
    KeepsDecisions db db' := by
  unfold Db.queuePendingAction at h
  simp only at h
  split at h
  · rename_i t ht
    cases h
    intro i r hr _
    refine ⟨r, ?_, rfl⟩
    show t.find i = some r
    rw [Table.find_insertNew? ht, hr]
    rfl
  · cases h

theorem keepsDecisions_upsert_iff {pa : PendingAction} :
    KeepsDecisions db (db.upsertPendingAction pa) ↔
      ∀ r, db.pending.find pa.id = some r → r.status ≠ "pending" → pa.decision = r.decision := by
  constructor
  · intro h r hr hdec
    obtain ⟨r', hr', heq⟩ := h pa.id r hr hdec
    rw [Db.find_upsertPendingAction, if_pos rfl, hr] at hr'
    cases hr'
    exact heq
  · intro h id r hr hdec
    rw [Db.find_upsertPendingAction]
    by_cases hid : id = pa.id
    · subst hid
      rw [if_pos rfl, hr]
      exact ⟨_, rfl, h r hr hdec⟩
    · rw [if_neg hid]
      exact ⟨r, hr, rfl⟩

end Call

/-! ## Runs of the cluster -/

/-- A step keeps every decision exactly when it meets its condition. -/
theorem keeps_step_iff (w : World) (op : Op) : Keeps w (step w op) ↔ StepOk w op := by
  have hlocal : Keeps w (step w op) ↔
      KeepsDecisions (w.nodes op.node) (op.run w.seen (w.nodes op.node)) := by
    constructor
    · intro h
      have := h op.node
      simpa [step] using this
    · intro h node
      by_cases hn : node = op.node
      · subst hn
        simpa [step] using h
      · simpa [step, hn] using KeepsDecisions.refl (w.nodes node)
  rw [hlocal]
  cases op with
  | queuePendingAction node action ns memoryId requestedBy payload newId now =>
    refine iff_of_true ?_ trivial
    simp only [Op.run]
    split
    · rename_i h
      exact keepsDecisions_queue h
    · exact KeepsDecisions.refl _
  | approveWithApproverType node id approver approvedAt now =>
    exact iff_of_true keepsDecisions_approve trivial
  | decidePendingAction node id approve decidedBy now =>
    exact iff_of_true keepsDecisions_decide trivial
  | sweepPendingActionTimeouts node secs age now => exact iff_of_true keepsDecisions_sweep trivial
  | upsertPendingAction node pa =>
    simp only [Op.run, StepOk]
    by_cases hseen : pa ∈ w.seen
    · rw [if_pos hseen, keepsDecisions_upsert_iff]
      exact ⟨fun h _ => h, fun h => h hseen⟩
    · rw [if_neg hseen]
      exact iff_of_true (KeepsDecisions.refl _) fun h => absurd h hseen

/-- Over a run of the cluster every decision is final exactly when each replicated row meets no row, a
pending row, or a row with the same decision. -/
theorem decisions_final_iff (w : World) (ops : List Op) :
    (Machine.states step w ops).Pairwise Keeps ↔ Machine.Meets step StepOk w ops := by
  rw [Machine.pairwise_states_iff fun _ _ _ h h' node => (h node).trans (h' node)]
  exact Machine.meets_congr keeps_step_iff

def fresh : World := ⟨fun _ => Db.empty, []⟩

/-- The action `alice` queues. -/
def request : PendingAction where
  id := "p1"
  actionType := "delete"
  memoryId := some "m1"
  ns := "team"
  payload := .null
  requestedBy := "alice"
  requestedAt := "2026-01-01T00:00:00+00:00"
  status := "pending"
  decidedBy := none
  decidedAt := none
  approvals := []

/-- Node `a` queues and rejects an action; then the row it had sent before comes back from a peer. -/
def reopened : List Op :=
  [.queuePendingAction "a" .delete "team" (some "m1") "alice" .null "p1" "2026-01-01T00:00:00+00:00",
    .upsertPendingAction "b" request,
    .decidePendingAction "a" "p1" false "bob" "2026-01-02T00:00:00+00:00",
    .upsertPendingAction "a" request]

/-- The rejected action is pending again. -/
theorem rejected_action_reopens :
    ¬(Machine.states step fresh reopened).Pairwise Keeps ∧
      ((reopened.take 3).foldl step fresh |>.nodes "a").getPendingAction "p1" =
        some { request with
          status := "rejected", decidedBy := some "bob", decidedAt := some "2026-01-02T00:00:00+00:00" } ∧
      (reopened.foldl step fresh |>.nodes "a").getPendingAction "p1" = some request := by
  refine ⟨fun h => ?_, by decide, by decide⟩
  rw [Machine.pairwise_states_iff fun _ _ _ h h' node => (h node).trans (h' node)] at h
  obtain ⟨r', hr', hdec⟩ := h.2.2.2.1 "a" "p1" _ rfl (by decide)
  cases hr'
  revert hdec
  decide

end Decided

end AiMemory
