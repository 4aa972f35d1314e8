import AiMemory.Db.Governance
import AiMemory.Db.Consolidate

/-!
# Pending actions

The writers of `pending_actions` in `db.rs`. `decide_pending_action`, `approve_with_approver_type` and
`sweep_pending_action_timeouts` only touch rows whose status is `pending`; `upsert_pending_action`
takes over the row of a peer whatever the status here. `execute_pending_action` runs the payload of
an approved action.
-/

namespace AiMemory

open Relational

inductive ApproveOutcome where
  | rejected (reason : String)
  | pending (votes quorum : ℕ)
  | approved
  deriving DecidableEq

def PendingAction.toRow (pa : PendingAction) : PendingRow :=
  { pa with defaultTimeoutSeconds := none, expiredAt := none }

def toAsciiLowercase (s : String) : String := String.ofList (s.toList.map Char.toLower)

namespace Db

/-- `UPDATE pending_actions .. WHERE id = ? AND status = 'pending'`. -/
def updatePending (db : Db) (id : String) (f : PendingRow → PendingRow) (hf : ∀ r, (f r).id = r.id) : Db :=
  { db with
    pending := db.pending.modify id (fun r => if r.status = "pending" then f r else r)
      (by intro r; split_ifs <;> simp [hf]) }

def getPendingAction (db : Db) (id : String) : Option PendingAction :=
  (db.pending.find id).map fun r => r.toPendingAction

/-- `queue_pending_action`: the id of the new row. -/
def queuePendingAction (db : Db) (action : GovernedAction) (ns : String) (memoryId : Option String)
    (requestedBy : String) (payload : Json) (newId now : String) : Except String (Db × String) :=
  let row := PendingAction.toRow {
    id := newId, actionType := action.asStr, memoryId, ns, payload, requestedBy, requestedAt := now,
    status := "pending", decidedBy := none, decidedAt := none, approvals := [] }
  match db.pending.insertNew? row with
  | some t => .ok ({ db with pending := t }, newId)
  | none => .error "UNIQUE constraint failed: pending_actions.id"

def upsertPendingAction (db : Db) (pa : PendingAction) : Db :=
  { db with
    pending := db.pending.upsert pa.toRow (fun r => { r with toPendingAction := { pa with id := r.id } })
      (fun _ => rfl) }

/-- `decide_pending_action`: whether the status changed. -/
def decidePendingAction (db : Db) (id : String) (approve : Bool) (decidedBy now : String) : Db × Bool :=
  (db.updatePending id (fun r => { r with
      status := if approve then "approved" else "rejected"
      decidedBy := some decidedBy
      decidedAt := some now }) (fun _ => rfl),
    (db.pending.find id).any fun r => r.status = "pending")

def addVote (db : Db) (id : String) (vote : Approval) : Db :=
  db.updatePending id (fun r => { r with approvals := r.approvals ++ [vote] }) (fun _ => rfl)

def approveBy (db : Db) (id approver now failure : String) : Db × ApproveOutcome :=
  let (db, ok) := db.decidePendingAction id true approver now
  (db, if ok then .approved else .rejected failure)

def approveWithApproverType (db : Db) (pendingId approverAgentId approvedAt now : String) :
    Db × ApproveOutcome :=
  match db.getPendingAction pendingId with
  | none => (db, .rejected s!"pending action not found: {pendingId}")
  | some pa =>
    let status := pa.status
    if status ≠ "pending" then (db, .rejected s!"already decided: status={status}")
    else
      match ((db.resolveGovernancePolicy pa.ns).map (·.approver)).getD .human with
      | .human => db.approveBy pendingId approverAgentId now "decision write failed"
      | .agent required =>
        if approverAgentId ≠ required then
          (db, .rejected s!"designated approver is '{required}'; got '{approverAgentId}'")
        else db.approveBy pendingId approverAgentId now "decision write failed"
      | .consensus quorum =>
        if !db.isRegisteredAgent approverAgentId then
          (db, .rejected s!"consensus voter '{approverAgentId}' is not a registered agent")
        else
          let canonicalId := toAsciiLowercase approverAgentId
          if pa.approvals.any fun a => toAsciiLowercase a.agentId = toAsciiLowercase canonicalId then
            (db, .pending pa.approvals.length quorum)
          else
            let db := db.addVote pendingId ⟨canonicalId, approvedAt⟩
            let votes := pa.approvals.length + 1
            if quorum ≤ min votes (2 ^ 32 - 1) then
              db.approveBy pendingId canonicalId now "decision write failed at consensus threshold"
            else (db, .pending votes quorum)

/-- The age of a request in seconds, as SQLite's `julianday` gives it at the time of the sweep; no
age for a text that is not a date. -/
abbrev AgeSecs := String → Option ℚ

def isOverdue (globalDefaultSecs : ℤ) (age : AgeSecs) (r : PendingRow) : Bool :=
  r.status = "pending" &&
    (age r.requestedAt).any fun a => ((r.defaultTimeoutSeconds.getD globalDefaultSecs : ℤ) : ℚ) < a

/-- `sweep_pending_action_timeouts`: the ids and namespaces of the rows that expired. -/
def sweepPendingActionTimeouts (db : Db) (globalDefaultSecs : ℤ) (age : AgeSecs) (now : String) :
    Db × List (String × String) :=
  if globalDefaultSecs ≤ 0 then (db, [])
  else
    let rows := (db.pending.rows.filter (isOverdue globalDefaultSecs age)).map fun r => (r.id, r.ns)
    (rows.foldl (fun db row => db.updatePending row.1
      (fun r => { r with status := "expired", expiredAt := some now }) (fun _ => rfl)) db, rows)

/-- What `execute_pending_action` reads from outside: `serde_json::from_value::<Memory>`, the clock and
a fresh id. -/
structure Execution where
  memoryFromValue : Json → Except String Memory
  newId : String
  now : String

/-- `execute_pending_action`: the affected memory. -/
def executePendingAction (db : Db) (x : Execution) (pendingId : String) :
    Except String (Db × Option String) :=
  match db.getPendingAction pendingId with
  | none => .error s!"pending action not found: {pendingId}"
  | some pa =>
    let status := pa.status
    if status ≠ "approved" then .error s!"cannot execute non-approved action (status={status})"
    else
      match pa.actionType with
      | "store" =>
        match x.memoryFromValue pa.payload with
        | .error e => .error s!"invalid store payload: {e}"
        | .ok mem =>
          match db.insert { mem with
            id := x.newId, createdAt := x.now, updatedAt := x.now, accessCount := 0 } with
          | .error e => .error e
          | .ok (db, actualId) => .ok (db, some actualId)
      | "delete" =>
        match pa.memoryId with
        | some mid => .ok ((db.delete mid).1, some mid)
        | none => .ok (db, none)
      | "promote" =>
        match pa.memoryId with
        | none => .ok (db, none)
        | some mid =>
          match (pa.payload.get "to_namespace").bind Json.asStr with
          | some toNs =>
            match db.promoteToNamespace mid toNs x.newId x.now with
            | .error e => .error e
            | .ok (db, cloneId) => .ok (db, some cloneId)
          | none =>
            match db.update mid { tier := some .long, expiresAt := some "" } x.now with
            | .error e => .error e
            | .ok (db, _) => .ok (db, some mid)
      | other => .error s!"unknown action_type: {other}"

/-! ## Frames -/

section Pending

variable {db : Db}

variable {id : String} {f : PendingRow → PendingRow}

theorem find_updatePending {hf : ∀ r, (f r).id = r.id}
    (i : String) : (db.updatePending id f hf).pending.find i =
      (db.pending.find i).map fun r => if i = id ∧ r.status = "pending" then f r else r := by
  unfold updatePending
  rw [Table.find_modify]
  congr 1
  funext r
  by_cases hi : i = id <;> simp [hi]

theorem find_updatePending_of_ne {id i : String} {hf : ∀ r, (f r).id = r.id}
    (hne : i ≠ id) : (db.updatePending id f hf).pending.find i = db.pending.find i := by
  rw [find_updatePending]
  simp only [hne, false_and, if_false, Option.map_id']

theorem approve_keeps {P : Db → Prop} {id agentId approvedAt now : String}
    (hvote : ∀ db vote, P db → P (db.addVote id vote))
    (hdecide : ∀ db approver, P db → P (db.decidePendingAction id true approver now).1) (h : P db) :
    P (db.approveWithApproverType id agentId approvedAt now).1 := by
  unfold approveWithApproverType
  cases db.getPendingAction id with
  | none => exact h
  | some pa =>
    simp only
    by_cases hst : pa.status ≠ "pending"
    · rw [if_pos hst]
      exact h
    · rw [if_neg hst]
      cases ((db.resolveGovernancePolicy pa.ns).map (·.approver)).getD .human with
      | human => exact hdecide _ _ h
      | agent required =>
        simp only
        split_ifs
        · exact h
        · exact hdecide _ _ h
      | consensus quorum =>
        simp only
        split_ifs
        · exact h
        · exact h
        · exact hdecide _ _ (hvote _ _ h)
        · exact hvote _ _ h

theorem find_approve_of_ne {id i agentId approvedAt now : String} (hne : i ≠ id) :
    (db.approveWithApproverType id agentId approvedAt now).1.pending.find i = db.pending.find i := by
  refine approve_keeps (P := fun d => d.pending.find i = db.pending.find i) (fun d vote hd => ?_)
    (fun d approver hd => ?_) rfl
  · unfold addVote
    rw [find_updatePending_of_ne hne, hd]
  · unfold decidePendingAction
    rw [find_updatePending_of_ne hne, hd]

theorem updatePending_eq_self (hf : ∀ r, (f r).id = r.id)
    (h : (db.pending.find id).any (fun r => r.status = "pending") = false) :
    db.updatePending id f hf = db := by
  have hrows : (db.pending.rows.map fun r =>
      if r.id = id then (if r.status = "pending" then f r else r) else r) = db.pending.rows := by
    refine (List.map_congr_left fun r hr => ?_).trans (List.map_id _)
    split_ifs with hid hst
    · have hfind : db.pending.find id = some r := Table.find_eq_some.mpr ⟨hr, hid⟩
      rw [hfind] at h
      simp [hst] at h
    · rfl
    · rfl
  have htable : (db.updatePending id f hf).pending = db.pending := Table.ext hrows
  show { db with pending := (db.updatePending id f hf).pending } = db
  rw [htable]

theorem decidePendingAction_eq_self {id decidedBy now : String} {approve : Bool}
    (h : (db.decidePendingAction id approve decidedBy now).2 = false) :
    (db.decidePendingAction id approve decidedBy now).1 = db := by
  unfold decidePendingAction at h ⊢
  refine updatePending_eq_self ?_ h
  exact fun _ => rfl

variable {pa : PendingAction}

theorem find_upsertPendingAction (i : String) :
    (db.upsertPendingAction pa).pending.find i =
      if i = pa.id then
        some (((db.pending.find i).map fun r => { r with toPendingAction := pa }).getD pa.toRow)
      else db.pending.find i := by
  unfold upsertPendingAction
  rw [Table.find_upsert]
  by_cases hi : i = pa.id
  · rw [if_pos (show i = pa.toRow.id from hi), if_pos hi]
    cases hr : db.pending.find i with
    | none => rfl
    | some r =>
      have hid : r.id = pa.id := (Table.find_key hr).trans hi
      simp [hid]
  · rw [if_neg (show ¬i = pa.toRow.id from hi), if_neg hi]

variable {x : Execution} {res : Option String}

/-- What an executed action can do, by the row of the action. -/
theorem executePendingAction_spec {db' : Db}
    (h : db.executePendingAction x id = .ok (db', res)) :
    ∃ pa, db.getPendingAction id = some pa ∧ pa.status = "approved" ∧
      ((pa.actionType = "store" ∧ ∃ mem actualId, x.memoryFromValue pa.payload = .ok mem ∧ res = some actualId ∧
        db.insert { mem with id := x.newId, createdAt := x.now, updatedAt := x.now, accessCount := 0 } =
          .ok (db', actualId)) ∨
      (pa.actionType = "delete" ∧ ∃ mid, pa.memoryId = some mid ∧ db' = (db.delete mid).1) ∨
      (pa.actionType = "promote" ∧ ∃ mid toNs cloneId, pa.memoryId = some mid ∧
        (pa.payload.get "to_namespace").bind Json.asStr = some toNs ∧
        db.promoteToNamespace mid toNs x.newId x.now = .ok (db', cloneId)) ∨
      (pa.actionType = "promote" ∧ ∃ mid res, pa.memoryId = some mid ∧
        (pa.payload.get "to_namespace").bind Json.asStr = none ∧ db.update mid { tier := some .long, expiresAt := some "" } x.now = .ok (db', res)) ∨
      (pa.actionType ≠ "store" ∧ db' = db)) := by
  unfold executePendingAction at h
  cases hpa : db.getPendingAction id with
  | none => rw [hpa] at h; cases h
  | some pa =>
    rw [hpa] at h
    simp only at h
    by_cases hst : pa.status ≠ "approved"
    · rw [if_pos hst] at h
      cases h
    rw [if_neg hst] at h
    refine ⟨pa, rfl, not_not.mp hst, ?_⟩
    split at h
    · rename_i hkind
      split at h
      · cases h
      · rename_i hmem
        split at h
        · cases h
        · rename_i hi
          cases h
          exact Or.inl ⟨hkind, _, _, hmem, rfl, hi⟩
    · rename_i hkind
      split at h
      · rename_i hmid
        cases h
        exact Or.inr (Or.inl ⟨hkind, _, hmid, rfl⟩)
      · cases h
        exact Or.inr (Or.inr (Or.inr (Or.inr ⟨by rw [hkind]; decide, rfl⟩)))
    · rename_i hkind
      split at h
      · cases h
        exact Or.inr (Or.inr (Or.inr (Or.inr ⟨by rw [hkind]; decide, rfl⟩)))
      · rename_i hmid
        split at h
        · rename_i hns
          split at h
          · cases h
          · rename_i hp
            cases h
            exact Or.inr (Or.inr (Or.inl ⟨hkind, _, _, _, hmid, hns, hp⟩))
        · rename_i hnone
          split at h
          · cases h
          · rename_i hu
            cases h
            exact Or.inr (Or.inr (Or.inr (Or.inl ⟨hkind, _, _, hmid, hnone, hu⟩)))
    · cases h

/-- What an executed action can do: an upsert, a deletion, a clone into another namespace, or an
update. -/
theorem executePendingAction_cases {db' : Db}
    (h : db.executePendingAction x id = .ok (db', res)) :
    (∃ mem actualId, mem.id = x.newId ∧ db.insert mem = .ok (db', actualId)) ∨
    (∃ mid, db' = (db.delete mid).1) ∨
    (∃ mid toNs cloneId, db.promoteToNamespace mid toNs x.newId x.now = .ok (db', cloneId)) ∨
    (∃ mid res, db.update mid { tier := some .long, expiresAt := some "" } x.now = .ok (db', res)) ∨
    db' = db := by
  obtain ⟨pa, -, -, ⟨-, mem, actualId, -, -, hi⟩ | ⟨-, mid, -, hdel⟩ | ⟨-, mid, toNs, cloneId, -, -, hp⟩ |
    ⟨-, mid, res, -, -, hu⟩ | ⟨-, hsame⟩⟩ := executePendingAction_spec h
  · exact Or.inl ⟨_, actualId, rfl, hi⟩
  · exact Or.inr (Or.inl ⟨mid, hdel⟩)
  · exact Or.inr (Or.inr (Or.inl ⟨mid, toNs, cloneId, hp⟩))
  · exact Or.inr (Or.inr (Or.inr (Or.inl ⟨mid, res, hu⟩)))
  · exact Or.inr (Or.inr (Or.inr (Or.inr hsame)))

theorem executePendingAction_store {db' : Db}
    (hpa : db.getPendingAction id = some pa) (hkind : pa.actionType = "store")
    (h : db.executePendingAction x id = .ok (db', res)) : pa.status = "approved" ∧ ∃ mem actualId,
      x.memoryFromValue pa.payload = .ok mem ∧ res = some actualId ∧
      db.insert { mem with id := x.newId, createdAt := x.now, updatedAt := x.now, accessCount := 0 } =
        .ok (db', actualId) := by
  obtain ⟨pa', hpa', hst, hcases⟩ := executePendingAction_spec h
  cases hpa.symm.trans hpa'
  rcases hcases with ⟨-, hstore⟩ | ⟨hother, -⟩ | ⟨hother, -⟩ | ⟨hother, -⟩ | ⟨hother, -⟩
  · exact ⟨hst, hstore⟩
  · exact absurd (hkind.symm.trans hother) (by decide)
  · exact absurd (hkind.symm.trans hother) (by decide)
  · exact absurd (hkind.symm.trans hother) (by decide)
  · exact absurd hkind hother

/-- The queued write can be performed: a payload that is a memory, a deletion, or a promotion that names no
namespace or a proper ancestor of the namespace of a live memory. -/
def CanExecute (memoryFromValue : Json → Except String Memory) (db : Db) (pa : PendingAction) : Prop :=
  match pa.actionType with
  | "store" => ∃ mem, memoryFromValue pa.payload = .ok mem
  | "delete" => True
  | "promote" => ∀ mid toNs, pa.memoryId = some mid →
      (pa.payload.get "to_namespace").bind Json.asStr = some toNs → toNs ≠ "" ∧
        ∃ source, db.get mid = some source ∧ toNs ≠ source.ns ∧ toNs ∈ namespaceAncestors source.ns
  | _ => False

theorem canExecute_congr {memoryFromValue : Json → Except String Memory} {db db' : Db}
    (hmem : db'.memories = db.memories) :
    CanExecute memoryFromValue db' pa ↔ CanExecute memoryFromValue db pa := by
  unfold CanExecute get
  rw [hmem]

theorem update_promote_isOk (id now : String) :
    ∃ res, db.update id { tier := some .long, expiresAt := some "" } now = .ok res := by
  cases hg : db.get id with
  | none =>
    unfold update
    rw [hg]
    exact ⟨_, rfl⟩
  | some existing =>
    obtain ⟨hmem, rfl⟩ := get_eq_some.mp hg
    have hfree : ¬db.Collides existing { tier := some .long, expiresAt := some "" } := by
      rintro ⟨r, hr, hne, hkey⟩
      rw [Indexed.eq_of_uk hr hmem (show r.key = existing.key from hkey)] at hne
      exact hne rfl
    obtain ⟨db', changed, hu⟩ := (update_isOk_iff now hg).mpr hfree
    exact ⟨_, hu⟩

/-- `execute_pending_action` performs an approved write exactly when it can be performed. -/
theorem executePendingAction_isOk_iff
    (hpa : db.getPendingAction id = some pa) (hst : pa.status = "approved") (hget : db.get x.newId = none) :
    (∃ res, db.executePendingAction x id = .ok res) ↔ CanExecute x.memoryFromValue db pa := by
  unfold executePendingAction CanExecute
  simp only [hpa, ne_eq, hst, not_true_eq_false, if_false]
  split
  · cases hm : x.memoryFromValue pa.payload with
    | error e => simp
    | ok mem =>
      have hnew : db.get { mem with
        id := x.newId, createdAt := x.now, updatedAt := x.now, accessCount := 0 }.id = none := hget
      obtain ⟨db', actualId, hi⟩ := insert_isOk hnew
      simp only [hi]
      exact iff_of_true ⟨_, rfl⟩ ⟨mem, rfl⟩
  · cases pa.memoryId <;> exact iff_of_true ⟨_, rfl⟩ trivial
  · cases pa.memoryId with
    | none => exact iff_of_true ⟨_, rfl⟩ fun mid toNs h => nomatch h
    | some mid =>
      cases hto : (pa.payload.get "to_namespace").bind Json.asStr with
      | some toNs =>
        have hiff := promoteToNamespace_isOk_iff hget mid toNs x.now
        have hnamed : (∀ mid' toNs', some mid = some mid' → some toNs = some toNs' → toNs' ≠ "" ∧
            ∃ source, db.get mid' = some source ∧ toNs' ≠ source.ns ∧ toNs' ∈ namespaceAncestors source.ns) ↔
            ∃ res, db.promoteToNamespace mid toNs x.newId x.now = .ok res := by
          rw [hiff]
          exact ⟨fun h => h mid toNs rfl rfl, fun h _ _ hm ht => Option.some.inj hm ▸ Option.some.inj ht ▸ h⟩
        rw [hnamed]
        simp only
        cases db.promoteToNamespace mid toNs x.newId x.now with
        | error e => simp
        | ok res => exact iff_of_true ⟨_, rfl⟩ ⟨_, rfl⟩
      | none =>
        obtain ⟨res, hu⟩ : ∃ res, db.update mid { tier := some .long, expiresAt := some "" } x.now = .ok res :=
          update_promote_isOk mid x.now
        simp only [hu]
        exact iff_of_true ⟨_, rfl⟩ fun mid toNs _ h => nomatch h
  · simp

end Pending

end Db

end AiMemory
