import AiMemory.Db.Decided

/-!
# Votes of concurrent approvals

`approve_with_approver_type` runs without a transaction: it reads the row, looks up the policy and the approver,
writes the whole list of approvals and then decides. Here the calls of any number of approvers take one statement
at a time, in any order, while other writers change the policies and the registered agents.

The list a call writes is the one it read with its own vote, so a vote that was written in between is lost.
`sound_of_meets` says that no vote is lost, and that an approval has its quorum, as long as each list is written
over the one that was read.
-/

namespace AiMemory

open Relational

/-- `UPDATE pending_actions SET approvals = ? WHERE id = ? AND status = 'pending'`. -/
def Db.writeApprovals (db : Db) (id : String) (approvals : List Approval) : Db :=
  db.updatePending id (fun r => { r with approvals }) (fun _ => rfl)

namespace Votes

/-- Where a call stands: before its next statement, or done. -/
inductive Pc where
  | read
  | policy (pa : PendingAction)
  | register (pa : PendingAction) (quorum : ℕ)
  | write (pa : PendingAction) (quorum : ℕ)
  | decide (approver failure : String)
  | done (outcome : ApproveOutcome)
  deriving DecidableEq

def notRegistered (agent : String) : ApproveOutcome :=
  .rejected s!"consensus voter '{agent}' is not a registered agent"

/-- The next statement of `approve_with_approver_type`, up to the one after it. The lookups along the namespace
chain are one statement here. -/
def advance (pendingId approverAgentId approvedAt now : String) (db : Db) : Pc → Db × Pc
  | .read =>
    match db.getPendingAction pendingId with
    | none => (db, .done (.rejected s!"pending action not found: {pendingId}"))
    | some pa =>
      let status := pa.status
      if status ≠ "pending" then (db, .done (.rejected s!"already decided: status={status}"))
      else (db, .policy pa)
  | .policy pa =>
    match ((db.resolveGovernancePolicy pa.ns).map (·.approver)).getD .human with
    | .human => (db, .decide approverAgentId "decision write failed")
    | .agent required =>
      if approverAgentId ≠ required then
        (db, .done (.rejected s!"designated approver is '{required}'; got '{approverAgentId}'"))
      else (db, .decide approverAgentId "decision write failed")
    | .consensus quorum => (db, .register pa quorum)
  | .register pa quorum =>
    if !db.isRegisteredAgent approverAgentId then (db, .done (notRegistered approverAgentId))
    else
      let canonicalId := toAsciiLowercase approverAgentId
      if pa.approvals.any fun a => toAsciiLowercase a.agentId = toAsciiLowercase canonicalId then
        (db, .done (.pending pa.approvals.length quorum))
      else (db, .write pa quorum)
  | .write pa quorum =>
    let canonicalId := toAsciiLowercase approverAgentId
    let approvals := pa.approvals ++ [⟨canonicalId, approvedAt⟩]
    let db := db.writeApprovals pendingId approvals
    let votes := approvals.length
    if quorum ≤ min votes (2 ^ 32 - 1) then
      (db, .decide canonicalId "decision write failed at consensus threshold")
    else (db, .done (.pending votes quorum))
  | .decide approver failure =>
    let (db, ok) := db.decidePendingAction pendingId true approver now
    (db, .done (if ok then .approved else .rejected failure))
  | .done outcome => (db, .done outcome)

section Alone

variable {db : Db} {id : String}

theorem writeApprovals_eq_addVote {pa : PendingAction} {vote : Approval} (hpa : db.getPendingAction id = some pa) :
    db.writeApprovals id (pa.approvals ++ [vote]) = db.addVote id vote := by
  obtain ⟨r, hr, rfl⟩ := Option.map_eq_some_iff.mp hpa
  have htable : (db.writeApprovals id (r.approvals ++ [vote])).pending = (db.addVote id vote).pending := by
    refine Table.ext (List.map_congr_left fun x hx => ?_)
    by_cases hid : x.id = id
    · have hxr : x = r := Option.some.inj ((Table.find_eq_some.mpr ⟨hx, hid⟩).symm.trans hr)
      rw [hxr]
    · rw [if_neg hid, if_neg hid]
  show { db with pending := (db.writeApprovals id (r.approvals ++ [vote])).pending } = _
  rw [htable]
  rfl

/-- A call whose statements run without interruption is `approve_with_approver_type`. -/
theorem advance_alone (agent approvedAt now : String) :
    (fun p : Db × Pc => advance id agent approvedAt now p.1 p.2)^[5] (db, .read) =
      ((db.approveWithApproverType id agent approvedAt now).1,
        .done (db.approveWithApproverType id agent approvedAt now).2) := by
  simp only [Function.iterate_succ, Function.comp, Function.iterate_zero, id_eq]
  unfold Db.approveWithApproverType
  cases hpa : db.getPendingAction id with
  | none => simp [advance, hpa]
  | some pa =>
    by_cases hst : pa.status ≠ "pending"
    · simp [advance, hpa, hst]
    · cases hap : ((db.resolveGovernancePolicy pa.ns).map (·.approver)).getD .human with
      | human => simp [advance, hpa, hst, hap, Db.approveBy]
      | agent required =>
        by_cases hreq : agent ≠ required <;> simp [advance, hpa, hst, hap, hreq, Db.approveBy]
      | consensus quorum =>
        have hwrite := fun vote => @writeApprovals_eq_addVote db id pa vote hpa
        by_cases hreg : db.isRegisteredAgent agent = true
        · by_cases hdup : (pa.approvals.any fun a =>
            toAsciiLowercase a.agentId = toAsciiLowercase (toAsciiLowercase agent)) = true
          · simp [advance, hpa, hst, hap, hreg, hdup]
          · by_cases hq : quorum ≤ pa.approvals.length + 1 ∧ quorum ≤ 4294967295
            · simp [advance, hpa, hst, hap, hreg, hdup, hq, hwrite, Db.approveBy]
            · simp [advance, hpa, hst, hap, hreg, hdup, hq, hwrite]
        · simp [advance, hpa, hst, hap, hreg, notRegistered]

end Alone

/-! ## Any number of calls -/

/-- The database, where each call stands, and the agents that passed the registration check so far. -/
structure State where
  db : Db
  calls : ℕ → Pc := fun _ => .read
  registered : List String := []

/-- The next statement of a call, or a write of something else than pending actions. -/
inductive Op where
  | advance (call : ℕ) (approvedAt now : String)
  | other (db : Db)

def Pc.checks : Pc → Bool
  | .register _ _ => true
  | _ => false

/-- One statement. Call `k` is made by `agent k`. -/
def step (id : String) (agent : ℕ → String) (s : State) : Op → State
  | .advance k approvedAt now =>
    let (db, pc) := advance id (agent k) approvedAt now s.db (s.calls k)
    { db
      calls := Function.update s.calls k pc
      registered :=
        if (s.calls k).checks && s.db.isRegisteredAgent (agent k) then s.registered ++ [agent k]
        else s.registered }
  | .other db => { s with db := { db with pending := s.db.pending } }

/-- The row as it was read by a call that is about to write, and the quorum it looked up. -/
def Pc.writes : Pc → Option (PendingAction × ℕ)
  | .write pa quorum => some (pa, quorum)
  | _ => none

/-- A list of approvals is written over the one that was read, or the action is decided and the vote completes the
quorum, so that the call goes on to a refusal. -/
def OpOk (id : String) (s : State) : Op → Prop
  | .advance k _ _ => ∀ w ∈ (s.calls k).writes, ∀ pa ∈ s.db.getPendingAction id,
      if pa.status = "pending" then pa.approvals = w.1.approvals
      else w.2 ≤ min (w.1.approvals.length + 1) (2 ^ 32 - 1)
  | .other _ => True

instance (id : String) (s : State) : ∀ op, Decidable (OpOk id s op)
  | .advance k _ _ => inferInstanceAs (Decidable (∀ w ∈ (s.calls k).writes, ∀ pa ∈ s.db.getPendingAction id,
      if pa.status = "pending" then pa.approvals = w.1.approvals
      else w.2 ≤ min (w.1.approvals.length + 1) (2 ^ 32 - 1)))
  | .other _ => isTrue trivial

/-- The policy of the action's namespace asks for `q` votes. -/
def Governed (id : String) (q : ℕ) (db : Db) : Prop :=
  ∀ pa ∈ db.getPendingAction id, (db.resolveGovernancePolicy pa.ns).map (·.approver) = some (.consensus q)

instance (id : String) (q : ℕ) (db : Db) : Decidable (Governed id q db) :=
  inferInstanceAs (Decidable (∀ pa ∈ db.getPendingAction id,
    (db.resolveGovernancePolicy pa.ns).map (·.approver) = some (.consensus q)))

/-- A vote of the agent is among the approvals, in upper or lower case. -/
def VotedIn (approvals : List Approval) (agent : String) : Prop :=
  ∃ a ∈ approvals, toAsciiLowercase a.agentId = toAsciiLowercase agent

/-- The call counted the vote of its agent. -/
def Pc.Counted (pc : Pc) : Prop := pc = .done .approved ∨ ∃ votes quorum, pc = .done (.pending votes quorum)

/-- The call has not begun or has returned. -/
def Pc.Idle (pc : Pc) : Prop := pc = .read ∨ ∃ outcome, pc = .done outcome

/-- An approval has its quorum of registered voters, a counted vote is among the approvals, and the votes of a
quorum of voters that were not refused as unregistered approve the action. -/
structure Sound (id : String) (agent : ℕ → String) (q : ℕ) (s : State) : Prop where
  approved : ∀ pa, s.db.getPendingAction id = some pa → pa.status = "approved" → q ≤ pa.approvals.length ∧
    (pa.approvals.Pairwise fun a b => toAsciiLowercase a.agentId ≠ toAsciiLowercase b.agentId) ∧
      ∀ a ∈ pa.approvals, ∃ v ∈ s.registered, toAsciiLowercase a.agentId = toAsciiLowercase v
  counted : ∀ k, (s.calls k).Counted → ∃ pa, s.db.getPendingAction id = some pa ∧ VotedIn pa.approvals (agent k)
  suffice : ∀ voters : List ℕ, voters ≠ [] → q ≤ voters.length →
    (voters.map fun k => toAsciiLowercase (agent k)).Nodup →
      (∀ k ∈ voters, ∃ outcome, s.calls k = .done outcome ∧ outcome ≠ notRegistered (agent k)) →
        (∀ k, (s.calls k).Idle) → ∃ pa, s.db.getPendingAction id = some pa ∧ pa.status = "approved"

/-! ## What a call knows -/

/-- The row as it was read is an earlier one. -/
def Snapshot (pa : PendingAction) (r : PendingRow) : Prop := pa.ns = r.ns ∧ pa.approvals <+: r.approvals

/-- What a call of `agent` knows about the row. -/
def Knows (q : ℕ) (registered : List String) (r : PendingRow) (agent : String) : Pc → Prop
  | .read => True
  | .policy pa => Snapshot pa r
  | .register pa quorum => Snapshot pa r ∧ quorum = q
  | .write pa quorum => Snapshot pa r ∧ quorum = q ∧ agent ∈ registered ∧ ¬VotedIn pa.approvals agent
  | .decide _ _ => r.status = "pending" → q ≤ r.approvals.length ∧ VotedIn r.approvals agent
  | .done (.rejected reason) => .rejected reason = notRegistered agent ∨ r.status ≠ "pending"
  | .done _ => VotedIn r.approvals agent

/-- A row with more votes, that is pending only if the other is. -/
structure Grows (r r' : PendingRow) : Prop where
  ns : r'.ns = r.ns
  approvals : r.approvals <+: r'.approvals
  status : r'.status = "pending" → r.status = "pending"

section Knows

variable {q : ℕ} {registered registered' : List String} {r r' : PendingRow} {agent : String} {pc : Pc}
  {approvals approvals' : List Approval}

theorem Grows.refl (r : PendingRow) : Grows r r := ⟨rfl, List.prefix_rfl, id⟩

theorem VotedIn.mono (hv : VotedIn approvals agent) (hp : approvals <+: approvals') : VotedIn approvals' agent := by
  obtain ⟨a, ha, he⟩ := hv
  exact ⟨a, hp.subset ha, he⟩

theorem Knows.mono (hk : Knows q registered r agent pc) (hg : Grows r r') (hreg : registered ⊆ registered') :
    Knows q registered' r' agent pc := by
  have hsnap : ∀ {pa}, Snapshot pa r → Snapshot pa r' := fun h => ⟨h.1.trans hg.ns.symm, h.2.trans hg.approvals⟩
  cases pc with
  | read => trivial
  | policy pa => exact hsnap hk
  | register pa quorum => exact ⟨hsnap hk.1, hk.2⟩
  | write pa quorum => exact ⟨hsnap hk.1, hk.2.1, hreg hk.2.2.1, hk.2.2.2⟩
  | decide approver failure =>
    intro hst
    obtain ⟨hq, hv⟩ := hk (hg.status hst)
    exact ⟨hq.trans hg.approvals.length_le, hv.mono hg.approvals⟩
  | done outcome =>
    cases outcome with
    | rejected reason => exact hk.imp_right (mt hg.status)
    | pending votes quorum => exact VotedIn.mono hk hg.approvals
    | approved => exact VotedIn.mono hk hg.approvals

end Knows

/-- The invariant of a run, about the row of the action. -/
structure Inv (id : String) (agent : ℕ → String) (q : ℕ) (s : State) (r : PendingRow) : Prop where
  row : s.db.pending.find id = some r
  status : r.status = "pending" ∨ r.status = "approved"
  distinct : r.approvals.Pairwise fun a b => toAsciiLowercase a.agentId ≠ toAsciiLowercase b.agentId
  registered : ∀ a ∈ r.approvals, ∃ v ∈ s.registered, toAsciiLowercase a.agentId = toAsciiLowercase v
  approved : r.status = "approved" → q ≤ r.approvals.length
  pending : r.status = "pending" → r.approvals ≠ [] → q ≤ r.approvals.length →
    ∃ k approver failure, s.calls k = .decide approver failure
  calls : ∀ k, Knows q s.registered r (agent k) (s.calls k)

section Run

variable {id : String} {agent : ℕ → String} {q : ℕ} {s : State} {r r' : PendingRow} {k : ℕ} {pc : Pc}
  {registered : List String} {approvedAt now : String}

theorem toLower_toLower (c : Char) : c.toLower.toLower = c.toLower := by
  unfold Char.toLower
  split_ifs <;> grind

theorem toAsciiLowercase_idem (x : String) : toAsciiLowercase (toAsciiLowercase x) = toAsciiLowercase x := by
  unfold toAsciiLowercase
  rw [String.toList_ofList, List.map_map]
  exact congrArg String.ofList (List.map_congr_left fun c _ => toLower_toLower c)

theorem step_advance (hpc : s.calls k = pc) : step id agent s (.advance k approvedAt now) =
    ⟨(advance id (agent k) approvedAt now s.db pc).1,
      Function.update s.calls k (advance id (agent k) approvedAt now s.db pc).2,
      if pc.checks && s.db.isRegisteredAgent (agent k) then s.registered ++ [agent k] else s.registered⟩ := by
  rw [← hpc]
  rfl

theorem Inv.knows_update (hs : Inv id agent q s r) (hg : Grows r r') (hreg : s.registered ⊆ registered)
    (hk : Knows q registered r' (agent k) pc) (j : ℕ) :
    Knows q registered r' (agent j) (Function.update s.calls k pc j) := by
  by_cases hj : j = k
  · rw [hj, Function.update_self]
    exact hk
  · rw [Function.update_of_ne hj]
    exact (hs.calls j).mono hg hreg

/-- The next statement is the decision. -/
def Pc.Decides : Pc → Prop
  | .decide _ _ => True
  | _ => False

theorem Inv.reads {pc₀ : Pc} (hs : Inv id agent q s r) (hpc : s.calls k = pc₀) (hreg : s.registered ⊆ registered)
    (hk : Knows q registered r (agent k) pc) (hnot : r.status = "pending" → ¬pc₀.Decides) :
    Inv id agent q ⟨s.db, Function.update s.calls k pc, registered⟩ r where
  row := hs.row
  status := hs.status
  distinct := hs.distinct
  registered a ha := by
    obtain ⟨v, hv, he⟩ := hs.registered a ha
    exact ⟨v, hreg hv, he⟩
  approved := hs.approved
  pending hst hne hq := by
    obtain ⟨j, approver, failure, hj⟩ := hs.pending hst hne hq
    have hjk : j ≠ k := by
      rintro rfl
      rw [← hpc, hj] at hnot
      exact hnot hst trivial
    exact ⟨j, approver, failure, (Function.update_of_ne hjk _ _).trans hj⟩
  calls := hs.knows_update (Grows.refl r) hreg hk

theorem Inv.getPendingAction (hs : Inv id agent q s r) : s.db.getPendingAction id = some r.toPendingAction := by
  unfold Db.getPendingAction
  rw [hs.row]
  rfl

theorem Inv.advance_read (hs : Inv id agent q s r) (hpc : s.calls k = .read) :
    Inv id agent q (step id agent s (.advance k approvedAt now)) r := by
  rw [step_advance hpc]
  simp only [advance, hs.getPendingAction]
  by_cases hst : r.status = "pending"
  · rw [if_neg (not_not.mpr hst)]
    exact hs.reads hpc (List.Subset.refl _) ⟨rfl, List.prefix_rfl⟩ fun _ h => h
  · rw [if_pos hst]
    exact hs.reads hpc (List.Subset.refl _) (Or.inr hst) fun _ h => h

variable {pa : PendingAction}

theorem Inv.advance_policy (hs : Inv id agent q s r) (hgov : Governed id q s.db)
    (hpc : s.calls k = .policy pa) : Inv id agent q (step id agent s (.advance k approvedAt now)) r := by
  have hk := hs.calls k
  rw [hpc] at hk
  have hpol : (s.db.resolveGovernancePolicy pa.ns).map (·.approver) = some (.consensus q) := by
    rw [hk.1]
    exact hgov _ hs.getPendingAction
  rw [step_advance hpc]
  simp only [advance, hpol, Option.getD_some]
  exact hs.reads hpc (List.Subset.refl _) ⟨hk, rfl⟩ fun _ h => h

theorem Inv.advance_register (hs : Inv id agent q s r) {quorum : ℕ}
    (hpc : s.calls k = .register pa quorum) : Inv id agent q (step id agent s (.advance k approvedAt now)) r := by
  have hk := hs.calls k
  rw [hpc] at hk
  rw [step_advance hpc]
  unfold advance
  by_cases hreg : s.db.isRegisteredAgent (agent k) = true
  · simp only [Pc.checks, hreg, Bool.not_true, Bool.and_self, if_true, Bool.false_eq_true, if_false]
    have hsub : s.registered ⊆ s.registered ++ [agent k] := List.subset_append_left _ _
    split_ifs with hdup
    · refine hs.reads hpc hsub ?_ fun _ h => h
      obtain ⟨a, ha, he⟩ := List.any_eq_true.mp hdup
      rw [decide_eq_true_eq, toAsciiLowercase_idem] at he
      exact VotedIn.mono ⟨a, ha, he⟩ hk.1.2
    · refine hs.reads hpc hsub ⟨hk.1, hk.2, List.mem_append_right _ (List.mem_singleton.mpr rfl), ?_⟩ fun _ h => h
      rintro ⟨a, ha, he⟩
      refine hdup (List.any_eq_true.mpr ⟨a, ha, ?_⟩)
      rw [decide_eq_true_eq, toAsciiLowercase_idem]
      exact he
  · simp only [hreg, Bool.not_false, Bool.and_false, if_true, Bool.false_eq_true, if_false]
    exact hs.reads hpc (List.Subset.refl _) (Or.inl rfl) fun _ h => h

theorem find_writeApprovals (hrow : s.db.pending.find id = some r) (hst : r.status = "pending")
    (approvals : List Approval) :
    (s.db.writeApprovals id approvals).pending.find id = some { r with approvals } := by
  unfold Db.writeApprovals
  rw [Db.find_updatePending, hrow, Option.map_some, if_pos ⟨rfl, hst⟩]

theorem Inv.votes (hs : Inv id agent q s r) (hst : r.status = "pending") (hagent : agent k ∈ s.registered)
    (hnew : ¬VotedIn r.approvals (agent k))
    (hk : Knows q s.registered { r with approvals := r.approvals ++ [⟨toAsciiLowercase (agent k), approvedAt⟩] }
      (agent k) pc)
    (hlast : q ≤ r.approvals.length + 1 → ∃ approver failure, pc = .decide approver failure) :
    Inv id agent q ⟨s.db.writeApprovals id (r.approvals ++ [⟨toAsciiLowercase (agent k), approvedAt⟩]),
      Function.update s.calls k pc, s.registered⟩
      { r with approvals := r.approvals ++ [⟨toAsciiLowercase (agent k), approvedAt⟩] } where
  row := find_writeApprovals hs.row hst _
  status := Or.inl hst
  distinct := by
    refine List.pairwise_append.mpr ⟨hs.distinct, List.pairwise_singleton _ _, fun a ha b hb he => ?_⟩
    rw [List.mem_singleton.mp hb, toAsciiLowercase_idem] at he
    exact hnew ⟨a, ha, he⟩
  registered a ha := by
    rcases List.mem_append.mp ha with ha | ha
    · exact hs.registered a ha
    · rw [List.mem_singleton.mp ha]
      exact ⟨agent k, hagent, toAsciiLowercase_idem _⟩
  approved happ := by
    rw [show r.status = "approved" from happ] at hst
    exact absurd hst (by decide)
  pending _ _ hq := by
    rw [List.length_append, List.length_singleton] at hq
    obtain ⟨approver, failure, hpc⟩ := hlast hq
    exact ⟨k, approver, failure, (Function.update_self k pc s.calls).trans hpc⟩
  calls := hs.knows_update ⟨rfl, List.prefix_append _ _, fun _ => hst⟩ (List.Subset.refl _) hk

theorem Inv.advance_write (hs : Inv id agent q s r) (hgov : Governed id q s.db) {quorum : ℕ}
    (hpc : s.calls k = .write pa quorum) (hok : OpOk id s (.advance k approvedAt now)) :
    ∃ r', Inv id agent q (step id agent s (.advance k approvedAt now)) r' := by
  have hk := hs.calls k
  rw [hpc] at hk
  obtain ⟨-, rfl, hagent, hnew⟩ := hk
  have hlt := Db.quorum_lt (hgov _ hs.getPendingAction)
  have hwrite := hok (pa, quorum) (by rw [hpc]; exact rfl) _ hs.getPendingAction
  rw [step_advance hpc]
  unfold advance
  simp only [Pc.checks, Bool.false_and, Bool.false_eq_true, if_false, List.length_append, List.length_singleton]
  by_cases hst : r.status = "pending"
  · rw [if_pos hst] at hwrite
    rw [← hwrite] at hnew ⊢
    have hvoted : VotedIn (r.approvals ++ [⟨toAsciiLowercase (agent k), approvedAt⟩]) (agent k) :=
      ⟨_, List.mem_append_right _ (List.mem_singleton.mpr rfl), toAsciiLowercase_idem _⟩
    by_cases hq : quorum ≤ min (r.approvals.length + 1) (2 ^ 32 - 1)
    · rw [if_pos hq]
      refine ⟨_, hs.votes hst hagent hnew (fun _ => ⟨?_, hvoted⟩) fun _ => ⟨_, _, rfl⟩⟩
      rw [List.length_append, List.length_singleton]
      omega
    · rw [if_neg hq]
      exact ⟨_, hs.votes hst hagent hnew hvoted fun hlast => by omega⟩
  · -- the action was decided in between: nothing is written, and the call goes on to be refused
    rw [if_neg hst] at hwrite
    have hsame : s.db.writeApprovals id (pa.approvals ++ [⟨toAsciiLowercase (agent k), approvedAt⟩]) = s.db := by
      unfold Db.writeApprovals
      refine Db.updatePending_eq_self ?_ ?_
      rw [hs.row]
      simpa using hst
    rw [if_pos hwrite, hsame]
    exact ⟨r, hs.reads hpc (List.Subset.refl _) (fun h => absurd h hst) fun h => absurd h hst⟩

theorem Inv.advance_decide (hs : Inv id agent q s r) {approver failure : String}
    (hpc : s.calls k = .decide approver failure) :
    ∃ r', Inv id agent q (step id agent s (.advance k approvedAt now)) r' := by
  have hk := hs.calls k
  rw [hpc] at hk
  have hchanged : (s.db.decidePendingAction id true approver now).2 = decide (r.status = "pending") := by
    show (s.db.pending.find id).any _ = _
    rw [hs.row]
    rfl
  rw [step_advance hpc]
  show ∃ r', Inv id agent q ⟨(s.db.decidePendingAction id true approver now).1, Function.update s.calls k
    (.done (if (s.db.decidePendingAction id true approver now).2 then .approved else .rejected failure)),
    s.registered⟩ r'
  by_cases hst : r.status = "pending"
  · obtain ⟨hq, hvoted⟩ := hk hst
    have hword : ("approved" : String) ≠ "pending" := by decide
    have hg : Grows r { r with status := "approved", decidedBy := some approver, decidedAt := some now } :=
      ⟨rfl, List.prefix_rfl, fun h => absurd h hword⟩
    rw [hchanged, decide_eq_true hst, if_pos rfl]
    refine ⟨{ r with status := "approved", decidedBy := some approver, decidedAt := some now },
      { row := ?_, status := Or.inr rfl, distinct := hs.distinct, registered := hs.registered
        approved := fun _ => hq
        pending := fun h => absurd h hword, calls := hs.knows_update hg (List.Subset.refl _) hvoted }⟩
    show (s.db.decidePendingAction id true approver now).1.pending.find id = _
    unfold Db.decidePendingAction
    rw [Db.find_updatePending, hs.row, Option.map_some, if_pos ⟨rfl, hst⟩]
    rfl
  · rw [hchanged, decide_eq_false hst, if_neg Bool.false_ne_true,
      Db.decidePendingAction_eq_self (hchanged.trans (decide_eq_false hst))]
    exact ⟨r, hs.reads hpc (List.Subset.refl _) (Or.inr hst) fun h => absurd h hst⟩

theorem inv_step (hs : ∃ r, Inv id agent q s r) (hgov : Governed id q s.db) {op : Op} (hok : OpOk id s op) :
    ∃ r, Inv id agent q (step id agent s op) r := by
  obtain ⟨r, hs⟩ := hs
  cases op with
  | other db =>
    exact ⟨r, hs.row, hs.status, hs.distinct, hs.registered, hs.approved, hs.pending, hs.calls⟩
  | advance k approvedAt now =>
    cases hpc : s.calls k with
    | read => exact ⟨r, hs.advance_read hpc⟩
    | policy pa => exact ⟨r, hs.advance_policy hgov hpc⟩
    | register pa quorum => exact ⟨r, hs.advance_register hpc⟩
    | write pa quorum => exact hs.advance_write hgov hpc hok
    | decide approver failure => exact hs.advance_decide hpc
    | done outcome =>
      have hk := hs.calls k
      rw [hpc] at hk
      rw [step_advance hpc]
      exact ⟨r, hs.reads hpc (List.Subset.refl _) hk fun _ h => h⟩

theorem inv_start {db : Db} (hpa : db.getPendingAction id = some pa)
    (hst : pa.status = "pending") (hnone : pa.approvals = []) : ∃ r, Inv id agent q { db } r := by
  obtain ⟨r, hr, rfl⟩ := Option.map_eq_some_iff.mp hpa
  have hword : ("pending" : String) ≠ "approved" := by decide
  refine ⟨r, hr, Or.inl hst, ?_, ?_, fun h => absurd (hst.symm.trans h) hword, fun _ hne => absurd hnone hne,
    fun _ => trivial⟩
  · rw [hnone]
    exact List.Pairwise.nil
  · rw [hnone]
    exact fun a ha => absurd ha List.not_mem_nil

theorem Inv.sound (hs : Inv id agent q s r) : Sound id agent q s where
  approved pa hpa hst := by
    cases hs.getPendingAction.symm.trans hpa
    exact ⟨hs.approved hst, hs.distinct, hs.registered⟩
  counted k hk := by
    refine ⟨_, hs.getPendingAction, ?_⟩
    have hknows := hs.calls k
    obtain hpc | ⟨votes, quorum, hpc⟩ := hk
    · rw [hpc] at hknows
      exact hknows
    · rw [hpc] at hknows
      exact hknows
  suffice voters hne hq hnodup hdone hidle := by
    refine ⟨_, hs.getPendingAction, hs.status.resolve_left fun hst => ?_⟩
    -- were the action pending, every voter would be among its approvals
    have hvoted : ∀ k ∈ voters, VotedIn r.approvals (agent k) := by
      intro k hk
      obtain ⟨outcome, hpc, hout⟩ := hdone k hk
      have hknows := hs.calls k
      rw [hpc] at hknows
      cases outcome with
      | rejected reason => exact absurd hst (hknows.resolve_left hout)
      | pending votes quorum => exact hknows
      | approved => exact hknows
    have hlength : voters.length ≤ r.approvals.length := by
      have hsub : (voters.map fun k => toAsciiLowercase (agent k)) ⊆
          r.approvals.map fun a => toAsciiLowercase a.agentId := by
        intro x hx
        obtain ⟨k, hk, rfl⟩ := List.mem_map.mp hx
        obtain ⟨a, ha, he⟩ := hvoted k hk
        exact List.mem_map.mpr ⟨a, ha, he⟩
      simpa using (hnodup.subperm hsub).length_le
    obtain ⟨k, hk⟩ := List.exists_mem_of_ne_nil voters hne
    obtain ⟨a, ha, -⟩ := hvoted k hk
    obtain ⟨j, approver, failure, hj⟩ := hs.pending hst (List.ne_nil_of_mem ha) (hq.trans hlength)
    rcases hidle j with hpc | ⟨outcome, hpc⟩
    · cases hj.symm.trans hpc
    · cases hj.symm.trans hpc

/-- In every run on a pending action without votes in a namespace that asks for `q` votes, in which each list of
approvals is written over the one that was read, no vote is lost, an approval has its quorum of registered voters,
and a quorum of voters is enough. -/
theorem sound_of_meets (id : String) (agent : ℕ → String) (q : ℕ) (db : Db) (pa : PendingAction)
    (hpa : db.getPendingAction id = some pa) (hst : pa.status = "pending") (hnone : pa.approvals = [])
    (ops : List Op) (hgov : ∀ s ∈ Machine.states (step id agent) { db } ops, Governed id q s.db)
    (hok : Machine.Meets (step id agent) (OpOk id) { db } ops) :
    ∀ s ∈ Machine.states (step id agent) { db } ops, Sound id agent q s := by
  intro s hs
  obtain ⟨r, hr⟩ := Machine.forall_states_of_meets
    (fun s op (hs : ∃ r, Inv id agent q s r) hC => inv_step hs hC.1 hC.2) (inv_start hpa hst hnone)
    (Machine.meets_and hgov hok) s hs
  exact hr.sound

end Run

/-! ## Two votes -/

def entry (id ns title : String) (metadata : Json) : Memory where
  id
  tier := .long
  ns
  title
  content := ""
  tags := []
  priority := 5
  confidence := 1
  source := "system"
  accessCount := 0
  createdAt := "2026-01-01T00:00:00+00:00"
  updatedAt := "2026-01-01T00:00:00+00:00"
  lastAccessedAt := none
  expiresAt := none
  metadata

def standard : Memory :=
  entry "s1" "team" "Rules" (.obj [("governance", .obj [("write", .str "approve"),
    ("approver", .obj [("consensus", .int 2)])])])

def agentEntry (id name : String) : Memory := entry id "_agents" ("agent:" ++ name) (.obj [])

/-- `alice`'s request is pending in `team`, where `alice`, `bob` and `carol` are registered. -/
def requested : Db :=
  { Db.empty with
    memories := ⟨⟨[standard.toRow, (agentEntry "a1" "alice").toRow, (agentEntry "a2" "bob").toRow,
      (agentEntry "a3" "carol").toRow], by decide⟩, by decide⟩
    namespaceMeta := ⟨[⟨"team", "s1", none, "2026-01-01T00:00:00+00:00"⟩], by decide⟩
    pending := ⟨[Decided.request.toRow], by decide⟩ }

def voter : ℕ → String
  | 0 => "alice"
  | 1 => "bob"
  | _ => "carol"

def calls (ks : List ℕ) : List Op :=
  ks.map fun k => .advance k "2026-01-02T00:00:00+00:00" "2026-01-02T00:00:00+00:00"

/-- `bob` votes after `alice`. -/
theorem two_voters_approve :
    let ops := calls [0, 0, 0, 0, 1, 1, 1, 1, 1]
    (ops.foldl (step "p1" voter) { db := requested }).calls 1 = .done .approved ∧
      ∀ s ∈ Machine.states (step "p1" voter) { db := requested } ops, Sound "p1" voter 2 s := by
  intro ops
  exact ⟨by decide,
    sound_of_meets "p1" voter 2 requested Decided.request (by decide) rfl rfl ops (by decide) (by decide)⟩

/-- `alice` and `bob` both read the row before either writes: both calls count a first vote, only `bob`'s is there,
and the action stays pending. When `carol` read the row before the others and writes between `bob`'s vote and his
decision, the action is approved with her vote alone. -/
theorem votes_lost :
    let lost := calls [0, 1, 0, 1, 0, 1, 0, 1]
    let few := calls [2, 0, 0, 0, 0, 2, 2, 1, 1, 1, 1, 2, 1]
    let run := fun ops : List Op => ops.foldl (step "p1" voter) { db := requested }
    ((∀ ops ∈ [lost, few], ∀ s ∈ Machine.states (step "p1" voter) { db := requested } ops,
        Governed "p1" 2 s.db) ∧
      ∀ k < 2, (run lost).calls k = .done (.pending 1 2)) ∧
    (run lost).db.getPendingAction "p1" =
      some { Decided.request with approvals := [⟨"bob", "2026-01-02T00:00:00+00:00"⟩] } ∧
    ¬Sound "p1" voter 2 (run lost) ∧
    (run few).calls 1 = .done .approved ∧
    ((run few).db.getPendingAction "p1").map (fun pa => (pa.status, pa.approvals)) =
      some ("approved", [⟨"carol", "2026-01-02T00:00:00+00:00"⟩]) ∧
    ¬Sound "p1" voter 2 (run few) := by
  intro lost few run
  have hcalls : ∀ k < 2, (run lost).calls k = .done (.pending 1 2) := by decide
  have hbob : (run lost).db.getPendingAction "p1" =
      some { Decided.request with approvals := [⟨"bob", "2026-01-02T00:00:00+00:00"⟩] } := by decide
  have hfew : (run few).calls 1 = .done .approved := by decide
  have hcarol : ((run few).db.getPendingAction "p1").map (fun pa => (pa.status, pa.approvals)) =
      some ("approved", [⟨"carol", "2026-01-02T00:00:00+00:00"⟩]) := by decide
  refine ⟨⟨by decide, hcalls⟩, hbob, fun hs => ?_, hfew, hcarol, fun hs => ?_⟩
  · obtain ⟨pa, hpa, a, ha, he⟩ := hs.counted 0 (Or.inr ⟨1, 2, hcalls 0 (by decide)⟩)
    cases hbob.symm.trans hpa
    rw [List.mem_singleton.mp ha] at he
    revert he
    decide
  · obtain ⟨pa, hpa, heq⟩ := Option.map_eq_some_iff.mp hcarol
    obtain ⟨hst, happ⟩ := Prod.mk.inj heq
    have hq := (hs.approved pa hpa hst).1
    rw [happ] at hq
    revert hq
    decide

end Votes

end AiMemory
