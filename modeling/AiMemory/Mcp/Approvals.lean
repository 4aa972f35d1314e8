import AiMemory.Mcp.Identity

/-!
# Decisions over both transports

A decision is announced on the approval bus and, if it is to be remembered, recorded as a rule. Over MCP this is
done only when the decision took effect. Over HTTP it is also done for an approval that is a vote short of the
quorum; a run without such an approval announces and records nothing else (`effective_iff`), and there the two
transports do the same (`twin_step`).
-/

namespace AiMemory

namespace Mcp

open ApprovalApi Validate

/-- `params[key].as_str()`. -/
def strParam (params : Json) (key : String) : Option String := (params.get key).bind Json.asStr

def parseRememberParam (params : Json) : Remember :=
  match strParam params "remember" with
  | some "session" => .session
  | some "forever" => .forever
  | _ => .once

def recordMcpDecision (s : Server) (now pendingId decidedBy decisionLabel : String) (remember : Remember) : Server :=
  let pa := s.db.getPendingAction pendingId
  { s with
    events := s.events ++ [⟨pendingId, decisionLabel, decidedBy, remember.label,
      (pa.map fun p => p.ns).getD "", (pa.map fun p => p.requestedBy).getD ""⟩]
    rules :=
      if remember = .forever ∨ remember = .session then
        match pa with
        | some snap => recordSyntheticRule s.rules
            ⟨snap.actionType, snap.ns, some snap.requestedBy, decisionLabel, now⟩
        | none => s.rules
      else s.rules }

/-- A string or `null`. -/
def optStr : Option String → Json
  | some s => .str s
  | none => .null

def handlePendingApprove (memoryFromValue : Json → Except String Memory) (p : Process) (t : Tick) (params : Json)
    (mcpClient : Option String) (s : Server) : Server × Except String Json :=
  match strParam params "id" with
  | none => (s, .error "id is required")
  | some id =>
    match validateId id with
    | .error error => (s, .error error)
    | .ok () =>
      match p.resolveAgentId (strParam params "agent_id") mcpClient with
      | .error error => (s, .error error)
      | .ok agentId =>
        let remember := parseRememberParam params
        match s.db.approveWithApproverType id agentId t.now t.now with
        | (db, .approved) =>
          match db.executePendingAction ⟨memoryFromValue, t.newId id, t.now⟩ id with
          | .error error => ({ s with db }, .error error)
          | .ok (db, executed) =>
            (recordMcpDecision { s with db } t.now id agentId "approve" remember,
              .ok (.obj [("approved", .bool true), ("decided_by", .str agentId), ("executed", .bool true),
                ("id", .str id), ("memory_id", optStr executed), ("remember", .str remember.label)]))
        | (db, .pending votes quorum) =>
          ({ s with db }, .ok (.obj [("approved", .bool false), ("id", .str id), ("quorum", .int quorum),
            ("reason", .str "consensus threshold not yet reached"), ("status", .str "pending"),
            ("votes", .int votes)]))
        | (db, .rejected reason) => ({ s with db }, .error s!"approve rejected: {reason}")

def handlePendingReject (p : Process) (t : Tick) (params : Json) (mcpClient : Option String) (s : Server) :
    Server × Except String Json :=
  match strParam params "id" with
  | none => (s, .error "id is required")
  | some id =>
    match validateId id with
    | .error error => (s, .error error)
    | .ok () =>
      match p.resolveAgentId (strParam params "agent_id") mcpClient with
      | .error error => (s, .error error)
      | .ok agentId =>
        let remember := parseRememberParam params
        match s.db.decidePendingAction id false agentId t.now with
        | (db, false) => ({ s with db }, .error s!"pending action not found or already decided: {id}")
        | (db, true) =>
          (recordMcpDecision { s with db } t.now id agentId "deny" remember,
            .ok (.obj [("decided_by", .str agentId), ("id", .str id), ("rejected", .bool true),
              ("remember", .str remember.label)]))

/-! ## Runs -/

/-- A request over one of the transports, or something else that changes the database. -/
inductive Op where
  | http (c : Clock) (req : Request)
  | approve (t : Tick) (params : Json) (mcpClient : Option String)
  | reject (t : Tick) (params : Json) (mcpClient : Option String)
  | other (db : Db)

def step (e : Env) (p : Process) (s : Server) : Op → Server
  | .http c req => (approvalDecide e c req s).1
  | .approve t params mcpClient => (handlePendingApprove e.memoryFromValue p t params mcpClient s).1
  | .reject t params mcpClient => (handlePendingReject p t params mcpClient s).1
  | .other db => { s with db }

def status : Decision → String
  | .approve => "approved"
  | .deny => "rejected"

/-- The action gets the status of the decision. -/
def TakesEffect (before after : Option PendingAction) (d : Decision) : Prop :=
  ∃ pa pa', before = some pa ∧ after = some pa' ∧ pa.status ≠ status d ∧ pa'.status = status d

/-- What a step announces and records are decisions that took effect in it: an event is of an action whose status it
changed, a rule is about such an action. -/
structure Effective (s s' : Server) : Prop where
  events : ∃ new, s'.events = s.events ++ new ∧ ∀ ev ∈ new, ∃ d : Decision, ev.decision = d.label ∧
    TakesEffect (s.db.getPendingAction ev.pendingId) (s'.db.getPendingAction ev.pendingId) d
  rules : ∃ new, s'.rules = s.rules ++ new ∧ ∀ r ∈ new, ∃ id pa, ∃ d : Decision, r.decision = d.label ∧
    s.db.getPendingAction id = some pa ∧ r.actionType = pa.actionType ∧ r.ns = pa.ns ∧
      r.agentId = some pa.requestedBy ∧ TakesEffect (s.db.getPendingAction id) (s'.db.getPendingAction id) d

/-- An approval of a pending action by a registered agent that has voted, or whose vote does not make the quorum. -/
def FallsShort (db : Db) (id agentId : String) : Prop :=
  ∃ pa quorum, db.getPendingAction id = some pa ∧ pa.status = "pending" ∧
    ((db.resolveGovernancePolicy pa.ns).map (·.approver)).getD .human = .consensus quorum ∧
    db.isRegisteredAgent agentId = true ∧
    ((pa.approvals.any fun a => toAsciiLowercase a.agentId = toAsciiLowercase (toAsciiLowercase agentId)) = true ∨
      ¬quorum ≤ min (pa.approvals.length + 1) (2 ^ 32 - 1))

/-- No approval over HTTP falls short. -/
def OpOk (e : Env) (s : Server) : Op → Prop
  | .http c req => ∀ body agentId, verifyApprovalHmac e c req = true → e.bodyFromSlice req.body = .ok body →
      body.decision = .approve → Accepts (validateId req.id) →
      resolveHttpAgentId req.agentId c.tick.requestId = .ok agentId → ¬FallsShort s.db req.id agentId
  | _ => True

/-! ## The outcome of an approval -/

section Outcome

variable {db db' : Db} {id agentId now : String} {approve : Bool}

/-- The action is closed: it was pending, and is the same request with the new status. -/
def Closes (before after : Option PendingAction) (status : String) : Prop :=
  ∃ pa pa', before = some pa ∧ after = some pa' ∧ pa.status = "pending" ∧ pa'.status = status ∧
    pa'.actionType = pa.actionType ∧ pa'.ns = pa.ns ∧ pa'.requestedBy = pa.requestedBy

theorem decide_closes (db : Db) (id : String) (approve : Bool) (agentId now : String)
    (h : (db.decidePendingAction id approve agentId now).2 = true) :
    Closes (db.getPendingAction id) ((db.decidePendingAction id approve agentId now).1.getPendingAction id)
      (if approve then "approved" else "rejected") := by
  unfold Db.decidePendingAction at h
  obtain ⟨r, hr, hst⟩ := (Option.any_eq_true _ _).mp h
  rw [decide_eq_true_eq] at hst
  unfold Closes Db.getPendingAction Db.decidePendingAction
  rw [Db.find_updatePending, hr]
  simp only [Option.map_some, hst, and_self, if_true]
  exact ⟨_, _, rfl, rfl, hst, rfl, rfl, rfl, rfl⟩

theorem approveBy_outcome (db : Db) (id approver now failure : String) :
    (∃ db', db.approveBy id approver now failure = (db', .approved) ∧
      Closes (db.getPendingAction id) (db'.getPendingAction id) "approved") ∨
    ∃ db', db.approveBy id approver now failure = (db', .rejected failure) := by
  unfold Db.approveBy
  cases hd : db.decidePendingAction id true approver now with
  | mk db' ok =>
    cases ok with
    | false => exact Or.inr ⟨db', rfl⟩
    | true =>
      have hcl := decide_closes db id true approver now (by rw [hd])
      rw [hd] at hcl
      exact Or.inl ⟨db', rfl, hcl⟩

variable {pa : PendingAction}

theorem addVote_find (vote : Approval) (hpa : db.getPendingAction id = some pa)
    (hst : pa.status = "pending") :
    (db.addVote id vote).getPendingAction id = some { pa with approvals := pa.approvals ++ [vote] } := by
  unfold Db.getPendingAction at hpa
  obtain ⟨r, hr, rfl⟩ := Option.map_eq_some_iff.mp hpa
  unfold Db.getPendingAction Db.addVote
  rw [Db.find_updatePending, hr]
  simp only [Option.map_some, hst, and_self, if_true]

/-- The three outcomes: closed, short of the quorum, refused. -/
inductive Outcome (db : Db) (id agentId : String) : Db × ApproveOutcome → Prop
  | approved {db' : Db} : Closes (db.getPendingAction id) (db'.getPendingAction id) "approved" →
      ¬FallsShort db id agentId → Outcome db id agentId (db', .approved)
  | pending {db' : Db} {votes quorum : ℕ} {pa' : PendingAction} : FallsShort db id agentId →
      db'.getPendingAction id = some pa' → pa'.status = "pending" → Outcome db id agentId (db', .pending votes quorum)
  | rejected {db' : Db} {reason : String} : ¬FallsShort db id agentId → Outcome db id agentId (db', .rejected reason)

theorem outcome_approveBy {db₁ : Db} {approver failure : String} (hshort : ¬FallsShort db id agentId)
    (hclose : ∀ {after}, Closes (db₁.getPendingAction id) after "approved" →
      Closes (db.getPendingAction id) after "approved") :
    Outcome db id agentId (db₁.approveBy id approver now failure) := by
  obtain ⟨db', heq, hcl⟩ | ⟨db', heq⟩ := approveBy_outcome db₁ id approver now failure
  · rw [heq]
    exact .approved (hclose hcl) hshort
  · rw [heq]
    exact .rejected hshort

theorem not_fallsShort {approver : ApproverType} (hpa : db.getPendingAction id = some pa)
    (happ : ((db.resolveGovernancePolicy pa.ns).map (·.approver)).getD .human = approver)
    (hno : ∀ quorum, approver ≠ .consensus quorum) : ¬FallsShort db id agentId := by
  rintro ⟨pa', quorum, hsome, -, hquorum, -⟩
  cases hpa.symm.trans hsome
  exact hno quorum (happ.symm.trans hquorum)

/-- Under a consensus the vote of a registered agent falls short if the agent has voted, or too few have. -/
theorem fallsShort_iff (agentId : String) {quorum : ℕ} (hpa : db.getPendingAction id = some pa)
    (hst : pa.status = "pending")
    (happ : ((db.resolveGovernancePolicy pa.ns).map (·.approver)).getD .human = .consensus quorum) :
    FallsShort db id agentId ↔ db.isRegisteredAgent agentId = true ∧
      ((pa.approvals.any fun a => toAsciiLowercase a.agentId = toAsciiLowercase (toAsciiLowercase agentId)) = true ∨
        ¬quorum ≤ min (pa.approvals.length + 1) (2 ^ 32 - 1)) := by
  constructor
  · rintro ⟨pa', quorum', hsome, -, hquorum, hreg, hvote⟩
    cases hpa.symm.trans hsome
    cases happ.symm.trans hquorum
    exact ⟨hreg, hvote⟩
  · rintro ⟨hreg, hvote⟩
    exact ⟨pa, quorum, hpa, hst, happ, hreg, hvote⟩

theorem approve_outcome (db : Db) (id agentId now : String) :
    Outcome db id agentId (db.approveWithApproverType id agentId now now) := by
  unfold Db.approveWithApproverType
  cases hpa : db.getPendingAction id with
  | none =>
    refine .rejected ?_
    rintro ⟨pa, quorum, hsome, -⟩
    rw [hpa] at hsome
    cases hsome
  | some pa =>
    simp only
    by_cases hst : pa.status ≠ "pending"
    · rw [if_pos hst]
      refine .rejected ?_
      rintro ⟨pa', quorum, hsome, hpending, -⟩
      cases hpa.symm.trans hsome
      exact hst hpending
    rw [if_neg hst]
    rw [not_not] at hst
    cases happ : ((db.resolveGovernancePolicy pa.ns).map (·.approver)).getD .human with
    | human => exact outcome_approveBy (not_fallsShort hpa happ fun _ h => nomatch h) fun h => h
    | agent required =>
      simp only
      split_ifs
      · exact .rejected (not_fallsShort hpa happ fun _ h => nomatch h)
      · exact outcome_approveBy (not_fallsShort hpa happ fun _ h => nomatch h) fun h => h
    | consensus quorum =>
      have hiff := fallsShort_iff agentId hpa hst happ
      by_cases hreg : db.isRegisteredAgent agentId = true
      · simp only [hreg, Bool.not_true, Bool.false_eq_true, if_false]
        have hvoted := addVote_find ⟨toAsciiLowercase agentId, now⟩ hpa hst
        split_ifs with hagain hquorum
        · exact .pending (hiff.mpr ⟨hreg, Or.inl hagain⟩) hpa hst
        · refine outcome_approveBy (mt hiff.mp fun h => h.2.elim hagain fun h => h hquorum) ?_
          rintro after ⟨pa₁, pa', hpa₁, hafter, -, hst', hact, hns, hby⟩
          cases hvoted.symm.trans hpa₁
          exact ⟨pa, pa', hpa, hafter, hst, hst', hact, hns, hby⟩
        · exact .pending (hiff.mpr ⟨hreg, Or.inr hquorum⟩) hvoted hst
      · simp only [hreg, Bool.not_false, if_true]
        exact .rejected (mt hiff.mp fun h => hreg h.1)

end Outcome

/-! ## What a request announces -/

section Step

variable {e : Env} {p : Process} {c : Clock} {req : Request} {t : Tick} {params : Json} {mcpClient : Option String}
  {s s' : Server} {db : Db} {id agentId now : String} {body : ApprovalRequestBody}

theorem Closes.takesEffect {before after : Option PendingAction} {d : Decision} (h : Closes before after (status d)) :
    TakesEffect before after d := by
  obtain ⟨pa, pa', hpa, hpa', hst, hst', -⟩ := h
  refine ⟨pa, pa', hpa, hpa', ?_, hst'⟩
  rw [hst]
  cases d <;> decide

theorem effective_quiet (hevents : s'.events = s.events) (hrules : s'.rules = s.rules) : Effective s s' where
  events := ⟨[], by rw [hevents, List.append_nil], fun ev hev => absurd hev List.not_mem_nil⟩
  rules := ⟨[], by rw [hrules, List.append_nil], fun r hr => absurd hr List.not_mem_nil⟩

theorem recordSyntheticRule_cases (rules : List SyntheticPermissionRule) (rule : SyntheticPermissionRule) :
    recordSyntheticRule rules rule = rules ∨ recordSyntheticRule rules rule = rules ++ [rule] := by
  unfold recordSyntheticRule
  split_ifs
  · exact Or.inl rfl
  · exact Or.inr rfl

theorem effective_decided (h : Closes (s.db.getPendingAction id) (db.getPendingAction id) (status body.decision)) :
    Effective s (s.decided db c id agentId body (s.db.getPendingAction id)) := by
  have heffect := h.takesEffect
  obtain ⟨pa, -, hpa, -⟩ := h
  refine ⟨⟨_, rfl, ?_⟩, ?_⟩
  · intro ev hev
    rw [List.mem_singleton] at hev
    subst hev
    exact ⟨body.decision, rfl, heffect⟩
  · have hquiet : ∀ rules', rules' = s.rules → ∃ new, rules' = s.rules ++ new ∧ ∀ r ∈ new, ∃ id pa, ∃ d : Decision,
        r.decision = d.label ∧ s.db.getPendingAction id = some pa ∧ r.actionType = pa.actionType ∧ r.ns = pa.ns ∧
          r.agentId = some pa.requestedBy ∧ TakesEffect (s.db.getPendingAction id) (db.getPendingAction id) d := by
      rintro rules' rfl
      exact ⟨[], (List.append_nil _).symm, fun r hr => absurd hr List.not_mem_nil⟩
    unfold Server.decided
    simp only [hpa]
    split_ifs with hremember
    · obtain hsame | hnew := recordSyntheticRule_cases s.rules
        ⟨pa.actionType, pa.ns, some pa.requestedBy, body.decision.label, c.tick.now⟩
      · exact hquiet _ hsame
      · refine ⟨_, hnew, fun r hr => ?_⟩
        rw [List.mem_singleton] at hr
        subst hr
        exact ⟨id, pa, body.decision, rfl, hpa, rfl, rfl, rfl, heffect⟩
    · exact hquiet _ rfl

theorem recordMcpDecision_eq (body : ApprovalRequestBody) {st : String}
    (h : Closes (s.db.getPendingAction id) (db.getPendingAction id) st) :
    recordMcpDecision { s with db } c.tick.now id agentId body.decision.label body.remember =
      s.decided db c id agentId body (s.db.getPendingAction id) := by
  obtain ⟨pa, pa', hpa, hpa', -, -, hact, hns, hby⟩ := h
  unfold recordMcpDecision Server.decided
  simp only [hpa, hpa', Option.map_some, Option.getD_some, hact, hns, hby]

/-- The checks a request over HTTP passes before its decision is looked at. -/
structure Admitted (e : Env) (c : Clock) (req : Request) (body : ApprovalRequestBody) (agentId : String) : Prop where
  verified : verifyApprovalHmac e c req = true
  parsed : e.bodyFromSlice req.body = .ok body
  id : validateId req.id = .ok ()
  agent : resolveHttpAgentId req.agentId c.tick.requestId = .ok agentId

theorem getPendingAction_execute {x : Db.Execution} {db' : Db} {res : Option String} {i : String}
    (h : db.executePendingAction x id = .ok (db', res)) : db'.getPendingAction i = db.getPendingAction i := by
  unfold Db.getPendingAction
  rw [(Push.executePendingAction_frame h).2]

/-- What a decision does once the request is admitted; `short` is whether an approval that falls short is
announced. -/
def decideWith (short : Bool) (memoryFromValue : Json → Except String Memory) (c : Clock) (id agentId : String)
    (body : ApprovalRequestBody) (s : Server) : Server :=
  let snapshot := s.db.getPendingAction id
  match body.decision with
  | .approve =>
    match s.db.approveWithApproverType id agentId c.tick.now c.tick.now with
    | (db, .approved) =>
      match db.executePendingAction ⟨memoryFromValue, c.tick.newId id, c.tick.now⟩ id with
      | .ok (db, _) => s.decided db c id agentId body snapshot
      | .error _ => { s with db }
    | (db, .pending _ _) => if short then s.decided db c id agentId body snapshot else { s with db }
    | (db, .rejected _) => { s with db }
  | .deny =>
    match s.db.decidePendingAction id false agentId c.tick.now with
    | (db, true) => s.decided db c id agentId body snapshot
    | (db, false) => { s with db }

theorem http_eq (h : Admitted e c req body agentId) :
    (approvalDecide e c req s).1 = decideWith true e.memoryFromValue c req.id agentId body s := by
  unfold approvalDecide decideWith
  simp only [h.verified, h.parsed, h.id, h.agent, Bool.not_true, Bool.false_eq_true, if_false, if_true]
  cases body.decision with
  | approve =>
    cases s.db.approveWithApproverType req.id agentId c.tick.now c.tick.now with
    | mk db outcome =>
      cases outcome with
      | approved =>
        simp only
        cases db.executePendingAction ⟨e.memoryFromValue, c.tick.newId req.id, c.tick.now⟩ req.id with
        | ok res => rfl
        | error error => rfl
      | pending votes quorum => rfl
      | rejected reason => rfl
  | deny =>
    cases s.db.decidePendingAction req.id false agentId c.tick.now with
    | mk db changed => cases changed <;> rfl

theorem http_refused (h : ∀ body agentId, ¬Admitted e c req body agentId) : (approvalDecide e c req s).1 = s := by
  unfold approvalDecide
  by_cases hv : verifyApprovalHmac e c req = true
  · simp only [hv, Bool.not_true, Bool.false_eq_true, if_false]
    cases hparse : e.bodyFromSlice req.body with
    | error error => rfl
    | ok body =>
      cases hid : validateId req.id with
      | error error => rfl
      | ok u =>
        cases hagent : resolveHttpAgentId req.agentId c.tick.requestId with
        | error error => rfl
        | ok agentId => exact absurd ⟨hv, hparse, hid, hagent⟩ (h body agentId)
  · simp only [hv, Bool.not_false, if_true]

/-- The same checks over MCP. -/
structure AdmittedMcp (p : Process) (params : Json) (mcpClient : Option String) (id agentId : String) : Prop where
  param : strParam params "id" = some id
  id : validateId id = .ok ()
  agent : p.resolveAgentId (strParam params "agent_id") mcpClient = .ok agentId

theorem mcp_approve_eq (h : AdmittedMcp p params mcpClient id agentId) :
    (handlePendingApprove e.memoryFromValue p c.tick params mcpClient s).1 =
      decideWith false e.memoryFromValue c id agentId ⟨.approve, parseRememberParam params⟩ s := by
  unfold handlePendingApprove decideWith
  simp only [h.param, h.id, h.agent, Bool.false_eq_true, if_false]
  have hout := approve_outcome s.db id agentId c.tick.now
  cases ho : s.db.approveWithApproverType id agentId c.tick.now c.tick.now with
  | mk db outcome =>
    rw [ho] at hout
    cases hout with
    | approved hcl _ =>
      simp only
      cases hx : db.executePendingAction ⟨e.memoryFromValue, c.tick.newId id, c.tick.now⟩ id with
      | error error => rfl
      | ok res =>
        rw [← getPendingAction_execute hx] at hcl
        exact recordMcpDecision_eq ⟨.approve, parseRememberParam params⟩ hcl
    | pending _ _ _ => rfl
    | rejected _ => rfl

theorem mcp_reject_eq (h : AdmittedMcp p params mcpClient id agentId) :
    (handlePendingReject p c.tick params mcpClient s).1 =
      decideWith false e.memoryFromValue c id agentId ⟨.deny, parseRememberParam params⟩ s := by
  unfold handlePendingReject decideWith
  simp only [h.param, h.id, h.agent]
  have hclose := decide_closes s.db id false agentId c.tick.now
  cases hd : s.db.decidePendingAction id false agentId c.tick.now with
  | mk db changed =>
    rw [hd] at hclose
    cases changed with
    | false => rfl
    | true => exact recordMcpDecision_eq ⟨.deny, parseRememberParam params⟩ (hclose rfl)

theorem mcp_refused (h : ∀ id agentId, ¬AdmittedMcp p params mcpClient id agentId) :
    (handlePendingApprove e.memoryFromValue p t params mcpClient s).1 = s ∧
      (handlePendingReject p t params mcpClient s).1 = s := by
  unfold handlePendingApprove handlePendingReject
  cases hparam : strParam params "id" with
  | none => exact ⟨rfl, rfl⟩
  | some id =>
    simp only
    cases hid : validateId id with
    | error error => exact ⟨rfl, rfl⟩
    | ok u =>
      cases hagent : p.resolveAgentId (strParam params "agent_id") mcpClient with
      | error error => exact ⟨rfl, rfl⟩
      | ok agentId => exact absurd ⟨hparam, hid, hagent⟩ (h id agentId)

variable {mfv : Json → Except String Memory}

/-- What is announced took effect, unless it is an approval that falls short. -/
theorem effective_decideWith {short : Bool}
    (hshort : short = true → body.decision = .approve → ¬FallsShort s.db id agentId) :
    Effective s (decideWith short mfv c id agentId body s) := by
  unfold decideWith
  cases hd : body.decision with
  | approve =>
    have hout := approve_outcome s.db id agentId c.tick.now
    cases ho : s.db.approveWithApproverType id agentId c.tick.now c.tick.now with
    | mk db outcome =>
      rw [ho] at hout
      cases hout with
      | approved hcl _ =>
        simp only
        cases hx : db.executePendingAction ⟨mfv, c.tick.newId id, c.tick.now⟩ id with
        | error error => exact effective_quiet rfl rfl
        | ok res =>
          rw [← getPendingAction_execute hx] at hcl
          exact effective_decided (by rw [hd]; exact hcl)
      | pending hfalls _ _ =>
        cases short with
        | false => exact effective_quiet rfl rfl
        | true => exact absurd hfalls (hshort rfl hd)
      | rejected _ => exact effective_quiet rfl rfl
  | deny =>
    have hclose := decide_closes s.db id false agentId c.tick.now
    cases hch : s.db.decidePendingAction id false agentId c.tick.now with
    | mk db changed =>
      rw [hch] at hclose
      cases changed with
      | false => exact effective_quiet rfl rfl
      | true => exact effective_decided (by rw [hd]; exact hclose rfl)

theorem not_effective_short (hd : body.decision = .approve)
    (hfalls : FallsShort s.db id agentId) : ¬Effective s (decideWith true mfv c id agentId body s) := by
  have hout := approve_outcome s.db id agentId c.tick.now
  unfold decideWith
  simp only [hd, if_true]
  cases ho : s.db.approveWithApproverType id agentId c.tick.now c.tick.now with
  | mk db outcome =>
    rw [ho] at hout
    cases hout with
    | approved _ hno => exact absurd hfalls hno
    | rejected hno => exact absurd hfalls hno
    | pending _ hpa' hst =>
      rintro ⟨⟨new, hnew, hall⟩, -⟩
      simp only [Server.decided, List.append_cancel_left_eq] at hnew
      obtain ⟨d, hlabel, -, pa', -, hafter, -, hstatus⟩ := hall _ (by rw [← hnew]; exact List.mem_singleton_self _)
      cases hpa'.symm.trans hafter
      rw [hst] at hstatus
      cases d <;> exact absurd hstatus (by decide)

theorem decideWith_congr
    (hshort : body.decision = .approve → ¬FallsShort s.db id agentId) :
    decideWith true mfv c id agentId body s = decideWith false mfv c id agentId body s := by
  unfold decideWith
  cases hd : body.decision with
  | approve =>
    have hout := approve_outcome s.db id agentId c.tick.now
    cases ho : s.db.approveWithApproverType id agentId c.tick.now c.tick.now with
    | mk db outcome =>
      rw [ho] at hout
      cases hout with
      | approved _ _ => rfl
      | rejected _ => rfl
      | pending hfalls _ _ => exact absurd hfalls (hshort hd)
  | deny => rfl

/-- A step announces only what took effect exactly if it is no approval over HTTP that falls short. -/
theorem effective_iff (op : Op) : Effective s (step e p s op) ↔ OpOk e s op := by
  cases op with
  | http c req =>
    constructor
    · intro heff body agentId hv hparse hd hid hagent hfalls
      rw [step, http_eq ⟨hv, hparse, hid, hagent⟩] at heff
      exact not_effective_short hd hfalls heff
    · intro hok
      by_cases hadm : ∃ body agentId, Admitted e c req body agentId
      · obtain ⟨body, agentId, ha⟩ := hadm
        rw [step, http_eq ha]
        exact effective_decideWith fun _ hd => hok body agentId ha.verified ha.parsed hd ha.id ha.agent
      · push Not at hadm
        rw [step, http_refused hadm]
        exact effective_quiet rfl rfl
  | approve t params mcpClient =>
    refine iff_of_true ?_ trivial
    by_cases hadm : ∃ id agentId, AdmittedMcp p params mcpClient id agentId
    · obtain ⟨id, agentId, ha⟩ := hadm
      -- only the tick of the clock is read
      have heq := mcp_approve_eq (e := e) (s := s) (c := ⟨t, 0, by norm_num, by norm_num⟩) ha
      rw [step, heq]
      exact effective_decideWith fun hno => nomatch hno
    · push Not at hadm
      rw [step, (mcp_refused hadm).1]
      exact effective_quiet rfl rfl
  | reject t params mcpClient =>
    refine iff_of_true ?_ trivial
    by_cases hadm : ∃ id agentId, AdmittedMcp p params mcpClient id agentId
    · obtain ⟨id, agentId, ha⟩ := hadm
      have heq := mcp_reject_eq (e := e) (s := s) (c := ⟨t, 0, by norm_num, by norm_num⟩) ha
      rw [step, heq]
      exact effective_decideWith fun hno => nomatch hno
    · push Not at hadm
      rw [step, (mcp_refused (e := e) hadm).2]
      exact effective_quiet rfl rfl
  | other db => exact iff_of_true (effective_quiet rfl rfl) trivial

end Step

/-! ## The same requests over both transports -/

/-- One request over both transports: admitted, with the same action, agent, decision and remembrance at the same
time. -/
structure Twin (e : Env) (p : Process) where
  clock : Clock
  req : Request
  params : Json
  mcpClient : Option String
  body : ApprovalRequestBody
  agentId : String
  admitted : Admitted e clock req body agentId
  admittedMcp : AdmittedMcp p params mcpClient req.id agentId
  remember : parseRememberParam params = body.remember

/-- The same request over both transports, or the same other change. -/
inductive Both (e : Env) (p : Process) where
  | request (t : Twin e p)
  | other (db : Db)

variable {e : Env} {p : Process} {s : Server}

def Both.http : Both e p → Op
  | .request t => .http t.clock t.req
  | .other db => .other db

def toolFor (d : Decision) (t : Tick) (params : Json) (mcpClient : Option String) : Op :=
  match d with
  | .approve => .approve t params mcpClient
  | .deny => .reject t params mcpClient

def Both.mcp : Both e p → Op
  | .request t => toolFor t.body.decision t.clock.tick t.params t.mcpClient
  | .other db => .other db

theorem twin_step (b : Both e p) (hok : OpOk e s b.http) : step e p s b.http = step e p s b.mcp := by
  cases b with
  | other db => rfl
  | request t =>
    have hshort : t.body.decision = .approve → ¬FallsShort s.db t.req.id t.agentId := fun hd =>
      hok t.body t.agentId t.admitted.verified t.admitted.parsed hd t.admitted.id t.admitted.agent
    have hhttp : step e p s (Both.http (.request t)) =
        decideWith false e.memoryFromValue t.clock t.req.id t.agentId t.body s :=
      (http_eq t.admitted).trans (decideWith_congr hshort)
    have hbody : ∀ d, t.body.decision = d → (⟨d, parseRememberParam t.params⟩ : ApprovalRequestBody) = t.body := by
      rintro d rfl
      rw [t.remember]
    rw [hhttp, Both.mcp]
    cases hd : t.body.decision with
    | approve =>
      rw [← hbody _ hd]
      exact (mcp_approve_eq t.admittedMcp).symm
    | deny =>
      rw [← hbody _ hd]
      exact (mcp_reject_eq t.admittedMcp).symm

/-- In every run in which no approval over HTTP falls short the two transports leave the same server. -/
theorem twin_run (bs : List (Both e p)) (h : Machine.Meets (step e p) (OpOk e) s (bs.map Both.http)) :
    (bs.map Both.http).foldl (step e p) s = (bs.map Both.mcp).foldl (step e p) s := by
  induction bs generalizing s with
  | nil => rfl
  | cons b bs ih =>
    rw [List.map_cons, List.map_cons, List.foldl_cons, List.foldl_cons, ← twin_step b h.1]
    exact ih h.2

/-- A run announces and records only decisions that took effect exactly if no approval over HTTP in it falls short,
and then the same requests over MCP leave the same remembered decisions. -/
theorem effective_iff_meets (e : Env) (p : Process) (s : Server) :
    (∀ ops, Machine.Meets (step e p) (fun s op => Effective s (step e p s op)) s ops ↔
      Machine.Meets (step e p) (OpOk e) s ops) ∧
    ∀ bs : List (Both e p), Machine.Meets (step e p) (OpOk e) s (bs.map Both.http) →
      ((bs.map Both.http).foldl (step e p) s).rules = ((bs.map Both.mcp).foldl (step e p) s).rules :=
  ⟨fun _ => Machine.meets_congr fun _ op => effective_iff op, fun bs h => congrArg Server.rules (twin_run bs h)⟩

/-! ## A first vote that is remembered for good -/

def foreverBody : String := "\x7b\"decision\":\"approve\",\"remember\":\"forever\"\x7d"

/-- The secret is `s3cret`; the digests are those of the texts they are asked for here. -/
def env : Env where
  activeHooksHmacSecret := some "s3cret"
  sha256Hex s := if s = "s3cret" then "1ec1c26b50d5d3c58d9583181af8076655fe00756bf7285940ba3670f99fcba0" else ""
  hmacSha256Hex key message :=
    if key = "1ec1c26b50d5d3c58d9583181af8076655fe00756bf7285940ba3670f99fcba0" ∧
      message = "1767312000." ++ foreverBody then
      "dd0f845169e7e3bb1d6942911c34995aa9da4c71fe37204fbe7f800837f2c62d"
    else ""
  bodyFromSlice b :=
    if String.fromUTF8? b = some foreverBody then .ok ⟨.approve, .forever⟩ else .error "expected value"
  memoryFromValue _ := .error "invalid type"

theorem bodyFromSlice_forever : env.bodyFromSlice foreverBody.toByteArray = .ok ⟨.approve, .forever⟩ := by
  have htext : String.fromUTF8? foreverBody.toByteArray = some foreverBody := by decide
  unfold env
  simp only [htext, if_true]

def process : Process := { hostname := "host", pid := 7, shortUuid := "0a1b2c3d" }

/-- `alice` approves `p1` for good, over HTTP and over MCP. -/
def aliceApproves : Twin env process where
  clock := ApprovalApi.clock
  req := ⟨"p1", some "alice", some "sha256=dd0f845169e7e3bb1d6942911c34995aa9da4c71fe37204fbe7f800837f2c62d",
    some "1767312000", foreverBody.toByteArray⟩
  params := .obj [("agent_id", .str "alice"), ("id", .str "p1"), ("remember", .str "forever")]
  mcpClient := none
  body := ⟨.approve, .forever⟩
  agentId := "alice"
  admitted := ⟨by decide, bodyFromSlice_forever, by decide, by decide⟩
  admittedMcp := ⟨rfl, by decide, by decide⟩
  remember := rfl

/-- A request that waits for two voters, of which `voters` have voted. -/
def waiting (voters : List Approval) : Server where
  db := { Votes.requested with pending := ⟨[{ Decided.request with approvals := voters }.toRow], List.nodup_singleton _⟩ }

/-- After `bob`'s vote `alice`'s makes the quorum, and over both transports the decision is remembered. -/
theorem second_vote_remembered :
    let s := waiting [⟨"bob", "2026-01-01T12:00:00+00:00"⟩]
    ((step env process s (Both.http (.request aliceApproves))).rules =
        (step env process s (Both.mcp (.request aliceApproves))).rules) ∧
      (step env process s (Both.http (.request aliceApproves))).rules.length = 1 := by
  intro s
  have hlen : (step env process s (Both.http (.request aliceApproves))).rules.length = 1 := by decide
  have hok : OpOk env s (Both.http (.request aliceApproves)) := by
    rintro body agentId - - - - hagent ⟨pa, quorum, hpa, -, hpol, -, hvote⟩
    cases hagent
    have hrow : s.db.getPendingAction "p1" =
        some { Decided.request with approvals := [⟨"bob", "2026-01-01T12:00:00+00:00"⟩] } := by decide
    have happ : ((s.db.resolveGovernancePolicy "team").map (·.approver)).getD .human = .consensus 2 := by decide
    cases hrow.symm.trans hpa
    cases happ.symm.trans hpol
    revert hvote
    decide
  exact ⟨(effective_iff_meets env process s).2 [.request aliceApproves] ⟨hok, trivial⟩, hlen⟩

/-- `alice`'s first of two votes is announced over HTTP and remembered for good, while the action stays pending; over
MCP it is not. -/
theorem first_vote_remembered :
    let s := waiting []
    let http := step env process s (Both.http (.request aliceApproves))
    http.db.getPendingAction "p1" = some { Decided.request with approvals := [⟨"alice", clock.tick.now⟩] } ∧
      http.events.length = 1 ∧
      http.rules = [⟨"delete", "team", some "alice", "approve", clock.tick.now⟩] ∧
      (step env process s (Both.mcp (.request aliceApproves))).rules = [] ∧
      ¬Machine.Meets (step env process) (fun s op => Effective s (step env process s op)) s
        [Both.http (.request aliceApproves)] := by
  intro s http
  have hrow : http.db.getPendingAction "p1" =
      some { Decided.request with approvals := [⟨"alice", clock.tick.now⟩] } := by decide
  refine ⟨hrow, by decide, by decide, by decide, ?_⟩
  rintro ⟨⟨⟨new, hnew, hall⟩, -⟩, -⟩
  have hevents : new.map (·.pendingId) = ["p1"] := by
    rw [show s.events = [] from rfl, List.nil_append] at hnew
    rw [← hnew]
    decide
  obtain ⟨ev, hev, hid⟩ := List.mem_map.mp (hevents ▸ List.mem_singleton_self "p1")
  obtain ⟨d, -, -, pa', -, hafter, -, hstatus⟩ := hall ev hev
  rw [hid] at hafter
  cases hrow.symm.trans hafter
  cases d <;> exact absurd hstatus (by decide)

end Mcp

end AiMemory
