import AiMemory.Mcp.Rules

/-!
# The trail of the tools

`audit.rs` is for every call that changes a memory. The events are emitted by hand: `handle_store` and `handle_delete` emit theirs on the
path that writes, `tools/call` emits those of the other tools. Some paths change a row in silence, some events are of a call that
changed nothing, and the actor is whatever identity is at hand. A call that avoids these paths is on record (`recorded_of_tracked`).
-/

namespace AiMemory

namespace Mcp

open MemoryApi Audit Relational

/-- No row of the memories, of the links or of the pending actions changed. -/
structure SameRows (db db' : Db) : Prop where
  memories : ∀ id, db'.get id = db.get id
  links : ∀ l, l ∈ db'.links ↔ l ∈ db.links
  pending : ∀ id, db'.pending.find id = db.pending.find id

/-- The id is that of a row that changed; where only links changed, it is an end of one. -/
inductive Names (db db' : Db) (id : String) : Prop
  | memory (hne : db'.get id ≠ db.get id)
  | action (hne : db'.pending.find id ≠ db.pending.find id)
  | link (l : LinkRow) (hsame : ∀ i, db'.get i = db.get i) (hne : ¬(l ∈ db'.links ↔ l ∈ db.links))
      (hend : id = l.sourceId ∨ id = l.targetId)

theorem Names.not_sameRows {db db' : Db} {id : String} (hn : Names db db' id) : ¬SameRows db db' := by
  intro hsame
  cases hn with
  | memory hne => exact hne (hsame.memories id)
  | action hne => exact hne (hsame.pending id)
  | link l _ hne _ => exact hne (hsame.links l)

variable {h : Host}

/-- The identity that `resolve_agent_id` gives for a call. -/
def Call.caller (c : Call h) : Except String String :=
  match c.tool with
  | .store => h.process.resolveAgentId ((strParam c.params "agent_id").or
      (strParam ((objectParam c.params "metadata").getD (.obj [])) "agent_id")) c.mcpClient
  | _ => h.process.resolveAgentId (strParam c.params "agent_id") c.mcpClient

def Tool.sweeps : Tool → Bool
  | forget => true
  | consolidate => true
  | _ => false

/-- A call that changed a row is on record, once, under its caller and with what it changed. One that changed none is not on record as
a success. -/
structure Recorded (c : Call h) (n n' : Node) : Prop where
  changed : ¬SameRows n.db n'.db → ∃ e, n'.audit = n.audit ++ [e] ∧ c.caller = .ok e.actor.agentId ∧
    (Names n.db n'.db e.target.memoryId ∨ (c.tool.sweeps ∧ e.target.memoryId = "*"))
  unchanged : SameRows n.db n'.db → ∃ es, n'.audit = n.audit ++ es ∧ ∀ e ∈ es, e.outcome ≠ .allow

/-- The agent may approve the action. -/
def MayApprove (db : Db) (pa : PendingAction) (agentId : String) : Prop :=
  match ((db.resolveGovernancePolicy pa.ns).map (·.approver)).getD .human with
  | .human => True
  | .agent designated => agentId = designated
  | .consensus _ => db.isRegisteredAgent agentId = true

/-- The agent has a vote in the quorum already. -/
def HasVoted (db : Db) (pa : PendingAction) (agentId : String) : Prop :=
  (∃ quorum, ((db.resolveGovernancePolicy pa.ns).map (·.approver)).getD .human = .consensus quorum) ∧
    (pa.approvals.any fun a => toAsciiLowercase a.agentId = toAsciiLowercase (toAsciiLowercase agentId)) = true

def Call.storeGate (c : Call h) (n : Node) (req : StoreRequest) : Except String (Db × GovernanceDecision) :=
  n.db.enforceGovernance h.app.mode .store req.mem.ns req.agentId none none (h.app.memoryToValue req.mem) (c.draw.newId 1)
    c.draw.now.text

def Call.targetGate (c : Call h) (n : Node) (action : GovernedAction) (target : MemoryRow) (agentId : String) (payload : Json) :
    Except String (Db × GovernanceDecision) :=
  n.db.enforceGovernance h.app.mode action target.ns agentId (some target.id) (Db.ownerOf target.toMemory) payload (c.draw.newId 0)
    c.draw.now.text

/-- The event that `tools/call` emits names the agent. -/
def Call.Signs (c : Call h) (agentId : String) : Prop := dispatchAgent c.params c.mcpClient = agentId

/-- No path on which the record of the call goes wrong is taken. -/
def Call.Tracked (c : Call h) (n : Node) : Prop :=
  match c.tool with
  | .store => ∀ req, h.storeRequest c.draw c.params c.mcpClient n.db = .ok req → h.Permits n .memoryStore req.mem.ns req.agentId .null →
      (∀ db id, c.storeGate n req ≠ .ok (db, .pending id)) ∧
      (c.storeGate n req = .ok (n.db, .allow) → req.exactDup (h.findContradictions n.db req.mem.title req.mem.ns) = none)
  | .update => ∀ target u, Resolves c.params n target → h.updateRequest c.params = .ok u → ¬n.db.Collides target u →
      c.caller = .ok (dispatchAgent c.params c.mcpClient) ∧ dispatchTarget c.params = target.id
  | .delete => ∀ target agentId, Resolves c.params n target → c.caller = .ok agentId → h.Permits n .memoryDelete target.ns agentId .null →
      let gate := c.targetGate n .delete target agentId (.obj [("id", .str target.id), ("title", .str target.title)])
      (∀ db id, gate ≠ .ok (db, .pending id)) ∧ (gate = .ok (n.db, .allow) → (Db.ownerOf target.toMemory).getD "unknown" = agentId)
  | .promote => ∀ target agentId, Resolves c.params n target → c.caller = .ok agentId →
      let gate := c.targetGate n .promote target agentId
        (.obj [("id", .str target.id), ("to_namespace", optStr (strParam c.params "to_namespace"))])
      (∀ db id, gate ≠ .ok (db, .pending id)) ∧ (gate = .ok (n.db, .allow) →
        (strParam c.params "to_namespace" = none → c.Signs agentId ∧ dispatchTarget c.params = target.id) ∧
        ∀ toNs, strParam c.params "to_namespace" = some toNs → Accepts (Validate.validateNamespace toNs) → toNs ≠ "" →
          toNs ≠ target.ns → toNs ∉ namespaceAncestors target.ns)
  | .forget => HasFilter c.params → (boolParam c.params "dry_run").getD false = false ∧
      (∃ r ∈ n.db.memories, h.forgets c.params r) ∧ c.caller = .ok (dispatchAgent c.params c.mcpClient) ∧
      (dispatchTarget c.params = "*" ∨ ∃ r ∈ n.db.memories, h.forgets c.params r ∧ dispatchTarget c.params = r.id)
  | .link => ∀ sourceId targetId relation agentId, LinkRequest c.params sourceId targetId relation →
      h.process.resolveAgentId (strParam c.params "agent_id") none = .ok agentId →
      let ns := ((n.db.get sourceId).map fun r => r.ns).getD "global"
      ¬h.Asks n .memoryLink ns agentId ∧ (h.Permits n .memoryLink ns agentId .null → Chargeable n sourceId c.draw.now.text →
        n.db.checkEnds sourceId targetId = .ok () →
        ∀ columns, Db.signedColumns h.ed sourceId targetId relation c.draw.now.text h.keypair = .ok columns →
        n.db.links.find (sourceId, targetId, relation) = none ∧ c.caller = .ok (dispatchAgent c.params c.mcpClient) ∧
        (dispatchTarget c.params = sourceId ∨ dispatchTarget c.params = targetId))
  | .consolidate => ∀ req agentId, h.consolidateRequest c.params n.db = .ok req → c.caller = .ok agentId →
      ¬h.Asks n .memoryConsolidate req.ns agentId ∧ ((∀ payload, h.Permits n .memoryConsolidate req.ns agentId payload) →
        ∀ fold, n.db.collect req.ids {} = .ok fold → Accepts (Validate.validateMetadata (fold.metadata req.ids agentId)) →
        n.db.get (c.draw.newId 0) = none → n.db.getKey (req.title, req.ns) = none →
        c.Signs agentId ∧ (dispatchTarget c.params = "*" ∨ dispatchTarget c.params ∈ c.draw.newId 0 :: req.ids))
  | .pendingApprove => ∀ id agentId pa, AdmittedMcp h.process c.params c.mcpClient id agentId → n.db.getPendingAction id = some pa →
      pa.status = "pending" → MayApprove n.db pa agentId → c.Signs agentId ∧ ¬HasVoted n.db pa agentId
  | .pendingReject => ∀ id agentId pa, AdmittedMcp h.process c.params c.mcpClient id agentId → n.db.getPendingAction id = some pa →
      pa.status = "pending" → c.Signs agentId

/-- The clock has moved on since the last write. -/
def Call.Fresh (c : Call h) (n : Node) : Prop := ∀ r ∈ n.db.memories, r.updatedAt ≠ c.draw.now.text

/-! ## What puts a call on record -/

section Records

variable {c : Call h} {n n' : Node} {action : AuditAction} {id now : String} {db db' : Db}

theorem recorded_of_kept (hkept : Kept n n') : Recorded c n n' where
  changed hno := absurd (hkept.db ▸ ⟨fun _ => rfl, fun _ => Iff.rfl, fun _ => rfl⟩ : SameRows n.db n'.db) hno
  unchanged _ := ⟨[], by rw [hkept.audit, List.append_nil], fun e he => absurd he List.not_mem_nil⟩

/-- A call that emits its own event is on record with it. -/
theorem recorded_of_own {e : EventBuilder} (haudit : n'.audit = n.audit ++ [e]) (hcaller : c.caller = .ok e.actor.agentId)
    (hnames : Names n.db n'.db e.target.memoryId) : Recorded c n n' where
  changed _ := ⟨e, haudit, hcaller, Or.inl hnames⟩
  unchanged hsame := absurd hsame hnames.not_sameRows

theorem dispatch_of_own (hact : c.tool.action = none) : (c.dispatch n).1 = (c.handle n).1 := by
  unfold Call.dispatch
  rw [hact]

theorem dispatch_audit (hact : c.tool.action = some action) : (c.dispatch n).1.audit =
    (c.handle n).1.audit ++ [dispatchEvent action c.params c.mcpClient (c.handle n).2] := by
  unfold Call.dispatch
  rw [hact]

theorem recorded_of_refused (hrefused : ∃ n' e, c.handle n = (n', .error e) ∧ Kept n n') : Recorded c n (c.dispatch n).1 := by
  obtain ⟨n', e, heq, hkept⟩ := hrefused
  cases hact : c.tool.action with
  | none =>
    rw [dispatch_of_own hact, heq]
    exact recorded_of_kept hkept
  | some action =>
    have hdb : (c.dispatch n).1.db = n.db := by rw [Call.dispatch_db, heq, hkept.db]
    refine ⟨fun hno => absurd ?_ hno, fun _ => ⟨[dispatchEvent action c.params c.mcpClient (c.handle n).2], ?_, fun e' he' => ?_⟩⟩
    · rw [hdb]
      exact ⟨fun _ => rfl, fun _ => Iff.rfl, fun _ => rfl⟩
    · rw [dispatch_audit hact, heq, hkept.audit]
    · rw [List.mem_singleton.mp he', heq]
      exact nofun

/-- A call that changed a row is on record when the event names its caller and the row. -/
theorem recorded_of_signed (hact : c.tool.action = some action) (haudit : (c.handle n).1.audit = n.audit)
    (hcaller : c.caller = .ok (dispatchAgent c.params c.mcpClient)) (hchanged : ¬SameRows n.db (c.handle n).1.db)
    (hnames : Names n.db (c.handle n).1.db (dispatchTarget c.params) ∨ (c.tool.sweeps ∧ dispatchTarget c.params = "*")) :
    Recorded c n (c.dispatch n).1 := by
  have hevent : ∀ result, (dispatchEvent action c.params c.mcpClient result).actor.agentId = dispatchAgent c.params c.mcpClient ∧
      (dispatchEvent action c.params c.mcpClient result).target.memoryId = dispatchTarget c.params := by
    intro result
    cases result <;> exact ⟨rfl, rfl⟩
  obtain ⟨hactor, htarget⟩ := hevent (c.handle n).2
  rw [← Call.dispatch_db] at hchanged hnames
  refine ⟨fun _ => ⟨dispatchEvent action c.params c.mcpClient (c.handle n).2, ?_, ?_, ?_⟩, fun hsame => absurd hsame hchanged⟩
  · rw [dispatch_audit hact, haudit]
  · rw [hcaller, hactor]
  · rwa [htarget]

theorem Writes.names (hw : Writes id now db db') (hfresh : ∀ r ∈ db.memories, r.updatedAt ≠ now) : Names db db' id := by
  obtain ⟨r, hr, hstamp⟩ := hw.stamped
  refine .memory fun hsame => ?_
  rw [hr] at hsame
  exact hfresh r (Db.get_eq_some.mp hsame.symm).1 hstamp

theorem names_of_removed {r : MemoryRow} (hr : db.get id = some r) (hgone : db'.get id = none) : Names db db' id := by
  refine .memory fun hsame => ?_
  rw [hgone, hr] at hsame
  cases hsame

/-- A parameter `id` is the target of the event. -/
theorem dispatchTarget_of_id {params : Json} (hid : strParam params "id" = some id) : dispatchTarget params = id := by
  unfold strParam at hid
  obtain ⟨j, hj, hstr⟩ := Option.bind_eq_some_iff.mp hid
  unfold dispatchTarget
  rw [hj, Option.some_or, Option.bind_some, hstr, Option.getD_some]

end Records

/-! ## Decisions -/

section Decisions

variable {p : Process} {t : Tick} {params : Json} {mcpClient : Option String} {s : ApprovalApi.Server} {db : Db} {id agentId now : String}
  {pa : PendingAction}

theorem approveBy_of_pending (hpa : db.getPendingAction id = some pa) (hst : pa.status = "pending") (approver now failure : String) :
    ∃ db' pa', db.approveBy id approver now failure = (db', .approved) ∧ db'.getPendingAction id = some pa' ∧ pa'.status = "approved" := by
  have hchanges : (db.decidePendingAction id true approver now).2 = true := by
    unfold Db.getPendingAction at hpa
    obtain ⟨r, hr, rfl⟩ := Option.map_eq_some_iff.mp hpa
    unfold Db.decidePendingAction
    simp only [hr, Option.any_some]
    exact decide_eq_true hst
  obtain ⟨-, pa', -, hpa', -, hst', -⟩ := decide_closes db id true approver now hchanges
  refine ⟨_, pa', ?_, hpa', hst'⟩
  unfold Db.approveBy
  rw [show db.decidePendingAction id true approver now = ((db.decidePendingAction id true approver now).1, true) from
    Prod.ext rfl hchanges]
  rfl

/-- An approval is rejected and changes nothing, or is one that the agent may give; it then changes the action, unless the agent has
voted. -/
theorem approve_cases (db : Db) (id agentId now : String) :
    (∃ reason, db.approveWithApproverType id agentId now now = (db, .rejected reason)) ∨
    ∃ pa, db.getPendingAction id = some pa ∧ pa.status = "pending" ∧ MayApprove db pa agentId ∧ (HasVoted db pa agentId ∨
      ∃ db' outcome, db.approveWithApproverType id agentId now now = (db', outcome) ∧ (∀ reason, outcome ≠ .rejected reason) ∧
        db'.getPendingAction id ≠ some pa) := by
  unfold Db.approveWithApproverType
  cases hpa : db.getPendingAction id with
  | none => exact Or.inl ⟨_, rfl⟩
  | some pa =>
    simp only
    by_cases hst : pa.status ≠ "pending"
    · rw [if_pos hst]
      exact Or.inl ⟨_, rfl⟩
    rw [if_neg hst]
    rw [not_not] at hst
    have hby : ∀ approver failure, ∃ db' outcome, db.approveBy id approver now failure = (db', outcome) ∧
        (∀ reason, outcome ≠ .rejected reason) ∧ db'.getPendingAction id ≠ some pa := by
      intro approver failure
      obtain ⟨db', pa', heq, hpa', hst'⟩ := approveBy_of_pending hpa hst approver now failure
      refine ⟨db', .approved, heq, nofun, fun hsame => ?_⟩
      cases hpa'.symm.trans hsame
      rw [hst] at hst'
      exact absurd hst' (by decide)
    cases happ : ((db.resolveGovernancePolicy pa.ns).map (·.approver)).getD .human with
    | human => exact Or.inr ⟨pa, rfl, hst, by unfold MayApprove; rw [happ]; trivial, Or.inr (hby _ _)⟩
    | agent designated =>
      simp only
      split_ifs with hother
      · exact Or.inl ⟨_, rfl⟩
      · exact Or.inr ⟨pa, rfl, hst, by unfold MayApprove; rw [happ]; exact not_not.mp hother, Or.inr (hby _ _)⟩
    | consensus quorum =>
      simp only
      by_cases hreg : db.isRegisteredAgent agentId = true
      · simp only [hreg, Bool.not_true, Bool.false_eq_true, if_false]
        have hmay : MayApprove db pa agentId := by unfold MayApprove; rw [happ]; exact hreg
        have hvoted := addVote_find ⟨toAsciiLowercase agentId, now⟩ hpa hst
        split_ifs with hagain hquorum
        · exact Or.inr ⟨pa, rfl, hst, hmay, Or.inl ⟨⟨quorum, happ⟩, hagain⟩⟩
        · obtain ⟨db', pa', heq, hpa', hst'⟩ := approveBy_of_pending hvoted hst (toAsciiLowercase agentId) now
            "decision write failed at consensus threshold"
          refine Or.inr ⟨pa, rfl, hst, hmay, Or.inr ⟨db', .approved, heq, nofun, fun hsame => ?_⟩⟩
          cases hpa'.symm.trans hsame
          rw [hst] at hst'
          exact absurd hst' (by decide)
        · refine Or.inr ⟨pa, rfl, hst, hmay, Or.inr ⟨_, _, rfl, nofun, fun hsame => ?_⟩⟩
          have hlonger := congrArg (fun o => o.map fun pa : PendingAction => pa.approvals.length) (hvoted.symm.trans hsame)
          simp at hlonger
      · simp only [hreg, Bool.not_false, if_true]
        exact Or.inl ⟨_, rfl⟩

theorem names_of_decided {db' : Db} (hpa : db.getPendingAction id = some pa) (hne : db'.getPendingAction id ≠ some pa) :
    Names db db' id := by
  refine .action fun hsame => hne ?_
  unfold Db.getPendingAction at hpa ⊢
  rw [hsame, hpa]

theorem handlePendingApprove_cases (memoryFromValue : Json → Except String Memory) (p : Process) (t : Tick) (params : Json)
    (mcpClient : Option String) (s : ApprovalApi.Server) :
    (∃ e, handlePendingApprove memoryFromValue p t params mcpClient s = (s, .error e)) ∨
    ∃ id agentId pa, AdmittedMcp p params mcpClient id agentId ∧ s.db.getPendingAction id = some pa ∧ pa.status = "pending" ∧
      MayApprove s.db pa agentId ∧ (HasVoted s.db pa agentId ∨
        (handlePendingApprove memoryFromValue p t params mcpClient s).1.db.getPendingAction id ≠ some pa) := by
  unfold handlePendingApprove
  cases hparam : strParam params "id" with
  | none => exact Or.inl ⟨_, rfl⟩
  | some id =>
    simp only
    cases hid : Validate.validateId id with
    | error e => exact Or.inl ⟨e, rfl⟩
    | ok u =>
      simp only
      cases hagent : p.resolveAgentId (strParam params "agent_id") mcpClient with
      | error e => exact Or.inl ⟨e, rfl⟩
      | ok agentId =>
        simp only
        rcases approve_cases s.db id agentId t.now with ⟨reason, heq⟩ | ⟨pa, hpa, hst, hmay, hvoted | ⟨db', outcome, heq, hok, hne⟩⟩
        · rw [heq]
          exact Or.inl ⟨_, rfl⟩
        · exact Or.inr ⟨id, agentId, pa, ⟨hparam, hid, hagent⟩, hpa, hst, hmay, Or.inl hvoted⟩
        · refine Or.inr ⟨id, agentId, pa, ⟨hparam, hid, hagent⟩, hpa, hst, hmay, Or.inr ?_⟩
          rw [heq]
          cases outcome with
          | rejected reason => exact absurd rfl (hok reason)
          | pending votes quorum => exact hne
          | approved =>
            simp only
            cases hx : db'.executePendingAction ⟨memoryFromValue, t.newId id, t.now⟩ id with
            | error e => exact hne
            | ok res =>
              obtain ⟨db'', executed⟩ := res
              rw [← getPendingAction_execute hx] at hne
              exact hne

theorem handlePendingReject_cases (p : Process) (t : Tick) (params : Json) (mcpClient : Option String) (s : ApprovalApi.Server) :
    (∃ e, handlePendingReject p t params mcpClient s = (s, .error e)) ∨
    ∃ id agentId pa, AdmittedMcp p params mcpClient id agentId ∧ s.db.getPendingAction id = some pa ∧ pa.status = "pending" ∧
      (handlePendingReject p t params mcpClient s).1.db.getPendingAction id ≠ some pa := by
  unfold handlePendingReject
  cases hparam : strParam params "id" with
  | none => exact Or.inl ⟨_, rfl⟩
  | some id =>
    simp only
    cases hid : Validate.validateId id with
    | error e => exact Or.inl ⟨e, rfl⟩
    | ok u =>
      simp only
      cases hagent : p.resolveAgentId (strParam params "agent_id") mcpClient with
      | error e => exact Or.inl ⟨e, rfl⟩
      | ok agentId =>
        simp only
        have hclose := decide_closes s.db id false agentId t.now
        have hkeep : (s.db.decidePendingAction id false agentId t.now).2 = false →
            (s.db.decidePendingAction id false agentId t.now).1 = s.db := Db.decidePendingAction_eq_self
        cases hd : s.db.decidePendingAction id false agentId t.now with
        | mk db changed =>
          rw [hd] at hclose hkeep
          cases changed with
          | false =>
            have hsame : db = s.db := hkeep rfl
            rw [hsame]
            exact Or.inl ⟨_, rfl⟩
          | true =>
            obtain ⟨pa, pa', hpa, hpa', hst, hst', -⟩ := hclose rfl
            refine Or.inr ⟨id, agentId, pa, ⟨hparam, hid, hagent⟩, hpa, hst, fun hsame => ?_⟩
            cases hpa'.symm.trans hsame
            rw [hst] at hst'
            exact absurd hst' (by decide)

end Decisions

/-! ## One tool after the other -/

section Calls

variable {c : Call h} {n : Node}

theorem recorded_store (hc : c.tool = .store) (hfresh : c.Fresh n) (htracked : c.Tracked n) : Recorded c n (c.dispatch n).1 := by
  have hown : c.tool.action = none := by rw [hc]; rfl
  have hrun : c.handle n = handleStore h c.draw c.params c.mcpClient n := by unfold Call.handle; rw [hc]
  unfold Call.Tracked at htracked
  rw [hc] at htracked
  rcases handleStore_cases h c.draw c.params c.mcpClient n with ⟨e, heq⟩ | ⟨req, hreq, ⟨j, heq⟩ | ⟨hpermits, ⟨db, j, hgate, -, -⟩ |
    ⟨hgate, heq⟩⟩⟩
  · exact recorded_of_refused ⟨n, e, hrun.trans heq, Kept.refl n⟩
  · rw [dispatch_of_own hown, hrun, heq]
    exact recorded_of_kept (Kept.refl n)
  · exact absurd hgate ((htracked req hreq hpermits).1 db _)
  · have hnone := (htracked req hreq hpermits).2 hgate
    obtain ⟨hstamp, hagent⟩ := storeRequest_spec hreq
    rcases storeAllowed_cases h c.mcpClient n hstamp with ⟨n', e, hs, hkept⟩ | ⟨dup, db, j, hdup, -, -⟩ | ⟨n', id, j, hs, hstores, haudit⟩
    · exact recorded_of_refused ⟨n', e, hrun.trans (heq.trans hs), hkept⟩
    · rw [hnone] at hdup
      cases hdup
    · rw [dispatch_of_own hown, hrun, heq, hs]
      refine recorded_of_own haudit ?_ (hstores.names hfresh)
      unfold Call.caller
      rw [hc]
      exact hagent

theorem recorded_update (hc : c.tool = .update) (hfresh : c.Fresh n) (htracked : c.Tracked n) : Recorded c n (c.dispatch n).1 := by
  have hact : c.tool.action = some .update := by rw [hc]; rfl
  have hrun : c.handle n = handleUpdate h c.draw c.params n := by unfold Call.handle; rw [hc]
  unfold Call.Tracked at htracked
  rw [hc] at htracked
  rcases handleUpdate_cases h c.draw c.params n with ⟨⟨e, heq⟩, -⟩ | ⟨target, u, db₁, db, changed, j, hrow, hreq, hu, hdb, heq⟩
  · exact recorded_of_refused ⟨n, e, hrun.trans heq, Kept.refl n⟩
  · have hfree : ¬n.db.Collides target (preservedUpdate u target) :=
      (Db.update_isOk_iff c.draw.now.text hrow.get).mp ⟨db₁, changed, hu⟩
    obtain ⟨hcaller, htarget⟩ := htracked target u hrow hreq hfree
    have hnames : Names n.db db (dispatchTarget c.params) := htarget ▸ (handleUpdate_writes hrow hu hdb).1.names hfresh
    rw [← hrun] at heq
    exact recorded_of_signed hact (by rw [heq]) hcaller (by rw [heq]; exact hnames.not_sameRows) (by rw [heq]; exact Or.inl hnames)

theorem recorded_delete (hc : c.tool = .delete) (htracked : c.Tracked n) : Recorded c n (c.dispatch n).1 := by
  have hown : c.tool.action = none := by rw [hc]; rfl
  have hrun : c.handle n = handleDelete h c.draw c.params c.mcpClient n := by unfold Call.handle; rw [hc]
  have hcaller : c.caller = h.process.resolveAgentId (strParam c.params "agent_id") c.mcpClient := by unfold Call.caller; rw [hc]
  unfold Call.Tracked at htracked
  rw [hc] at htracked
  rcases handleDelete_cases h c.draw c.params c.mcpClient n with ⟨e, heq⟩ | ⟨j, heq⟩ | ⟨target, agentId, hrow, hagent, hpermits,
    ⟨db, j, hgate, -, -⟩ | ⟨hgate, heq⟩⟩
  · exact recorded_of_refused ⟨n, e, hrun.trans heq, Kept.refl n⟩
  · rw [dispatch_of_own hown, hrun, heq]
    exact recorded_of_kept (Kept.refl n)
  · exact absurd hgate ((htracked target agentId hrow (hcaller.trans hagent) hpermits).1 db _)
  · have howner := (htracked target agentId hrow (hcaller.trans hagent) hpermits).2 hgate
    rw [dispatch_of_own hown, hrun, heq]
    refine recorded_of_own rfl ?_ (names_of_removed hrow.get ((Db.get_delete n.db target.id target.id).trans (if_pos rfl)))
    rw [hcaller, hagent]
    exact congrArg Except.ok howner.symm

theorem recorded_promote (hc : c.tool = .promote) (hfresh : c.Fresh n) (htracked : c.Tracked n) : Recorded c n (c.dispatch n).1 := by
  have hact : c.tool.action = some .promote := by rw [hc]; rfl
  have hrun : c.handle n = handlePromote h c.draw c.params c.mcpClient n := by unfold Call.handle; rw [hc]
  have hcaller : c.caller = h.process.resolveAgentId (strParam c.params "agent_id") c.mcpClient := by unfold Call.caller; rw [hc]
  unfold Call.Tracked at htracked
  rw [hc] at htracked
  rcases handlePromote_cases h c.draw c.params c.mcpClient n with ⟨e, heq⟩ | ⟨target, agentId, hrow, hagent, ⟨db, j, hgate, -, -⟩ |
    ⟨hgate, heq⟩⟩
  · exact recorded_of_refused ⟨n, e, hrun.trans heq, Kept.refl n⟩
  · exact absurd hgate ((htracked target agentId hrow (hcaller.trans hagent)).1 db _)
  · obtain ⟨hplain, hclone⟩ := (htracked target agentId hrow (hcaller.trans hagent)).2 hgate
    rcases promoteAllowed_cases c.draw c.params hrow.get with ⟨toNs, hto, ⟨⟨e, hp⟩, -⟩ | ⟨hvalid, db, cloneId, j, hp, -⟩⟩ |
      ⟨hto, db, changed, j, hu, hp⟩
    · exact recorded_of_refused ⟨n, e, hrun.trans (heq.trans hp), Kept.refl n⟩
    · obtain ⟨source, db₁, hsource, hself, hanc, -, -⟩ := Db.promoteToNamespace_cases hp
      cases hrow.get.symm.trans hsource
      have hempty : toNs ≠ "" := by
        rintro rfl
        unfold Db.promoteToNamespace at hp
        rw [if_pos rfl] at hp
        cases hp
      exact absurd hanc (hclone toNs hto hvalid hempty hself)
    · obtain ⟨hsigns, htarget⟩ := hplain hto
      have hnames : Names n.db db (dispatchTarget c.params) := htarget ▸ (writes_of_update hu).names hfresh
      rw [← heq, ← hrun] at hp
      refine recorded_of_signed hact (by rw [hp]) ?_ (by rw [hp]; exact hnames.not_sameRows) (by rw [hp]; exact Or.inl hnames)
      rw [hcaller, hagent, show dispatchAgent c.params c.mcpClient = agentId from hsigns]

theorem recorded_forget (hc : c.tool = .forget) (htracked : c.Tracked n) : Recorded c n (c.dispatch n).1 := by
  have hact : c.tool.action = some .forget := by rw [hc]; rfl
  have hrun : c.handle n = handleForget h c.draw c.params n := by unfold Call.handle; rw [hc]
  unfold Call.Tracked at htracked
  rw [hc] at htracked
  rcases handleForget_cases h c.draw c.params n with ⟨-, e, heq⟩ | ⟨hfilter, hdry, -⟩ | ⟨hforgets, db, j, heq, -, hget⟩
  · exact recorded_of_refused ⟨n, e, hrun.trans heq, Kept.refl n⟩
  · exact absurd (hdry.symm.trans (htracked hfilter).1) (by decide)
  · obtain ⟨-, ⟨r, hr, hselected⟩, hcaller, htarget⟩ := htracked hforgets.2
    have hnames : ∀ r ∈ n.db.memories, h.forgets c.params r → Names n.db db r.id := by
      intro r hr hselected
      refine names_of_removed (Db.get_of_mem hr) ?_
      rw [hget, Db.get_of_mem hr, Option.filter_some, hselected, Bool.not_true, if_neg Bool.false_ne_true]
    rw [← hrun] at heq
    refine recorded_of_signed hact (by rw [heq]) hcaller (by rw [heq]; exact (hnames r hr hselected).not_sameRows) ?_
    rw [heq]
    rcases htarget with hstar | ⟨x, hx, hxselected, hxid⟩
    · exact Or.inr ⟨by rw [hc]; rfl, hstar⟩
    · exact Or.inl (hxid ▸ hnames x hx hxselected)

theorem recorded_link (hc : c.tool = .link) (htracked : c.Tracked n) : Recorded c n (c.dispatch n).1 := by
  have hact : c.tool.action = some .link := by rw [hc]; rfl
  have hrun : c.handle n = handleLink h c.draw c.params n := by unfold Call.handle; rw [hc]
  unfold Call.Tracked at htracked
  rw [hc] at htracked
  rcases handleLink_cases h c.draw c.params n with ⟨n', e, heq, hkept⟩ | ⟨sourceId, targetId, relation, agentId, hreq, hagent,
    ⟨j, hasks, -⟩ | ⟨hpermits, hcharge, hends, quotas, columns, j, hcolumns, heq⟩⟩
  · exact recorded_of_refused ⟨n', e, hrun.trans heq, hkept⟩
  · exact absurd hasks (htracked sourceId targetId relation agentId hreq hagent).1
  · obtain ⟨hnew, hcaller, htarget⟩ :=
      (htracked sourceId targetId relation agentId hreq hagent).2 hpermits hcharge hends columns hcolumns
    have hadded : Db.outboundRow sourceId targetId relation c.draw.now.text columns ∉ n.db.links := by
      intro hmem
      cases (Table.find_of_mem hmem).symm.trans hnew
    have hnames : Names n.db (n.db.insertLink (Db.outboundRow sourceId targetId relation c.draw.now.text columns))
        (dispatchTarget c.params) :=
      .link _ (fun _ => rfl) (fun hsame => hadded (hsame.mp (Db.mem_insertLink.mpr (Or.inr ⟨rfl, hnew⟩)))) htarget
    rw [← hrun] at heq
    exact recorded_of_signed hact (by rw [heq]) hcaller (by rw [heq]; exact hnames.not_sameRows) (by rw [heq]; exact Or.inl hnames)

theorem recorded_consolidate (hc : c.tool = .consolidate) (htracked : c.Tracked n) : Recorded c n (c.dispatch n).1 := by
  have hact : c.tool.action = some .consolidate := by rw [hc]; rfl
  have hrun : c.handle n = handleConsolidate h c.draw c.params c.mcpClient n := by unfold Call.handle; rw [hc]
  have hcaller : c.caller = h.process.resolveAgentId (strParam c.params "agent_id") c.mcpClient := by unfold Call.caller; rw [hc]
  unfold Call.Tracked at htracked
  rw [hc] at htracked
  rcases handleConsolidate_cases h c.draw c.params c.mcpClient n with ⟨e, heq⟩ | ⟨req, agentId, hreq, hagent, ⟨j, hasks, -⟩ |
    ⟨hpermits, db, newId, text, j, hconsolidate, heq⟩⟩
  · exact recorded_of_refused ⟨n, e, hrun.trans heq, Kept.refl n⟩
  · exact absurd hasks (htracked req agentId hreq (hcaller.trans hagent)).1
  · obtain ⟨fold, hcollect, hmeta, hfree, hkey⟩ := Db.consolidate_isOk_iff.mp ⟨_, hconsolidate⟩
    obtain ⟨hsigns, htarget⟩ :=
      (htracked req agentId hreq (hcaller.trans hagent)).2 hpermits fold hcollect hmeta hfree hkey
    obtain ⟨new, -, -, -, hsources, hget⟩ := get_consolidate hconsolidate
    obtain ⟨f, -, hrefresh⟩ := get_refresh h.app db newId text
    have hnew : Names n.db (h.app.refresh db newId text) newId := by
      refine .memory fun hsame => ?_
      rw [hrefresh, hget, if_pos rfl, Option.map_some, Db.consolidate_id hconsolidate, hfree] at hsame
      cases hsame
    have hsource : ∀ id ∈ req.ids, Names n.db (h.app.refresh db newId text) id := by
      intro id hid
      obtain ⟨r, hr⟩ := Option.ne_none_iff_exists'.mp (Db.get_of_collect hcollect id hid)
      refine names_of_removed hr ?_
      rw [hrefresh, hget, if_neg fun hsame : id = newId => hsources (hsame ▸ hid), if_pos hid, Option.map_none]
    rw [← hrun] at heq
    refine recorded_of_signed hact (by rw [heq]) ?_ (by rw [heq]; exact hnew.not_sameRows) ?_
    · rw [hcaller, hagent, show dispatchAgent c.params c.mcpClient = agentId from hsigns]
    · rw [heq]
      rcases htarget with hstar | hmem
      · exact Or.inr ⟨by rw [hc]; rfl, hstar⟩
      · rcases List.mem_cons.mp hmem with hid | hid
        · rw [hid, ← Db.consolidate_id hconsolidate]
          exact Or.inl hnew
        · exact Or.inl (hsource _ hid)

theorem recorded_pendingApprove (hc : c.tool = .pendingApprove) (htracked : c.Tracked n) : Recorded c n (c.dispatch n).1 := by
  have hact : c.tool.action = some .approve := by rw [hc]; rfl
  have hrun : c.handle n = onServer n (handlePendingApprove h.app.memoryFromValue h.process c.tick c.params c.mcpClient n.toServer) := by
    unfold Call.handle
    rw [hc]
  unfold Call.Tracked at htracked
  rw [hc] at htracked
  rcases handlePendingApprove_cases h.app.memoryFromValue h.process c.tick c.params c.mcpClient n.toServer with ⟨e, heq⟩ |
    ⟨id, agentId, pa, hadmitted, hpa, hst, hmay, hcase⟩
  · exact recorded_of_refused ⟨n, e, by rw [hrun, heq]; rfl, Kept.refl n⟩
  · obtain ⟨hsigns, hnot⟩ := htracked id agentId pa hadmitted hpa hst hmay
    rcases hcase with hvoted | hne
    · exact absurd hvoted hnot
    have hnames : Names n.db (c.handle n).1.db (dispatchTarget c.params) := by
      rw [hrun, dispatchTarget_of_id hadmitted.param]
      exact names_of_decided hpa hne
    refine recorded_of_signed hact (by rw [hrun]; rfl) ?_ hnames.not_sameRows (Or.inl hnames)
    unfold Call.caller
    rw [hc, show dispatchAgent c.params c.mcpClient = agentId from hsigns]
    exact hadmitted.agent

theorem recorded_pendingReject (hc : c.tool = .pendingReject) (htracked : c.Tracked n) : Recorded c n (c.dispatch n).1 := by
  have hact : c.tool.action = some .reject := by rw [hc]; rfl
  have hrun : c.handle n = onServer n (handlePendingReject h.process c.tick c.params c.mcpClient n.toServer) := by
    unfold Call.handle
    rw [hc]
  unfold Call.Tracked at htracked
  rw [hc] at htracked
  rcases handlePendingReject_cases h.process c.tick c.params c.mcpClient n.toServer with ⟨e, heq⟩ |
    ⟨id, agentId, pa, hadmitted, hpa, hst, hne⟩
  · exact recorded_of_refused ⟨n, e, by rw [hrun, heq]; rfl, Kept.refl n⟩
  · have hsigns := htracked id agentId pa hadmitted hpa hst
    have hnames : Names n.db (c.handle n).1.db (dispatchTarget c.params) := by
      rw [hrun, dispatchTarget_of_id hadmitted.param]
      exact names_of_decided hpa hne
    refine recorded_of_signed hact (by rw [hrun]; rfl) ?_ hnames.not_sameRows (Or.inl hnames)
    unfold Call.caller
    rw [hc, show dispatchAgent c.params c.mcpClient = agentId from hsigns]
    exact hadmitted.agent

end Calls

theorem recorded_of_tracked (c : Call h) {n : Node} (hfresh : c.Fresh n) (htracked : c.Tracked n) :
    Recorded c n (c.dispatch n).1 := by
  cases hc : c.tool with
  | store => exact recorded_store hc hfresh htracked
  | update => exact recorded_update hc hfresh htracked
  | delete => exact recorded_delete hc htracked
  | promote => exact recorded_promote hc hfresh htracked
  | forget => exact recorded_forget hc htracked
  | link => exact recorded_link hc htracked
  | consolidate => exact recorded_consolidate hc htracked
  | pendingApprove => exact recorded_pendingApprove hc htracked
  | pendingReject => exact recorded_pendingReject hc htracked

def Call.next (n : Node) (c : Call h) : Node := (c.dispatch n).1

/-- In a run whose clock moves on, and whose calls all avoid the paths on which the record goes wrong, every call is on record. -/
theorem run_recorded (n : Node) (cs : List (Call h)) (hfresh : Machine.Meets Call.next (fun n c => c.Fresh n) n cs)
    (htracked : Machine.Meets Call.next (fun n c => c.Tracked n) n cs) :
    Machine.Meets Call.next (fun n c => Recorded c n (Call.next n c)) n cs :=
  Machine.meets_mono (fun _ c hboth => recorded_of_tracked c hboth.1 hboth.2) (Machine.meets_both hfresh htracked)

def call (tool : Tool) (params : Json) : Call host := ⟨tool, params, none, draw nine ["m-2", "p-1"], tickAt nine.text⟩

/-- The parameters with which `alice` edits and deletes the plan. -/
def aliceEdits : Json := .obj [("agent_id", .str "alice"), ("content", .str "shipped"), ("id", .str "m-2")]

def aliceDeletes : Json := .obj [("agent_id", .str "alice"), ("id", .str "m-2")]

def edits : Call host := ⟨.update, aliceEdits, none, draw ten ["m-3", "p-2"], tickAt ten.text⟩

def deletes : Call host := ⟨.delete, aliceDeletes, none, draw eleven ["m-4", "p-3"], tickAt eleven.text⟩

theorem targetGate_of_open (c : Call h) (action : GovernedAction) (agentId : String) (payload : Json) {n : Node} {target : MemoryRow}
    (hopen : n.db.resolveGovernancePolicy target.ns = none) :
    c.targetGate n action target agentId payload = .ok (n.db, .allow) := by
  unfold Call.targetGate Db.enforceGovernance
  rw [hopen]
  split_ifs <;> rfl

/-- A memory is stored, edited and deleted, each time by `alice`. -/
def threeCalls : List (Call host) := [call .store (storeParams "Plan" "final"), edits, deletes]

theorem calls_recorded : Machine.Meets Call.next (fun n c => Recorded c n (Call.next n c)) (.start .empty) threeCalls ∧
    (threeCalls.foldl Call.next (.start .empty)).audit.map (fun e => (e.actor.agentId, e.target.memoryId)) =
      [("alice", "m-2"), ("alice", "m-2"), ("alice", "m-2")] := by
  have hstored : ((threeCalls.take 1).foldl Call.next (.start .empty)).db.memories.rows.map (fun r => (r.id, r.updatedAt)) =
      [("m-2", nine.text)] := by decide +kernel
  have hedited : ((threeCalls.take 2).foldl Call.next (.start .empty)).db.memories.rows.map
      (fun r => (r.id, r.ns, Db.ownerOf r.toMemory, r.updatedAt)) = [("m-2", "notes", some "alice", ten.text)] := by decide +kernel
  refine ⟨run_recorded _ _ ⟨fun r hr => ?_, fun r hr => ?_, fun r hr => ?_, trivial⟩
    ⟨fun req hreq _ => ?_, fun target u hrow _ _ => ⟨rfl, ?_⟩, fun target agentId hrow hagent _ => ?_, trivial⟩, by decide +kernel⟩
  · exact absurd hr List.not_mem_nil
  · have hmem := hstored ▸ List.mem_map_of_mem (f := fun r : MemoryRow => (r.id, r.updatedAt)) hr
    rw [(Prod.mk.inj (List.mem_singleton.mp hmem)).2]
    decide
  · have hmem := hedited ▸ List.mem_map_of_mem (f := fun r : MemoryRow => (r.id, r.ns, Db.ownerOf r.toMemory, r.updatedAt)) hr
    simp only [List.mem_singleton, Prod.mk.injEq] at hmem
    rw [hmem.2.2.2]
    decide
  · have hplan : host.storeRequest (draw nine ["m-2", "p-1"]) (storeParams "Plan" "final") none Db.empty = .ok planRequest := by
      decide
    cases hplan.symm.trans hreq
    have hgate : (call .store (storeParams "Plan" "final")).storeGate (.start .empty) planRequest = .ok ((Node.start .empty).db, .allow) :=
      rfl
    refine ⟨fun db id hpending => ?_, fun _ => ?_⟩
    · cases hgate.symm.trans hpending
    · refine Option.eq_none_iff_forall_not_mem.mpr fun dup hdup => ?_
      exact absurd (exactDup_spec hdup).1 List.not_mem_nil
  · have hmem := hstored ▸ List.mem_map_of_mem (f := fun r : MemoryRow => (r.id, r.updatedAt)) (Db.get_eq_some.mp hrow.get).1
    exact (Prod.mk.inj (List.mem_singleton.mp hmem)).1.symm
  · have hmem := hedited ▸ List.mem_map_of_mem (f := fun r : MemoryRow => (r.id, r.ns, Db.ownerOf r.toMemory, r.updatedAt))
      (Db.get_eq_some.mp hrow.get).1
    simp only [List.mem_singleton, Prod.mk.injEq] at hmem
    obtain ⟨-, hns, howner, -⟩ := hmem
    have hopen : ((threeCalls.take 2).foldl Call.next (.start .empty)).db.resolveGovernancePolicy "notes" = none := by decide +kernel
    have hgate := fun payload => targetGate_of_open deletes .delete agentId payload (hns.symm ▸ hopen)
    refine ⟨fun db id hpending => ?_, fun _ => ?_⟩
    · cases (hgate _).symm.trans hpending
    · have hcaller : deletes.caller = .ok "alice" := rfl
      cases hcaller.symm.trans hagent
      rw [howner]
      rfl

/-- The parameters with which `bob` deletes the plan. -/
def bobDeletes : Json := .obj [("agent_id", .str "bob"), ("id", .str "m-1")]

/-- With the plan of `alice` in the notes: a store that finds it rewrites it in silence; a dry run is on record as a success; and the
deletion by `bob` is on record under `alice`. -/
theorem off_the_record :
    (∃ c : Call (host.searching (fun _ _ => true) fun _ _ _ _ => true), c.tool = .store ∧
      ((Call.next (.start (.single (plan 5))) c).db.get "m-1").map (fun r => r.content) = some "final" ∧
      (Call.next (.start (.single (plan 5))) c).audit = [] ∧
      ¬Recorded c (.start (.single (plan 5))) (Call.next (.start (.single (plan 5))) c)) ∧
    (∃ c : Call host, c.tool = .forget ∧ (Call.next (.start (.single (plan 5))) c).db = Db.single (plan 5) ∧
      (Call.next (.start (.single (plan 5))) c).audit.map (fun e => e.outcome) = [.allow] ∧
      ¬Recorded c (.start (.single (plan 5))) (Call.next (.start (.single (plan 5))) c)) ∧
    ((Call.next (.start (.single (plan 5))) (call .delete bobDeletes)).audit.map (fun e => e.actor.agentId) = ["alice"] ∧
      (call .delete bobDeletes).caller = .ok "bob" ∧
      ¬Recorded (call .delete bobDeletes) (.start (.single (plan 5))) (Call.next (.start (.single (plan 5))) (call .delete bobDeletes))) := by
  refine ⟨⟨⟨.store, storeParams "Plan" "final", none, draw nine ["m-2", "p-1"], tickAt nine.text⟩, rfl, ?_⟩,
    ⟨call .forget (.obj [("dry_run", .bool true), ("namespace", .str "notes")]), rfl, ?_⟩, ?_⟩
  · have hcontent : ((Call.next (h := host.searching (fun _ _ => true) fun _ _ _ _ => true) (.start (.single (plan 5)))
        ⟨.store, storeParams "Plan" "final", none, draw nine ["m-2", "p-1"], tickAt nine.text⟩).db.get "m-1").map
        (fun r => r.content) = some "final" := by decide +kernel
    have hsilent : (Call.next (h := host.searching (fun _ _ => true) fun _ _ _ _ => true) (.start (.single (plan 5)))
        ⟨.store, storeParams "Plan" "final", none, draw nine ["m-2", "p-1"], tickAt nine.text⟩).audit = [] := by decide +kernel
    refine ⟨hcontent, hsilent, fun hrecorded => ?_⟩
    obtain ⟨e, he, -⟩ := hrecorded.changed fun hsame => by
      rw [hsame.memories] at hcontent
      exact absurd hcontent (by decide)
    rw [hsilent] at he
    cases he
  · refine ⟨rfl, by decide, fun hrecorded => ?_⟩
    obtain ⟨es, hes, hnone⟩ := hrecorded.unchanged ⟨fun _ => rfl, fun _ => Iff.rfl, fun _ => rfl⟩
    cases es with
    | nil => cases hes
    | cons e es =>
      refine hnone e List.mem_cons_self ?_
      have hfirst := congrArg (fun l : List EventBuilder => l.map fun e => e.outcome) hes
      exact ((List.cons.inj hfirst).1).symm
  · have hactor : (Call.next (.start (.single (plan 5))) (call .delete bobDeletes)).audit.map (fun e => e.actor.agentId) = ["alice"] := by
      decide
    have hcaller : (call .delete bobDeletes).caller = .ok "bob" := rfl
    refine ⟨hactor, hcaller, fun hrecorded => ?_⟩
    obtain ⟨e, he, hby, -⟩ := hrecorded.changed fun hsame => by
      have hgone : (Call.next (.start (.single (plan 5))) (call .delete bobDeletes)).db.get "m-1" = none := by decide
      rw [hsame.memories] at hgone
      exact absurd hgone (by decide)
    rw [he] at hactor
    have halice : e.actor.agentId = "alice" := (List.cons.inj hactor).1
    rw [hcaller, halice] at hby
    exact absurd hby (by decide)

end Mcp

end AiMemory
