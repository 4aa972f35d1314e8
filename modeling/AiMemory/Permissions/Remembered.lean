import AiMemory.Permissions.Synthetic

/-!
# A change of mind

The registry of remembered decisions only grows: `record_synthetic_rule` drops a decision that is there and appends any
other, so a tuple may be both approved and denied. The evaluator is deny-first and does not ask which came last
(`remembered_denials_decide`).
-/

namespace AiMemory

namespace Permissions

def recorded (seq : List SyntheticPermissionRule) : List SyntheticPermissionRule := seq.foldl recordSyntheticRule []

/-- Two entries about the same action type, namespace and agent. -/
def SameTuple (x e : SyntheticPermissionRule) : Prop := x.actionType = e.actionType ∧ x.ns = e.ns ∧ x.agentId = e.agentId

instance (x e : SyntheticPermissionRule) : Decidable (SameTuple x e) := inferInstanceAs (Decidable (_ ∧ _ ∧ _))

def lastDecision (seq : List SyntheticPermissionRule) (e : SyntheticPermissionRule) : Option String :=
  ((seq.filter fun x => SameTuple x e).getLast?).map fun x => x.decision

/-- A namespace or an agent with a wildcard. -/
def Starred (x : SyntheticPermissionRule) : Prop := '*' ∈ x.ns.toList ∨ ∃ agent ∈ x.agentId, '*' ∈ agent.toList

/-- The entry yields a rule that applies to the context. -/
def Covers (x : SyntheticPermissionRule) (ctx : PermissionContext) : Prop :=
  opMatchesActionType ctx.op x.actionType = true ∧ globMatches x.ns ctx.ns = true ∧
    globMatches (x.agentId.getD "*") ctx.agentId = true

section Registry

variable {seq : List SyntheticPermissionRule} {x e : SyntheticPermissionRule} {ctx : PermissionContext} {mode : PermissionsMode}
  {k : Kind}

/-- What does not depend on the time of an entry holds of some entry of the registry if it was recorded. -/
theorem exists_recorded_iff {P : SyntheticPermissionRule → Prop}
    (hP : ∀ x y, SameTuple x y → x.decision = y.decision → P y → P x) : (∃ x ∈ recorded seq, P x) ↔ ∃ x ∈ seq, P x := by
  suffices h : ∀ rules, (∃ x ∈ seq.foldl recordSyntheticRule rules, P x) ↔ (∃ x ∈ rules, P x) ∨ ∃ x ∈ seq, P x by
    simpa [recorded] using h []
  induction seq with
  | nil => simp
  | cons y seq ih =>
    intro rules
    have hstep : (∃ x ∈ recordSyntheticRule rules y, P x) ↔ (∃ x ∈ rules, P x) ∨ P y := by
      unfold recordSyntheticRule
      split_ifs with hany
      · -- the entry is there, with another time
        refine (or_iff_left_of_imp fun hy => ?_).symm
        obtain ⟨x, hx, hsame⟩ := List.any_eq_true.mp hany
        obtain ⟨htype, hns, hagent, hdecision⟩ := of_decide_eq_true hsame
        exact ⟨x, hx, hP x y ⟨htype, hns, hagent⟩ hdecision hy⟩
      · simp only [List.mem_append, List.mem_singleton, or_and_right, exists_or, exists_eq_left]
    rw [List.foldl_cons, ih, hstep, or_assoc]
    simp only [List.mem_cons, or_and_right, exists_or, exists_eq_left]

/-- The operation of a context is one of those a decision can be about, if an action type maps to it. -/
theorem mem_syntheticOps {op : Op} {actionType : String} (h : opMatchesActionType op actionType = true) :
    op ∈ syntheticOps := by
  cases op with
  | memoryReplay => cases h
  | _ => decide

theorem exists_applies_iff {decision : RuleDecision} :
    (∃ r ∈ rulesOfEntry x, r.Applies ctx ∧ r.decision = decision) ↔ Covers x ctx ∧ verbDecision x.decision = some decision := by
  constructor
  · rintro ⟨r, hr, ⟨hop, hns, hagent⟩, rfl⟩
    obtain ⟨d, hverb, op, -, hact, rfl⟩ := mem_rulesOfEntry.mp hr
    obtain rfl : op = ctx.op := Op.asStr_injective hop
    exact ⟨⟨hact, hns, hagent⟩, hverb⟩
  · rintro ⟨⟨hact, hns, hagent⟩, hverb⟩
    exact ⟨syntheticRule x decision ctx.op, mem_rulesOfEntry.mpr ⟨decision, hverb, ctx.op, mem_syntheticOps hact, hact, rfl⟩,
      ⟨rfl, hns, hagent⟩, rfl⟩

theorem says_recorded (decision : RuleDecision) : Says ctx [] (syntheticRulesAsPermissionRules (recorded seq)) decision.kind ↔
    ∃ x ∈ seq, Covers x ctx ∧ verbDecision x.decision = some decision := by
  have hkind : ∀ d : RuleDecision, d.kind = decision.kind ↔ d = decision := by
    intro d
    cases d <;> cases decision <;> decide
  rw [says_nil, ← exists_recorded_iff (P := fun x => Covers x ctx ∧ verbDecision x.decision = some decision)]
  · unfold syntheticRulesAsPermissionRules
    simp only [hkind, List.mem_flatMap, ← exists_applies_iff]
    constructor
    · rintro ⟨r, ⟨x, hx, hr⟩, happ⟩
      exact ⟨x, hx, r, hr, happ⟩
    · rintro ⟨x, hx, r, hr, happ⟩
      exact ⟨r, ⟨x, hx, hr⟩, happ⟩
  · rintro x y ⟨htype, hns, hagent⟩ hdecision hy
    unfold Covers at hy ⊢
    rwa [htype, hns, hagent, hdecision]

theorem not_says_ask : ¬Says ctx [] (syntheticRulesAsPermissionRules (recorded seq)) .ask := by
  intro h
  obtain ⟨x, -, -, hverb⟩ := (says_recorded .ask).mp h
  exact verbDecision_ne_ask _ hverb

theorem evaluate_recorded (debug : String → String) (hmode : mode ≠ .off) :
    (evaluate debug (recorded seq) [] mode ctx []).kind = .deny ↔
      ∃ x ∈ seq, Covers x ctx ∧ verbDecision x.decision = some .deny := by
  rw [evaluate, List.append_nil, evaluateWith_nil_kind debug hmode, rulesKind, undeniedKind, if_neg not_says_ask, ite_self,
    ← says_recorded .deny]
  split_ifs with h
  · exact iff_of_true rfl h
  · refine iff_of_false (fun hdeny => ?_) h
    cases hdeny

theorem evaluate_eq_allow (debug : String → String) (hmode : mode ≠ .off)
    (h : ¬∃ x ∈ seq, Covers x ctx ∧ verbDecision x.decision = some .deny) :
    evaluate debug (recorded seq) [] mode ctx [] = .allow := by
  have hkind : (evaluate debug (recorded seq) [] mode ctx []).kind = .allow := by
    have hno : ¬Says ctx [] (syntheticRulesAsPermissionRules (recorded seq)) .deny := mt (says_recorded .deny).mp h
    rw [evaluate, List.append_nil, evaluateWith_nil_kind debug hmode, rulesKind, undeniedKind, if_neg not_says_ask, ite_self,
      if_neg hno]
  cases hd : evaluate debug (recorded seq) [] mode ctx [] with
  | allow => rfl
  | _ => rw [hd] at hkind; cases hkind

theorem covers_iff (hstar : ¬Starred x) {agent : String} (hagent : x.agentId = some agent) :
    Covers x ctx ↔ opMatchesActionType ctx.op x.actionType = true ∧ ctx.ns = x.ns ∧ ctx.agentId = agent := by
  rw [Starred, not_or] at hstar
  obtain ⟨hns, hno⟩ := hstar
  have hlit : '*' ∉ agent.toList := fun h => hno ⟨agent, hagent, h⟩
  rw [Covers, hagent, Option.getD_some, globMatches_literal hns, globMatches_literal hlit]

end Registry

/-- No other action type of the operation, and no entry for every agent, was recorded for the namespace of the tuple. -/
def OnlyTuple (seq : List SyntheticPermissionRule) (e : SyntheticPermissionRule) (op : Op) : Prop :=
  ∀ x ∈ seq, x.ns = e.ns → (opMatchesActionType op x.actionType = true → x.actionType = e.actionType) ∧ x.agentId ≠ none

instance (seq : List SyntheticPermissionRule) (e : SyntheticPermissionRule) (op : Op) : Decidable (OnlyTuple seq e op) :=
  inferInstanceAs (Decidable (∀ x ∈ seq, _))

/-- The last decision of a tuple is what the evaluator answers. -/
def LastDecides (debug : String → String) (seq : List SyntheticPermissionRule) (e : SyntheticPermissionRule)
    (mode : PermissionsMode) (ctx : PermissionContext) : Prop :=
  (lastDecision seq e = some "approve" → (evaluate debug (recorded seq) [] mode ctx []).kind = .allow) ∧
    (lastDecision seq e = some "deny" → (evaluate debug (recorded seq) [] mode ctx []).kind = .deny)

/-- A tuple is denied once it was denied, or once a denial with a wildcard that covers it was recorded, whatever was recorded
later; else it is allowed. -/
theorem remembered_denials_decide (debug : String → String) {seq : List SyntheticPermissionRule} {e : SyntheticPermissionRule}
    {agent : String} {mode : PermissionsMode} {ctx : PermissionContext} (hstar : ¬Starred e) (hns : ctx.ns = e.ns) (hid : e.agentId = some agent) (hagent : ctx.agentId = agent)
    (hop : opMatchesActionType ctx.op e.actionType = true) (honly : OnlyTuple seq e ctx.op) (hmode : mode ≠ .off) :
    ((evaluate debug (recorded seq) [] mode ctx []).kind = .deny ↔
      ∃ x ∈ seq, verbDecision x.decision = some .deny ∧ (SameTuple x e ∨ Starred x ∧ Covers x ctx)) ∧
    ((evaluate debug (recorded seq) [] mode ctx []).kind ≠ .deny → evaluate debug (recorded seq) [] mode ctx [] = .allow) := by
  refine ⟨(evaluate_recorded debug hmode).trans (exists_congr fun x => and_congr_right fun hx => ?_), fun h =>
    evaluate_eq_allow debug hmode (mt (evaluate_recorded debug hmode).mpr h)⟩
  rw [and_comm]
  refine and_congr_right fun _ => ?_
  constructor
  · intro hcov
    by_cases hx' : Starred x
    · exact Or.inr ⟨hx', hcov⟩
    · cases hxid : x.agentId with
      | none =>
        -- an entry for every agent covers the context in its own namespace alone
        have hxns : ctx.ns = x.ns := (globMatches_literal fun h => hx' (Or.inl h)).mp hcov.2.1
        exact absurd hxid (honly x hx (hxns.symm.trans hns)).2
      | some b =>
        obtain ⟨hact, hxns, hb⟩ := (covers_iff hx' hxid).mp hcov
        refine Or.inl ⟨(honly x hx (hxns.symm.trans hns)).1 hact, hxns.symm.trans hns, ?_⟩
        rw [hxid, hid, ← hb, ← hagent]
  · rintro (⟨htype, hxns, hxid⟩ | ⟨-, hcov⟩)
    · rw [Covers, htype, hxns, hxid]
      exact (covers_iff hstar hid).mpr ⟨hop, hns, hagent⟩
    · exact hcov

/-- The decision about bob's stores into `app`. -/
def aboutBob (decision : String) : SyntheticPermissionRule := ⟨"store", "app", some "bob", decision, "2026-01-01T00:00:00Z"⟩

theorem not_starred_bob (decision : String) : ¬Starred (aboutBob decision) := by
  rintro (h | ⟨agent, hagent, h⟩)
  · revert h
    show '*' ∉ "app".toList
    decide
  · cases hagent
    revert h
    decide

/-- A denial that was followed by an approval. -/
theorem remembered_denials_decide_bob :
    (evaluate id (recorded [aboutBob "deny", aboutBob "approve"]) [] .enforce ⟨.memoryStore, "app", "bob", .null⟩ []).kind =
      .deny := by
  have honly : OnlyTuple [aboutBob "deny", aboutBob "approve"] (aboutBob "approve") .memoryStore := by decide
  exact (remembered_denials_decide id (not_starred_bob "approve") rfl rfl rfl rfl honly (by decide)).1.mpr
    ⟨aboutBob "deny", List.mem_cons_self, rfl, Or.inl ⟨rfl, rfl, rfl⟩⟩

/-- The approval came last and does not decide. -/
theorem last_not_decides : ¬∀ (debug : String → String) (seq : List SyntheticPermissionRule) (e : SyntheticPermissionRule)
    (agent : String) (mode : PermissionsMode) (ctx : PermissionContext), e ∈ seq → ¬Starred e → ctx.ns = e.ns →
    e.agentId = some agent → ctx.agentId = agent → opMatchesActionType ctx.op e.actionType = true → OnlyTuple seq e ctx.op →
    mode ≠ .off → LastDecides debug seq e mode ctx := by
  intro h
  have hlast := h id [aboutBob "deny", aboutBob "approve"] (aboutBob "approve") "bob" .enforce
    ⟨.memoryStore, "app", "bob", .null⟩ (by decide) (not_starred_bob _) rfl rfl rfl rfl (by decide) (by decide)
  have hallow := hlast.1 (by decide)
  revert hallow
  decide

end Permissions

end AiMemory
