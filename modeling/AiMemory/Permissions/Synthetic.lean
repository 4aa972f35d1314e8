import AiMemory.Permissions.Evaluate

/-!
# The remembered decisions

A remembered decision is kept with the action type, the namespace and the agent of the request it answered.
`synthetic_rules_as_permission_rules` turns it into rules, and the namespace into a pattern. A namespace may
contain a `*`; then the rule applies to other namespaces too (`confined_iff`).
-/

namespace AiMemory

namespace Permissions

open Glob Hooks Validate
open ApprovalApi (asBytes)

def opMatchesActionType (op : Op) (actionType : String) : Bool :=
  match op with
  | .memoryStore => actionType = "store"
  | .memoryDelete => actionType = "delete"
  | .memoryArchive => actionType = "archive" ∨ actionType = "promote"
  | .memoryConsolidate => actionType = "consolidate"
  | .memoryLink => actionType = "link"
  | .memoryReplay => false

def verbDecision (verb : String) : Option RuleDecision :=
  if verb = "approve" ∨ verb = "allow" then some .allow
  else if verb = "deny" ∨ verb = "reject" then some .deny
  else none

def syntheticOps : List Op := [.memoryStore, .memoryDelete, .memoryArchive, .memoryConsolidate, .memoryLink]

def syntheticRule (s : SyntheticPermissionRule) (decision : RuleDecision) (op : Op) : PermissionRule where
  nsPattern := s.ns
  op := op.asStr
  agentPattern := s.agentId.getD "*"
  decision
  reason := some s!"remembered operator decision (recorded_at={s.recordedAt})"

def rulesOfEntry (s : SyntheticPermissionRule) : List PermissionRule :=
  match verbDecision s.decision with
  | some decision => (syntheticOps.filter fun op => opMatchesActionType op s.actionType).map (syntheticRule s decision)
  | none => []

def syntheticRulesAsPermissionRules (synth : List SyntheticPermissionRule) : List PermissionRule :=
  synth.flatMap rulesOfEntry

def evaluate (debug : String → String) (synth : List SyntheticPermissionRule) (active : List PermissionRule)
    (mode : PermissionsMode) (ctx : PermissionContext) (hooks : List HookDecision) : Decision :=
  evaluateWith debug ctx hooks (syntheticRulesAsPermissionRules synth ++ active) mode

/-! ## Patterns with and without stars -/

section Literal

variable {pattern value : String}

theorem asBytes_ofList (l : List Char) : asBytes (String.ofList l) = l.flatMap String.utf8EncodeChar := by
  rw [asBytes, String.toByteArray_ofList, List.utf8Encode, List.toList_data_toByteArray]

theorem star_of_mem_encode {c : Char} (h : starByte ∈ String.utf8EncodeChar c) : c = '*' := by
  have hbyte : ∀ n, starByte = UInt8.ofNat n → n % 256 = 42 := by
    intro n hn
    have hnat := congrArg UInt8.toNat hn
    rw [UInt8.toNat_ofNat'] at hnat
    exact hnat.symm
  have hne : ∀ n, 128 ≤ n → n < 256 → starByte ≠ UInt8.ofNat n := by
    intro n hn hlt hb
    have hval := hbyte n hb
    omega
  unfold String.utf8EncodeChar at h
  simp only at h
  split_ifs at h with h1 h2 h3
  · have hval := hbyte _ (List.mem_singleton.mp h)
    have hnat : c.val.toNat = 42 := by omega
    exact Char.ext (UInt32.toNat_inj.mp hnat)
  -- the other bytes are at least 128
  all_goals
    simp only [List.mem_cons, List.not_mem_nil, or_false] at h
    exfalso
    revert h
    rw [imp_false]
    push Not
  · exact ⟨hne _ (by omega) (by omega), hne _ (by omega) (by omega)⟩
  · exact ⟨hne _ (by omega) (by omega), hne _ (by omega) (by omega), hne _ (by omega) (by omega)⟩
  · exact ⟨hne _ (by omega) (by omega), hne _ (by omega) (by omega), hne _ (by omega) (by omega),
      hne _ (by omega) (by omega)⟩

def eraseStars (pattern : String) : String := String.ofList (pattern.toList.filter (· ≠ '*'))

theorem asBytes_eraseStars : asBytes (eraseStars pattern) = (asBytes pattern).filter (· ≠ starByte) := by
  have hp : asBytes pattern = pattern.toList.flatMap String.utf8EncodeChar := by
    rw [← asBytes_ofList, String.ofList_toList]
  rw [eraseStars, asBytes_ofList, hp]
  induction pattern.toList with
  | nil => rfl
  | cons c cs ih =>
    rw [List.flatMap_cons, List.filter_append, ← ih]
    by_cases hc : c = '*'
    · subst hc
      rfl
    · have hself : (String.utf8EncodeChar c).filter (· ≠ starByte) = String.utf8EncodeChar c := by
        refine List.filter_eq_self.mpr fun b hb => ?_
        rw [decide_eq_true_eq]
        rintro rfl
        exact hc (star_of_mem_encode hb)
      rw [List.filter_cons_of_pos (by simpa using hc), List.flatMap_cons, hself]

theorem starByte_not_mem (h : '*' ∉ pattern.toList) : starByte ∉ asBytes pattern := by
  have hp : asBytes pattern = pattern.toList.flatMap String.utf8EncodeChar := by
    rw [← asBytes_ofList, String.ofList_toList]
  rw [hp, List.mem_flatMap]
  rintro ⟨c, hc, hb⟩
  rw [star_of_mem_encode hb] at hc
  exact h hc

theorem globMatches_literal (h : '*' ∉ pattern.toList) : globMatches pattern value = true ↔ value = pattern := by
  have htokens := tokens_append (p := []) (starByte_not_mem h)
  rw [List.append_nil] at htokens
  rw [globMatches, globInner_iff, htokens, ← ApprovalApi.asBytes_inj]
  refine cut_lits_append.trans ?_
  simp only [tokens, cut_nil_iff, exists_eq_right, List.append_nil]

theorem globMatches_eraseStars : globMatches pattern (eraseStars pattern) = true := by
  rw [globMatches, globInner_iff, asBytes_eraseStars]
  generalize asBytes pattern = p
  have hstar : ∀ {deep : Bool} {ts : List (Token UInt8)} {v : List UInt8}, Greedy slash ts v →
      Greedy slash (.star deep :: ts) v := by
    intro deep ts v h
    rw [← List.nil_append v]
    exact .star (Or.inr List.not_mem_nil) (fun _ i hi => absurd hi (Nat.not_lt_zero i)) h
  fun_induction tokens p with
  | case1 => exact .nil
  | case2 => exact hstar .nil
  | case3 x hx => simpa [hx] using Cut.lit .nil
  | case4 rest ih => exact hstar (by simpa using ih)
  | case5 y rest hy ih => exact hstar (by simpa using ih)
  | case6 x y rest hx ih =>
    rw [List.filter_cons_of_pos (by simpa using hx)]
    exact .lit ih

theorem globMatches_doubleStar : globMatches "**" value = true := by
  rw [globMatches, globInner_iff]
  have h : Greedy slash (tokens (asBytes "**")) (asBytes value ++ []) :=
    .star (Or.inl rfl) (fun hne => absurd rfl hne) .nil
  rwa [List.append_nil] at h

end Literal

/-! ## What a remembered decision reaches -/

/-- The context is not the one that was decided: another namespace, or another agent than the recorded one. -/
def Elsewhere (e : SyntheticPermissionRule) (ctx : PermissionContext) : Prop :=
  ctx.ns ≠ e.ns ∨ ∃ agent ∈ e.agentId, ctx.agentId ≠ agent

/-- The entry makes no difference to a context it is not about, nor to one that the hooks do not move to what it is
about. -/
def Confined (e : SyntheticPermissionRule) : Prop :=
  ∀ debug l l' active mode ctx hooks, Elsewhere e ctx → (∀ ns ∈ targetOf hooks, Elsewhere e { ctx with ns }) →
    evaluate debug (l ++ e :: l') active mode ctx hooks = evaluate debug (l ++ l') active mode ctx hooks

/-- The same for the callers there are, which pass no hook decisions. -/
def ConfinedWithoutHooks (e : SyntheticPermissionRule) : Prop :=
  ∀ debug l l' active mode ctx, Elsewhere e ctx →
    evaluate debug (l ++ e :: l') active mode ctx [] = evaluate debug (l ++ l') active mode ctx []

/-- The verb is unknown, or no operation has the action type: the entry yields no rule. -/
def Inert (e : SyntheticPermissionRule) : Prop :=
  verbDecision e.decision = none ∨ ∀ op ∈ syntheticOps, opMatchesActionType op e.actionType = false

section Entry

variable {debug : String → String} {e : SyntheticPermissionRule} {l l' : List SyntheticPermissionRule}
  {active rules rules' : List PermissionRule} {ctx : PermissionContext} {hooks : List HookDecision}
  {mode : PermissionsMode} {decision : RuleDecision} {op : Op} {r : PermissionRule}

theorem mem_rulesOfEntry : r ∈ rulesOfEntry e ↔ ∃ decision, verbDecision e.decision = some decision ∧
    ∃ op ∈ syntheticOps, opMatchesActionType op e.actionType = true ∧ r = syntheticRule e decision op := by
  rw [rulesOfEntry]
  cases verbDecision e.decision with
  | none => simp
  | some decision =>
    simp only [List.mem_map, List.mem_filter, Option.some.injEq, exists_eq_left', and_assoc]
    simp only [eq_comm (a := r)]

theorem rulesOfEntry_eq_nil (h : Inert e) : rulesOfEntry e = [] := by
  rw [List.eq_nil_iff_forall_not_mem]
  intro r hr
  obtain ⟨decision, hverb, op, hop, hact, -⟩ := mem_rulesOfEntry.mp hr
  rcases h with h | h
  · rw [h] at hverb
    cases hverb
  · rw [h op hop] at hact
    cases hact

theorem star_not_mem_agentId {agent : String} (h : Accepts (validateAgentId agent)) : '*' ∉ agent.toList := by
  intro hmem
  unfold validateAgentId at h
  rw [accepts_bind, accepts_bind] at h
  have hnone := h.2.2
  cases hfind : agent.toList.find? (!isAgentIdChar ·) with
  | none =>
    rw [List.find?_eq_none] at hfind
    exact hfind '*' hmem (by decide)
  | some c =>
    rw [hfind] at hnone
    cases hnone

theorem not_applies (hns : '*' ∉ e.ns.toList) (hagent : ∀ agent ∈ e.agentId, '*' ∉ agent.toList)
    (helse : Elsewhere e ctx) (hr : r ∈ rulesOfEntry e) : ¬r.Applies ctx := by
  obtain ⟨decision, -, op, -, -, rfl⟩ := mem_rulesOfEntry.mp hr
  rintro ⟨-, happns, happagent⟩
  rcases helse with hne | ⟨agent, hmem, hne⟩
  · exact hne ((globMatches_literal hns).mp happns)
  · have hpat : (syntheticRule e decision op).agentPattern = agent := by
      rw [syntheticRule, Option.mem_def.mp hmem, Option.getD_some]
    rw [hpat] at happagent
    exact hne ((globMatches_literal (hagent agent hmem)).mp happagent)

theorem matchedRules_insert {rs : List PermissionRule} (h : ∀ r ∈ rs, ¬r.Applies ctx) :
    matchedRules ctx (rules ++ (rs ++ rules')) = matchedRules ctx (rules ++ rules') := by
  have hnil : rs.filter (fun r => r.Applies ctx) = [] := by
    simpa [List.filter_eq_nil_iff] using h
  rw [matchedRules, matchedRules, List.filter_append, List.filter_append, hnil, List.nil_append, ← List.filter_append]

/-- The evaluation reads the rules that apply to the context and to the one the hooks move it to. -/
theorem evaluateBody_congr {rebound rebound' : String → Decision} (h : matchedRules ctx rules = matchedRules ctx rules')
    (hmoved : ∀ ns ∈ targetOf hooks, rebound ns = rebound' ns) :
    evaluateBody debug rebound ctx hooks rules mode = evaluateBody debug rebound' ctx hooks rules' mode := by
  have hdelta : ∀ delta, composedDelta hooks = some delta →
      modified debug rebound ctx delta = modified debug rebound' ctx delta := by
    intro delta hdelta
    have htarget := composedDelta_ns hooks
    rw [hdelta, Option.bind_some] at htarget
    rw [modified, modified, htarget]
    cases hns : targetOf hooks with
    | none => rfl
    | some ns => simp only [hmoved ns hns]
  rw [evaluateBody, evaluateBody, h]
  cases hc : composedDelta hooks with
  | none => rfl
  | some delta => simp only [hdelta delta hc]

theorem evaluateWith_congr (h : matchedRules ctx rules = matchedRules ctx rules')
    (hmoved : ∀ ns ∈ targetOf hooks, matchedRules { ctx with ns } rules = matchedRules { ctx with ns } rules') :
    evaluateWith debug ctx hooks rules mode = evaluateWith debug ctx hooks rules' mode :=
  evaluateBody_congr h fun ns hns => evaluateBody_congr (hmoved ns hns) fun _ hno => absurd hno (Option.not_mem_none _)

theorem evaluate_insert (h : ∀ r ∈ rulesOfEntry e, ¬r.Applies ctx)
    (hmoved : ∀ ns ∈ targetOf hooks, ∀ r ∈ rulesOfEntry e, ¬r.Applies { ctx with ns }) :
    evaluate debug (l ++ e :: l') active mode ctx hooks = evaluate debug (l ++ l') active mode ctx hooks := by
  have hsplit : syntheticRulesAsPermissionRules (l ++ e :: l') ++ active = syntheticRulesAsPermissionRules l ++
      (rulesOfEntry e ++ (syntheticRulesAsPermissionRules l' ++ active)) := by
    simp [syntheticRulesAsPermissionRules, List.append_assoc]
  have hsplit' : syntheticRulesAsPermissionRules (l ++ l') ++ active = syntheticRulesAsPermissionRules l ++
      (syntheticRulesAsPermissionRules l' ++ active) := by
    simp [syntheticRulesAsPermissionRules, List.append_assoc]
  rw [evaluate, evaluate, hsplit, hsplit']
  exact evaluateWith_congr (matchedRules_insert h) fun ns hns => matchedRules_insert (hmoved ns hns)

theorem confined_of (hagent : ∀ agent ∈ e.agentId, Accepts (validateAgentId agent))
    (h : '*' ∉ e.ns.toList ∨ Inert e) : Confined e := by
  intro debug l l' active mode ctx hooks helse hmoved
  have hno : ∀ ctx', Elsewhere e ctx' → ∀ r ∈ rulesOfEntry e, ¬r.Applies ctx' := by
    intro ctx' helse' r hr
    rcases h with hns | hinert
    · exact not_applies hns (fun agent hmem => star_not_mem_agentId (hagent agent hmem)) helse' hr
    · rw [rulesOfEntry_eq_nil hinert] at hr
      exact absurd hr List.not_mem_nil
  exact evaluate_insert (hno ctx helse) fun ns hns => hno _ (hmoved ns hns)

theorem verbDecision_ne_ask (verb : String) : verbDecision verb ≠ some .ask := by
  rw [verbDecision]
  split_ifs <;> decide

theorem rulesKind_ne_ask (h : Says ctx [] rules .allow ∨ Says ctx [] rules .deny) : rulesKind ctx rules mode ≠ .ask := by
  rw [rulesKind]
  by_cases hdeny : Says ctx [] rules .deny
  · rw [if_pos hdeny]
    decide
  · rw [if_neg hdeny, undeniedKind, if_pos (h.resolve_right hdeny)]
    decide

def askAlways (op : Op) : PermissionRule where
  nsPattern := "**"
  op := op.asStr
  agentPattern := "**"
  decision := .ask

theorem askAlways_kind (hop : ctx.op = op) : rulesKind ctx [askAlways op] .advisory = .ask := by
  have happ : (askAlways op).Applies ctx := ⟨by rw [hop, askAlways], globMatches_doubleStar, globMatches_doubleStar⟩
  have hsaid : ∀ k, Says ctx [] [askAlways op] k ↔ k = .ask := by
    intro k
    rw [says_nil]
    simp only [List.mem_singleton, exists_eq_left, and_iff_right happ]
    exact eq_comm
  rw [rulesKind, if_neg (mt (hsaid _).mp (by decide)), undeniedKind, if_neg (mt (hsaid _).mp (by decide)),
    if_pos ((hsaid _).mpr rfl)]
  rfl

/-- The namespace of an entry with a star, without its stars: the entry is not about it, but its rule applies. -/
theorem not_confined (hns : '*' ∈ e.ns.toList) (hrule : ¬Inert e) : ¬ConfinedWithoutHooks e := by
  intro hconf
  rw [Inert, not_or] at hrule
  push Not at hrule
  obtain ⟨hverb, op, hop, hact⟩ := hrule
  obtain ⟨decision, hverb⟩ := Option.ne_none_iff_exists'.mp hverb
  rw [ne_eq, Bool.not_eq_false] at hact
  let ctx : PermissionContext := ⟨op, eraseStars e.ns, eraseStars (e.agentId.getD "*"), .null⟩
  have helse : Elsewhere e ctx := by
    refine Or.inl fun heq => ?_
    have hlist : (eraseStars e.ns).toList = e.ns.toList := congrArg String.toList heq
    rw [eraseStars, String.toList_ofList] at hlist
    rw [← hlist] at hns
    simpa using List.of_mem_filter hns
  have happ : (syntheticRule e decision op).Applies ctx := ⟨rfl, globMatches_eraseStars, globMatches_eraseStars⟩
  have hmem : syntheticRule e decision op ∈ syntheticRulesAsPermissionRules ([] ++ e :: []) ++ [askAlways op] := by
    refine List.mem_append_left _ (List.mem_flatMap.mpr ⟨e, List.mem_singleton_self e, ?_⟩)
    exact mem_rulesOfEntry.mpr ⟨decision, hverb, op, hop, hact, rfl⟩
  have hsaid : Says ctx [] (syntheticRulesAsPermissionRules ([] ++ e :: []) ++ [askAlways op]) decision.kind :=
    Or.inl ⟨_, hmem, happ, rfl⟩
  have hwith : rulesKind ctx (syntheticRulesAsPermissionRules ([] ++ e :: []) ++ [askAlways op]) .advisory ≠ .ask := by
    refine rulesKind_ne_ask ?_
    cases decision with
    | allow => exact Or.inl hsaid
    | deny => exact Or.inr hsaid
    | ask => exact absurd hverb (verbDecision_ne_ask _)
  have hwithout : rulesKind ctx (syntheticRulesAsPermissionRules ([] ++ []) ++ [askAlways op]) .advisory = .ask :=
    askAlways_kind rfl
  have hkinds := congrArg Decision.kind (hconf id [] [] [askAlways op] .advisory ctx helse)
  rw [evaluate, evaluate, evaluateWith_nil_kind id (by decide), evaluateWith_nil_kind id (by decide), hwithout] at hkinds
  exact hwith hkinds

end Entry

/-- A remembered decision is confined to what was decided exactly if its namespace has no star, or it yields no
rule; with hooks and without. -/
theorem confined_iff (e : SyntheticPermissionRule)
    (hagent : ∀ agent ∈ e.agentId, Accepts (validateAgentId agent)) :
    (Confined e ↔ '*' ∉ e.ns.toList ∨ Inert e) ∧ (ConfinedWithoutHooks e ↔ '*' ∉ e.ns.toList ∨ Inert e) := by
  have hsub : Confined e → ConfinedWithoutHooks e := by
    intro h debug l l' active mode ctx helse
    exact h debug l l' active mode ctx [] helse fun ns hno => absurd hno (Option.not_mem_none ns)
  have hof : ConfinedWithoutHooks e → '*' ∉ e.ns.toList ∨ Inert e := by
    intro h
    by_contra hno
    rw [not_or, not_not] at hno
    exact not_confined hno.1 hno.2 h
  exact ⟨⟨fun h => hof (hsub h), confined_of hagent⟩, ⟨hof, fun h => hsub (confined_of hagent h)⟩⟩

/-- The decision about `app*` is not confined, that about `app` is. -/
theorem confined_iff_app :
    let e : SyntheticPermissionRule := ⟨"store", "app*", some "bob", "deny", "2026-01-01T00:00:00Z"⟩
    ¬ConfinedWithoutHooks e ∧ Confined { e with ns := "app" } := by
  intro e
  refine ⟨fun h => ?_, ?_⟩
  · have hcases := (confined_iff e (by decide)).2.mp h
    revert hcases
    rw [Inert]
    decide
  · exact (confined_iff { e with ns := "app" } (by decide)).1.mpr (Or.inl (by decide))

/-- A denial remembered for `app*` and `bob` denies `bob` a store into `apples`. -/
theorem confined_not_always : ¬∀ e : SyntheticPermissionRule, Accepts (validateNamespace e.ns) →
    (∀ agent ∈ e.agentId, Accepts (validateAgentId agent)) → ConfinedWithoutHooks e := by
  intro h
  let e : SyntheticPermissionRule := ⟨"store", "app*", some "bob", "deny", "2026-01-01T00:00:00Z"⟩
  have hsame :=
    h e (by decide) (by decide) id [] [] [] .enforce ⟨.memoryStore, "apples", "bob", .null⟩ (Or.inl (by decide))
  exact absurd hsame (by decide)

end Permissions

end AiMemory
