import AiMemory.Permissions.Glob
import AiMemory.Hooks.Chain

/-!
# The permission evaluator

`Permissions::evaluate_with` combines the rules that apply to a context, the decisions of the hooks and the mode.
It is deny-first: `kindOf` says which kind of decision comes out, by what the applying rules and the hooks say and
not by their order (`evaluateWith_kind`).
-/

namespace AiMemory

open Hooks

namespace Permissions

inductive Op where
  | memoryStore
  | memoryLink
  | memoryDelete
  | memoryArchive
  | memoryConsolidate
  | memoryReplay
  deriving DecidableEq

def Op.asStr : Op → String
  | memoryStore => "memory_store"
  | memoryLink => "memory_link"
  | memoryDelete => "memory_delete"
  | memoryArchive => "memory_archive"
  | memoryConsolidate => "memory_consolidate"
  | memoryReplay => "memory_replay"

theorem Op.asStr_injective : Function.Injective Op.asStr := by
  intro a b h
  cases a <;> cases b <;> first | rfl | exact absurd h (by decide)

inductive Decision where
  | allow
  | deny (reason : String)
  | modify (delta : MemoryDelta)
  | ask (prompt : String)
  deriving DecidableEq

inductive RuleDecision where
  | allow
  | deny
  | ask
  deriving DecidableEq

structure PermissionRule where
  nsPattern : String
  op : String
  agentPattern : String := "*"
  decision : RuleDecision
  reason : Option String := none
  deriving DecidableEq

structure PermissionContext where
  op : Op
  ns : String
  agentId : String
  payload : Json

def mergeDelta (prior : Option MemoryDelta) (next : MemoryDelta) : MemoryDelta :=
  let out := prior.getD {}
  { tier := next.tier <|> out.tier
    ns := next.ns <|> out.ns
    title := next.title <|> out.title
    content := next.content <|> out.content
    tags := next.tags <|> out.tags
    priority := next.priority <|> out.priority
    confidence := next.confidence <|> out.confidence
    source := next.source <|> out.source
    expiresAt := next.expiresAt <|> out.expiresAt
    metadata := next.metadata <|> out.metadata }

/-- The filter of `matched_rules`. -/
def PermissionRule.Applies (r : PermissionRule) (ctx : PermissionContext) : Prop :=
  r.op = ctx.op.asStr ∧ globMatches r.nsPattern ctx.ns = true ∧ globMatches r.agentPattern ctx.agentId = true

instance (r : PermissionRule) (ctx : PermissionContext) : Decidable (r.Applies ctx) :=
  inferInstanceAs (Decidable (_ ∧ _ ∧ _))

/-- `usize::from(!agent_pattern.contains('*'))`. -/
def PermissionRule.exactAgent (r : PermissionRule) : ℕ := if '*' ∈ r.agentPattern.toList then 0 else 1

/-- The comparison of `matched_rules`: the longer literal prefix first, then the exact agent. -/
def PermissionRule.Before (a b : PermissionRule) : Prop :=
  patternSpecificity b.nsPattern < patternSpecificity a.nsPattern ∨
    patternSpecificity b.nsPattern = patternSpecificity a.nsPattern ∧ b.exactAgent ≤ a.exactAgent

instance : DecidableRel PermissionRule.Before := fun _ _ => inferInstanceAs (Decidable (_ ∨ _ ∧ _))

def matchedRules (ctx : PermissionContext) (rules : List PermissionRule) : List PermissionRule :=
  (rules.filter fun r => r.Applies ctx).insertionSort PermissionRule.Before

/-- The second pass: the deltas of the hooks that modify, composed in order. -/
def composedDelta (hooks : List HookDecision) : Option MemoryDelta :=
  hooks.foldl (fun composed h =>
    match h with
    | .modify delta => some (mergeDelta composed delta)
    | _ => composed) none

def modeDefaultFor (_mode : PermissionsMode) (_ctx : PermissionContext) : Decision := .allow

end Permissions

def Hooks.HookDecision.denial : HookDecision → Option String
  | .deny reason _ => some reason
  | _ => none

def Hooks.HookDecision.question : HookDecision → Option String
  | .askUser prompt _ _ => some prompt
  | _ => none

def Hooks.HookDecision.target : HookDecision → Option String
  | .modify delta => delta.ns
  | _ => none

namespace Permissions

/-- The prompt of the first rule that asks, or of the first hook. -/
def askPrompt (matched : List PermissionRule) (hooks : List HookDecision) : Option String :=
  match matched.find? fun r => r.decision = .ask with
  | some r => some (r.reason.getD
      s!"permission rule requests approval (namespace_pattern={r.nsPattern}, op={r.op})")
  | none => hooks.findSome? HookDecision.question

/-- The end of the second pass: the delta, unless it moves the memory to another namespace where the answer is a
denial. `debug` is the format `?`. -/
def modified (debug : String → String) (rebound : String → Decision) (ctx : PermissionContext)
    (delta : MemoryDelta) : Decision :=
  match delta.ns with
  | some ns =>
    if ns ≠ ctx.ns then
      match rebound ns with
      | .deny reason => .deny
          s!"namespace escalation rejected: hook proposed Modify into namespace {debug ns} (from pinned {debug ctx.ns}) which is denied: {reason}"
      | _ => .modify delta
    else .modify delta
  | none => .modify delta

/-- The body of `evaluate_with`, over what it answers for another namespace. -/
def evaluateBody (debug : String → String) (rebound : String → Decision) (ctx : PermissionContext)
    (hooks : List HookDecision) (rules : List PermissionRule) (mode : PermissionsMode) : Decision :=
  if mode = .off then .allow
  else
    let matched := matchedRules ctx rules
    match matched.find? fun r => r.decision = .deny with
    | some r => .deny (r.reason.getD
        s!"denied by permission rule (namespace_pattern={r.nsPattern}, op={r.op}, agent_pattern={r.agentPattern})")
    | none =>
      match hooks.findSome? HookDecision.denial with
      | some reason => .deny reason
      | none =>
        match composedDelta hooks with
        | some delta => modified debug rebound ctx delta
        | none =>
          if (matched.any fun r => r.decision = .allow) ∨ (hooks.any fun h => h = .allow) then .allow
          else
            match askPrompt matched hooks with
            | some prompt =>
              if mode = .enforce then .deny s!"permission ask escalated to deny under enforce mode: {prompt}"
              else .ask prompt
            | none => modeDefaultFor mode ctx

/-- `Permissions::evaluate_with`. It calls itself without hooks, and then never again. -/
def evaluateWith (debug : String → String) (ctx : PermissionContext) (hooks : List HookDecision)
    (rules : List PermissionRule) (mode : PermissionsMode) : Decision :=
  evaluateBody debug
    (fun ns => evaluateBody debug (fun _ => .allow) { ctx with ns } [] rules mode) ctx hooks rules mode

/-! ## The kind of a decision -/

/-- The four shapes of a decision. -/
inductive Kind where
  | allow
  | deny
  | modify
  | ask
  deriving DecidableEq

def Decision.kind : Decision → Kind
  | .allow => .allow
  | .deny _ => .deny
  | .modify _ => .modify
  | .ask _ => .ask

end Permissions

def Hooks.HookDecision.kind : HookDecision → Permissions.Kind
  | .allow => .allow
  | .deny _ _ => .deny
  | .modify _ => .modify
  | .askUser _ _ _ => .ask

namespace Permissions

def RuleDecision.kind : RuleDecision → Kind
  | .allow => .allow
  | .deny => .deny
  | .ask => .ask

/-- A rule that applies, or a hook, says so. -/
def Says (ctx : PermissionContext) (hooks : List HookDecision) (rules : List PermissionRule) (k : Kind) : Prop :=
  (∃ r ∈ rules, r.Applies ctx ∧ r.decision.kind = k) ∨ ∃ h ∈ hooks, h.kind = k

instance (ctx : PermissionContext) (hooks : List HookDecision) (rules : List PermissionRule) (k : Kind) :
    Decidable (Says ctx hooks rules k) := inferInstanceAs (Decidable (_ ∨ _))

/-- The namespace that the hooks together move the memory to: that of the last one that names any. -/
def targetOf (hooks : List HookDecision) : Option String := (hooks.filterMap HookDecision.target).getLast?

def askKind : PermissionsMode → Kind
  | .enforce => .deny
  | _ => .ask

def undeniedKind (ctx : PermissionContext) (hooks : List HookDecision) (rules : List PermissionRule)
    (mode : PermissionsMode) : Kind :=
  if Says ctx hooks rules .allow then .allow
  else if Says ctx hooks rules .ask then askKind mode
  else .allow

def rulesKind (ctx : PermissionContext) (rules : List PermissionRule) (mode : PermissionsMode) : Kind :=
  if Says ctx [] rules .deny then .deny else undeniedKind ctx [] rules mode

def kindOf (ctx : PermissionContext) (hooks : List HookDecision) (rules : List PermissionRule)
    (mode : PermissionsMode) : Kind :=
  if Says ctx hooks rules .deny then .deny
  else if Says ctx hooks rules .modify then
    if ∃ ns ∈ targetOf hooks, ns ≠ ctx.ns ∧ rulesKind { ctx with ns } rules mode = .deny then .deny else .modify
  else undeniedKind ctx hooks rules mode

section Kinds

variable {debug : String → String} {rebound : String → Decision} {ctx : PermissionContext}
  {hooks hooks' : List HookDecision} {rules rules' : List PermissionRule} {mode : PermissionsMode} {k : Kind}

variable {r : PermissionRule}

theorem mem_matchedRules : r ∈ matchedRules ctx rules ↔ r ∈ rules ∧ r.Applies ctx := by
  rw [matchedRules, List.mem_insertionSort, List.mem_filter, decide_eq_true_eq]

theorem says_nil : Says ctx [] rules k ↔ ∃ r ∈ rules, r.Applies ctx ∧ r.decision.kind = k := by
  simp [Says]

theorem says_modify : Says ctx hooks rules .modify ↔ ∃ h ∈ hooks, h.kind = .modify := by
  constructor
  · rintro (⟨r, -, -, hr⟩ | hh)
    · cases hd : r.decision <;> rw [hd] at hr <;> cases hr
    · exact hh
  · exact Or.inr

theorem says_congr (hrules : ∀ r, r ∈ rules ↔ r ∈ rules') (hhooks : ∀ h, h ∈ hooks ↔ h ∈ hooks') :
    Says ctx hooks rules k ↔ Says ctx hooks' rules' k := by
  simp only [Says, hrules, hhooks]

theorem composedDelta_append (h : HookDecision) : composedDelta (hooks ++ [h]) =
    match h with
    | .modify delta => some (mergeDelta (composedDelta hooks) delta)
    | _ => composedDelta hooks := by
  rw [composedDelta, List.foldl_append]
  rfl

theorem composedDelta_eq_none_iff (hooks : List HookDecision) :
    composedDelta hooks = none ↔ ¬∃ h ∈ hooks, h.kind = .modify := by
  induction hooks using List.reverseRecOn with
  | nil => simp [composedDelta]
  | append_singleton hooks h ih =>
    rw [composedDelta_append]
    cases h <;> simp_all [HookDecision.kind]

theorem mergeDelta_ns (prior : Option MemoryDelta) (next : MemoryDelta) :
    (mergeDelta prior next).ns = (next.ns <|> prior.bind MemoryDelta.ns) := by
  cases prior <;> rfl

theorem composedDelta_ns (hooks : List HookDecision) : (composedDelta hooks).bind MemoryDelta.ns = targetOf hooks := by
  induction hooks using List.reverseRecOn with
  | nil => rfl
  | append_singleton hooks h ih =>
    rw [composedDelta_append, targetOf, List.filterMap_append, List.getLast?_append]
    cases h with
    | modify delta =>
      rw [Option.bind_some, mergeDelta_ns, ih, targetOf]
      cases hns : delta.ns <;> simp [HookDecision.target, hns]
    | _ => simpa [HookDecision.target, targetOf] using ih

theorem kindOf_nil : kindOf ctx [] rules mode = rulesKind ctx rules mode := by
  have hno : ¬Says ctx [] rules .modify := by
    rw [says_modify]
    simp
  rw [kindOf, rulesKind, if_neg hno]

/-- No rule that applies decides so. -/
theorem find_eq_none_iff (ctx : PermissionContext) (rules : List PermissionRule) (d : RuleDecision) :
    (matchedRules ctx rules).find? (fun r => r.decision = d) = none ↔
    ¬∃ r ∈ rules, r.Applies ctx ∧ r.decision.kind = d.kind := by
  have hkind : ∀ e : RuleDecision, e.kind = d.kind ↔ e = d := by
    intro e
    cases e <;> cases d <;> decide
  simp only [List.find?_eq_none, mem_matchedRules, decide_eq_true_eq, hkind]
  push Not
  exact ⟨fun h r hr happ => h r ⟨hr, happ⟩, fun h r hr => h r hr.1 hr.2⟩

theorem denial_eq_none_iff (hooks : List HookDecision) :
    hooks.findSome? HookDecision.denial = none ↔ ¬∃ h ∈ hooks, h.kind = .deny := by
  rw [List.findSome?_eq_none_iff]
  push Not
  refine forall₂_congr fun h _ => ?_
  cases h <;> simp [HookDecision.denial, HookDecision.kind]

theorem question_eq_none_iff (hooks : List HookDecision) :
    hooks.findSome? HookDecision.question = none ↔ ¬∃ h ∈ hooks, h.kind = .ask := by
  rw [List.findSome?_eq_none_iff]
  push Not
  refine forall₂_congr fun h _ => ?_
  cases h <;> simp [HookDecision.question, HookDecision.kind]

/-- An option that is `none` exactly if nothing is said, and is not `none`. -/
theorem said_of_some {α : Type} {o : Option α} {said : Prop} {x : α} (h : o = none ↔ ¬said) (ho : o = some x) :
    said := by
  by_contra hnot
  exact Option.some_ne_none x (ho.symm.trans (h.mpr hnot))

theorem askPrompt_eq_none_iff (ctx : PermissionContext) (hooks : List HookDecision) (rules : List PermissionRule) :
    askPrompt (matchedRules ctx rules) hooks = none ↔ ¬Says ctx hooks rules .ask := by
  have hrules := find_eq_none_iff ctx rules .ask
  rw [askPrompt, Says, not_or, ← question_eq_none_iff]
  cases hfind : (matchedRules ctx rules).find? fun r => r.decision = .ask with
  | none => exact ⟨fun hq => ⟨hrules.mp hfind, hq⟩, fun hq => hq.2⟩
  | some r => exact iff_of_false (Option.some_ne_none _) fun hq => hq.1 (said_of_some hrules hfind)

theorem any_allow_iff : ((matchedRules ctx rules).any fun r => r.decision = .allow) = true ∨
    (hooks.any fun h => h = .allow) = true ↔ Says ctx hooks rules .allow := by
  refine or_congr ?_ ?_
  · simp only [List.any_eq_true, mem_matchedRules, decide_eq_true_eq, and_assoc]
    refine exists_congr fun r => and_congr_right fun _ => and_congr_right fun _ => ?_
    cases r.decision <;> decide
  · simp only [List.any_eq_true, decide_eq_true_eq]
    refine exists_congr fun h => and_congr_right fun _ => ?_
    cases h <;> simp [HookDecision.kind]

/-- A delta is refused exactly if it moves the memory to another namespace where the rules deny. -/
theorem modified_kind {delta : MemoryDelta} (hns : delta.ns = targetOf hooks)
    (hrebound : ∀ ns ∈ targetOf hooks, (rebound ns).kind = .deny ↔ rulesKind { ctx with ns } rules mode = .deny) :
    (modified debug rebound ctx delta).kind =
      if ∃ ns ∈ targetOf hooks, ns ≠ ctx.ns ∧ rulesKind { ctx with ns } rules mode = .deny then .deny else .modify := by
  rw [modified, hns]
  cases htarget : targetOf hooks with
  | none => simp [Decision.kind]
  | some ns =>
    rw [htarget] at hrebound
    have hex : (∃ ns' ∈ some ns, ns' ≠ ctx.ns ∧ rulesKind { ctx with ns := ns' } rules mode = .deny) ↔
        ns ≠ ctx.ns ∧ (rebound ns).kind = .deny := by
      simp [hrebound ns rfl]
    rw [if_congr hex rfl rfl]
    by_cases hne : ns = ctx.ns
    · simp only [hne, ne_eq, not_true_eq_false, false_and, if_false]
      rfl
    · simp only [ne_eq, hne, not_false_eq_true, true_and, if_true]
      cases rebound ns <;> rfl

/-- The kind of what the body answers, if for another namespace it denies what the rules deny there. -/
theorem evaluateBody_kind (hmode : mode ≠ .off)
    (hrebound : ∀ ns ∈ targetOf hooks, (rebound ns).kind = .deny ↔ rulesKind { ctx with ns } rules mode = .deny) :
    (evaluateBody debug rebound ctx hooks rules mode).kind = kindOf ctx hooks rules mode := by
  unfold evaluateBody
  rw [if_neg hmode]
  -- pass 1: a rule that denies, then a hook that does
  have hrule := find_eq_none_iff ctx rules .deny
  have hhook := denial_eq_none_iff hooks
  cases hfind : (matchedRules ctx rules).find? fun r => r.decision = .deny with
  | some r =>
    have hsaid : Says ctx hooks rules .deny := Or.inl (said_of_some hrule hfind)
    simp only [hfind]
    rw [kindOf, if_pos hsaid]
    rfl
  | none =>
    simp only [hfind]
    cases hdenial : hooks.findSome? HookDecision.denial with
    | some reason =>
      have hsaid : Says ctx hooks rules .deny := Or.inr (said_of_some hhook hdenial)
      rw [kindOf, if_pos hsaid]
      rfl
    | none =>
      have hsaid : ¬Says ctx hooks rules .deny := not_or.mpr ⟨hrule.mp hfind, hhook.mp hdenial⟩
      rw [kindOf, if_neg hsaid]
      -- pass 2: a hook that modifies
      have hmod := composedDelta_eq_none_iff hooks
      have hns := composedDelta_ns hooks
      rw [← (says_modify : Says ctx hooks rules .modify ↔ _)] at hmod
      cases hdelta : composedDelta hooks with
      | some delta =>
        rw [hdelta] at hns
        rw [if_pos (said_of_some hmod hdelta)]
        exact modified_kind hns hrebound
      | none =>
        rw [if_neg (hmod.mp hdelta), undeniedKind]
        -- pass 3: an explicit allow
        by_cases hallow : Says ctx hooks rules .allow
        · rw [if_pos hallow]
          simp only [if_pos (any_allow_iff.mpr hallow)]
          rfl
        · rw [if_neg hallow]
          simp only [if_neg (mt any_allow_iff.mp hallow)]
          -- pass 4: a question
          have hask := askPrompt_eq_none_iff ctx hooks rules
          cases hprompt : askPrompt (matchedRules ctx rules) hooks with
          | none =>
            rw [if_neg (hask.mp hprompt)]
            rfl
          | some prompt =>
            rw [if_pos (said_of_some hask hprompt)]
            cases mode with
            | off => exact absurd rfl hmode
            | enforce => rfl
            | advisory => rfl

theorem evaluateWith_nil_kind (debug : String → String) (hmode : mode ≠ .off) :
    (evaluateWith debug ctx [] rules mode).kind = rulesKind ctx rules mode := by
  rw [← kindOf_nil]
  exact evaluateBody_kind hmode fun ns hns => absurd hns (Option.not_mem_none ns)

theorem evaluateWith_eq_kindOf (hmode : mode ≠ .off) :
    (evaluateWith debug ctx hooks rules mode).kind = kindOf ctx hooks rules mode := by
  refine evaluateBody_kind hmode fun ns _ => ?_
  rw [← evaluateWith_nil_kind debug hmode]
  exact Iff.rfl

theorem undeniedKind_congr (hrules : ∀ r, r ∈ rules ↔ r ∈ rules') (hhooks : ∀ h, h ∈ hooks ↔ h ∈ hooks') :
    undeniedKind ctx hooks rules mode = undeniedKind ctx hooks' rules' mode :=
  if_congr (says_congr hrules hhooks) rfl (if_congr (says_congr hrules hhooks) rfl rfl)

theorem rulesKind_congr (h : ∀ r, r ∈ rules ↔ r ∈ rules') : rulesKind ctx rules mode = rulesKind ctx rules' mode :=
  if_congr (says_congr h fun _ => Iff.rfl) rfl (undeniedKind_congr h fun _ => Iff.rfl)

theorem kindOf_congr_rules (h : ∀ r, r ∈ rules ↔ r ∈ rules') :
    kindOf ctx hooks rules mode = kindOf ctx hooks rules' mode := by
  refine if_congr (says_congr h fun _ => Iff.rfl) rfl (if_congr (says_congr h fun _ => Iff.rfl) (if_congr ?_ rfl rfl) ?_)
  · simp only [rulesKind_congr h]
  · exact undeniedKind_congr h fun _ => Iff.rfl

theorem kindOf_congr_hooks (h : ∀ d, d ∈ hooks ↔ d ∈ hooks') (hno : ∀ d ∈ hooks, d.kind ≠ .modify) :
    kindOf ctx hooks rules mode = kindOf ctx hooks' rules mode := by
  have hmod : ¬Says ctx hooks rules .modify := by
    rw [says_modify]
    push Not
    exact hno
  have hmod' : ¬Says ctx hooks' rules .modify := (not_congr (says_congr (fun _ => Iff.rfl) h)).mp hmod
  rw [kindOf, kindOf, if_neg hmod, if_neg hmod']
  exact if_congr (says_congr (fun _ => Iff.rfl) h) rfl (undeniedKind_congr (fun _ => Iff.rfl) h)

theorem Says.mono (hsub : rules ⊆ rules') (h : Says ctx hooks rules k) : Says ctx hooks rules' k :=
  h.imp_left fun hrule => hrule.imp fun _ hr => ⟨hsub hr.1, hr.2⟩

variable {l l' : List PermissionRule}

theorem says_of_insert (hr : r.decision.kind ≠ k) :
    Says ctx hooks (l ++ r :: l') k ↔ Says ctx hooks (l ++ l') k := by
  refine or_congr_left ⟨?_, ?_⟩
  · rintro ⟨r', hmem, happ⟩
    refine ⟨r', ?_, happ⟩
    have hne : r' ≠ r := by
      rintro rfl
      exact hr happ.2
    simpa [hne] using hmem
  · rintro ⟨r', hmem, happ⟩
    refine ⟨r', ?_, happ⟩
    rw [List.mem_append] at hmem ⊢
    exact hmem.imp_right (List.mem_cons_of_mem _)

theorem undeniedKind_insert (hr : r.decision = .deny) :
    undeniedKind ctx hooks (l ++ r :: l') mode = undeniedKind ctx hooks (l ++ l') mode := by
  have hkind : ∀ {k : Kind}, k ≠ .deny → r.decision.kind ≠ k := by
    intro k hk
    rw [hr]
    exact hk.symm
  exact if_congr (says_of_insert (hkind (by decide))) rfl (if_congr (says_of_insert (hkind (by decide))) rfl rfl)

theorem rulesKind_insert (hr : r.decision = .deny)
    (h : rulesKind ctx (l ++ l') mode = .deny) : rulesKind ctx (l ++ r :: l') mode = .deny := by
  by_cases hsaid : Says ctx [] (l ++ r :: l') .deny
  · exact if_pos hsaid
  · have hsaid' : ¬Says ctx [] (l ++ l') .deny := fun hs => hsaid (hs.mono (by simp))
    rw [rulesKind, if_neg hsaid, undeniedKind_insert hr]
    rwa [rulesKind, if_neg hsaid'] at h

theorem kindOf_insert (hr : r.decision = .deny)
    (h : kindOf ctx hooks (l ++ l') mode = .deny) : kindOf ctx hooks (l ++ r :: l') mode = .deny := by
  by_cases hsaid : Says ctx hooks (l ++ r :: l') .deny
  · exact if_pos hsaid
  · have hsaid' : ¬Says ctx hooks (l ++ l') .deny := fun hs => hsaid (hs.mono (by simp))
    rw [kindOf, if_neg hsaid'] at h
    rw [kindOf, if_neg hsaid]
    by_cases hmod : Says ctx hooks (l ++ l') .modify
    · have hmod' : Says ctx hooks (l ++ r :: l') .modify := hmod.mono (by simp)
      rw [if_pos hmod] at h
      rw [if_pos hmod']
      split_ifs at h with hex
      obtain ⟨ns, hns, hne, hdeny⟩ := hex
      exact if_pos ⟨ns, hns, hne, rulesKind_insert hr hdeny⟩
    · have hmod' : ¬Says ctx hooks (l ++ r :: l') .modify := by
        rw [says_modify] at hmod ⊢
        exact hmod
      rw [if_neg hmod] at h
      rw [if_neg hmod', undeniedKind_insert hr]
      exact h

/-- Evaluation is deny-first and does not depend on the order of the rules, nor on that of hooks that do not
modify; one more denial leaves a denial one. -/
theorem evaluateWith_kind (debug : String → String) (ctx : PermissionContext) (hooks : List HookDecision)
    (rules : List PermissionRule) (mode : PermissionsMode) (hmode : mode ≠ .off) :
    (evaluateWith debug ctx hooks rules mode).kind = kindOf ctx hooks rules mode ∧
    (∀ rules', rules.Perm rules' →
      (evaluateWith debug ctx hooks rules' mode).kind = (evaluateWith debug ctx hooks rules mode).kind) ∧
    (∀ hooks', hooks.Perm hooks' → (∀ h ∈ hooks, h.kind ≠ .modify) →
      (evaluateWith debug ctx hooks' rules mode).kind = (evaluateWith debug ctx hooks rules mode).kind) ∧
    ∀ l l' r, rules = l ++ l' → r.decision = .deny → (evaluateWith debug ctx hooks rules mode).kind = .deny →
      (evaluateWith debug ctx hooks (l ++ r :: l') mode).kind = .deny := by
  simp only [evaluateWith_eq_kindOf hmode]
  refine ⟨trivial, ?_, ?_, ?_⟩
  · intro rules' hperm
    exact (kindOf_congr_rules fun r => hperm.mem_iff).symm
  · intro hooks' hperm hno
    exact (kindOf_congr_hooks (fun h => hperm.mem_iff) hno).symm
  · rintro l l' r rfl hr hdeny
    exact kindOf_insert hr hdeny

end Kinds

/-- A hook asks to move a memory to `secrets/x`, and a rule that denies there refuses it, whatever else there is. -/
theorem evaluateWith_kind_escalation :
    let ctx : PermissionContext := ⟨.memoryStore, "public", "bob", .null⟩
    let hooks : List HookDecision := [.allow, .modify { ns := some "secrets/x" }]
    let rules : List PermissionRule := [{ nsPattern := "**", op := "memory_store", decision := .allow },
      { nsPattern := "secrets/*", op := "memory_store", decision := .deny }]
    kindOf ctx hooks rules .enforce = .deny ∧ (evaluateWith id ctx hooks rules .enforce).kind = .deny ∧
      (evaluateWith id ctx hooks rules.reverse .enforce).kind = .deny ∧
      (evaluateWith id ctx hooks ({ nsPattern := "x", op := "memory_link", decision := .deny } :: rules) .enforce).kind =
        .deny := by
  intro ctx hooks rules
  have hkind : kindOf ctx hooks rules .enforce = .deny := by decide
  obtain ⟨heq, hperm, -, hinsert⟩ := evaluateWith_kind id ctx hooks rules .enforce (by decide)
  refine ⟨hkind, heq.trans hkind, ?_, ?_⟩
  · rw [hperm _ rules.reverse_perm.symm]
    exact heq.trans hkind
  · exact hinsert [] rules _ rfl rfl (heq.trans hkind)

end Permissions

end AiMemory
