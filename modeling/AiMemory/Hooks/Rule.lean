import AiMemory.Hooks.Chain
import AiMemory.Lib.Ranking

/-!
# The decision rule of a chain

The rule counts a hook that fails as an `Allow` or as a `Deny`, by its fail mode. The loop treats the deadline of the
class apart: a hook that is skipped under `open` leaves the prompts that were queued before it. So the chain follows its
rule exactly when it denies, or no such hook stands among the last ones after a prompt (`followsRule_iff`).
-/

namespace AiMemory.Hooks

/-! ## The rule -/

def counts (cfg : HookConfig) (reason : String) (code : ℤ) : HookDecision :=
  match cfg.failMode with
  | .open => .allow
  | .closed => .deny reason code

def verdict (event : HookEvent) (h : HookConfig × Outcome) : HookDecision :=
  match h.2 with
  | .exhausted => counts h.1 (skippedReason h.1) 504
  | .elapsed budgetMs => counts h.1 (erroredReason h.1 (.timeout budgetMs)) 503
  | .failed e => counts h.1 (erroredReason h.1 e) 503
  | .returned decision => decision.degradeModifyForPostEvent event

def denial (event : HookEvent) (h : HookConfig × Outcome) : Option (String × ℤ) :=
  match verdict event h with
  | .deny reason code => some (reason, code)
  | _ => none

def prompt (event : HookEvent) (h : HookConfig × Outcome) : Option AskUserPrompt :=
  match verdict event h with
  | .askUser prompt options default => some ⟨prompt, options, default, h.1.command⟩
  | _ => none

def rewrite (event : HookEvent) (h : HookConfig × Outcome) : Option MemoryDelta :=
  match verdict event h with
  | .modify delta => some delta
  | _ => none

/-- The prompts given after the last `Allow` or `Modify`. -/
def pending (event : HookEvent) (hs : List (HookConfig × Outcome)) : List AskUserPrompt :=
  (hs.rtakeWhile fun h => (prompt event h).isSome).filterMap (prompt event)

def conclude (prompts : List AskUserPrompt) (deltas : List MemoryDelta) : ChainResult :=
  if prompts ≠ [] then .askUser prompts
  else if deltas ≠ [] then .modifiedAllow (deltas.foldl mergeDeltaInto .empty)
  else .allow

/-- The rule: the first denial; else the pending prompts; else the deltas, composed; else `Allow`. -/
def rule (event : HookEvent) (hs : List (HookConfig × Outcome)) : ChainResult :=
  match hs.findSome? (denial event) with
  | some (reason, code) => .deny reason code
  | none => conclude (pending event hs) (hs.filterMap (rewrite event))

def considered (event : HookEvent) : List (HookConfig × Outcome) → List (HookConfig × Outcome)
  | [] => []
  | h :: hs => if (denial event h).isSome then [h] else h :: considered event hs

/-- The hook is handed to its executor. -/
def Asked (h : HookConfig × Outcome) : Prop := h.2 ≠ .exhausted

instance (h : HookConfig × Outcome) : Decidable (Asked h) := inferInstanceAs (Decidable (_ ≠ _))

/-- The property: the order of the hooks, the result, and which of them are asked. -/
structure FollowsRule (hooks : List HookConfig) (event : HookEvent) (payload : Json) (outcomes : ℕ → Outcome) : Prop where
  perm : (HookChain.new hooks).hooks.Perm hooks
  sorted : (HookChain.new hooks).hooks.Pairwise fun a b => b.priority ≤ a.priority
  stable : ∀ p, ((HookChain.new hooks).hooks.filter fun h => h.priority = p) = hooks.filter fun h => h.priority = p
  result : ((HookChain.new hooks).fire event payload outcomes).1 = rule event ((HookChain.new hooks).prepared outcomes)
  asked : ((HookChain.new hooks).fire event payload outcomes).2.map Prod.fst =
    ((considered event ((HookChain.new hooks).prepared outcomes)).filter Asked).map Prod.fst

/-- A hook that the exhausted deadline skips, and that does not deny for it. -/
def Skipped (h : HookConfig × Outcome) : Prop := h.2 = .exhausted ∧ h.1.failMode = .open

instance (h : HookConfig × Outcome) : Decidable (Skipped h) := inferInstanceAs (Decidable (_ ∧ _))

def quiet (event : HookEvent) (h : HookConfig × Outcome) : Bool := decide (Skipped h) || (prompt event h).isSome

/-- Some hook denies, or among the last hooks, those that prompt or are skipped, no prompt comes before a skipped one. -/
def PromptsKept (event : HookEvent) (hs : List (HookConfig × Outcome)) : Prop :=
  (∃ h ∈ hs, (denial event h).isSome) ∨
    (hs.rtakeWhile (quiet event)).Pairwise fun a b => ¬((prompt event a).isSome ∧ Skipped b)

variable {event : HookEvent} {h : HookConfig × Outcome} {hs : List (HookConfig × Outcome)} {acc : Acc}

/-! ## The order -/

section Order

variable {hooks : List HookConfig}

theorem priorityDescending_trans (a b c : HookConfig) (hab : priorityDescending a b) (hbc : priorityDescending b c) :
    priorityDescending a c := by
  simp only [priorityDescending, decide_eq_true_eq] at hab hbc ⊢
  exact hbc.trans hab

theorem priorityDescending_total (a b : HookConfig) : priorityDescending a b || priorityDescending b a := by
  simpa [priorityDescending] using le_total b.priority a.priority

theorem perm_new : (HookChain.new hooks).hooks.Perm hooks := List.mergeSort_perm hooks _

theorem sorted_new : (HookChain.new hooks).hooks.Pairwise fun a b => b.priority ≤ a.priority :=
  (List.pairwise_mergeSort priorityDescending_trans priorityDescending_total hooks).imp of_decide_eq_true

theorem stable_new (p : ℤ) :
    ((HookChain.new hooks).hooks.filter fun h => h.priority = p) = hooks.filter fun h => h.priority = p := by
  refine Ranking.filter_mergeSort priorityDescending_trans priorityDescending_total fun a b ha hb => ?_
  simp only [decide_eq_true_eq] at ha hb
  simp [priorityDescending, ha, hb]

end Order

/-! ## The loop -/

theorem prompt_of_skipped (hs : Skipped h) : prompt event h = none := by
  simp [prompt, verdict, counts, hs.1, hs.2]

def advance (event : HookEvent) (acc : Acc) (h : HookConfig × Outcome) : Acc :=
  if Skipped h then acc else accept h.1 acc (verdict event h)

theorem fireLoop_denied {reason : String} {code : ℤ} (hd : denial event h = some (reason, code)) :
    fireLoop event acc (h :: hs) = (.deny reason code, if Asked h then [(h.1, acc.payload)] else []) := by
  obtain ⟨cfg, outcome⟩ := h
  cases outcome with
  | exhausted =>
    cases hmode : cfg.failMode <;> simp_all [fireLoop, raced, denial, verdict, counts, Asked]
  | elapsed ms =>
    cases hmode : cfg.failMode <;> simp_all [fireLoop, raced, decided, denial, verdict, counts, Asked]
  | failed e =>
    cases hmode : cfg.failMode <;> simp_all [fireLoop, raced, decided, denial, verdict, counts, Asked]
  | returned d =>
    cases d with
    | deny r c => simp_all [fireLoop, raced, decided, denial, verdict, HookDecision.degradeModifyForPostEvent, Asked]
    | modify delta =>
      cases hpre : isPreEvent event <;>
        simp_all [denial, verdict, HookDecision.degradeModifyForPostEvent]
    | _ => simp_all [denial, verdict, HookDecision.degradeModifyForPostEvent]

theorem fireLoop_accepted (hd : denial event h = none) : fireLoop event acc (h :: hs) =
    ((fireLoop event (advance event acc h) hs).1,
      if Asked h then (h.1, acc.payload) :: (fireLoop event (advance event acc h) hs).2
      else (fireLoop event (advance event acc h) hs).2) := by
  obtain ⟨cfg, outcome⟩ := h
  cases outcome with
  | exhausted =>
    cases hmode : cfg.failMode <;> simp_all [fireLoop, raced, denial, verdict, counts, Asked, advance, Skipped]
  | elapsed ms =>
    cases hmode : cfg.failMode <;> simp_all [fireLoop, raced, decided, denial, verdict, counts, Asked, advance, Skipped]
  | failed e =>
    cases hmode : cfg.failMode <;> simp_all [fireLoop, raced, decided, denial, verdict, counts, Asked, advance, Skipped]
  | returned d =>
    cases d with
    | deny r c => simp_all [denial, verdict, HookDecision.degradeModifyForPostEvent]
    | _ => simp [fireLoop, raced, decided, verdict, Asked, advance, Skipped]

theorem fireLoop_result : (fireLoop event acc hs).1 =
    match hs.findSome? (denial event) with
    | some (reason, code) => .deny reason code
    | none => finish (hs.foldl (advance event) acc) := by
  induction hs generalizing acc with
  | nil => rfl
  | cons h hs ih =>
    rw [List.findSome?_cons, List.foldl_cons]
    cases hd : denial event h with
    | some d => rw [fireLoop_denied hd]
    | none => rw [fireLoop_accepted hd, ih]

theorem fireLoop_asked : (fireLoop event acc hs).2.map Prod.fst = ((considered event hs).filter Asked).map Prod.fst := by
  induction hs generalizing acc with
  | nil => rfl
  | cons h hs ih =>
    rw [considered]
    cases hd : denial event h with
    | some d =>
      rw [fireLoop_denied hd]
      by_cases hasked : Asked h <;> simp [hasked]
    | none =>
      rw [fireLoop_accepted hd]
      by_cases hasked : Asked h <;> simp [hasked, ih]

/-! ## The accumulators -/

theorem delta_advance : (advance event acc h).delta = ((rewrite event h).map (mergeDeltaInto acc.delta)).getD acc.delta := by
  unfold advance rewrite
  split_ifs with hskip
  · simp [verdict, counts, hskip.1, hskip.2]
  · cases verdict event h <;> rfl

theorem modified_advance : (advance event acc h).modified = (acc.modified || (rewrite event h).isSome) := by
  unfold advance rewrite
  split_ifs with hskip
  · simp [verdict, counts, hskip.1, hskip.2]
  · cases verdict event h <;> simp [accept]

theorem queue_advance : (advance event acc h).queue =
    if Skipped h then acc.queue else ((prompt event h).map fun p => acc.queue ++ [p]).getD [] := by
  unfold advance prompt
  split_ifs
  · rfl
  · cases verdict event h <;> rfl

theorem delta_foldl : (hs.foldl (advance event) acc).delta =
    (hs.filterMap (rewrite event)).foldl mergeDeltaInto acc.delta := by
  induction hs generalizing acc with
  | nil => rfl
  | cons h hs ih =>
    rw [List.foldl_cons, ih, delta_advance]
    cases hr : rewrite event h with
    | none => rw [List.filterMap_cons_none hr]; rfl
    | some d => rw [List.filterMap_cons_some hr]; rfl

theorem modified_foldl : (hs.foldl (advance event) acc).modified =
    (acc.modified || decide (hs.filterMap (rewrite event) ≠ [])) := by
  induction hs generalizing acc with
  | nil => simp
  | cons h hs ih =>
    rw [List.foldl_cons, ih, modified_advance]
    cases hr : rewrite event h with
    | none => rw [List.filterMap_cons_none hr, Option.isSome_none, Bool.or_false]
    | some d => simp [List.filterMap_cons_some hr]

theorem queue_foldl (hq : acc.queue = []) :
    (hs.foldl (advance event) acc).queue = (hs.rtakeWhile (quiet event)).filterMap (prompt event) := by
  induction hs using List.reverseRecOn with
  | nil => exact hq
  | append_singleton hs h ih =>
    rw [List.foldl_append, List.foldl_cons, List.foldl_nil, queue_advance, ih]
    by_cases hskip : Skipped h
    · have hquiet : quiet event h = true := by simp [quiet, hskip]
      rw [List.rtakeWhile_concat_pos _ _ h hquiet, if_pos hskip, List.filterMap_append,
        List.filterMap_cons_none (prompt_of_skipped hskip), List.filterMap_nil, List.append_nil]
    · rw [if_neg hskip]
      cases hp : prompt event h with
      | none =>
        have hloud : ¬quiet event h = true := by simp [quiet, hskip, hp]
        rw [List.rtakeWhile_concat_neg _ _ h hloud]
        rfl
      | some p =>
        have hquiet : quiet event h = true := by simp [quiet, hp]
        rw [List.rtakeWhile_concat_pos _ _ h hquiet, List.filterMap_append, List.filterMap_cons_some hp]
        rfl

theorem pending_concat_some {p : AskUserPrompt} (hp : prompt event h = some p) :
    pending event (hs ++ [h]) = pending event hs ++ [p] := by
  have hsome : (prompt event h).isSome = true := by simp [hp]
  rw [pending, List.rtakeWhile_concat_pos _ _ h hsome, List.filterMap_append, List.filterMap_cons_some hp]
  rfl

theorem pending_concat_none (hp : prompt event h = none) : pending event (hs ++ [h]) = [] := by
  have hnone : ¬(prompt event h).isSome = true := by simp [hp]
  rw [pending, List.rtakeWhile_concat_neg _ _ h hnone]
  rfl

/-- The loop's queue is what is pending exactly when no prompt comes before a skipped hook there. -/
theorem queue_eq_pending : (hs.rtakeWhile (quiet event)).filterMap (prompt event) = pending event hs ↔
    (hs.rtakeWhile (quiet event)).Pairwise fun a b => ¬((prompt event a).isSome ∧ Skipped b) := by
  induction hs using List.reverseRecOn with
  | nil => exact iff_of_true rfl List.Pairwise.nil
  | append_singleton hs h ih =>
    by_cases hskip : Skipped h
    · -- A skipped hook clears what is pending, so the queue has to be empty.
      have hquiet : quiet event h = true := by simp [quiet, hskip]
      have hnone : prompt event h = none := prompt_of_skipped hskip
      rw [List.rtakeWhile_concat_pos _ _ h hquiet, pending_concat_none hnone, List.filterMap_append,
        List.filterMap_cons_none hnone, List.filterMap_nil, List.append_nil, List.filterMap_eq_nil_iff]
      constructor
      · intro hempty
        refine List.pairwise_append.mpr ⟨?_, List.pairwise_singleton _ _, ?_⟩
        · refine List.pairwise_of_forall_mem_list fun a ha b _ => ?_
          simp [hempty a ha]
        · intro a ha b _
          simp [hempty a ha]
      · intro hpair a ha
        have hlast := (List.pairwise_append.mp hpair).2.2 a ha h (List.mem_singleton_self h)
        simpa [hskip] using hlast
    · cases hp : prompt event h with
      | none =>
        have hloud : ¬quiet event h = true := by simp [quiet, hskip, hp]
        rw [List.rtakeWhile_concat_neg _ _ h hloud, pending_concat_none hp]
        exact iff_of_true rfl List.Pairwise.nil
      | some p =>
        have hquiet : quiet event h = true := by simp [quiet, hp]
        rw [List.rtakeWhile_concat_pos _ _ h hquiet, pending_concat_some hp, List.filterMap_append,
          List.filterMap_cons_some hp, List.filterMap_nil, List.append_left_inj, ih, List.pairwise_append]
        refine ⟨fun hpair => ⟨hpair, List.pairwise_singleton _ _, ?_⟩, fun hpair => hpair.1⟩
        intro a _ b hb
        rw [List.mem_singleton.mp hb]
        exact fun hab => hskip hab.2

/-! ## The chain against its rule -/

theorem conclude_eq_iff {prompts prompts' : List AskUserPrompt} {deltas : List MemoryDelta} :
    conclude prompts deltas = conclude prompts' deltas ↔ prompts = prompts' := by
  refine ⟨fun heq => ?_, fun heq => heq ▸ rfl⟩
  unfold conclude at heq
  split_ifs at heq with h1 h2 h3 h4 <;> simp_all

theorem finish_eq_conclude (hdelta : acc.delta = .empty) (hmodified : acc.modified = false) (hqueue : acc.queue = []) :
    finish (hs.foldl (advance event) acc) =
      conclude ((hs.rtakeWhile (quiet event)).filterMap (prompt event)) (hs.filterMap (rewrite event)) := by
  rw [finish, conclude, queue_foldl hqueue, modified_foldl, delta_foldl, hdelta, hmodified, Bool.false_or]
  simp only [decide_eq_true_eq]

theorem result_eq_rule_iff (hdelta : acc.delta = .empty) (hmodified : acc.modified = false) (hqueue : acc.queue = []) :
    (fireLoop event acc hs).1 = rule event hs ↔ PromptsKept event hs := by
  rw [fireLoop_result, rule, PromptsKept]
  cases hd : hs.findSome? (denial event) with
  | some d =>
    obtain ⟨h, hh, hdenial⟩ := List.exists_of_findSome?_eq_some hd
    exact iff_of_true rfl (Or.inl ⟨h, hh, by rw [hdenial]; rfl⟩)
  | none =>
    have hnone : ¬∃ h ∈ hs, (denial event h).isSome := by
      rintro ⟨h, hh, hsome⟩
      rw [List.findSome?_eq_none_iff.mp hd h hh] at hsome
      cases hsome
    simp only [finish_eq_conclude hdelta hmodified hqueue, conclude_eq_iff, queue_eq_pending, hnone, false_or]

/-- The chain follows its rule exactly when it keeps the prompts that are pending. -/
theorem followsRule_iff (hooks : List HookConfig) (event : HookEvent) (payload : Json) (outcomes : ℕ → Outcome) :
    FollowsRule hooks event payload outcomes ↔ PromptsKept event ((HookChain.new hooks).prepared outcomes) := by
  have hresult : ((HookChain.new hooks).fire event payload outcomes).1 =
      rule event ((HookChain.new hooks).prepared outcomes) ↔
        PromptsKept event ((HookChain.new hooks).prepared outcomes) := result_eq_rule_iff rfl rfl rfl
  exact ⟨fun h => hresult.mp h.result, fun h => ⟨perm_new, sorted_new, stable_new, hresult.mpr h, fireLoop_asked⟩⟩

/-- A hook that prompts, then one that the exhausted deadline skips. -/
def promptThenSkip : List HookConfig :=
  [⟨.preStore, "/etc/hooks/confirm", 2, true, .open⟩, ⟨.preStore, "/etc/hooks/scan", 1, true, .open⟩]

def promptThenSkipOutcomes : ℕ → Outcome
  | 0 => .returned (.askUser "store it?" ["yes", "no"] none)
  | _ => .exhausted

theorem promptThenSkip_breaks_rule : ¬FollowsRule promptThenSkip .preStore (.obj []) promptThenSkipOutcomes := by
  have hchain : HookChain.new promptThenSkip = ⟨promptThenSkip⟩ :=
    congrArg HookChain.mk (List.mergeSort_of_pairwise (by decide))
  intro h
  have hresult := h.result
  rw [hchain] at hresult
  revert hresult
  decide

end AiMemory.Hooks
