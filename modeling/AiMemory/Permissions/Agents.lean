import AiMemory.Permissions.Evaluate

/-!
# The agent patterns of rules

A `*` in the `agent_pattern` of a rule is documented to stand for any characters, but agent ids are compared by the matcher
of the namespaces, whose `*` does not stand for a `/`, and `validate_agent_id` admits the `/`. So a rule is applied as its
agent pattern is documented on exactly the agent ids that do not fit the pattern, or fit it with pieces that the matcher
finds (`appliedAsDocumented_iff`); a rule for all agents misses every agent with a `/`.
-/

namespace Glob

variable {α : Type*} {sep : α} {short : List Bool → Prop} {ts : List (Token α)} {v : List α}

def Token.deepen : Token α → Token α
  | .lit a => .lit a
  | .star _ => .star true

theorem Cut.deepen (h : Cut sep short ts v) : Matches sep (ts.map Token.deepen) v := by
  induction h with
  | nil => exact .nil
  | lit _ ih => exact .lit ih
  | star _ _ _ ih => exact .star (Or.inl rfl) (fun hc => hc.elim) ih

end Glob

namespace AiMemory

namespace Permissions

open Glob ApprovalApi

/-- The value fits the pattern with any text for each star. -/
def FitsText (pattern value : String) : Prop :=
  Matches slash ((tokens (asBytes pattern)).map Token.deepen) (asBytes value)

/-- The rule is for the context, by the documented meaning of its agent pattern. -/
def PermissionRule.Concerns (r : PermissionRule) (ctx : PermissionContext) : Prop :=
  r.op = ctx.op.asStr ∧ globMatches r.nsPattern ctx.ns = true ∧ FitsText r.agentPattern ctx.agentId

/-- The rule applies to the contexts that it is documented for, and denies there if its decision is to deny. -/
def AppliedAsDocumented (debug : String → String) (r : PermissionRule) (ctx : PermissionContext) : Prop :=
  (r ∈ matchedRules ctx [r] ↔ r.Concerns ctx) ∧
    (r.decision = .deny → r.Concerns ctx → ∀ mode, mode = .enforce ∨ mode = .advisory → ∀ hooks rules, r ∈ rules →
      (evaluateWith debug ctx hooks rules mode).kind = .deny)

section Agents

variable {pattern value : String} {r : PermissionRule} {ctx : PermissionContext}

theorem globMatches_iff_short : globMatches pattern value = true ↔ IsShortMatch pattern value := by
  rw [globMatches, globInner_iff, greedy_iff_short]
  exact Iff.rfl

theorem fits_of_short (h : IsShortMatch pattern value) : FitsText pattern value := Cut.deepen h

/-- All agents fit `*`. -/
theorem fits_star (value : String) : FitsText "*" value := by
  have h : Matches slash [.star true] (asBytes value ++ []) := .star (Or.inl rfl) (fun hc => hc.elim) .nil
  rwa [List.append_nil] at h

/-- The matcher finds `*` in the ids without a `/`. -/
theorem isShortMatch_star_iff : IsShortMatch "*" value ↔ slash ∉ asBytes value := by
  have htokens : tokens (asBytes "*") = [.star false] := by decide
  rw [IsShortMatch, htokens, ShortMatches, cut_star_iff]
  constructor
  · rintro ⟨s, v', hv, hs, -, hrest⟩
    rw [hv, cut_nil_iff.mp hrest, List.append_nil]
    exact hs.resolve_left Bool.false_ne_true
  · intro hs
    refine ⟨_, [], (List.append_nil _).symm, Or.inr hs, fun h => ?_, .nil⟩
    exact absurd h (by decide)

/-- A rule is applied as documented exactly if an agent id that fits its pattern is one that the matcher finds. -/
theorem appliedAsDocumented_iff (debug : String → String) (r : PermissionRule) (ctx : PermissionContext) :
    AppliedAsDocumented debug r ctx ↔ (r.op = ctx.op.asStr → globMatches r.nsPattern ctx.ns = true →
      FitsText r.agentPattern ctx.agentId → IsShortMatch r.agentPattern ctx.agentId) := by
  have happlies : r ∈ matchedRules ctx [r] ↔ r.Applies ctx := by
    rw [mem_matchedRules]
    exact and_iff_right List.mem_cons_self
  constructor
  · rintro ⟨h, -⟩ hop hns hfits
    exact globMatches_iff_short.mp (happlies.mp (h.mpr ⟨hop, hns, hfits⟩)).2.2
  · intro h
    have hconcerns : r.Concerns ctx → r.Applies ctx := fun hc =>
      ⟨hc.1, hc.2.1, globMatches_iff_short.mpr (h hc.1 hc.2.1 hc.2.2)⟩
    refine ⟨happlies.trans ⟨fun ha => ?_, hconcerns⟩, fun hdeny hc mode hmode hooks rules hr => ?_⟩
    · exact ⟨ha.1, ha.2.1, fits_of_short (globMatches_iff_short.mp ha.2.2)⟩
    · have hsays : Says ctx hooks rules .deny := Or.inl ⟨r, hr, hconcerns hc, by rw [hdeny]; rfl⟩
      have hoff : mode ≠ .off := by
        rcases hmode with rfl | rfl <;> decide
      rw [evaluateWith_eq_kindOf hoff, kindOf, if_pos hsays]

/-- The agent `team/bob` is valid, and a rule that denies all agents a store allows it. -/
theorem slash_agent_escapes :
    let r : PermissionRule := { nsPattern := "**", op := "memory_store", decision := .deny }
    let ctx : PermissionContext := ⟨.memoryStore, "ns", "team/bob", .null⟩
    Validate.validateAgentId ctx.agentId = .ok () ∧ evaluateWith id ctx [] [r] .enforce = .allow ∧
      ¬AppliedAsDocumented id r ctx := by
  intro r ctx
  refine ⟨by decide, by decide, fun h => ?_⟩
  have happlies := (h.1.mpr ⟨rfl, by decide, fits_star _⟩)
  exact absurd happlies (by decide)

end Agents

end Permissions

end AiMemory
