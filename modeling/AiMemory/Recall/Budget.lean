import AiMemory.Recall.Nearest

/-!
# The token budget of a recall

`apply_token_budget` fills a budget greedily and keeps the longest prefix that it affords, or the first memory where that
alone exceeds it. Costs are added up with saturation, so that the budget `usize::MAX` affords everything.
-/

namespace AiMemory

namespace Recall

section Spending

variable {F64 : Type} (cost : Memory → ℕ)

/-- What memories cost, up to `usize::MAX`. -/
def spent (l : List (Memory × F64)) : ℕ := min (l.map fun r => cost r.1).sum (2 ^ 64 - 1)

/-- The longest prefix that a budget affords. -/
structure LongestAffordable (budget : ℕ) (scored kept : List (Memory × F64)) : Prop where
  isPrefix : kept <+: scored
  affordable : spent cost kept ≤ budget
  longest : ∀ l, l <+: scored → spent cost l ≤ budget → l.length ≤ kept.length

variable {cost} {budget : ℕ} {l l' scored kept out rest : List (Memory × F64)} {r : Memory × F64}

theorem spent_append_singleton : spent cost (l ++ [r]) = saturatingAdd (spent cost l) (cost r.1) := by
  simp only [spent, saturatingAdd, List.map_append, List.map_singleton, List.sum_append, List.sum_singleton]
  omega

theorem spent_mono (h : l <+: l') : spent cost l ≤ spent cost l' := by
  obtain ⟨tail, rfl⟩ := h
  simp only [spent, List.map_append, List.sum_append]
  omega

/-- The prefix at which the fill stops is the longest one, since the next one is not affordable. -/
theorem longestAffordable_of_next (hafford : spent cost out ≤ budget) (hnext : budget < spent cost (out ++ [r])) :
    LongestAffordable cost budget (out ++ r :: rest) out where
  isPrefix := List.prefix_append _ _
  affordable := hafford
  longest l hl hle := by
    by_contra hlen
    rw [not_le] at hlen
    have hprefix : out ++ [r] <+: l := by
      refine List.prefix_of_prefix_length_le ⟨rest, by simp⟩ hl ?_
      rw [List.length_append]
      exact hlen
    exact absurd ((spent_mono hprefix).trans hle) (not_le.mpr hnext)

/-- What the fill keeps: the longest affordable prefix, or the first memory where nothing is affordable. -/
structure Filled (cost : Memory → ℕ) (budget : ℕ) (scored : List (Memory × F64))
    (filled : List (Memory × F64) × ℕ × Bool) : Prop where
  used : filled.2.1 = spent cost filled.1
  kept : filled.2.2 = false ∧ LongestAffordable cost budget scored filled.1 ∧ (filled.1 = [] → scored = []) ∨
    filled.2.2 = true ∧ ∃ r rest, scored = r :: rest ∧ filled.1 = [r] ∧ budget < spent cost [r]

/-- The invariant of the loop: what is kept so far is affordable. -/
theorem fillBudget_filled (hout : spent cost out ≤ budget) :
    Filled cost budget (out ++ rest) (fillBudget cost budget (spent cost out) out rest) := by
  induction rest generalizing out with
  | nil =>
    rw [List.append_nil]
    have hall : LongestAffordable cost budget out out := ⟨List.prefix_rfl, hout, fun l hl _ => hl.length_le⟩
    exact ⟨rfl, Or.inl ⟨rfl, hall, id⟩⟩
  | cons r rest ih =>
    rw [fillBudget, ← spent_append_singleton]
    by_cases hnext : budget < spent cost (out ++ [r])
    · rw [if_pos hnext]
      by_cases hempty : out = []
      · subst hempty
        exact ⟨rfl, Or.inr ⟨rfl, r, rest, rfl, rfl, hnext⟩⟩
      · rw [if_neg (by simpa using hempty)]
        exact ⟨rfl, Or.inl ⟨rfl, longestAffordable_of_next hout hnext, fun h => absurd h hempty⟩⟩
    · rw [if_neg hnext]
      have hrest := ih (not_lt.mp hnext)
      rwa [List.append_assoc, List.singleton_append] at hrest

/-- A larger budget keeps at least as much. -/
theorem filled_mono {budget' : ℕ} {filled filled' : List (Memory × F64) × ℕ × Bool} (hle : budget ≤ budget')
    (h : Filled cost budget scored filled) (h' : Filled cost budget' scored filled') : filled.1 <+: filled'.1 := by
  rcases h.kept with ⟨-, hlong, -⟩ | ⟨-, r, rest, hscored, hkept, -⟩
  · rcases h'.kept with ⟨-, hlong', -⟩ | ⟨-, r, rest, hscored, hkept', hover⟩
    · exact List.prefix_of_prefix_length_le hlong.isPrefix hlong'.isPrefix
        (hlong'.longest _ hlong.isPrefix (hlong.affordable.trans hle))
    · -- the first memory is not even affordable with the larger budget
      have hnil : filled.1 = [] := by
        by_contra hne
        obtain ⟨r', tail, hcons⟩ := List.exists_cons_of_ne_nil hne
        have hprefix := hlong.isPrefix
        rw [hcons, hscored, List.cons_prefix_cons] at hprefix
        have hfirst : [r] <+: filled.1 := by
          rw [hcons, hprefix.1]
          exact ⟨tail, rfl⟩
        have := (spent_mono hfirst).trans (hlong.affordable.trans hle)
        omega
      rw [hnil]
      exact List.nil_prefix
  · rw [hkept]
    rcases h'.kept with ⟨-, hlong', hne⟩ | ⟨-, r', rest', hscored', hkept', -⟩
    · obtain ⟨r', tail, hcons⟩ := List.exists_cons_of_ne_nil fun hnil => by
        rw [hne hnil] at hscored
        cases hscored
      have hprefix := hlong'.isPrefix
      rw [hcons, hscored, List.cons_prefix_cons] at hprefix
      rw [hcons, hprefix.1]
      exact ⟨tail, rfl⟩
    · rw [hscored] at hscored'
      obtain ⟨rfl, -⟩ := List.cons.inj hscored'
      rw [hkept']

end Spending

variable {F32 F64 : Type}

theorem applyTokenBudget_succ (env : Env F32 F64) (scored : List (Memory × F64)) (b : ℕ) :
    ∃ filled, Filled (fun mem => env.countTokens mem.content) (b + 1) scored filled ∧
      applyTokenBudget env scored (some (b + 1)) =
        (filled.1, ⟨filled.2.1, some (b + 1 - filled.2.1), scored.length - filled.1.length, filled.2.2⟩) := by
  have hnil : spent (fun mem => env.countTokens mem.content) ([] : List (Memory × F64)) ≤ b + 1 := Nat.zero_le _
  exact ⟨_, fillBudget_filled hnil, rfl⟩

/-- A budget of at least one token keeps the longest prefix that it affords, or the first memory where that alone exceeds
it; the outcome says what was used, and a larger budget keeps at least as much. -/
theorem applyTokenBudget_longest (env : Env F32 F64) (scored : List (Memory × F64)) (b : ℕ) :
    let cost := fun mem : Memory => env.countTokens mem.content
    let kept := (applyTokenBudget env scored (some (b + 1))).1
    let outcome := (applyTokenBudget env scored (some (b + 1))).2
    (outcome.budgetOverflow = false ∧ LongestAffordable cost (b + 1) scored kept ∧ (kept = [] → scored = []) ∨
        outcome.budgetOverflow = true ∧ ∃ r rest, scored = r :: rest ∧ kept = [r] ∧ b + 1 < spent cost [r]) ∧
      outcome.tokensUsed = spent cost kept ∧ outcome.tokensRemaining = some (b + 1 - spent cost kept) ∧
      outcome.memoriesDropped + kept.length = scored.length ∧
      ∀ b', b ≤ b' → kept <+: (applyTokenBudget env scored (some (b' + 1))).1 := by
  intro cost kept outcome
  obtain ⟨filled, hfilled, heq⟩ := applyTokenBudget_succ env scored b
  have hkept : kept = filled.1 := congrArg Prod.fst heq
  have houtcome : outcome = _ := congrArg Prod.snd heq
  have hlength : filled.1.length ≤ scored.length := by
    rcases hfilled.kept with ⟨-, hlong, -⟩ | ⟨-, r, rest, hscored, hone, -⟩
    · exact hlong.isPrefix.length_le
    · rw [hone, hscored]
      exact Nat.succ_le_succ (Nat.zero_le _)
  rw [hkept, houtcome]
  refine ⟨hfilled.kept, hfilled.used, by rw [← hfilled.used], Nat.sub_add_cancel hlength, fun b' hb' => ?_⟩
  obtain ⟨filled', hfilled', heq'⟩ := applyTokenBudget_succ env scored b'
  rw [congrArg Prod.fst heq']
  exact filled_mono (Nat.succ_le_succ hb') hfilled hfilled'

/-- With the largest budget the sum saturates: two memories are kept that together cost one token more. -/
theorem largest_budget_overspent :
    let env : Env ℚ ℚ := { Crowd.env with countTokens := fun _ => 2 ^ 63 }
    let scored : List (Memory × ℚ) := [(Crowd.target.toMemory, 1), (Crowd.target.toMemory, 0)]
    (applyTokenBudget env scored (some (2 ^ 64 - 1))).1 = scored ∧
      2 ^ 64 - 1 < (scored.map fun r => env.countTokens r.1.content).sum := by
  constructor
  · decide
  · decide

end Recall

end AiMemory
