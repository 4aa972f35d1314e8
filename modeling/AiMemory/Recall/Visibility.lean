import AiMemory.Lib.Like
import AiMemory.Model.Ancestors
import AiMemory.Model.Validate

/-!
# Who sees a memory

The rule is written twice. `is_visible` is the Rust check of the index branch; `visibility_clause` is the SQL fragment
of every other query, over the generated column `scope_idx`. They differ on two kinds of memories
(`isVisible_eq_iff`): one whose scope is neither a string nor `null`, in the agent's own namespace, which only Rust
takes as private; and one that lies below the agent's prefix up to ASCII case only, which only SQL admits.
-/

namespace AiMemory

open Like Validate

namespace Recall

/-- `VisibilityPrefixes`: the namespaces a private, team, unit and org memory is compared with. -/
structure VisibilityPrefixes where
  p : Option String
  t : Option String
  u : Option String
  o : Option String
  deriving DecidableEq

def computeVisibilityPrefixes (asAgent : Option String) : VisibilityPrefixes :=
  match asAgent with
  | none => ⟨none, none, none, none⟩
  | some ns =>
    let ancestors := namespaceAncestors ns
    ⟨ancestors[0]?, ancestors[1]?, ancestors[2]?, ancestors[3]?⟩

def matchesSubtree (ns : String) : Option String → Bool
  | none => false
  | some p => ns = p || (p.toList ++ ['/']).isPrefixOf ns.toList

def isVisible (mem : Memory) (prefixes : VisibilityPrefixes) : Bool :=
  if prefixes.p.isNone then true
  else
    match ((mem.metadata.get "scope").bind Json.asStr).getD "private" with
    | "collective" => true
    | "private" => prefixes.p = some mem.ns
    | "team" => matchesSubtree mem.ns prefixes.t
    | "unit" => matchesSubtree mem.ns prefixes.u
    | "org" => matchesSubtree mem.ns prefixes.o
    | _ => false

/-- The generated column `scope_idx`. It has text affinity; a value other than a string is kept as it is here, since
its text is no scope's name. -/
def scopeIdx (metadata : Json) : Json := (metadata.extract "scope").getD (.str "private")

/-- The part of the clause about one placeholder:
`?n IS NOT NULL AND (namespace = ?n OR namespace LIKE replace(replace(?n, …), …) || '/%' ESCAPE '\')`. -/
def likeSubtree (ns : String) : Option String → Bool
  | none => false
  | some p => ns = p || like '\\' (escape '\\' p.toList ++ ['/', '%']) ns.toList

/-- `visibility_clause`, on a row. -/
def visibilityClause (mem : Memory) (prefixes : VisibilityPrefixes) : Bool :=
  prefixes.p.isNone ||
  scopeIdx mem.metadata = .str "collective" ||
  (scopeIdx mem.metadata = .str "private" && prefixes.p = some mem.ns) ||
  (scopeIdx mem.metadata = .str "team" && likeSubtree mem.ns prefixes.t) ||
  (scopeIdx mem.metadata = .str "unit" && likeSubtree mem.ns prefixes.u) ||
  (scopeIdx mem.metadata = .str "org" && likeSubtree mem.ns prefixes.o)

/-! ## Where they differ -/

def VisibilityPrefixes.subtree (prefixes : VisibilityPrefixes) (scope : String) : Option String :=
  if scope = "team" then prefixes.t
  else if scope = "unit" then prefixes.u
  else if scope = "org" then prefixes.o
  else none

/-- The scope is set, to a value that is no string. -/
def ScopeNotText (mem : Memory) : Prop :=
  ∃ v, mem.metadata.get "scope" = some v ∧ v ≠ .null ∧ v.asStr = none

/-- `ns` lies below `q` once ASCII case is ignored, and not otherwise. -/
def BelowByCase (q ns : String) : Prop :=
  fold (q.toList ++ ['/']) <+: fold ns.toList ∧ ¬q.toList ++ ['/'] <+: ns.toList

/-- The memory's scope opens a subtree that its namespace is spelt into with other capitals. -/
def ByCase (mem : Memory) (prefixes : VisibilityPrefixes) : Prop :=
  ∃ scope q, mem.metadata.get "scope" = some (.str scope) ∧ prefixes.subtree scope = some q ∧ BelowByCase q mem.ns

section Agree

variable {mem : Memory} {asAgent : Option String} {prefixes : VisibilityPrefixes} {ns p q scope : String}
  {root : Option String} {fuel : ℕ}

theorem prefix_of_mem_ancestors (h : p ∈ namespaceAncestors ns) : p.toList <+: ns.toList := by
  by_cases hns : ns = ""
  · subst hns
    cases h
  · rcases (mem_namespaceAncestors hns).mp h with rfl | ⟨-, rest, hrest⟩
    · exact List.prefix_rfl
    · exact ⟨_, hrest.symm⟩

/-! ## The prefixes of a valid namespace -/

theorem ne_empty_of_valid (h : Accepts (validateNamespace ns)) : ns ≠ "" := by
  rintro rfl
  revert h
  decide

theorem no_backslash_of_valid (h : Accepts (validateNamespace ns)) : '\\' ∉ ns.toList := by
  intro hmem
  have hin := mem_trim (by decide) hmem
  unfold validateNamespace validateNamespaceChars at h
  simp only [accepts_bind, accepts_bailIf, Bool.or_eq_false_iff, List.contains_eq_mem, decide_eq_false_iff_not] at h
  exact h.2.2.1.1 hin

theorem p_of_valid (h : ∀ ns, asAgent = some ns → Accepts (validateNamespace ns)) :
    (computeVisibilityPrefixes asAgent).p = asAgent := by
  cases asAgent with
  | none => rfl
  | some ns =>
    have hns := ne_empty_of_valid (h ns rfl)
    rw [computeVisibilityPrefixes, namespaceAncestors, if_neg hns]
    cases hlen : ns.length with
    | zero => exact absurd (String.length_eq_zero_iff.mp hlen) hns
    | succ n => rfl

theorem no_backslash_of_subtree (h : ∀ ns, asAgent = some ns → Accepts (validateNamespace ns))
    (hq : (computeVisibilityPrefixes asAgent).subtree scope = some q) : '\\' ∉ q.toList := by
  cases asAgent with
  | none =>
    unfold VisibilityPrefixes.subtree at hq
    split_ifs at hq <;> cases hq
  | some ns =>
    have hmem : q ∈ namespaceAncestors ns := by
      unfold VisibilityPrefixes.subtree at hq
      split_ifs at hq <;> exact List.mem_of_getElem? hq
    exact fun hback => no_backslash_of_valid (h ns rfl) ((prefix_of_mem_ancestors hmem).subset hback)

/-! ## One subtree -/

theorem matchesSubtree_iff : matchesSubtree ns (some q) = true ↔ ns = q ∨ q.toList ++ ['/'] <+: ns.toList := by
  rw [matchesSubtree, Bool.or_eq_true, decide_eq_true_eq, List.isPrefixOf_iff_prefix]

theorem likeSubtree_iff (hq : '\\' ∉ q.toList) : likeSubtree ns (some q) = true ↔
    ns = q ∨ fold (q.toList ++ ['/']) <+: fold ns.toList := by
  have hesc : escape '\\' q.toList ++ ['/', '%'] = escape '\\' (q.toList ++ ['/']) ++ ['%'] := by
    rw [escape_append, List.append_assoc]
    rfl
  have hslash : '\\' ∉ q.toList ++ ['/'] := by simp [hq]
  rw [likeSubtree, Bool.or_eq_true, decide_eq_true_eq, hesc, like_escape_percent (by decide) hslash]

theorem matchesSubtree_eq_iff (hroot : ∀ q, root = some q → '\\' ∉ q.toList) :
    matchesSubtree ns root = likeSubtree ns root ↔ ∀ q, root = some q → ¬BelowByCase q ns := by
  cases root with
  | none => exact ⟨fun _ _ hq => (Option.some_ne_none _ hq.symm).elim, fun _ => rfl⟩
  | some q =>
    rw [Bool.eq_iff_iff, matchesSubtree_iff, likeSubtree_iff (hroot q rfl)]
    -- a namespace is too short to lie below itself
    have hself : ns = q → ¬fold (q.toList ++ ['/']) <+: fold ns.toList := by
      rintro rfl hpre
      have hlen := hpre.length_le
      simp [fold] at hlen
    have hfold : q.toList ++ ['/'] <+: ns.toList → fold (q.toList ++ ['/']) <+: fold ns.toList :=
      fold_prefix
    constructor
    · intro heq q' hq' hbelow
      cases hq'
      have hns := (heq.mpr (Or.inr hbelow.1)).resolve_right hbelow.2
      exact hself hns hbelow.1
    · intro hno
      have hnot := hno q rfl
      unfold BelowByCase at hnot
      tauto

/-! ## The scope -/

/-- A scope is private, collective or opens a subtree, whatever the check of the subtree. -/
def grants (sub : String → Option String → Bool) (ns : String) (prefixes : VisibilityPrefixes) (scope : String) : Bool :=
  (prefixes.p.isNone || scope = "collective" || (scope = "private" && prefixes.p = some ns)) ||
    sub ns (prefixes.subtree scope)

theorem isVisible_eq (h : ((mem.metadata.get "scope").bind Json.asStr).getD "private" = scope) :
    isVisible mem prefixes = grants matchesSubtree mem.ns prefixes scope := by
  unfold isVisible grants VisibilityPrefixes.subtree
  rw [h]
  cases prefixes.p with
  | none => simp
  | some p =>
    simp only [Option.isNone_some, Bool.false_eq_true, if_false, Bool.false_or]
    split
    · simp
    · simp [matchesSubtree]
    · simp
    · simp
    · simp
    · next hcollective hprivate hteam hunit horg =>
      rw [if_neg hteam, if_neg hunit, if_neg horg, decide_eq_false hcollective, decide_eq_false hprivate]
      rfl

theorem visibilityClause_eq (h : scopeIdx mem.metadata = .str scope) :
    visibilityClause mem prefixes = grants likeSubtree mem.ns prefixes scope := by
  unfold visibilityClause grants VisibilityPrefixes.subtree
  rw [h]
  simp only [Json.str.injEq]
  by_cases hteam : scope = "team"
  · simp [hteam]
  · by_cases hunit : scope = "unit"
    · simp [hunit]
    · by_cases horg : scope = "org" <;> simp [hteam, hunit, horg, likeSubtree]

/-- A scope that is a string, missing or `null` is the same text to both. -/
theorem scope_text (prefixes : VisibilityPrefixes) (h : ¬ScopeNotText mem) : ∃ scope,
    ((mem.metadata.get "scope").bind Json.asStr).getD "private" = scope ∧ scopeIdx mem.metadata = .str scope ∧
      (ByCase mem prefixes ↔ ∃ q, prefixes.subtree scope = some q ∧ BelowByCase q mem.ns) := by
  unfold scopeIdx Json.extract ByCase
  have hprivate : prefixes.subtree "private" = none := rfl
  cases hv : mem.metadata.get "scope" with
  | none => exact ⟨"private", rfl, rfl, by simp [hprivate]⟩
  | some v =>
    cases v with
    | null => exact ⟨"private", rfl, rfl, by simp [hprivate]⟩
    | str s => exact ⟨s, rfl, rfl, by simp⟩
    | _ => exact absurd ⟨_, hv, by simp, rfl⟩ h

/-- Any other scope is private to `is_visible`, and no scope to the SQL. -/
theorem scope_notText (prefixes : VisibilityPrefixes) (h : ScopeNotText mem) :
    ((mem.metadata.get "scope").bind Json.asStr).getD "private" = "private" ∧
      (∀ s, scopeIdx mem.metadata ≠ .str s) ∧ ¬ByCase mem prefixes := by
  obtain ⟨v, hv, hnull, htext⟩ := h
  unfold scopeIdx Json.extract ByCase
  have hfloat (r s : String) : Json.float r ≠ .str s := Json.noConfusion
  have hint (n : ℤ) (s : String) : Json.int n ≠ .str s := Json.noConfusion
  cases v <;> simp_all [Json.asStr, Json.throughSql, ite_eq_iff]

/-! ## The two checks -/

/-- Of one scope, the two checks differ on what lies below the root of its subtree up to case only. -/
theorem grants_eq_iff (hsub : ∀ q, prefixes.subtree scope = some q → '\\' ∉ q.toList)
    (hnone : prefixes.p = none → prefixes.subtree scope = none) :
    grants matchesSubtree ns prefixes scope = grants likeSubtree ns prefixes scope ↔
      ∀ q, prefixes.subtree scope = some q → ¬BelowByCase q ns := by
  rw [← matchesSubtree_eq_iff hsub]
  unfold grants
  cases hfirst : prefixes.p.isNone || decide (scope = "collective") ||
      decide (scope = "private") && decide (prefixes.p = some ns) with
  | false => rw [Bool.false_or, Bool.false_or]
  | true =>
    have hroot : prefixes.subtree scope = none := by
      simp only [Bool.or_eq_true, Bool.and_eq_true, Option.isNone_iff_eq_none, decide_eq_true_eq] at hfirst
      rcases hfirst with (h | rfl) | ⟨rfl, -⟩
      · exact hnone h
      · rfl
      · rfl
    rw [hroot]
    exact ⟨fun _ => rfl, fun _ => rfl⟩

/-- The two checks agree, but for a memory in the agent's own namespace whose scope is not a string, and one that is
spelt into an opened subtree with other capitals. -/
theorem isVisible_eq_iff (h : ∀ ns, asAgent = some ns → Accepts (validateNamespace ns)) :
    isVisible mem (computeVisibilityPrefixes asAgent) = visibilityClause mem (computeVisibilityPrefixes asAgent) ↔
      ¬(ScopeNotText mem ∧ asAgent = some mem.ns) ∧ ¬ByCase mem (computeVisibilityPrefixes asAgent) := by
  have hp := p_of_valid h
  have hroot : ∀ scope, (computeVisibilityPrefixes asAgent).p = none →
      (computeVisibilityPrefixes asAgent).subtree scope = none := by
    intro scope hnone
    rw [hp] at hnone
    subst hnone
    unfold VisibilityPrefixes.subtree
    split_ifs <;> rfl
  have hsame : ∀ scope, grants matchesSubtree mem.ns (computeVisibilityPrefixes asAgent) scope =
      grants likeSubtree mem.ns (computeVisibilityPrefixes asAgent) scope ↔
      ∀ q, (computeVisibilityPrefixes asAgent).subtree scope = some q → ¬BelowByCase q mem.ns :=
    fun scope => grants_eq_iff (fun q => no_backslash_of_subtree h) (hroot scope)
  by_cases htext : ScopeNotText mem
  · obtain ⟨hrust, hsql, hcase⟩ := scope_notText (computeVisibilityPrefixes asAgent) htext
    have hclause : visibilityClause mem (computeVisibilityPrefixes asAgent) = asAgent.isNone := by
      unfold visibilityClause
      simp [hsql, hp]
    rw [isVisible_eq hrust, hclause, grants, hp]
    cases asAgent with
    | none => simp [hcase]
    | some ns => simp [hcase, htext, VisibilityPrefixes.subtree, matchesSubtree]
  · obtain ⟨scope, hrust, hsql, hcase⟩ := scope_text (computeVisibilityPrefixes asAgent) htext
    rw [isVisible_eq hrust, visibilityClause_eq hsql, hsame, hcase]
    simp only [htext, false_and, not_false_eq_true, true_and, not_exists, not_and]

end Agree

/-! ## A namespace with capitals -/

def scopeMemory (id ns : String) (scope : Json) : Memory where
  id
  tier := .mid
  ns
  title := id
  content := ""
  tags := []
  priority := 5
  confidence := 1
  source := "user"
  accessCount := 0
  createdAt := "2026-01-01T00:00:00+00:00"
  updatedAt := "2026-01-01T00:00:00+00:00"
  lastAccessedAt := none
  expiresAt := none
  metadata := .obj [("scope", scope)]

/-- The checks agree on a team memory below the agent's team. -/
theorem isVisible_eq_team :
    isVisible (scopeMemory "m" "acme/eng/docs" (.str "team")) (computeVisibilityPrefixes (some "acme/eng/bob")) =
      visibilityClause (scopeMemory "m" "acme/eng/docs" (.str "team"))
        (computeVisibilityPrefixes (some "acme/eng/bob")) := by
  refine (isVisible_eq_iff fun ns hns => ?_).mpr ⟨?_, ?_⟩
  · cases hns
    decide
  · exact fun h => absurd h.2 (by decide)
  · rintro ⟨scope, q, hscope, hq, -, hnot⟩
    cases hscope
    cases hq
    exact hnot (by decide)

/-- The team of `acme/eng/bob` is not that of `Acme/Eng`, but the SQL admits its memories. -/
theorem capitals_admitted :
    Accepts (validateNamespace "Acme/Eng/docs") ∧ Accepts (validateNamespace "acme/eng/bob") ∧
      isVisible (scopeMemory "m" "Acme/Eng/docs" (.str "team")) (computeVisibilityPrefixes (some "acme/eng/bob")) =
        false ∧
      visibilityClause (scopeMemory "m" "Acme/Eng/docs" (.str "team"))
        (computeVisibilityPrefixes (some "acme/eng/bob")) = true ∧
      isVisible (scopeMemory "m" "acme/eng/bob" (.bool true)) (computeVisibilityPrefixes (some "acme/eng/bob")) = true ∧
      visibilityClause (scopeMemory "m" "acme/eng/bob" (.bool true)) (computeVisibilityPrefixes (some "acme/eng/bob")) =
        false := by
  decide

end Recall

end AiMemory
