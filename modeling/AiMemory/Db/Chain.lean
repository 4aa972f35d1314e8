import AiMemory.Db.Governance
import AiMemory.Model.Ancestors

/-!
# The inheritance chain

`build_namespace_chain` lists the levels of a namespace: its `/`-ancestors, the explicit parents above the
root-most of them, and `*`. Only the root-most ancestor's explicit parent is followed, and then that parent's, and so
on, at most eight of them; `levels_iff` says that the levels are these and no others. `resolve_governance_policy`
takes the policy of the first level that has one, from the leaf up.
-/

namespace AiMemory

namespace Db

/-- The explicit parents above `root`: each is the parent of the one before, none is `*`, among the `/`-ancestors or
listed twice; the list ends after eight, or where the next parent is missing or would break that. -/
structure ExplicitParents (db : Db) (hierarchy : List String) (root : String) (above : List String) : Prop where
  linked : List.IsChain (fun a b => db.getNamespaceParent a = some b) (root :: above)
  nodup : above.Nodup
  fresh : ∀ p ∈ above, p ≠ "*" ∧ p ∉ hierarchy
  length_le : above.length ≤ 8
  ends : above.length = 8 ∨ ∀ p, db.getNamespaceParent (above.getLastD root) = some p →
    p = "*" ∨ p ∈ above ∨ p ∈ hierarchy

/-- The levels of a namespace, leaf first. -/
inductive Levels (db : Db) : String → List String → Prop
  | global : Levels db "*" ["*"]
  | empty : Levels db "" ["*"]
  | walk {ns root : String} {above : List String} : ns ≠ "*" → (namespaceAncestors ns).getLast? = some root →
      ExplicitParents db (namespaceAncestors ns) root above →
      Levels db ns ((namespaceAncestors ns).filter (· ≠ "*") ++ above ++ ["*"])

section Chain

variable {db : Db} {hierarchy above pre post : List String} {ns root current : String} {fuel : ℕ}

/-! ## The explicit parents -/

theorem isChain_concat {R : String → String → Prop} {p : String} :
    List.IsChain R (root :: (pre ++ [p])) ↔ List.IsChain R (root :: pre) ∧ R (pre.getLastD root) p := by
  rw [← List.cons_append, List.isChain_append]
  simp [List.getLast?_cons, List.getLastD_eq_getLast?]

theorem getLastD_concat {p : String} : (pre ++ [p]).getLastD root = p := by
  rw [List.getLastD_eq_getLast?, List.getLast?_concat, Option.getD_some]

/-- The loop finds the explicit parents. -/
theorem explicitParents_explicitAbove (hlen : pre.length + fuel = 8) (hcurrent : pre.getLastD root = current)
    (hlinked : List.IsChain (fun a b => db.getNamespaceParent a = some b) (root :: pre)) (hnodup : pre.Nodup)
    (hfresh : ∀ p ∈ pre, p ≠ "*" ∧ p ∉ hierarchy) :
    ExplicitParents db hierarchy root (db.explicitAbove hierarchy fuel current pre) := by
  induction fuel generalizing pre current with
  | zero =>
    rw [explicitAbove]
    exact ⟨hlinked, hnodup, hfresh, by omega, Or.inl hlen⟩
  | succ fuel ih =>
    rw [explicitAbove]
    have hstop : (∀ p, db.getNamespaceParent current = some p → p = "*" ∨ p ∈ pre ∨ p ∈ hierarchy) →
        ExplicitParents db hierarchy root pre := by
      rw [← hcurrent]
      exact fun h => ⟨hlinked, hnodup, hfresh, by omega, Or.inr h⟩
    cases hp : db.getNamespaceParent current with
    | none =>
      refine hstop fun p hp' => ?_
      rw [hp] at hp'
      cases hp'
    | some p =>
      simp only
      split_ifs with hnew
      · obtain ⟨hstar, hseen, hhier⟩ := hnew
        refine ih ?_ getLastD_concat (isChain_concat.mpr ⟨hlinked, by rw [hcurrent, hp]⟩) ?_ ?_
        · rw [List.length_append, List.length_singleton]
          omega
        · exact List.nodup_append.mpr ⟨hnodup, List.nodup_singleton p, fun a ha b hb hab =>
            hseen (List.mem_singleton.mp hb ▸ hab ▸ ha)⟩
        · intro q hq
          rcases List.mem_append.mp hq with hq | hq
          · exact hfresh q hq
          · rw [List.mem_singleton.mp hq]
            exact ⟨hstar, hhier⟩
      · refine hstop fun p' hp' => ?_
        rw [hp] at hp'
        cases hp'
        tauto

/-- The explicit parents are what the loop finds. -/
theorem explicitAbove_eq (h : ExplicitParents db hierarchy root (pre ++ post)) (hlen : pre.length + fuel = 8)
    (hcurrent : pre.getLastD root = current) : db.explicitAbove hierarchy fuel current pre = pre ++ post := by
  induction fuel generalizing pre post current with
  | zero =>
    have hle := h.length_le
    rw [List.length_append] at hle
    rw [explicitAbove, List.length_eq_zero_iff.mp (show post.length = 0 by omega), List.append_nil]
  | succ fuel ih =>
    rw [explicitAbove]
    cases post with
    | nil =>
      rw [List.append_nil] at h ⊢
      have hends := h.ends.resolve_left (by omega)
      rw [hcurrent] at hends
      cases hp : db.getNamespaceParent current with
      | none => rfl
      | some p =>
        have hbad := hends p hp
        simp only
        rw [if_neg (by tauto)]
    | cons p post =>
      have hsplit : pre ++ p :: post = pre ++ [p] ++ post := by rw [List.append_assoc, List.singleton_append]
      have hlinked := h.linked
      rw [hsplit, ← List.cons_append] at hlinked
      have hp := (isChain_concat.mp hlinked.left_of_append).2
      rw [hcurrent] at hp
      have hmem : p ∈ pre ++ p :: post := List.mem_append_right _ List.mem_cons_self
      have hseen : p ∉ pre := fun hpre => (List.nodup_append.mp h.nodup).2.2 p hpre p List.mem_cons_self rfl
      rw [hp]
      simp only
      rw [if_pos ⟨(h.fresh p hmem).1, hseen, (h.fresh p hmem).2⟩, hsplit]
      refine ih (hsplit ▸ h) ?_ getLastD_concat
      rw [List.length_append, List.length_singleton]
      omega

theorem explicitParents_iff : ExplicitParents db hierarchy root above ↔ above = db.explicitAbove hierarchy 8 root [] := by
  constructor
  · intro h
    exact (explicitAbove_eq (show ExplicitParents db hierarchy root ([] ++ above) from h) rfl rfl).symm
  · rintro rfl
    exact explicitParents_explicitAbove rfl rfl (List.isChain_singleton root) List.nodup_nil
      fun p hp => absurd hp List.not_mem_nil

theorem ExplicitParents.congr {hierarchy' : List String} (hmem : ∀ p, p ∈ hierarchy ↔ p ∈ hierarchy')
    (h : ExplicitParents db hierarchy root above) : ExplicitParents db hierarchy' root above := by
  obtain ⟨hlinked, hnodup, hfresh, hlen, hends⟩ := h
  simp only [hmem] at hfresh hends
  exact ⟨hlinked, hnodup, hfresh, hlen, hends⟩

/-! ## The levels -/

theorem foldl_append_new {chain entries : List String} (hnodup : entries.Nodup) :
    entries.foldl (fun chain entry => if entry ∈ chain then chain else chain ++ [entry]) chain =
      chain ++ entries.filter (· ∉ chain) := by
  induction entries generalizing chain with
  | nil => rw [List.filter_nil, List.append_nil, List.foldl_nil]
  | cons e entries ih =>
    rw [List.nodup_cons] at hnodup
    rw [List.foldl_cons, ih hnodup.2]
    by_cases he : e ∈ chain
    · rw [if_pos he, List.filter_cons_of_neg (by simpa using he)]
    · have hrest : entries.filter (· ∉ chain ++ [e]) = entries.filter (· ∉ chain) := by
        refine List.filter_congr fun x hx => ?_
        have hne : x ≠ e := by
          rintro rfl
          exact hnodup.1 hx
        simp [hne]
      rw [if_neg he, List.filter_cons_of_pos (by simpa using he), hrest, List.append_assoc, List.singleton_append]

theorem buildNamespaceChain_reverse (hns : ns ≠ "*") (hroot : (namespaceAncestors ns).getLast? = some root)
    (habove : ExplicitParents db (namespaceAncestors ns) root above) :
    (db.buildNamespaceChain ns).reverse = (namespaceAncestors ns).filter (· ≠ "*") ++ above ++ ["*"] := by
  obtain ⟨hierarchy, hhier⟩ : ∃ hierarchy, hierarchy = (namespaceAncestors ns).reverse := ⟨_, rfl⟩
  have hmem : ∀ p, p ∈ namespaceAncestors ns ↔ p ∈ hierarchy := by
    intro p
    rw [hhier, List.mem_reverse]
  have hhead : hierarchy.head? = some root := by rw [hhier, List.head?_reverse, hroot]
  have hloop := explicitParents_iff.mp (habove.congr hmem)
  have hnew : hierarchy.filter (· ∉ "*" :: above.reverse) = hierarchy.filter (· ≠ "*") := by
    refine List.filter_congr fun e he => ?_
    have hno : e ∉ above := fun hin => (habove.fresh e hin).2 ((hmem e).mpr he)
    simp [hno]
  have hchain : db.buildNamespaceChain ns = "*" :: above.reverse ++ hierarchy.filter (· ≠ "*") := by
    unfold buildNamespaceChain
    rw [if_neg hns, ← hhier]
    cases hierarchy with
    | nil => cases hhead
    | cons r rest =>
      cases Option.some.inj hhead
      simp only
      rw [← hloop, foldl_append_new, hnew]
      rw [hhier]
      exact List.nodup_reverse.mpr (nodup_namespaceAncestors ns)
  rw [hchain, hhier, List.reverse_append, ← List.filter_reverse, List.reverse_reverse, List.reverse_cons,
    List.reverse_reverse, List.append_assoc]

theorem exists_root (hns : ns ≠ "") : ∃ root, (namespaceAncestors ns).getLast? = some root := by
  refine Option.ne_none_iff_exists'.mp fun hnone => ?_
  rw [List.getLast?_eq_none_iff] at hnone
  have hhead := head?_namespaceAncestors hns
  rw [hnone] at hhead
  cases hhead

theorem levels_iff {levels : List String} : Levels db ns levels ↔ levels = (db.buildNamespaceChain ns).reverse := by
  constructor
  · intro h
    cases h with
    | global => rfl
    | empty => rfl
    | walk hns hroot habove => exact (buildNamespaceChain_reverse hns hroot habove).symm
  · rintro rfl
    by_cases hstar : ns = "*"
    · subst hstar
      exact .global
    by_cases hempty : ns = ""
    · subst hempty
      exact .empty
    obtain ⟨root, hroot⟩ := exists_root hempty
    have habove := explicitParents_iff.mpr (rfl : db.explicitAbove (namespaceAncestors ns) 8 root [] = _)
    rw [buildNamespaceChain_reverse hstar hroot habove]
    exact .walk hstar hroot habove

end Chain

/-- The policy of a namespace is that of the first of its levels that has one. The levels are what the chain lists. -/
theorem resolveGovernancePolicy_nearest (db : Db) (ns : String) :
    ∃ levels, (∀ levels', Levels db ns levels' ↔ levels' = levels) ∧ db.buildNamespaceChain ns = levels.reverse ∧
      (∀ policy, db.resolveGovernancePolicy ns = some policy ↔ ∃ before level after,
        levels = before ++ level :: after ∧ db.readNamespacePolicy level = some policy ∧
          ∀ nearer ∈ before, db.readNamespacePolicy nearer = none) ∧
      (db.resolveGovernancePolicy ns = none ↔ ∀ level ∈ levels, db.readNamespacePolicy level = none) :=
  ⟨_, fun _ => levels_iff, (List.reverse_reverse _).symm, fun _ => List.findSome?_eq_some_iff, List.findSome?_eq_none_iff⟩

/-! ## A parent that is left out -/

def standardMemory (id ns : String) (metadata : Json) : Memory where
  id
  tier := .long
  ns
  title := "Rules"
  content := ""
  tags := []
  priority := 5
  confidence := 1
  source := "user"
  accessCount := 0
  createdAt := "2026-01-01T00:00:00+00:00"
  updatedAt := "2026-01-01T00:00:00+00:00"
  lastAccessedAt := none
  expiresAt := none
  metadata

/-- `a/b` has a standard without a policy and the explicit parent `c`, whose standard has one. -/
def linked : Db :=
  { Db.empty with
    memories := ⟨⟨[(standardMemory "s0" "a/b" (.obj [])).toRow,
      (standardMemory "s1" "c" (.obj [("governance", .obj [("write", .str "approve")])])).toRow], by decide⟩, by decide⟩
    namespaceMeta := ⟨[⟨"a/b", "s0", some "c", "2026-01-01T00:00:00+00:00"⟩,
      ⟨"c", "s1", none, "2026-01-01T00:00:00+00:00"⟩], by decide⟩ }

/-- Every order of the levels above `a/b` leads to the policy of `c`, but `c` is not in the chain, and no policy is
found. -/
theorem explicit_parent_left_out :
    linked.getNamespaceParent "a/b" = some "c" ∧
      (linked.readNamespacePolicy "c").map (·.write) = some .approve ∧
      (∀ level ∈ ["a/b", "a", "*"], linked.readNamespacePolicy level = none) ∧
      "c" ∉ linked.buildNamespaceChain "a/b" ∧ linked.resolveGovernancePolicy "a/b" = none := by
  decide

/-! ## The shape of the chain -/

/-- A chain from the global standard down to `ns`. An entry that is neither `*` nor a `/`-ancestor of `ns` is the explicit parent of
another entry, and stands right before that child unless the child is `*`, which keeps the head. -/
structure WellFormed (db : Db) (ns : String) (chain : List String) : Prop where
  starts : chain.head? = some "*"
  ends : chain.getLast? = some ns
  nodup : chain.Nodup
  ancestors : (namespaceAncestors ns).reverse.Sublist chain
  parents : ∀ p ∈ chain, p ≠ "*" → p ∉ namespaceAncestors ns →
    ∃ c ∈ chain, db.getNamespaceParent c = some p ∧ (c ≠ "*" → [p, c] <:+: chain)

section Shape

variable {db : Db} {hierarchy above : List String} {ns root : String} {fuel : ℕ}

theorem ancestors_sublist : (namespaceAncestors ns).Sublist ((namespaceAncestors ns).filter (· ≠ "*") ++ above ++ ["*"]) := by
  by_cases hstar : "*" ∈ namespaceAncestors ns
  · obtain ⟨init, hinit⟩ := List.getLast?_eq_some_iff.mp (getLast?_namespaceAncestors (by decide) hstar)
    have hnodup := nodup_namespaceAncestors ns
    rw [hinit] at hnodup ⊢
    have hkept : (init ++ ["*"]).filter (· ≠ "*") = init := by
      rw [List.filter_append, List.filter_eq_self.mpr]
      · simp
      · intro e he
        have hne : e ≠ "*" := fun h => (List.nodup_append.mp hnodup).2.2 e he "*" (List.mem_singleton_self _) h
        simpa using hne
    rw [hkept]
    exact (List.sublist_append_left init above).append_right ["*"]
  · rw [List.filter_eq_self.mpr fun e he => by simpa using fun h : e = "*" => hstar (h ▸ he), List.append_assoc]
    exact List.sublist_append_left _ _

theorem ExplicitParents.child_of_mem {p : String} (h : ExplicitParents db hierarchy root above) (hp : p ∈ above) :
    ∃ pre c post, root :: above = pre ++ c :: p :: post ∧ db.getNamespaceParent c = some p := by
  obtain ⟨before, after, hsplit⟩ := List.append_of_mem hp
  have hcut : root :: above = (root :: before).dropLast ++ (root :: before).getLast (List.cons_ne_nil _ _) :: p :: after := by
    rw [List.append_cons, List.dropLast_append_getLast, hsplit, List.cons_append]
  refine ⟨_, _, _, hcut, ?_⟩
  have hlinked := h.linked
  rw [hcut] at hlinked
  exact (List.isChain_cons_cons.mp hlinked.right_of_append).1

/-- The chain of a namespace is well formed on any graph of parents. -/
theorem wellFormed_buildNamespaceChain (db : Db) {ns : String} (hempty : ns ≠ "") (hstar : ns ≠ "*") :
    WellFormed db ns (db.buildNamespaceChain ns) := by
  obtain ⟨root, hroot⟩ := exists_root hempty
  have habove := explicitParents_iff.mpr (rfl : db.explicitAbove (namespaceAncestors ns) 8 root [] = _)
  have hrev := buildNamespaceChain_reverse hstar hroot habove
  set above := db.explicitAbove (namespaceAncestors ns) 8 root []
  have hmem : ∀ e, e ∈ db.buildNamespaceChain ns ↔ e ∈ namespaceAncestors ns ∧ e ≠ "*" ∨ e ∈ above ∨ e = "*" := by
    intro e
    rw [← List.mem_reverse, hrev]
    simp
  refine ⟨?_, ?_, ?_, ?_, ?_⟩
  · rw [← List.getLast?_reverse, hrev, List.getLast?_concat]
  · obtain ⟨rest, hrest⟩ := List.head?_eq_some_iff.mp (head?_namespaceAncestors hempty)
    rw [← List.head?_reverse, hrev, hrest, List.filter_cons_of_pos (by simpa using hstar)]
    rfl
  · rw [← List.nodup_reverse, hrev]
    refine List.nodup_append.mpr ⟨List.nodup_append.mpr ⟨(nodup_namespaceAncestors ns).filter _, habove.nodup, ?_⟩,
      List.nodup_singleton _, ?_⟩
    · rintro a ha b hb rfl
      exact (habove.fresh a hb).2 (List.mem_of_mem_filter ha)
    · rintro a ha b hb rfl
      rw [List.mem_singleton] at hb
      subst hb
      rcases List.mem_append.mp ha with ha | ha
      · simp at ha
      · exact (habove.fresh _ ha).1 rfl
  · rw [← List.reverse_sublist, List.reverse_reverse, hrev]
    exact ancestors_sublist
  · intro p hp hne hnew
    have hin : p ∈ above := by
      rcases (hmem p).mp hp with ⟨hp, -⟩ | hp | hp
      · exact absurd hp hnew
      · exact hp
      · exact absurd hp hne
    obtain ⟨pre, c, post, hcut, hlink⟩ := habove.child_of_mem hin
    -- the child is the root-most ancestor or an explicit parent itself
    have hc : c = root ∨ c ∈ above := by
      have hcmem : c ∈ root :: above := hcut ▸ List.mem_append_right _ List.mem_cons_self
      exact List.mem_cons.mp hcmem
    have hancestor : root ∈ namespaceAncestors ns := List.mem_of_getLast? hroot
    refine ⟨c, (hmem c).mpr ?_, hlink, fun hcne => ?_⟩
    · by_cases hcs : c = "*"
      · exact Or.inr (Or.inr hcs)
      · rcases hc with rfl | hc
        · exact Or.inl ⟨hancestor, hcs⟩
        · exact Or.inr (Or.inl hc)
    · obtain ⟨init, hinit⟩ := List.getLast?_eq_some_iff.mp hroot
      have hown : above.filter (· ≠ "*") = above :=
        List.filter_eq_self.mpr fun e he => by simpa using (habove.fresh e he).1
      have hlist : (db.buildNamespaceChain ns).reverse =
          (init.filter (· ≠ "*") ++ pre.filter (· ≠ "*")) ++ [c, p] ++ (post.filter (· ≠ "*") ++ ["*"]) := by
        calc (db.buildNamespaceChain ns).reverse
            = init.filter (· ≠ "*") ++ (root :: above).filter (· ≠ "*") ++ ["*"] := by
              rw [hrev, hinit, List.filter_append, List.filter_cons, List.filter_cons, hown]
              split_ifs <;> simp
          _ = _ := by
              rw [hcut, List.filter_append, List.filter_cons_of_pos (by simpa using hcne), List.filter_cons_of_pos (by simpa using hne)]
              simp
      rw [← List.reverse_infix, hlist]
      exact ⟨_, _, rfl⟩

end Shape

/-- `p` is the explicit parent of the global standard. -/
def starred : Db :=
  { Db.empty with
    memories := ⟨⟨[(standardMemory "s0" "*" (.obj [])).toRow], by decide⟩, by decide⟩
    namespaceMeta := ⟨[⟨"*", "s0", some "p", "2026-01-01T00:00:00+00:00"⟩], by decide⟩ }

/-- The chain of `a/b`. -/
theorem wellFormed_ab : WellFormed starred "a/b" (starred.buildNamespaceChain "a/b") :=
  wellFormed_buildNamespaceChain starred (by decide) (by decide)

/-- The chain of the empty namespace does not end with it, and the chain of a namespace below `*` has the parent of `*` after it. -/
theorem starred_chain :
    (Db.empty.buildNamespaceChain "").getLast? ≠ some "" ∧
      "p" ∈ starred.buildNamespaceChain "*/x" ∧ starred.getNamespaceParent "*" = some "p" ∧
      (starred.namespaceMeta.rows.all fun row => row.parentNamespace ≠ some "p" ∨ row.ns = "*") ∧
      ¬["p", "*"].Sublist (starred.buildNamespaceChain "*/x") := by
  decide

end Db

end AiMemory
