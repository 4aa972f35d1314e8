import AiMemory.Lib.Like
import AiMemory.Db.Chain

/-!
# The namespace taxonomy

`get_taxonomy` counts the live memories below a prefix with one query, groups them by namespace with another, cut at the
limit, and folds the groups into a tree, clamped at the depth. Each group is a walk down the tree; a tree that the walks made
has at each node the numbers of the walks that pass through it (`Fits.visit`, `fits_foldl`), sorted or not.
-/

namespace AiMemory

open Relational

structure TaxonomyNode where
  ns : String
  name : String
  count : ℕ
  subtreeCount : ℕ
  children : List TaxonomyNode

structure Taxonomy where
  tree : TaxonomyNode
  totalCount : ℕ
  truncated : Bool

namespace Taxonomy

/-- `TAXONOMY_MAX_LIMIT`. -/
def maxLimit : ℕ := 10000

/-! ## The queries -/

/-- `namespace = ? OR namespace LIKE ? || '/%'`; without a prefix the queries have no such condition. -/
def selects (pre ns : String) : Bool :=
  pre = "" || ns = pre || Like.plain (pre.toList ++ ['/', '%']) ns.toList

/-- The rows with `expires_at IS NULL OR expires_at > now`. -/
def live (db : Db) (now : String) : List MemoryRow := db.memories.rows.filter fun r => r.expiresAt.all (now < ·)

/-- The namespaces of the selected memories, one for each memory. -/
def selected (db : Db) (pre now : String) : List String := ((live db now).map (·.ns)).filter (selects pre)

/-- `ORDER BY COUNT(*) DESC, namespace ASC`. -/
def denser (a b : String × ℕ) : Bool := b.2 < a.2 || (a.2 = b.2 && a.1 ≤ b.1)

/-- `GROUP BY namespace .. ORDER BY .. LIMIT ?`. -/
def groups (db : Db) (pre now : String) (limit : ℕ) : List (String × ℕ) :=
  (((selected db pre now).dedup.map fun ns => (ns, (selected db pre now).count ns)).mergeSort denser).take
    (min limit maxLimit)

/-! ## The tree -/

/-- What of a namespace is below the prefix, if the loop does not skip it. What follows the prefix is compared as well, so
that lengths may be counted in characters. -/
def suffixOf (pre ns : String) : Option String :=
  if pre = "" then some ns
  else if ns = pre then some ""
  else if pre.toList.length + 1 < ns.toList.length ∧ pre.toList ++ ['/'] <+: ns.toList then
    some (String.ofList (ns.toList.drop (pre.toList.length + 1)))
  else none

/-- `all_segments`. -/
def segments (suffix : String) : List String :=
  if suffix = "" then [] else (suffix.toList.splitOn '/').map String.ofList

/-- `path_so_far` with one more segment. -/
def join (path seg : String) : String := if path = "" then seg else path ++ "/" ++ seg

/-- Change the first child of this name, or a new one at the end. -/
def modifyChild (name : String) (new : TaxonomyNode) (f : TaxonomyNode → TaxonomyNode) :
    List TaxonomyNode → List TaxonomyNode
  | [] => [f new]
  | child :: rest => if child.name = name then f child :: rest else child :: modifyChild name new f rest

/-- The loop over the used segments, from a node whose path is `path`. -/
def walk (c : ℕ) (exactMatch : Bool) : List String → String → TaxonomyNode → TaxonomyNode
  | [], _, node => node
  | seg :: rest, path, node =>
    { node with
      children := modifyChild seg ⟨join path seg, seg, 0, 0, []⟩ (fun child =>
        walk c exactMatch rest (join path seg) { child with
          subtreeCount := child.subtreeCount + c
          count := if rest.isEmpty && exactMatch then child.count + c else child.count }) node.children }

def addGroup (pre : String) (depth : ℕ) (root : TaxonomyNode) (group : String × ℕ) : TaxonomyNode :=
  match suffixOf pre group.1 with
  | none => root
  | some suffix =>
    let allSegments := segments suffix
    let take := min allSegments.length depth
    let used := allSegments.take take
    let root := { root with subtreeCount := root.subtreeCount + group.2 }
    if used.isEmpty then { root with count := root.count + group.2 }
    else walk group.2 (take = allSegments.length) used pre root

mutual

/-- `sort_taxonomy`. Sorting the subtrees first changes no name. -/
def sortTaxonomy : TaxonomyNode → TaxonomyNode
  | ⟨ns, name, count, subtreeCount, children⟩ =>
    ⟨ns, name, count, subtreeCount, (sortChildren children).mergeSort fun a b => a.name ≤ b.name⟩

def sortChildren : List TaxonomyNode → List TaxonomyNode
  | [] => []
  | child :: rest => sortTaxonomy child :: sortChildren rest

end

def getTaxonomy (db : Db) (namespacePrefix : Option String) (maxDepth limit : ℕ) (now : String) : Taxonomy :=
  let pre := namespacePrefix.getD ""
  let totalCount := (selected db pre now).length
  let walkedCount := ((groups db pre now limit).map Prod.snd).sum
  let root : TaxonomyNode := {
    ns := pre
    name := String.ofList ((pre.toList.splitOn '/').getLast?.getD [])
    count := 0
    subtreeCount := 0
    children := [] }
  { tree := sortTaxonomy ((groups db pre now limit).foldl (addGroup pre (min maxDepth maxNamespaceDepth)) root)
    totalCount
    truncated := walkedCount < totalCount }

/-! ## What the walks add up to -/

/-- What the loop walks: the segments below the prefix, with the number of memories. -/
def walked (pre : String) (groups : List (String × ℕ)) : List (List String × ℕ) :=
  groups.filterMap fun g => (suffixOf pre g.1).map fun suffix => (segments suffix, g.2)

/-- The memories of the walks that satisfy `p`. -/
def tally (walks : List (List String × ℕ)) (p : List String → Prop) [DecidablePred p] : ℕ :=
  ((walks.filter fun w => p w.1).map Prod.snd).sum

/-- The node at the end of a path of names. -/
inductive At (root : TaxonomyNode) : List String → TaxonomyNode → Prop where
  | root : At root [] root
  | child {segs : List String} {n child : TaxonomyNode} (h : At root segs n) (hchild : child ∈ n.children) :
      At root (segs ++ [child.name]) child

def bump (c : ℕ) (here : Bool) (n : TaxonomyNode) : TaxonomyNode :=
  { n with
    subtreeCount := n.subtreeCount + c
    count := if here then n.count + c else n.count }

/-- The numbers of a node are those of the walks through it. -/
structure Counts (pre : String) (walks : List (List String × ℕ)) (segs : List String) (n : TaxonomyNode) : Prop where
  ns : n.ns = segs.foldl join pre
  subtree : n.subtreeCount = tally walks (segs <+: ·)
  count : n.count = tally walks (segs = ·)

/-- The children of a node are what the walks through it go on with. -/
structure Branches (walks : List (List String × ℕ)) (segs : List String) (n : TaxonomyNode) : Prop where
  sums : n.subtreeCount = n.count + (n.children.map (·.subtreeCount)).sum
  distinct : (n.children.map (·.name)).Nodup
  names : ∀ seg, seg ∈ n.children.map (·.name) ↔ ∃ w ∈ walks, segs ++ [seg] <+: w.1

/-- A tree that the walks made, `r` levels above the boundary. -/
def Fits (pre : String) (walks : List (List String × ℕ)) : ℕ → List String → TaxonomyNode → Prop
  | 0, segs, n => Counts pre walks segs n ∧ n.children = []
  | r + 1, segs, n => Counts pre walks segs n ∧ Branches walks segs n ∧
      ∀ child ∈ n.children, Fits pre walks r (segs ++ [child.name]) child

section Trees

variable {pre path name seg : String} {walks : List (List String × ℕ)} {segs s t : List String} {c r : ℕ}
  {n new child : TaxonomyNode} {children : List TaxonomyNode} {f : TaxonomyNode → TaxonomyNode} {here : Bool}

theorem tally_append (p : List String → Prop) [DecidablePred p] :
    tally (walks ++ [(s, c)]) p = tally walks p + if p s then c else 0 := by
  unfold tally
  by_cases hs : p s <;> simp [hs]

theorem tally_eq_zero {p : List String → Prop} [DecidablePred p] (h : ∀ w ∈ walks, ¬p w.1) : tally walks p = 0 := by
  have hnone : walks.filter (fun w => p w.1) = [] :=
    List.filter_eq_nil_iff.mpr fun w hw hp => h w hw (of_decide_eq_true hp)
  rw [tally, hnone]
  rfl

/-! ### Changing one child -/

theorem map_name_modifyChild (hf : ∀ n, (f n).name = n.name) (hnew : new.name = name) :
    (modifyChild name new f children).map (·.name) =
      if name ∈ children.map (·.name) then children.map (·.name) else children.map (·.name) ++ [name] := by
  induction children with
  | nil => simp [modifyChild, hf, hnew]
  | cons child rest ih =>
    rw [modifyChild]
    by_cases hname : child.name = name
    · rw [if_pos hname, List.map_cons, hf, List.map_cons, if_pos (hname ▸ List.mem_cons_self)]
    · rw [if_neg hname, List.map_cons, ih, List.map_cons]
      have hmem : name ∈ child.name :: rest.map (·.name) ↔ name ∈ rest.map (·.name) :=
        List.mem_cons.trans (or_iff_right fun h => hname h.symm)
      by_cases hin : name ∈ rest.map (·.name)
      · rw [if_pos hin, if_pos (hmem.mpr hin)]
      · rw [if_neg hin, if_neg fun h => hin (hmem.mp h)]
        rfl

theorem sum_modifyChild (hf : ∀ n, (f n).subtreeCount = n.subtreeCount + c) (hnew : new.subtreeCount = 0) :
    ((modifyChild name new f children).map (·.subtreeCount)).sum = (children.map (·.subtreeCount)).sum + c := by
  induction children with
  | nil => simp [modifyChild, hf, hnew]
  | cons child rest ih =>
    rw [modifyChild]
    by_cases hname : child.name = name
    · rw [if_pos hname, List.map_cons, List.sum_cons, List.map_cons, List.sum_cons, hf]
      exact Nat.add_right_comm _ _ _
    · rw [if_neg hname, List.map_cons, List.sum_cons, List.map_cons, List.sum_cons, ih, Nat.add_assoc]

theorem mem_modifyChild (hdistinct : (children.map (·.name)).Nodup) (h : n ∈ modifyChild name new f children) :
    (n ∈ children ∧ n.name ≠ name) ∨
      ∃ child, n = f child ∧ ((child ∈ children ∧ child.name = name) ∨ (child = new ∧ name ∉ children.map (·.name))) := by
  induction children with
  | nil => exact Or.inr ⟨new, List.mem_singleton.mp h, Or.inr ⟨rfl, List.not_mem_nil⟩⟩
  | cons child rest ih =>
    rw [List.map_cons, List.nodup_cons] at hdistinct
    rw [modifyChild] at h
    by_cases hname : child.name = name
    · rw [if_pos hname] at h
      rcases List.mem_cons.mp h with rfl | hrest
      · exact Or.inr ⟨child, rfl, Or.inl ⟨List.mem_cons_self, hname⟩⟩
      · refine Or.inl ⟨List.mem_cons_of_mem _ hrest, fun heq => hdistinct.1 ?_⟩
        exact List.mem_map.mpr ⟨n, hrest, heq.trans hname.symm⟩
    · rw [if_neg hname] at h
      rcases List.mem_cons.mp h with rfl | hrest
      · exact Or.inl ⟨List.mem_cons_self, hname⟩
      · rcases ih hdistinct.2 hrest with ⟨hin, hne⟩ | ⟨old, hold, ⟨hin, heq⟩ | ⟨heq, hnot⟩⟩
        · exact Or.inl ⟨List.mem_cons_of_mem _ hin, hne⟩
        · exact Or.inr ⟨old, hold, Or.inl ⟨List.mem_cons_of_mem _ hin, heq⟩⟩
        · refine Or.inr ⟨old, hold, Or.inr ⟨heq, fun hmem => ?_⟩⟩
          rcases List.mem_cons.mp hmem with hfirst | hlater
          · exact hname hfirst.symm
          · exact hnot hlater

/-! ### One walk -/

variable {exactMatch : Bool}

theorem walk_cons : walk c exactMatch (seg :: t) path n = { n with
    children := modifyChild seg ⟨join path seg, seg, 0, 0, []⟩
      (fun child => walk c exactMatch t (join path seg) (bump c (t.isEmpty && exactMatch) child)) n.children } := rfl

@[simp] theorem name_walk : (walk c exactMatch t path n).name = n.name := by
  cases t <;> rfl

@[simp] theorem ns_walk : (walk c exactMatch t path n).ns = n.ns := by
  cases t <;> rfl

@[simp] theorem subtreeCount_walk :
    (walk c exactMatch t path n).subtreeCount = n.subtreeCount := by
  cases t <;> rfl

@[simp] theorem count_walk : (walk c exactMatch t path n).count = n.count := by
  cases t <;> rfl

theorem Counts.other (h : Counts pre walks segs n) (hs : ¬segs <+: s) : Counts pre (walks ++ [(s, c)]) segs n where
  ns := h.ns
  subtree := by rw [tally_append, if_neg hs, Nat.add_zero, h.subtree]
  count := by rw [tally_append, if_neg fun heq : segs = s => hs (heq ▸ List.prefix_refl _), Nat.add_zero, h.count]

theorem Fits.other (h : Fits pre walks r segs n) (hs : ¬segs <+: s) : Fits pre (walks ++ [(s, c)]) r segs n := by
  induction r generalizing segs n with
  | zero => exact ⟨h.1.other hs, h.2⟩
  | succ r ih =>
    obtain ⟨hcounts, hbranches, hchildren⟩ := h
    have hpast : ∀ seg, ¬segs ++ [seg] <+: s := fun seg hpre => hs ((List.prefix_append _ _).trans hpre)
    refine ⟨hcounts.other hs, ⟨hbranches.sums, hbranches.distinct, fun seg => ?_⟩, fun child hchild => ?_⟩
    · rw [hbranches.names]
      simp only [List.mem_append, List.mem_singleton, or_and_right, exists_or, exists_eq_left, hpast, or_false]
    · exact ih (hchildren child hchild) (hpast child.name)

theorem fits_new (h : ∀ w ∈ walks, ¬segs <+: w.1) : Fits pre walks r segs ⟨segs.foldl join pre, name, 0, 0, []⟩ := by
  have hcounts : Counts pre walks segs ⟨segs.foldl join pre, name, 0, 0, []⟩ :=
    ⟨rfl, (tally_eq_zero h).symm, (tally_eq_zero fun w hw (heq : segs = w.1) => h w hw (heq ▸ List.prefix_refl _)).symm⟩
  cases r with
  | zero => exact ⟨hcounts, rfl⟩
  | succ r =>
    refine ⟨hcounts, ⟨rfl, List.nodup_nil, fun seg => ?_⟩, fun child hchild => absurd hchild List.not_mem_nil⟩
    refine iff_of_false List.not_mem_nil ?_
    rintro ⟨w, hw, hpre⟩
    exact h w hw ((List.prefix_append _ _).trans hpre)

theorem Counts.visit (h : Counts pre walks segs n) : Counts pre (walks ++ [(segs ++ t, c)]) segs (bump c t.isEmpty n) where
  ns := h.ns
  subtree := by rw [tally_append, if_pos (List.prefix_append _ _), ← h.subtree]; rfl
  count := by
    rw [tally_append, ← h.count]
    cases t with
    | nil => rw [List.append_nil, if_pos rfl]; rfl
    | cons a t => rw [if_neg fun heq => by simp at heq]; rfl

/-- The tree after a walk from this node on. -/
theorem Fits.visit (h : Fits pre walks r segs n) : Fits pre (walks ++ [(segs ++ t, c)]) r segs
    (walk c (t.length ≤ r) (t.take r) (segs.foldl join pre) (bump c t.isEmpty n)) := by
  induction r generalizing segs n t with
  | zero => exact ⟨h.1.visit, h.2⟩
  | succ r ih =>
    obtain ⟨hcounts, hbranches, hchildren⟩ := h
    cases t with
    | nil =>
      refine ⟨hcounts.visit, ⟨?_, hbranches.distinct, fun seg => ?_⟩, fun child hchild => ?_⟩
      · show n.subtreeCount + c = n.count + c + _
        rw [hbranches.sums]
        exact Nat.add_right_comm _ _ _
      · have hpast : ¬segs ++ [seg] <+: segs ++ [] := fun hpre => by simpa using hpre.length_le
        refine (hbranches.names seg).trans ?_
        simp only [List.mem_append, List.mem_singleton, or_and_right, exists_or, exists_eq_left, hpast, or_false]
      · refine (hchildren child hchild).other fun hpre => ?_
        simpa using hpre.length_le
    | cons seg t =>
      have hlast : ((t.take r).isEmpty && decide (t.length ≤ r)) = t.isEmpty := by
        cases t with
        | nil => simp
        | cons a t => cases r <;> simp
      have hexact : decide ((seg :: t).length ≤ r + 1) = decide (t.length ≤ r) := by simp
      rw [List.take_succ_cons, walk_cons, hexact, hlast]
      have hvisit : Counts pre (walks ++ [(segs ++ seg :: t, c)]) segs (bump c (seg :: t).isEmpty n) := hcounts.visit
      have hgoes : ∀ name, segs ++ [name] <+: segs ++ seg :: t ↔ name = seg := fun name => by
        rw [List.prefix_append_right_inj, List.cons_prefix_cons]
        exact and_iff_left List.nil_prefix
      let new : TaxonomyNode := ⟨join (segs.foldl join pre) seg, seg, 0, 0, []⟩
      let f : TaxonomyNode → TaxonomyNode := fun child =>
        walk c (t.length ≤ r) (t.take r) (join (segs.foldl join pre) seg) (bump c t.isEmpty child)
      have hf : ∀ child, (f child).name = child.name := fun child => name_walk
      have hnames : (modifyChild seg new f n.children).map (·.name) =
          if seg ∈ n.children.map (·.name) then n.children.map (·.name) else n.children.map (·.name) ++ [seg] :=
        map_name_modifyChild hf rfl
      have hsum : ((modifyChild seg new f n.children).map (·.subtreeCount)).sum =
          (n.children.map (·.subtreeCount)).sum + c := sum_modifyChild (fun child => subtreeCount_walk) rfl
      refine ⟨⟨hvisit.ns, hvisit.subtree, hvisit.count⟩, ⟨?_, ?_, fun name => ?_⟩, fun child hchild => ?_⟩
      · show n.subtreeCount + c = n.count + ((modifyChild seg new f n.children).map (·.subtreeCount)).sum
        rw [hsum, hbranches.sums]
        exact Nat.add_assoc _ _ _
      · show ((modifyChild seg new f n.children).map (·.name)).Nodup
        rw [hnames]
        split_ifs with hold
        · exact hbranches.distinct
        · exact hbranches.distinct.append (List.nodup_singleton _) (List.disjoint_singleton.mpr hold)
      · have hmem : name ∈ (modifyChild seg new f n.children).map (·.name) ↔
            name ∈ n.children.map (·.name) ∨ name = seg := by
          rw [hnames]
          split_ifs with hold
          · exact (or_iff_left_of_imp fun heq => heq ▸ hold).symm
          · rw [List.mem_append, List.mem_singleton]
        refine hmem.trans ?_
        rw [hbranches.names]
        simp only [List.mem_append, List.mem_singleton, or_and_right, exists_or, exists_eq_left, hgoes]
      · -- the walk goes on below the child of its segment, which may be new
        have hbelow : ∀ old, Fits pre walks r (segs ++ [seg]) old → old.name = seg →
            Fits pre (walks ++ [(segs ++ seg :: t, c)]) r (segs ++ [(f old).name]) (f old) := by
          intro old hold hname
          have hnext := ih (t := t) hold
          rw [List.append_assoc, List.foldl_append, List.singleton_append] at hnext
          rw [hf, hname]
          exact hnext
        rcases mem_modifyChild hbranches.distinct hchild with ⟨hin, hne⟩ | ⟨old, rfl, ⟨hin, hname⟩ | ⟨rfl, hnot⟩⟩
        · exact (hchildren child hin).other fun hpre => hne ((hgoes _).mp hpre)
        · exact hbelow old (hname ▸ hchildren old hin) hname
        · have hnew : Fits pre walks r (segs ++ [seg]) ⟨(segs ++ [seg]).foldl join pre, seg, 0, 0, []⟩ :=
            fits_new fun w hw hpre => hnot ((hbranches.names seg).mpr ⟨w, hw, hpre⟩)
          rw [List.foldl_append] at hnew
          exact hbelow new hnew rfl

/-! ### All walks -/

theorem walked_cons {g : String × ℕ} {groups : List (String × ℕ)} {suffix : String} (h : suffixOf pre g.1 = some suffix) :
    walked pre (g :: groups) = (segments suffix, g.2) :: walked pre groups := by
  rw [walked, List.filterMap_cons, h]
  rfl

variable {depth : ℕ}

theorem addGroup_eq {g : String × ℕ} {suffix : String} (hsuffix : suffixOf pre g.1 = some suffix)
    (hdepth : depth ≠ 0 ∨ segments suffix = []) : addGroup pre depth n g =
      walk g.2 ((segments suffix).length ≤ depth) ((segments suffix).take depth) pre
        (bump g.2 (segments suffix).isEmpty n) := by
  unfold addGroup
  rw [hsuffix]
  simp only
  cases hsegs : segments suffix with
  | nil =>
    rw [List.take_nil, List.take_nil, if_pos List.isEmpty_nil]
    rfl
  | cons a rest =>
    obtain ⟨d, rfl⟩ := Nat.exists_eq_succ_of_ne_zero (hdepth.resolve_right (hsegs ▸ List.cons_ne_nil _ _))
    have htake : (a :: rest).take (min (a :: rest).length (d + 1)) = (a :: rest).take (d + 1) := by
      rw [min_comm, ← List.take_eq_take_min]
    have hexact : (min (a :: rest).length (d + 1) = (a :: rest).length) = ((a :: rest).length ≤ d + 1) :=
      propext min_eq_left_iff
    rw [htake, if_neg (by simp)]
    congr 1
    exact decide_eq_decide.mpr (iff_of_eq hexact)

theorem fits_foldl {groups : List (String × ℕ)} (hgroups : ∀ g ∈ groups, ∃ suffix,
    suffixOf pre g.1 = some suffix ∧ (depth ≠ 0 ∨ segments suffix = [])) (h : Fits pre walks depth [] n) :
    Fits pre (walks ++ walked pre groups) depth [] (groups.foldl (addGroup pre depth) n) := by
  induction groups generalizing walks n with
  | nil => exact (List.append_nil walks).symm ▸ h
  | cons g groups ih =>
    obtain ⟨suffix, hsuffix, hdepth⟩ := hgroups g List.mem_cons_self
    rw [List.foldl_cons, walked_cons hsuffix, addGroup_eq hsuffix hdepth]
    have hone := ih (fun g hg => hgroups g (List.mem_cons_of_mem _ hg)) (h.visit (t := segments suffix) (c := g.2))
    rwa [List.nil_append, List.append_assoc, List.singleton_append] at hone

theorem Fits.at {root : TaxonomyNode} (h : Fits pre walks depth [] root) (hat : At root segs n) :
    ∃ r, depth = segs.length + r ∧ Fits pre walks r segs n := by
  induction hat with
  | root => exact ⟨depth, (Nat.zero_add depth).symm, h⟩
  | child hat hchild ih =>
    obtain ⟨r, hdepth, hfits⟩ := ih
    cases r with
    | zero => exact absurd hchild (hfits.2 ▸ List.not_mem_nil)
    | succ r =>
      refine ⟨r, ?_, hfits.2.2 _ hchild⟩
      rw [hdepth, List.length_append, List.length_singleton]
      omega

theorem Fits.counts (h : Fits pre walks r segs n) : Counts pre walks segs n := by
  cases r with
  | zero => exact h.1
  | succ r => exact h.1

theorem Fits.prefix_walk {root : TaxonomyNode} (h : Fits pre walks depth [] root) (hat : At root segs n) :
    segs = [] ∨ ∃ w ∈ walks, segs <+: w.1 := by
  cases hat with
  | root => exact Or.inl rfl
  | child hat hchild =>
    obtain ⟨r, -, hfits⟩ := h.at hat
    cases r with
    | zero => exact absurd hchild (hfits.2 ▸ List.not_mem_nil)
    | succ r => exact Or.inr ((hfits.2.1.names _).mp (List.mem_map_of_mem hchild))

theorem Fits.at_unique {root m : TaxonomyNode} (h : Fits pre walks depth [] root) (hn : At root segs n)
    (hm : At root segs m) : n = m := by
  induction hn generalizing m with
  | root =>
    generalize hsegs : ([] : List String) = segs at hm
    cases hm with
    | root => rfl
    | child hm hchild => exact absurd hsegs.symm (by simp)
  | @child segs n child hn hchild ih =>
    generalize hsegs : segs ++ [child.name] = all at hm
    cases hm with
    | root => exact absurd hsegs (by simp)
    | @child segs' n' child' hm hchild' =>
      obtain ⟨rfl, hname⟩ := List.append_inj' hsegs rfl
      obtain rfl := ih hm
      obtain ⟨r, -, hfits⟩ := h.at hn
      cases r with
      | zero => exact absurd hchild (hfits.2 ▸ List.not_mem_nil)
      | succ r =>
        exact List.inj_on_of_nodup_map hfits.2.1.distinct hchild hchild' (List.singleton_inj.mp hname)

/-! ### Sorting -/

theorem sortChildren_eq : sortChildren children = children.map sortTaxonomy := by
  induction children with
  | nil => rfl
  | cons child rest ih => rw [sortChildren, ih, List.map_cons]

theorem sortTaxonomy_eq (n : TaxonomyNode) : sortTaxonomy n = { n with
    children := (n.children.map sortTaxonomy).mergeSort fun a b => a.name ≤ b.name } := by
  cases n
  rw [sortTaxonomy, sortChildren_eq]

@[simp] theorem name_sortTaxonomy : (sortTaxonomy n).name = n.name := by rw [sortTaxonomy_eq]

@[simp] theorem ns_sortTaxonomy : (sortTaxonomy n).ns = n.ns := by rw [sortTaxonomy_eq]

@[simp] theorem count_sortTaxonomy : (sortTaxonomy n).count = n.count := by rw [sortTaxonomy_eq]

@[simp] theorem subtreeCount_sortTaxonomy : (sortTaxonomy n).subtreeCount = n.subtreeCount := by rw [sortTaxonomy_eq]

theorem perm_children_sortTaxonomy : (sortTaxonomy n).children.Perm (n.children.map sortTaxonomy) := by
  rw [sortTaxonomy_eq]
  exact List.mergeSort_perm _ _

theorem at_sortTaxonomy {root m : TaxonomyNode} (h : At (sortTaxonomy root) segs m) :
    ∃ n, At root segs n ∧ m = sortTaxonomy n := by
  induction h with
  | root => exact ⟨root, .root, rfl⟩
  | child h hchild ih =>
    obtain ⟨n, hat, rfl⟩ := ih
    obtain ⟨child, hin, rfl⟩ := List.mem_map.mp (perm_children_sortTaxonomy.mem_iff.mp hchild)
    exact ⟨child, by rw [name_sortTaxonomy]; exact hat.child hin, rfl⟩

theorem sum_children_sortTaxonomy :
    ((sortTaxonomy n).children.map (·.subtreeCount)).sum = (n.children.map (·.subtreeCount)).sum := by
  rw [(perm_children_sortTaxonomy.map _).sum_eq, List.map_map]
  congr 1
  exact List.map_congr_left fun child _ => subtreeCount_sortTaxonomy

theorem pairwise_children (h : (n.children.map (·.name)).Nodup) :
    ((sortTaxonomy n).children.map (·.name)).Pairwise (· < ·) := by
  have hsorted : ((sortTaxonomy n).children.map (·.name)).Pairwise (· ≤ ·) := by
    rw [sortTaxonomy_eq, List.pairwise_map]
    refine (List.pairwise_mergeSort (fun a b c hab hbc => ?_) (fun a b => ?_) _).imp fun hle => of_decide_eq_true hle
    · exact decide_eq_true ((of_decide_eq_true hab).trans (of_decide_eq_true hbc))
    · simpa using le_total a.name b.name
  have hdistinct : ((sortTaxonomy n).children.map (·.name)).Nodup := by
    have hnames : n.children.map (fun child => (sortTaxonomy child).name) = n.children.map (·.name) :=
      List.map_congr_left fun child _ => name_sortTaxonomy
    refine (perm_children_sortTaxonomy.map _).nodup_iff.mpr ?_
    rw [List.map_map]
    show (n.children.map fun child => (sortTaxonomy child).name).Nodup
    rwa [hnames]
  exact (hsorted.and hdistinct).imp fun {a b} hab => lt_of_le_of_ne hab.1 hab.2

end Trees

end Taxonomy

end AiMemory
