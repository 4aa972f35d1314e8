import AiMemory.Lib.Delimited
import AiMemory.Lib.Transitions
import AiMemory.Db.Taxonomy

/-!
# Whether a taxonomy adds up

The queries of `get_taxonomy` find what is below the prefix with `LIKE`, for which `_`, `%` and the case of letters are not
what they are in the fold; and a depth of zero counts everything at the root. The numbers add up exactly if neither matters
(`taxonomy_adds_up_iff`).
-/

namespace AiMemory

open Relational Validate

namespace Taxonomy

/-! ## Paths -/

section Paths

variable {pre path : String} {walks : List (List String × ℕ)} {segs t : List String} {n : TaxonomyNode}

theorem toList_join (hpath : path ≠ "") (seg : String) : (join path seg).toList = path.toList ++ '/' :: seg.toList := by
  rw [join, if_neg hpath, String.toList_append, String.toList_append, List.append_assoc]
  rfl

theorem toList_foldl_join (hpath : path ≠ "") :
    (segs.foldl join path).toList = path.toList ++ segs.flatMap fun seg => '/' :: seg.toList := by
  induction segs generalizing path with
  | nil => exact (List.append_nil _).symm
  | cons seg segs ih =>
    have hnext : join path seg ≠ "" := fun heq => by
      have hlen := congrArg (fun s => s.toList.length) heq
      simp [toList_join hpath] at hlen
    rw [List.foldl_cons, ih hnext, toList_join hpath, List.flatMap_cons, List.append_assoc]

theorem flatMap_slash_injective (hs : ∀ seg ∈ segs, '/' ∉ seg.toList) (ht : ∀ seg ∈ t, '/' ∉ seg.toList)
    (h : (segs.flatMap fun seg => '/' :: seg.toList) = t.flatMap fun seg => '/' :: seg.toList) : segs = t := by
  have hsplit : ∀ {l : List String}, (∀ seg ∈ l, '/' ∉ seg.toList) →
      (l.flatMap fun seg => '/' :: seg.toList).splitOn '/' = [] :: l.map String.toList := by
    intro l hl
    have hblocks : ([] ++ (l.map String.toList).flatMap fun cell => '/' :: cell).splitOn '/' =
        [] :: l.map String.toList :=
      Delimited.splitOn_blocks List.not_mem_nil fun cell hcell => by
        obtain ⟨seg, hseg, rfl⟩ := List.mem_map.mp hcell
        exact hl seg hseg
    rwa [List.nil_append, List.flatMap_map] at hblocks
  have heq := (hsplit hs).symm.trans ((congrArg (List.splitOn '/') h).trans (hsplit ht))
  exact List.map_injective_iff.mpr (fun _ _ => String.toList_inj.mp) (List.cons.inj heq).2

/-- The segments of a walk can be told from its path. -/
structure Legible (pre : String) (segs : List String) : Prop where
  slash : ∀ seg ∈ segs, '/' ∉ seg.toList
  starts : pre = "" → ∀ seg ∈ segs.head?, seg ≠ ""

theorem Legible.initial (h : Legible pre t) (hpre : segs <+: t) : Legible pre segs where
  slash seg hseg := h.slash seg (hpre.subset hseg)
  starts htop seg hseg := by
    obtain ⟨rest, rfl⟩ := hpre
    refine h.starts htop seg ?_
    cases segs with
    | nil => cases hseg
    | cons a segs => exact hseg

theorem Fits.legible {root : TaxonomyNode} {depth : ℕ} (h : Fits pre walks depth [] root)
    (hwalks : ∀ w ∈ walks, Legible pre w.1) (hat : At root segs n) : Legible pre segs := by
  rcases h.prefix_walk hat with rfl | ⟨w, hw, hpre⟩
  · exact ⟨fun seg hseg => absurd hseg List.not_mem_nil, fun _ seg hseg => by cases hseg⟩
  · exact (hwalks w hw).initial hpre

/-- Different paths of segments have different namespaces. -/
theorem foldl_join_injective (hs : Legible pre segs) (ht : Legible pre t)
    (h : segs.foldl join pre = t.foldl join pre) : segs = t := by
  by_cases htop : pre = ""
  · -- without a prefix the first segment stands alone
    subst htop
    have hfirst : ∀ {l : List String}, Legible "" l → l ≠ [] →
        '/' :: (l.foldl join "").toList = l.flatMap fun seg => '/' :: seg.toList := by
      intro l hl hne
      cases l with
      | nil => exact absurd rfl hne
      | cons a l =>
        have ha : a ≠ "" := hl.starts rfl a rfl
        rw [List.foldl_cons, join, if_pos rfl, toList_foldl_join ha, List.flatMap_cons, List.cons_append]
    have hempty : ∀ {l : List String}, Legible "" l → l ≠ [] → l.foldl join "" ≠ "" := by
      intro l hl hne heq
      have hlist := hfirst hl hne
      rw [heq] at hlist
      cases l with
      | nil => exact hne rfl
      | cons a l =>
        have ha : a ≠ "" := hl.starts rfl a rfl
        have hnil := (List.append_eq_nil_iff.mp (List.cons.inj hlist).2.symm).1
        exact ha (String.toList_inj.mp hnil)
    by_cases hsn : segs = []
    · subst hsn
      by_contra hne
      exact hempty ht (fun heq => hne heq.symm) h.symm
    · by_cases htn : t = []
      · subst htn
        exact absurd h (hempty hs hsn)
      · refine flatMap_slash_injective hs.slash ht.slash ?_
        rw [← hfirst hs hsn, ← hfirst ht htn, h]
  · refine flatMap_slash_injective hs.slash ht.slash ?_
    have hlists := congrArg String.toList h
    rw [toList_foldl_join htop, toList_foldl_join htop] at hlists
    exact List.append_cancel_left hlists

theorem legible_segments {suffix : String} (h : pre = "" → suffix.toList.head? ≠ some '/') :
    Legible pre (segments suffix) := by
  unfold segments
  by_cases hempty : suffix = ""
  · rw [if_pos hempty]
    exact ⟨fun seg hseg => absurd hseg List.not_mem_nil, fun _ seg hseg => by cases hseg⟩
  · rw [if_neg hempty]
    refine ⟨fun seg hseg => ?_, fun htop seg hseg heq => ?_⟩
    · obtain ⟨cell, hcell, rfl⟩ := List.mem_map.mp hseg
      rw [String.toList_ofList]
      exact Delimited.not_mem_of_mem_splitOn hcell
    · -- the first cell has the first character
      cases hchars : suffix.toList with
      | nil => exact hempty (String.toList_inj.mp hchars)
      | cons a rest =>
        have ha : (a == '/') = false := beq_eq_false_iff_ne.mpr fun heq => h htop (by rw [hchars, heq]; rfl)
        obtain ⟨first, cells, hsplit⟩ := List.exists_cons_of_ne_nil (List.splitOn_ne_nil '/' rest)
        rw [hchars, List.splitOn_cons_eq_if_modifyHead, ha, if_neg Bool.false_ne_true, hsplit, List.modifyHead_cons,
          List.map_cons] at hseg
        obtain rfl := Option.some.inj hseg
        have hnil := congrArg String.toList heq
        rw [String.toList_ofList] at hnil
        exact List.cons_ne_nil _ _ hnil

end Paths

/-! ## The prefix -/

/-- The namespace is the prefix or below it, byte for byte. Without a prefix every namespace is. -/
def Below (pre ns : String) : Prop := pre = "" ∨ ns = pre ∨ pre.toList ++ ['/'] <+: ns.toList

instance (pre ns : String) : Decidable (Below pre ns) := inferInstanceAs (Decidable (_ ∨ _ ∨ _))

section Prefix

variable {pre ns suffix : String}

theorem Below.selects (h : Below pre ns) : selects pre ns = true := by
  unfold Taxonomy.selects
  rcases h with rfl | rfl | ⟨rest, hrest⟩
  · rfl
  · simp
  · have hslash : Like.plain ['/', '%'] ('/' :: rest) = true := by
      simp only [Like.plain]
      simp
    have hlike := Like.plain_append (p := pre.toList) hslash
    rw [← hrest, List.append_assoc, List.singleton_append, hlike, Bool.or_true]

theorem getLast?_dropWhile {f : Char → Bool} {a : Char} {s : List Char} (ha : f a = false)
    (h : s.getLast? = some a) : (s.dropWhile f).getLast? = some a := by
  obtain ⟨l, rfl⟩ := List.getLast?_eq_some_iff.mp h
  rw [List.dropWhile_append]
  split_ifs
  · rw [List.dropWhile_cons_of_neg (by rw [ha]; exact Bool.false_ne_true)]
    rfl
  · exact List.getLast?_concat

theorem dropWhile_of_head? {f : Char → Bool} {a : Char} {s : List Char} (ha : f a = false)
    (h : s.head? = some a) : s.dropWhile f = s := by
  cases s with
  | nil => rfl
  | cons b s =>
    obtain rfl : b = a := Option.some.inj h
    exact List.dropWhile_cons_of_neg (by rw [ha]; exact Bool.false_ne_true)

/-- The ends of a namespace that passed `validate_namespace`: the checks are on the trimmed characters. -/
theorem ends_of_valid (h : Accepts (validateNamespace ns)) :
    ns.toList.head? ≠ some '/' ∧ ns.toList.getLast? ≠ some '/' := by
  have hslash : isWhitespace '/' = false := by decide
  unfold validateNamespace validateNamespaceChars at h
  simp only [accepts_bind, accepts_bailIf, decide_eq_false_iff_not] at h
  refine ⟨fun hhead => h.2.2.2.2.2.1 ?_, fun hlast => h.2.2.2.2.2.2.1 ?_⟩
  · rw [trim, List.head?_reverse, dropWhile_of_head? hslash hhead]
    exact getLast?_dropWhile hslash (List.getLast?_reverse.trans hhead)
  · have hstart := getLast?_dropWhile hslash hlast
    rw [trim, List.getLast?_reverse, dropWhile_of_head? hslash (List.head?_reverse.trans hstart),
      List.head?_reverse]
    exact hstart

theorem suffixOf_of_below (h : Below pre ns) (hlast : ns.toList.getLast? ≠ some '/') :
    ∃ suffix, suffixOf pre ns = some suffix := by
  unfold suffixOf
  by_cases htop : pre = ""
  · exact ⟨ns, if_pos htop⟩
  · by_cases heq : ns = pre
    · exact ⟨"", by rw [if_neg htop, if_pos heq]⟩
    · have hbelow := (h.resolve_left htop).resolve_left heq
      refine ⟨_, by rw [if_neg htop, if_neg heq, if_pos ⟨?_, hbelow⟩]⟩
      obtain ⟨rest, hrest⟩ := hbelow
      cases rest with
      | nil =>
        refine absurd ?_ hlast
        rw [← hrest, List.append_nil, List.getLast?_append_of_ne_nil _ (List.cons_ne_nil _ _)]
        rfl
      | cons a rest =>
        rw [← hrest]
        simp

theorem eq_of_segments_nil (h : suffixOf pre ns = some suffix) (hnil : segments suffix = []) : ns = pre := by
  have hempty : suffix = "" := by
    by_contra hne
    rw [segments, if_neg hne] at hnil
    exact List.splitOn_ne_nil _ _ (List.map_eq_nil_iff.mp hnil)
  subst hempty
  unfold suffixOf at h
  split_ifs at h with htop heq hbelow
  · rw [htop]
    exact Option.some.inj h
  · exact heq
  · -- a longer namespace leaves something
    have hdrop := congrArg String.toList (Option.some.inj h)
    rw [String.toList_ofList] at hdrop
    exact absurd (List.drop_eq_nil_iff.mp hdrop) (not_le.mpr hbelow.1)

theorem segments_self (h : suffixOf pre pre = some suffix) : segments suffix = [] := by
  unfold suffixOf at h
  by_cases htop : pre = ""
  · rw [if_pos htop, htop] at h
    obtain rfl := Option.some.inj h
    rfl
  · rw [if_neg htop, if_pos rfl] at h
    obtain rfl := Option.some.inj h
    rfl

end Prefix

/-! ## The counts of the queries -/

section Groups

variable {db : Db} {pre now ns : String} {limit : ℕ}

def allGroups (db : Db) (pre now : String) : List (String × ℕ) :=
  ((selected db pre now).dedup.map fun ns => (ns, (selected db pre now).count ns)).mergeSort denser

theorem perm_allGroups : (allGroups db pre now).Perm
    ((selected db pre now).dedup.map fun ns => (ns, (selected db pre now).count ns)) := List.mergeSort_perm _ _

theorem sum_allGroups : ((allGroups db pre now).map Prod.snd).sum = (selected db pre now).length := by
  rw [(perm_allGroups.map Prod.snd).sum_eq, List.map_map]
  exact List.sum_map_count_dedup_eq_length _

theorem nodup_allGroups : ((allGroups db pre now).map Prod.fst).Nodup := by
  refine (perm_allGroups.map Prod.fst).nodup_iff.mpr ?_
  rw [List.map_map]
  exact (List.map_id _).symm ▸ List.nodup_dedup _

theorem mem_allGroups {g : String × ℕ} (h : g ∈ allGroups db pre now) : g.1 ∈ selected db pre now ∧ 0 < g.2 := by
  obtain ⟨ns, hns, rfl⟩ := List.mem_map.mp (perm_allGroups.mem_iff.mp h)
  have hin := List.mem_dedup.mp hns
  exact ⟨hin, List.count_pos_iff.mpr hin⟩

theorem exists_group (h : ns ∈ selected db pre now) : ∃ g ∈ allGroups db pre now, g.1 = ns :=
  ⟨_, perm_allGroups.mem_iff.mpr (List.mem_map_of_mem (List.mem_dedup.mpr h)), rfl⟩

theorem groups_subset {g : String × ℕ} (h : g ∈ groups db pre now limit) : g ∈ allGroups db pre now :=
  List.mem_of_mem_take h

/-- The walked memories are less than the selected ones exactly if the limit drops a namespace. -/
theorem walked_lt_iff : ((groups db pre now limit).map Prod.snd).sum < (selected db pre now).length ↔
    ∃ ns ∈ selected db pre now, ns ∉ (groups db pre now limit).map Prod.fst := by
  have hsplit : (selected db pre now).length = ((groups db pre now limit).map Prod.snd).sum +
      (((allGroups db pre now).drop (min limit maxLimit)).map Prod.snd).sum := by
    rw [← sum_allGroups, ← List.sum_append, ← List.map_append]
    exact congrArg (fun l => (List.map Prod.snd l).sum) (List.take_append_drop _ _).symm
  rw [hsplit, lt_add_iff_pos_right]
  constructor
  · intro hpos
    obtain ⟨g, hg⟩ : ∃ g, g ∈ (allGroups db pre now).drop (min limit maxLimit) := by
      refine List.exists_mem_of_ne_nil _ fun hnil => ?_
      rw [hnil] at hpos
      exact absurd hpos (lt_irrefl 0)
    refine ⟨g.1, (mem_allGroups (List.mem_of_mem_drop hg)).1, fun hwalked => ?_⟩
    have hnodup : ((allGroups db pre now).map Prod.fst).Nodup := nodup_allGroups
    rw [← List.take_append_drop (min limit maxLimit) (allGroups db pre now), List.map_append] at hnodup
    exact (List.nodup_append.mp hnodup).2.2 _ hwalked _ (List.mem_map_of_mem hg) rfl
  · rintro ⟨ns, hns, hdropped⟩
    obtain ⟨g, hg, rfl⟩ := exists_group hns
    have hdrop : g ∈ (allGroups db pre now).drop (min limit maxLimit) := by
      rw [← List.take_append_drop (min limit maxLimit) (allGroups db pre now), List.mem_append] at hg
      exact hg.resolve_left fun htake => hdropped (List.mem_map_of_mem htake)
    exact lt_of_lt_of_le (mem_allGroups (List.mem_of_mem_drop hdrop)).2
      (List.single_le_sum (fun _ _ => Nat.zero_le _) _ (List.mem_map_of_mem hdrop))

theorem walked_le : ((groups db pre now limit).map Prod.snd).sum ≤ (selected db pre now).length := by
  rw [← sum_allGroups]
  exact List.Sublist.sum_le_sum ((List.take_sublist _ _).map _) fun _ _ => Nat.zero_le _

end Groups

/-! ## Adding up -/

/-- What the numbers of a taxonomy should be. The memories below a node at the boundary are those walked whose namespace goes
on after the segments of the node. -/
structure AddsUp (db : Db) (pre : String) (maxDepth limit : ℕ) (now : String) (t : Taxonomy) : Prop where
  total : t.totalCount = ((live db now).filter fun r => Below pre r.ns).length
  truncated : t.truncated = true ↔
    ∃ r ∈ live db now, Below pre r.ns ∧ r.ns ∉ (groups db pre now limit).map Prod.fst
  whole : t.truncated = false → t.tree.subtreeCount = t.totalCount
  sums : ∀ segs n, At t.tree segs n → n.subtreeCount = n.count + (n.children.map (·.subtreeCount)).sum +
    if segs.length = min maxDepth maxNamespaceDepth then
      tally (walked pre (groups db pre now limit)) (fun s => segs <+: s ∧ segs ≠ s) else 0
  once : ∀ segs n segs' n', At t.tree segs n → At t.tree segs' n' → n.ns = n'.ns → segs = segs' ∧ n = n'
  sorted : ∀ segs n, At t.tree segs n → (n.children.map (·.name)).Pairwise (· < ·)

/-- No memory is selected that is not below the prefix, and at depth zero nothing is below the root. -/
structure Plain (db : Db) (pre : String) (maxDepth limit : ℕ) (now : String) : Prop where
  precise : ∀ r ∈ live db now, selects pre r.ns = true → Below pre r.ns
  flat : maxDepth = 0 → ∀ g ∈ groups db pre now limit, g.1 = pre

section AddsUp

variable {db : Db} {pre now : String} {maxDepth limit depth : ℕ} {root : TaxonomyNode} {walks : List (List String × ℕ)}
  {groups' : List (String × ℕ)}

theorem foldl_addGroup_zero (h : root.subtreeCount = root.count) (groups : List (String × ℕ)) :
    (groups.foldl (addGroup pre 0) root).subtreeCount = (groups.foldl (addGroup pre 0) root).count := by
  refine Machine.foldl_induct (P := fun n : TaxonomyNode => n.subtreeCount = n.count) (fun n g _ hn => ?_) h
  unfold addGroup
  cases suffixOf pre g.1 with
  | none => exact hn
  | some suffix =>
    simp only [Nat.min_zero, List.take_zero, List.isEmpty_nil, if_true]
    rw [hn]

theorem tally_prefix_nil : tally walks ([] <+: ·) = (walks.map Prod.snd).sum := by
  unfold tally
  rw [List.filter_eq_self.mpr fun w _ => decide_eq_true List.nil_prefix]

theorem tally_prefix (segs : List String) : tally walks (segs <+: ·) =
    tally walks (segs = ·) + tally walks (fun s => segs <+: s ∧ segs ≠ s) := by
  induction walks using List.reverseRecOn with
  | nil => rfl
  | append_singleton walks w ih =>
    obtain ⟨s, c⟩ := w
    have hone : (if segs <+: s then c else 0) =
        (if segs = s then c else 0) + if segs <+: s ∧ segs ≠ s then c else 0 := by
      by_cases heq : segs = s
      · rw [if_pos heq, if_pos (heq ▸ List.prefix_refl _), if_neg fun h => h.2 heq, Nat.add_zero]
      · rw [if_neg heq, Nat.zero_add]
        exact if_congr (and_iff_left heq).symm rfl rfl
    rw [tally_append, tally_append, tally_append, ih, hone]
    exact Nat.add_add_add_comm _ _ _ _

theorem map_snd_walked {groups : List (String × ℕ)} (h : ∀ g ∈ groups, ∃ suffix, suffixOf pre g.1 = some suffix) :
    (walked pre groups).map Prod.snd = groups.map Prod.snd := by
  induction groups with
  | nil => rfl
  | cons g groups ih =>
    obtain ⟨suffix, hsuffix⟩ := h g List.mem_cons_self
    rw [walked_cons hsuffix, List.map_cons, List.map_cons, ih fun g hg => h g (List.mem_cons_of_mem _ hg)]

theorem mem_selected {ns : String} : ns ∈ selected db pre now ↔ ∃ r ∈ live db now, r.ns = ns ∧ selects pre ns = true := by
  rw [selected, List.mem_filter, List.mem_map]
  constructor
  · rintro ⟨⟨r, hr, rfl⟩, hsel⟩
    exact ⟨r, hr, rfl, hsel⟩
  · rintro ⟨r, hr, rfl, hsel⟩
    exact ⟨⟨r, hr, rfl⟩, hsel⟩

theorem length_selected : (selected db pre now).length = ((live db now).filter fun r => selects pre r.ns).length := by
  rw [selected, List.filter_map, List.length_map]
  rfl

theorem total_iff : (selected db pre now).length = ((live db now).filter fun r => Below pre r.ns).length ↔
    ∀ r ∈ live db now, selects pre r.ns = true → Below pre r.ns := by
  rw [length_selected]
  have hboth : (live db now).filter (fun r => Below pre r.ns) =
      ((live db now).filter fun r => selects pre r.ns).filter fun r => Below pre r.ns := by
    rw [List.filter_filter]
    refine List.filter_congr fun r _ => ?_
    by_cases hbelow : Below pre r.ns
    · simp [hbelow, hbelow.selects]
    · simp [hbelow]
  rw [hboth, eq_comm, List.length_filter_eq_length_iff]
  simp only [List.mem_filter, and_imp, decide_eq_true_iff]

/-- The tree fits, unless it is clamped at the root. -/
theorem fits_tree (hvalid : ∀ r ∈ live db now, Accepts (validateNamespace r.ns))
    (hplain : Plain db pre maxDepth limit now) (name : String) :
    (∀ g ∈ groups db pre now limit, ∃ suffix, suffixOf pre g.1 = some suffix) ∧
    Fits pre (walked pre (groups db pre now limit)) (min maxDepth maxNamespaceDepth) []
      ((groups db pre now limit).foldl (addGroup pre (min maxDepth maxNamespaceDepth)) ⟨pre, name, 0, 0, []⟩) := by
  have hgroups : ∀ g ∈ groups db pre now limit, ∃ suffix, suffixOf pre g.1 = some suffix := by
    intro g hg
    obtain ⟨r, hr, hns, hsel⟩ := mem_selected.mp (mem_allGroups (groups_subset hg)).1
    rw [← hns] at hsel ⊢
    exact suffixOf_of_below (hplain.precise r hr hsel) (ends_of_valid (hvalid r hr)).2
  refine ⟨hgroups, ?_⟩
  have hnew : Fits pre [] (min maxDepth maxNamespaceDepth) [] ⟨pre, name, 0, 0, []⟩ :=
    fits_new fun w hw => absurd hw List.not_mem_nil
  refine fits_foldl (fun g hg => ?_) hnew
  obtain ⟨suffix, hsuffix⟩ := hgroups g hg
  refine ⟨suffix, hsuffix, or_iff_not_imp_left.mpr fun hzero => ?_⟩
  have hmax : maxDepth = 0 := by
    unfold maxNamespaceDepth at hzero
    omega
  rw [hplain.flat hmax g hg] at hsuffix
  exact segments_self hsuffix

theorem legible_walks (hvalid : ∀ r ∈ live db now, Accepts (validateNamespace r.ns)) :
    ∀ w ∈ walked pre (groups db pre now limit), Legible pre w.1 := by
  intro w hw
  obtain ⟨g, hg, hsome⟩ := List.mem_filterMap.mp hw
  obtain ⟨suffix, hsuffix, rfl⟩ := Option.map_eq_some_iff.mp hsome
  obtain ⟨r, hr, hns, -⟩ := mem_selected.mp (mem_allGroups (groups_subset hg)).1
  refine legible_segments fun htop => ?_
  rw [suffixOf, if_pos htop] at hsuffix
  rw [← Option.some.inj hsuffix, ← hns]
  exact (ends_of_valid (hvalid r hr)).1

theorem plain_of_addsUp {namespacePrefix : Option String} (hvalid : ∀ r ∈ live db now, Accepts (validateNamespace r.ns))
    (h : AddsUp db (namespacePrefix.getD "") maxDepth limit now (getTaxonomy db namespacePrefix maxDepth limit now)) :
    Plain db (namespacePrefix.getD "") maxDepth limit now := by
  have hprecise := total_iff.mp h.total
  refine ⟨hprecise, fun hzero g hg => ?_⟩
  subst hzero
  have hsums := h.sums [] _ .root
  have hequal : (getTaxonomy db namespacePrefix 0 limit now).tree.subtreeCount =
      (getTaxonomy db namespacePrefix 0 limit now).tree.count := by
    unfold getTaxonomy
    simp only [subtreeCount_sortTaxonomy, count_sortTaxonomy, Nat.zero_min]
    exact foldl_addGroup_zero rfl _
  rw [hequal, if_pos (by simp), Nat.add_assoc, Nat.left_eq_add] at hsums
  have hnone : tally (walked (namespacePrefix.getD "") (groups db (namespacePrefix.getD "") now limit))
      (fun s => [] <+: s ∧ [] ≠ s) = 0 := (Nat.add_eq_zero_iff.mp hsums).2
  obtain ⟨r, hr, hns, hsel⟩ := mem_selected.mp (mem_allGroups (groups_subset hg)).1
  obtain ⟨suffix, hsuffix⟩ := suffixOf_of_below (hprecise r hr (hns ▸ hsel)) (ends_of_valid (hvalid r hr)).2
  rw [hns] at hsuffix
  refine eq_of_segments_nil hsuffix (by_contra fun hne => ?_)
  -- a group below the root would count
  have hin : (segments suffix, g.2) ∈ walked (namespacePrefix.getD "") (groups db (namespacePrefix.getD "") now limit) :=
    List.mem_filterMap.mpr ⟨g, hg, by rw [hsuffix]; rfl⟩
  have hcounted : g.2 ∈ ((walked (namespacePrefix.getD "") (groups db (namespacePrefix.getD "") now limit)).filter
      fun w => [] <+: w.1 ∧ [] ≠ w.1).map Prod.snd :=
    List.mem_map.mpr ⟨_, List.mem_filter.mpr ⟨hin, decide_eq_true ⟨List.nil_prefix, Ne.symm hne⟩⟩, rfl⟩
  have hle := List.single_le_sum (fun _ _ => Nat.zero_le _) _ hcounted
  exact absurd (hle.trans (le_of_eq hnone)) (not_le.mpr (mem_allGroups (groups_subset hg)).2)

theorem Fits.sums {n : TaxonomyNode} {segs : List String} {r : ℕ} (h : Fits pre walks r segs n)
    (hdepth : depth = segs.length + r) : (sortTaxonomy n).subtreeCount =
      (sortTaxonomy n).count + ((sortTaxonomy n).children.map (·.subtreeCount)).sum +
        if segs.length = depth then tally walks (fun s => segs <+: s ∧ segs ≠ s) else 0 := by
  rw [subtreeCount_sortTaxonomy, count_sortTaxonomy, sum_children_sortTaxonomy]
  cases r with
  | zero =>
    rw [if_pos (show segs.length = depth from hdepth.symm), h.2, h.1.subtree, h.1.count, List.map_nil, List.sum_nil, Nat.add_zero]
    exact tally_prefix segs
  | succ r =>
    rw [if_neg (by omega), Nat.add_zero]
    exact h.2.1.sums

theorem Fits.nodup_children {n : TaxonomyNode} {segs : List String} {r : ℕ} (h : Fits pre walks r segs n) :
    (n.children.map (·.name)).Nodup := by
  cases r with
  | zero => rw [h.2]; exact List.nodup_nil
  | succ r => exact h.2.1.distinct

theorem addsUp_of_plain {namespacePrefix : Option String} (hvalid : ∀ r ∈ live db now, Accepts (validateNamespace r.ns))
    (h : Plain db (namespacePrefix.getD "") maxDepth limit now) :
    AddsUp db (namespacePrefix.getD "") maxDepth limit now (getTaxonomy db namespacePrefix maxDepth limit now) := by
  obtain ⟨hgroups, hfits⟩ := fits_tree hvalid h
    (String.ofList ((((namespacePrefix.getD "").toList.splitOn '/').getLast?).getD []))
  have hlegible : ∀ w ∈ walked (namespacePrefix.getD "") (groups db (namespacePrefix.getD "") now limit),
      Legible (namespacePrefix.getD "") w.1 := legible_walks hvalid
  refine ⟨total_iff.mpr h.precise, ?_, fun hwhole => ?_, fun segs n hat => ?_, fun segs n segs' n' hat hat' hns => ?_,
    fun segs n hat => ?_⟩
  · refine decide_eq_true_iff.trans (walked_lt_iff.trans ?_)
    constructor
    · rintro ⟨ns, hns, hdropped⟩
      obtain ⟨r, hr, rfl, hsel⟩ := mem_selected.mp hns
      exact ⟨r, hr, h.precise r hr hsel, hdropped⟩
    · rintro ⟨r, hr, hbelow, hdropped⟩
      exact ⟨r.ns, mem_selected.mpr ⟨r, hr, rfl, hbelow.selects⟩, hdropped⟩
  · have hsum := hfits.counts.subtree
    rw [tally_prefix_nil, map_snd_walked hgroups] at hsum
    refine subtreeCount_sortTaxonomy.trans (hsum.trans (le_antisymm walked_le ?_))
    exact not_lt.mp (of_decide_eq_false hwhole)
  · obtain ⟨m, hm, rfl⟩ := at_sortTaxonomy hat
    obtain ⟨r, hdepth, hnode⟩ := hfits.at hm
    exact hnode.sums hdepth
  · obtain ⟨m, hm, rfl⟩ := at_sortTaxonomy hat
    obtain ⟨m', hm', rfl⟩ := at_sortTaxonomy hat'
    obtain ⟨r, -, hnode⟩ := hfits.at hm
    obtain ⟨r', -, hnode'⟩ := hfits.at hm'
    rw [ns_sortTaxonomy, ns_sortTaxonomy, hnode.counts.ns, hnode'.counts.ns] at hns
    obtain rfl := foldl_join_injective (hfits.legible hlegible hm) (hfits.legible hlegible hm') hns
    exact ⟨rfl, congrArg sortTaxonomy (hfits.at_unique hm hm')⟩
  · obtain ⟨m, hm, rfl⟩ := at_sortTaxonomy hat
    obtain ⟨r, -, hnode⟩ := hfits.at hm
    exact pairwise_children hnode.nodup_children

end AddsUp

/-- On validated namespaces the numbers of `get_taxonomy` add up if and only if `LIKE` selects nothing but what is below the
prefix, and at depth zero there is nothing to clamp. -/
theorem taxonomy_adds_up_iff (db : Db) (namespacePrefix : Option String) (maxDepth limit : ℕ) (now : String)
    (hvalid : ∀ r ∈ live db now, Accepts (validateNamespace r.ns)) :
    AddsUp db (namespacePrefix.getD "") maxDepth limit now (getTaxonomy db namespacePrefix maxDepth limit now) ↔
      Plain db (namespacePrefix.getD "") maxDepth limit now :=
  ⟨plain_of_addsUp hvalid, addsUp_of_plain hvalid⟩

/-- Memories of a team and of another one, whose name `LIKE` takes for the first. -/
def twoTeams : Db :=
  { Db.empty with
    memories := ⟨⟨[(Db.standardMemory "m1" "team_a" (.obj [])).toRow,
      (Db.standardMemory "m2" "teamxa/notes" (.obj [])).toRow], by decide⟩, by decide⟩ }

theorem taxonomy_adds_up_iff_twoTeams :
    AddsUp twoTeams "" 8 1000 "2026-01-01T00:00:00Z" (getTaxonomy twoTeams none 8 1000 "2026-01-01T00:00:00Z") ↔
      Plain twoTeams "" 8 1000 "2026-01-01T00:00:00Z" :=
  taxonomy_adds_up_iff twoTeams none 8 1000 "2026-01-01T00:00:00Z" (by decide)

/-- The total of `team_a` counts a memory of `teamxa`. -/
theorem other_team_counted :
    let t := getTaxonomy twoTeams (some "team_a") 8 1000 "2026-01-01T00:00:00Z"
    t.totalCount = 2 ∧
      ((live twoTeams "2026-01-01T00:00:00Z").filter fun r => Below "team_a" r.ns).map (·.id) = ["m1"] ∧
      ¬AddsUp twoTeams "team_a" 8 1000 "2026-01-01T00:00:00Z" t := by
  intro t
  have htotal : t.totalCount = 2 := by decide
  have hbelow : ((live twoTeams "2026-01-01T00:00:00Z").filter fun r => Below "team_a" r.ns).map (·.id) = ["m1"] := by
    decide
  refine ⟨htotal, hbelow, fun h => ?_⟩
  have hlen := congrArg List.length hbelow
  rw [List.length_map, ← h.total, htotal] at hlen
  exact absurd hlen (by decide)

end Taxonomy

end AiMemory
