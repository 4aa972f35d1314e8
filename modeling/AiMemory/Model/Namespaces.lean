import AiMemory.Model.Ancestors
import AiMemory.Model.Validate

/-!
# The grammar of a namespace

`validate_namespace` checks a trimmed copy, and lets newlines and tabs through. So it admits the grammar of its documentation
(`Documented`) up to white space at the ends, newlines and tabs (`accepts_iff`), and an ancestor of an admitted name can lose a
segment of white space, or the white space that hid a `.` or a `..`, when it is checked in its turn (`accepts_ancestor_iff`).
-/

namespace AiMemory

namespace Validate

variable {n a : String} {s seg before : List Char} {control : Char → Bool} {f : Char → Bool}

/-- `str::trim_end`, on characters. -/
def trimEnd (s : List Char) : List Char := (s.reverse.dropWhile isWhitespace).reverse

/-- `char::is_control`, as `is_clean_string` takes it. -/
def isUncleanControl (c : Char) : Bool := isControl c && c != '\n' && c != '\t'

/-- The grammar of a namespace: segments between `/`; `control` says which control characters are meant. -/
structure Grammar (control : Char → Bool) (s : List Char) : Prop where
  length : 1 ≤ s.length ∧ s.length ≤ maxNamespaceLen
  segments : ∀ seg ∈ s.splitOn '/', seg ≠ [] ∧ seg ≠ ['.'] ∧ seg ≠ ['.', '.']
  depth : (s.splitOn '/').length ≤ maxNamespaceDepth
  letters : ∀ c ∈ s, c ≠ '\\' ∧ c ≠ Char.ofNat 0 ∧ c ≠ ' ' ∧ control c = false

/-- The grammar that the documentation gives. -/
def Documented (n : String) : Prop := trim n = n.toList ∧ Grammar isControl n.toList

/-! ## What is accepted -/

theorem Grammar.ends (h : Grammar control s) : s.head? ≠ some '/' ∧ s.getLast? ≠ some '/' := by
  constructor
  · intro hhead
    obtain ⟨rest, rfl⟩ := List.head?_eq_some_iff.mp hhead
    refine (h.segments [] ?_).1 rfl
    rw [← List.nil_append ('/' :: rest), List.splitOn_append_cons_self, List.splitOn_nil]
    exact List.mem_cons_self
  · intro hlast
    obtain ⟨init, rfl⟩ := List.getLast?_eq_some_iff.mp hlast
    refine (h.segments [] ?_).1 rfl
    rw [List.splitOn_append_cons_self, List.splitOn_nil]
    exact List.mem_append_right _ (List.mem_singleton_self _)

theorem namespaceDepth_ofList (hne : s ≠ []) (h : ∀ seg ∈ s.splitOn '/', seg ≠ []) :
    namespaceDepth (String.ofList s) = (s.splitOn '/').length := by
  have hempty : String.ofList s ≠ "" := fun he => hne (by simpa using congrArg String.toList he)
  rw [namespaceDepth, if_neg hempty, String.toList_ofList, List.filter_eq_self.mpr fun seg hseg => by simp [h seg hseg]]

theorem isCleanString_iff : isCleanString s = true ↔ ∀ c ∈ s, isUncleanControl c = false := by
  unfold isCleanString isUncleanControl
  simp

/-- The checks on the trimmed characters are the grammar with newlines and tabs. -/
theorem accepts_iff : Accepts (validateNamespace n) ↔ Grammar isUncleanControl (trim n) := by
  unfold validateNamespace
  generalize trim n = s
  unfold validateNamespaceChars
  simp only [accepts_bind, accepts_bailIf, decide_eq_false_iff_not, Bool.or_eq_false_iff, List.contains_eq_mem,
    Bool.not_eq_false', isCleanString_iff, List.any_eq_false, not_lt, List.isEmpty_iff]
  constructor
  · rintro ⟨hne, hlen, ⟨hback, hnul⟩, hspace, hclean, -, -, hempty, hdots, hdepth⟩
    have hsegs : ∀ seg ∈ s.splitOn '/', seg ≠ [] := hempty
    rw [namespaceDepth_ofList hne hsegs] at hdepth
    refine ⟨⟨List.length_pos_iff.mpr hne, hlen⟩, fun seg hseg => ⟨hsegs seg hseg, ?_⟩, hdepth, fun c hc => ?_⟩
    · have h := hdots seg hseg
      rw [Bool.or_eq_true, decide_eq_true_iff, decide_eq_true_iff, not_or] at h
      exact ⟨h.2, h.1⟩
    · refine ⟨?_, ?_, ?_, hclean c hc⟩
      · rintro rfl
        exact hback hc
      · rintro rfl
        exact hnul hc
      · rintro rfl
        exact hspace hc
  · intro h
    have hne : s ≠ [] := List.length_pos_iff.mp h.length.1
    refine ⟨hne, h.length.2, ⟨fun hc => (h.letters _ hc).1 rfl, fun hc => (h.letters _ hc).2.1 rfl⟩,
      fun hc => (h.letters _ hc).2.2.1 rfl, fun c hc => (h.letters c hc).2.2.2, h.ends.1, h.ends.2,
      fun seg hseg => (h.segments seg hseg).1, fun seg hseg => ?_, ?_⟩
    · have h := h.segments seg hseg
      rw [Bool.or_eq_true, decide_eq_true_iff, decide_eq_true_iff, not_or]
      exact ⟨h.2.2, h.2.1⟩
    · rw [namespaceDepth_ofList hne fun seg hseg => (h.segments seg hseg).1]
      exact h.depth

theorem accepts_of_documented (h : Documented n) : Accepts (validateNamespace n) := by
  rw [accepts_iff, h.1]
  refine ⟨h.2.length, h.2.segments, h.2.depth, fun c hc => ?_⟩
  obtain ⟨hback, hnul, hspace, hcontrol⟩ := h.2.letters c hc
  refine ⟨hback, hnul, hspace, ?_⟩
  rw [isUncleanControl, hcontrol]
  rfl

/-- What is accepted is documented, unless the trimming or a newline or a tab made the difference. -/
theorem documented_iff (h : Accepts (validateNamespace n)) :
    Documented n ↔ trim n = n.toList ∧ ∀ c ∈ n.toList, c ≠ '\n' ∧ c ≠ '\t' := by
  rw [accepts_iff] at h
  constructor
  · rintro ⟨htrim, hgrammar⟩
    refine ⟨htrim, fun c hc => ⟨?_, ?_⟩⟩
    · rintro rfl
      exact absurd (hgrammar.letters _ hc).2.2.2 (by decide)
    · rintro rfl
      exact absurd (hgrammar.letters _ hc).2.2.2 (by decide)
  · rintro ⟨htrim, hlines⟩
    rw [htrim] at h
    refine ⟨htrim, h.length, h.segments, h.depth, fun c hc => ?_⟩
    obtain ⟨hback, hnul, hspace, hcontrol⟩ := h.letters c hc
    refine ⟨hback, hnul, hspace, ?_⟩
    simpa [isUncleanControl, hlines c hc] using hcontrol

/-! ## White space at the end -/

theorem isWhitespace_slash : isWhitespace '/' = false := by decide

theorem trimEnd_append_slash (before seg : List Char) : trimEnd (before ++ '/' :: seg) = before ++ '/' :: trimEnd seg := by
  unfold trimEnd
  rw [List.reverse_append, List.reverse_cons, List.append_assoc, List.dropWhile_append]
  split_ifs with hall
  · rw [List.isEmpty_iff] at hall
    rw [hall, List.singleton_append, List.dropWhile_cons_of_neg (by rw [isWhitespace_slash]; exact Bool.false_ne_true)]
    simp
  · simp

def lastSegment (s : List Char) : List Char := (s.splitOn '/').getLast (List.splitOn_ne_nil '/' s)

theorem lastSegment_append_slash (hseg : '/' ∉ seg) : lastSegment (before ++ '/' :: seg) = seg := by
  unfold lastSegment
  simp only [List.splitOn_append_cons_self, List.splitOn_eq_singleton hseg, List.getLast_concat]

theorem lastSegment_of_not_mem (hs : '/' ∉ s) : lastSegment s = s := by
  unfold lastSegment
  simp only [List.splitOn_eq_singleton hs, List.getLast_singleton]

theorem mem_trimEnd {c : Char} (h : c ∈ trimEnd s) : c ∈ s :=
  List.mem_reverse.mp ((List.dropWhile_suffix _).subset (List.mem_reverse.mp h))

theorem splitOn_trimEnd (s : List Char) :
    (trimEnd s).splitOn '/' = (s.splitOn '/').dropLast ++ [trimEnd (lastSegment s)] := by
  by_cases hslash : '/' ∈ s
  · obtain ⟨before, seg, hseg, rfl⟩ := exists_segment hslash
    have hseg' : '/' ∉ trimEnd seg := fun h => hseg (mem_trimEnd h)
    rw [trimEnd_append_slash, lastSegment_append_slash hseg, List.splitOn_append_cons_self, List.splitOn_append_cons_self,
      List.splitOn_eq_singleton hseg, List.splitOn_eq_singleton hseg', List.dropLast_concat]
  · have hslash' : '/' ∉ trimEnd s := fun h => hslash (mem_trimEnd h)
    rw [lastSegment_of_not_mem hslash, List.splitOn_eq_singleton hslash, List.splitOn_eq_singleton hslash']
    rfl

theorem length_trimEnd_le (s : List Char) : (trimEnd s).length ≤ s.length := by
  have hle : (s.reverse.dropWhile isWhitespace).length ≤ s.reverse.length := (List.dropWhile_suffix _).length_le
  rwa [List.length_reverse, ← List.length_reverse] at hle

theorem trim_eq (n : String) : trim n = trimEnd (n.toList.dropWhile isWhitespace) := rfl

theorem dropWhile_of_trimmed (hn : trim n = n.toList) : n.toList.dropWhile isWhitespace = n.toList := by
  have hle := length_trimEnd_le (n.toList.dropWhile isWhitespace)
  rw [← trim_eq, hn] at hle
  exact (List.dropWhile_suffix _).eq_of_length_le hle

theorem trim_of_prefix (hn : trim n = n.toList) (ha : a.toList <+: n.toList) : trim a = trimEnd a.toList := by
  have hdrop : a.toList.dropWhile isWhitespace = a.toList := by
    cases hcs : a.toList with
    | nil => rfl
    | cons c cs =>
      obtain ⟨rest, hrest⟩ := ha
      have htrimmed := dropWhile_of_trimmed hn
      rw [← hrest, hcs, List.cons_append] at htrimmed
      refine List.dropWhile_cons_of_neg fun hspace => ?_
      rw [List.dropWhile_cons_of_pos hspace] at htrimmed
      have hlen := (List.dropWhile_suffix isWhitespace (l := cs ++ rest)).length_le
      rw [htrimmed, List.length_cons] at hlen
      omega
  rw [trim_eq, hdrop]

/-! ## The ancestors -/

/-- Without the white space at its end the segment is empty, `.` or `..`. -/
def Hides (seg : List Char) : Prop := trimEnd seg = [] ∨ trimEnd seg = ['.'] ∨ trimEnd seg = ['.', '.']

theorem lastSegment_mem (s : List Char) : lastSegment s ∈ s.splitOn '/' := List.getLast_mem _

theorem splitOn_of_properAncestor (h : ProperAncestor a n) :
    ∃ rest, n.toList.splitOn '/' = a.toList.splitOn '/' ++ rest ∧ rest ≠ [] := by
  obtain ⟨-, rest, hrest⟩ := h
  exact ⟨rest.splitOn '/', by rw [hrest, List.splitOn_append_cons_self], List.splitOn_ne_nil _ _⟩

/-- An ancestor of a trimmed name is refused for its last segment only. -/
theorem accepts_ancestor_iff (hn : trim n = n.toList) (hg : Grammar isUncleanControl n.toList) (ha : ProperAncestor a n) :
    Accepts (validateNamespace a) ↔ ¬ Hides (lastSegment a.toList) := by
  have hpre : a.toList <+: n.toList := ⟨_, ha.2.choose_spec.symm⟩
  obtain ⟨rest, hsplit, hrest⟩ := splitOn_of_properAncestor ha
  rw [accepts_iff, trim_of_prefix hn hpre]
  constructor
  · intro h hhides
    have hlast := h.segments (trimEnd (lastSegment a.toList)) (by
      rw [splitOn_trimEnd]
      exact List.mem_append_right _ (List.mem_singleton_self _))
    exact hhides.elim hlast.1 fun hdots => hdots.elim hlast.2.1 hlast.2.2
  · intro h
    rw [Hides, not_or, not_or] at h
    have hne : trimEnd a.toList ≠ [] := by
      intro hnil
      have hsegs := splitOn_trimEnd a.toList
      rw [hnil, List.splitOn_nil] at hsegs
      have hmem : trimEnd (lastSegment a.toList) ∈ [[]] := hsegs ▸ List.mem_append_right _ (List.mem_singleton_self _)
      exact h.1 (List.mem_singleton.mp hmem)
    refine ⟨⟨List.length_pos_iff.mpr hne, ?_⟩, fun seg hseg => ?_, ?_, fun c hc => ?_⟩
    · exact (length_trimEnd_le _).trans (hpre.length_le.trans hg.length.2)
    · rw [splitOn_trimEnd, List.mem_append, List.mem_singleton] at hseg
      rcases hseg with hseg | rfl
      · exact hg.segments seg (hsplit ▸ List.mem_append_left _ (List.mem_of_mem_dropLast hseg))
      · exact h
    · have hdepth := hg.depth
      have hpos := List.length_pos_iff.mpr (List.splitOn_ne_nil '/' a.toList)
      rw [hsplit, List.length_append] at hdepth
      rw [splitOn_trimEnd, List.length_append, List.length_dropLast, List.length_singleton]
      omega
    · exact hg.letters c (hpre.subset (mem_trimEnd hc))

/-- The segments of a name but the last are the last segments of its proper ancestors. -/
theorem forall_dropLast_iff {P : List Char → Prop} (h : ∀ seg ∈ n.toList.splitOn '/', seg ≠ []) :
    (∀ seg ∈ (n.toList.splitOn '/').dropLast, P seg) ↔ ∀ a, ProperAncestor a n → P (lastSegment a.toList) := by
  constructor
  · intro hall a ha
    obtain ⟨rest, hsplit, hrest⟩ := splitOn_of_properAncestor ha
    refine hall _ ?_
    rw [hsplit, List.dropLast_append_of_ne_nil hrest]
    exact List.mem_append_left _ (lastSegment_mem _)
  · intro hall
    induction n using namespace_induct with
    | empty =>
      rw [String.toList_empty, List.splitOn_nil]
      exact fun seg hseg => absurd hseg List.not_mem_nil
    | top n _ hslash =>
      rw [List.splitOn_eq_singleton hslash]
      exact fun seg hseg => absurd hseg List.not_mem_nil
    | below n p hbelow ih =>
      have hbelow' := hbelow
      obtain ⟨seg', hseg', hn⟩ := hbelow'
      have hsplit : n.toList.splitOn '/' = p.toList.splitOn '/' ++ [seg'] := by
        rw [hn, List.splitOn_append_cons_self, List.splitOn_eq_singleton hseg']
      rw [hsplit] at h ⊢
      have hp : p ≠ "" := by
        rintro rfl
        exact h [] (List.mem_append_left _ (by simp)) rfl
      rw [List.dropLast_concat]
      intro seg hseg
      rw [← List.dropLast_append_getLast (List.splitOn_ne_nil '/' p.toList), List.mem_append, List.mem_singleton] at hseg
      rcases hseg with hseg | rfl
      · exact ih (fun seg hseg => h seg (List.mem_append_left _ hseg)) (fun a ha => hall a (ha.trans_below hbelow)) seg hseg
      · exact hall p (hbelow.properAncestor hp)

/-- The ancestors of a name: as many as its segments, from the name itself to its first segment, each the one before without its
last segment, and each a name that is accepted. -/
structure WellFormedAncestors (n : String) : Prop where
  count : (namespaceAncestors n).length = namespaceDepth n
  starts : (namespaceAncestors n).head? = some n
  ends : (namespaceAncestors n).getLast? = (n.toList.splitOn '/').head?.map String.ofList
  accepted : ∀ a ∈ namespaceAncestors n, Accepts (validateNamespace a)
  steps : (namespaceAncestors n).IsChain SegmentBelow

theorem length_namespaceAncestors (hne : n ≠ "") (h : ∀ seg ∈ n.toList.splitOn '/', seg ≠ []) :
    (namespaceAncestors n).length = (n.toList.splitOn '/').length := by
  induction n using namespace_induct with
  | empty => exact absurd rfl hne
  | top n hne hslash =>
    rw [namespaceAncestors_top hne hslash, List.splitOn_eq_singleton hslash]
    rfl
  | below n p hbelow ih =>
    have hbelow' := hbelow
    obtain ⟨seg', hseg', hn⟩ := hbelow'
    rw [hn, List.splitOn_append_cons_self, List.splitOn_eq_singleton hseg'] at h ⊢
    have hp : p ≠ "" := by
      rintro rfl
      exact h [] (List.mem_append_left _ (by simp)) rfl
    rw [namespaceAncestors_below hbelow, List.length_cons, ih hp fun seg hseg => h seg (List.mem_append_left _ hseg),
      List.length_append, List.length_singleton]

theorem getLast?_of_segments (hne : n ≠ "") (h : ∀ seg ∈ n.toList.splitOn '/', seg ≠ []) :
    (namespaceAncestors n).getLast? = (n.toList.splitOn '/').head?.map String.ofList := by
  by_cases hslash : '/' ∈ n.toList
  · obtain ⟨first, rest, hn, hfirst⟩ := List.eq_append_cons_of_mem hslash
    rw [hn, List.splitOn_append_cons_self, List.splitOn_eq_singleton hfirst] at h ⊢
    have hempty : String.ofList first ≠ "" := by
      intro he
      exact h first List.mem_cons_self (by simpa using congrArg String.toList he)
    refine getLast?_namespaceAncestors (by rwa [String.toList_ofList]) ?_
    exact (mem_namespaceAncestors hne).mpr (Or.inr ⟨hempty, rest, by rw [String.toList_ofList, hn]⟩)
  · rw [namespaceAncestors_top hne hslash, List.splitOn_eq_singleton hslash, List.head?_cons, Option.map_some, String.ofList_toList]
    rfl

/-! ## The names the code admits rightly -/

/-- Names are accepted as documented and have well-formed ancestors, unless the name the grammar admits after the trimming had
white space at its ends, has a newline or a tab, or has a segment before the last that white space keeps from being empty, `.` or
`..`. -/
theorem namespace_grammar_iff (n : String) :
    (Accepts (validateNamespace n) ↔ Documented n) ∧ (Accepts (validateNamespace n) → WellFormedAncestors n) ↔
    (Grammar isUncleanControl (trim n) → trim n = n.toList ∧ (∀ c ∈ n.toList, c ≠ '\n' ∧ c ≠ '\t') ∧
      ∀ seg ∈ (n.toList.splitOn '/').dropLast, ¬ Hides seg) := by
  rw [← accepts_iff]
  constructor
  · rintro ⟨hdoc, hanc⟩ h
    obtain ⟨htrim, hlines⟩ := (documented_iff h).mp (hdoc.mp h)
    have hg := accepts_iff.mp h
    rw [htrim] at hg
    refine ⟨htrim, hlines, (forall_dropLast_iff fun seg hseg => (hg.segments seg hseg).1).mpr fun a ha => ?_⟩
    rw [← accepts_ancestor_iff htrim hg ha]
    have hne : n ≠ "" := by
      rintro rfl
      exact not_properAncestor_empty ha
    exact (hanc h).accepted a ((mem_namespaceAncestors hne).mpr (Or.inr ha))
  · intro hcond
    refine ⟨⟨fun h => ?_, accepts_of_documented⟩, fun h => ?_⟩
    · obtain ⟨htrim, hlines, -⟩ := hcond h
      exact (documented_iff h).mpr ⟨htrim, hlines⟩
    · obtain ⟨htrim, -, hhides⟩ := hcond h
      have hg := accepts_iff.mp h
      rw [htrim] at hg
      have hsegs : ∀ seg ∈ n.toList.splitOn '/', seg ≠ [] := fun seg hseg => (hg.segments seg hseg).1
      have hne : n ≠ "" := by
        rintro rfl
        exact absurd hg.length.1 (by simp)
      have hdepth : namespaceDepth n = (n.toList.splitOn '/').length := by
        rw [← namespaceDepth_ofList (List.length_pos_iff.mp hg.length.1) hsegs, String.ofList_toList]
      refine ⟨(length_namespaceAncestors hne hsegs).trans hdepth.symm, head?_namespaceAncestors hne,
        getLast?_of_segments hne hsegs, fun a ha => ?_, isChain_namespaceAncestors n⟩
      rcases (mem_namespaceAncestors hne).mp ha with rfl | ha
      · exact h
      · exact (accepts_ancestor_iff htrim hg ha).mpr ((forall_dropLast_iff hsegs).mp hhides a ha)

/-- A name with a tab in it and one with a space after it are accepted, and so is one whose second segment is a no-break space,
which has an ancestor that is refused. -/
theorem loosely_checked :
    (Accepts (validateNamespace "a\tb") ∧ ¬ Documented "a\tb") ∧ (Accepts (validateNamespace "a ") ∧ ¬ Documented "a ") ∧
    Accepts (validateNamespace "b/\u00A0/c") ∧ ¬ WellFormedAncestors "b/\u00A0/c" := by
  refine ⟨⟨by decide, fun h => ?_⟩, ⟨by decide, fun h => ?_⟩, by decide, fun h => ?_⟩
  · exact absurd (h.2.letters '\t' (by decide)).2.2.2 (by decide)
  · exact absurd h.1 (by decide)
  · have hrefused := h.accepted "b/\u00A0" (by decide)
    revert hrefused
    decide

end Validate

end AiMemory
