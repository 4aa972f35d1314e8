import Mathlib.Data.List.TakeWhile
import AiMemory.Model.Types

/-!
# The walk up a namespace

`namespace_parent` cuts a namespace at its last `/` (`namespaceParent_eq_some`), and `namespace_ancestors` repeats that until
nothing stands before the `/`. So its entries are the namespace and every text that `ns` continues with a `/`
(`mem_namespaceAncestors`), each the one before without its last segment (`isChain_namespaceAncestors`).
-/

namespace AiMemory

variable {ns p t : String} {fuel : ℕ}

/-- `a` is `b` and one more segment. -/
def SegmentBelow (a b : String) : Prop := ∃ seg, '/' ∉ seg ∧ a.toList = b.toList ++ '/' :: seg

/-- `t` is a proper `/`-ancestor of `ns`. -/
def ProperAncestor (t ns : String) : Prop := t ≠ "" ∧ ∃ rest, ns.toList = t.toList ++ '/' :: rest

/-- What stands before a segment and the `/` in front of it is cut off at that `/`. -/
theorem dropWhile_reverse_segment {before seg : List Char} (hseg : '/' ∉ seg) :
    (before ++ '/' :: seg).reverse.dropWhile (· ≠ '/') = '/' :: before.reverse := by
  rw [List.reverse_append, List.reverse_cons, List.append_assoc, List.dropWhile_append_of_pos]
  · rfl
  · intro c hc
    rw [decide_eq_true_iff]
    rintro rfl
    exact hseg (List.mem_reverse.mp hc)

/-- A text with a `/` is split at the last one. -/
theorem exists_segment {s : List Char} (h : '/' ∈ s) : ∃ before seg, '/' ∉ seg ∧ s = before ++ '/' :: seg := by
  obtain ⟨segRev, beforeRev, hsplit, hseg⟩ := List.eq_append_cons_of_mem (List.mem_reverse.mpr h)
  refine ⟨beforeRev.reverse, segRev.reverse, fun hmem => hseg (List.mem_reverse.mp hmem), ?_⟩
  rw [← List.reverse_reverse s, hsplit]
  simp

/-- A text without a `/` has no parent; any other text is its parent and one more segment. -/
theorem namespaceParent_cases (ns : String) : (namespaceParent ns = none ∧ '/' ∉ ns.toList) ∨
    ∃ p, namespaceParent ns = some p ∧ SegmentBelow ns p := by
  unfold namespaceParent
  by_cases hslash : '/' ∈ ns.toList
  · obtain ⟨before, seg, hseg, hns⟩ := exists_segment hslash
    rw [hns, dropWhile_reverse_segment hseg]
    exact Or.inr ⟨_, rfl, _, hseg, by simp [hns]⟩
  · have hnone : ns.toList.reverse.dropWhile (· ≠ '/') = [] := by
      rw [List.dropWhile_eq_nil_iff]
      intro c hc
      rw [decide_eq_true_iff]
      rintro rfl
      exact hslash (List.mem_reverse.mp hc)
    rw [hnone]
    exact Or.inl ⟨rfl, hslash⟩

theorem namespaceParent_eq_some : namespaceParent ns = some p ↔ SegmentBelow ns p := by
  constructor
  · intro h
    rcases namespaceParent_cases ns with ⟨hnone, -⟩ | ⟨p', hp', hbelow⟩
    · rw [hnone] at h
      cases h
    · rw [hp'] at h
      cases h
      exact hbelow
  · rintro ⟨seg, hseg, hns⟩
    unfold namespaceParent
    rw [hns, dropWhile_reverse_segment hseg]
    simp

theorem namespaceParent_eq_none : namespaceParent ns = none ↔ '/' ∉ ns.toList := by
  rcases namespaceParent_cases ns with ⟨hnone, hslash⟩ | ⟨p, hp, seg, -, hns⟩
  · exact iff_of_true hnone hslash
  · refine iff_of_false (by simp [hp]) (fun hslash => hslash ?_)
    rw [hns]
    exact List.mem_append_right _ List.mem_cons_self

theorem SegmentBelow.length_lt (h : SegmentBelow ns p) : p.length < ns.length := by
  obtain ⟨seg, -, hns⟩ := h
  rw [← String.length_toList, ← String.length_toList, hns, List.length_append, List.length_cons]
  omega

/-! ## The entries -/

/-- What stands before a `/` of a namespace is its parent or stands before a `/` of that. -/
theorem ProperAncestor.of_below (h : SegmentBelow ns p) (ht : ProperAncestor t ns) : t = p ∨ ProperAncestor t p := by
  obtain ⟨seg, hseg, hns⟩ := h
  obtain ⟨hne, rest, hrest⟩ := ht
  rw [hns] at hrest
  rcases List.append_eq_append_iff.mp hrest with ⟨between, hbetween, htail⟩ | ⟨between, hbetween, htail⟩
  · cases between with
    | nil => exact Or.inl (String.toList_inj.mp (by simpa using hbetween))
    | cons c between =>
      rw [List.cons_append, List.cons.injEq] at htail
      exact absurd (htail.2 ▸ List.mem_append_right _ List.mem_cons_self) hseg
  · cases between with
    | nil => exact Or.inl (String.toList_inj.mp (by simpa using hbetween.symm))
    | cons c between =>
      rw [List.cons_append, List.cons.injEq] at htail
      exact Or.inr ⟨hne, between, by rw [hbetween, htail.1]⟩

theorem SegmentBelow.properAncestor (h : SegmentBelow ns p) (hp : p ≠ "") : ProperAncestor p ns :=
  ⟨hp, h.choose, h.choose_spec.2⟩

theorem ProperAncestor.trans_below (ht : ProperAncestor t p) (h : SegmentBelow ns p) : ProperAncestor t ns := by
  obtain ⟨seg, -, hns⟩ := h
  obtain ⟨hne, rest, hrest⟩ := ht
  exact ⟨hne, rest ++ '/' :: seg, by rw [hns, hrest, List.append_assoc, List.cons_append]⟩

theorem ProperAncestor.length_lt (h : ProperAncestor t ns) : t.length < ns.length := by
  obtain ⟨-, rest, hrest⟩ := h
  rw [← String.length_toList, ← String.length_toList, hrest, List.length_append, List.length_cons]
  omega

theorem not_properAncestor_empty : ¬ ProperAncestor t "" := by
  rintro ⟨-, rest, hrest⟩
  exact absurd hrest.symm (by simp)

theorem SegmentBelow.ne_empty (h : SegmentBelow ns p) : ns ≠ "" := by
  rintro rfl
  obtain ⟨seg, -, hns⟩ := h
  exact absurd hns.symm (by simp)

/-- Parents are shorter, so the walk up from any namespace ends at one without a `/` or at an empty one. -/
theorem namespace_induct {motive : String → Prop} (empty : motive "")
    (top : ∀ ns, ns ≠ "" → '/' ∉ ns.toList → motive ns) (below : ∀ ns p, SegmentBelow ns p → motive p → motive ns)
    (ns : String) : motive ns := by
  induction hlen : ns.length using Nat.strong_induction_on generalizing ns with
  | _ n ih =>
    rcases namespaceParent_cases ns with ⟨-, hslash⟩ | ⟨p, -, hbelow⟩
    · by_cases hns : ns = ""
      · exact hns ▸ empty
      · exact top ns hns hslash
    · exact below ns p hbelow (ih p.length (hlen ▸ hbelow.length_lt) p rfl)

@[simp] theorem namespaceAncestors_empty : namespaceAncestors "" = [] := rfl

theorem namespaceAncestorsFrom_congr {fuel' : ℕ} (hns : ns ≠ "") (hfuel : ns.length ≤ fuel) (hfuel' : ns.length ≤ fuel') :
    namespaceAncestorsFrom fuel ns = namespaceAncestorsFrom fuel' ns := by
  have hpos : ns.length ≠ 0 := String.length_eq_zero_iff.not.mpr hns
  obtain ⟨fuel, rfl⟩ := Nat.exists_eq_succ_of_ne_zero (show fuel ≠ 0 by omega)
  obtain ⟨fuel', rfl⟩ := Nat.exists_eq_succ_of_ne_zero (show fuel' ≠ 0 by omega)
  induction ns using namespace_induct generalizing fuel fuel' with
  | empty => exact absurd rfl hns
  | top ns _ hslash => rw [namespaceAncestorsFrom, namespaceAncestorsFrom, namespaceParent_eq_none.mpr hslash]
  | below ns p hbelow ih =>
    have hlt := hbelow.length_lt
    rw [namespaceAncestorsFrom, namespaceAncestorsFrom, namespaceParent_eq_some.mpr hbelow]
    simp only
    split_ifs with hp
    · rfl
    · have hpos : p.length ≠ 0 := String.length_eq_zero_iff.not.mpr hp
      obtain ⟨fuel, rfl⟩ := Nat.exists_eq_succ_of_ne_zero (show fuel ≠ 0 by omega)
      obtain ⟨fuel', rfl⟩ := Nat.exists_eq_succ_of_ne_zero (show fuel' ≠ 0 by omega)
      rw [ih hp hpos fuel (by omega) fuel' (by omega)]

theorem namespaceAncestorsFrom_eq (hns : ns ≠ "") (hfuel : ns.length ≤ fuel) :
    namespaceAncestorsFrom fuel ns = namespaceAncestors ns := by
  rw [namespaceAncestors, if_neg hns]
  exact namespaceAncestorsFrom_congr hns hfuel le_rfl

theorem namespaceAncestors_top (hns : ns ≠ "") (hslash : '/' ∉ ns.toList) : namespaceAncestors ns = [ns] := by
  obtain ⟨fuel, hfuel⟩ := Nat.exists_eq_succ_of_ne_zero (String.length_eq_zero_iff.not.mpr hns)
  rw [← namespaceAncestorsFrom_eq hns hfuel.le, namespaceAncestorsFrom, namespaceParent_eq_none.mpr hslash]

theorem namespaceAncestors_below (h : SegmentBelow ns p) : namespaceAncestors ns = ns :: namespaceAncestors p := by
  obtain ⟨fuel, hfuel⟩ := Nat.exists_eq_succ_of_ne_zero (String.length_eq_zero_iff.not.mpr h.ne_empty)
  rw [← namespaceAncestorsFrom_eq h.ne_empty hfuel.le, namespaceAncestorsFrom, namespaceParent_eq_some.mpr h]
  simp only
  split_ifs with hp
  · rw [hp, namespaceAncestors_empty]
  · rw [namespaceAncestorsFrom_eq hp (by have := h.length_lt; omega)]

theorem head?_namespaceAncestors (hns : ns ≠ "") : (namespaceAncestors ns).head? = some ns := by
  rcases namespaceParent_cases ns with ⟨-, hslash⟩ | ⟨p, -, hbelow⟩
  · rw [namespaceAncestors_top hns hslash]
    rfl
  · rw [namespaceAncestors_below hbelow]
    rfl

theorem mem_namespaceAncestors (hns : ns ≠ "") : t ∈ namespaceAncestors ns ↔ t = ns ∨ ProperAncestor t ns := by
  induction ns using namespace_induct with
  | empty => exact absurd rfl hns
  | top ns _ hslash =>
    rw [namespaceAncestors_top hns hslash, List.mem_singleton]
    refine ⟨Or.inl, fun h => h.resolve_right ?_⟩
    rintro ⟨-, rest, hrest⟩
    exact hslash (hrest ▸ List.mem_append_right _ List.mem_cons_self)
  | below ns p hbelow ih =>
    rw [namespaceAncestors_below hbelow, List.mem_cons]
    refine or_congr_right ?_
    by_cases hp : p = ""
    · subst hp
      refine iff_of_false List.not_mem_nil fun ht => ?_
      exact (ht.of_below hbelow).elim ht.1 not_properAncestor_empty
    · rw [ih hp]
      constructor
      · rintro (rfl | ht)
        · exact hbelow.properAncestor hp
        · exact ht.trans_below hbelow
      · exact ProperAncestor.of_below hbelow

theorem isChain_namespaceAncestors (ns : String) : (namespaceAncestors ns).IsChain SegmentBelow := by
  induction ns using namespace_induct with
  | empty => exact .nil
  | top ns hns hslash =>
    rw [namespaceAncestors_top hns hslash]
    exact .singleton ns
  | below ns p hbelow ih =>
    rw [namespaceAncestors_below hbelow, List.isChain_cons]
    refine ⟨fun y hy => ?_, ih⟩
    by_cases hp : p = ""
    · subst hp
      cases hy
    · rw [head?_namespaceAncestors hp] at hy
      cases hy
      exact hbelow

theorem getLast?_namespaceAncestors (ht : '/' ∉ t.toList) (h : t ∈ namespaceAncestors ns) :
    (namespaceAncestors ns).getLast? = some t := by
  induction ns using namespace_induct with
  | empty => cases h
  | top ns hns hslash =>
    rw [namespaceAncestors_top hns hslash, List.mem_singleton] at h
    rw [namespaceAncestors_top hns hslash, h]
    rfl
  | below ns p hbelow ih =>
    rw [namespaceAncestors_below hbelow] at h ⊢
    rcases List.mem_cons.mp h with rfl | h
    · obtain ⟨seg, -, hns⟩ := hbelow
      exact absurd (hns ▸ List.mem_append_right _ List.mem_cons_self) ht
    · rw [List.getLast?_cons, ih h]
      rfl

theorem length_le_of_mem_namespaceAncestors (h : t ∈ namespaceAncestors ns) : t.length ≤ ns.length := by
  by_cases hns : ns = ""
  · subst hns
    cases h
  · rcases (mem_namespaceAncestors hns).mp h with rfl | h
    · exact le_rfl
    · exact h.length_lt.le

theorem nodup_namespaceAncestors (ns : String) : (namespaceAncestors ns).Nodup := by
  induction ns using namespace_induct with
  | empty => exact List.nodup_nil
  | top ns hns hslash =>
    rw [namespaceAncestors_top hns hslash]
    exact List.nodup_singleton ns
  | below ns p hbelow ih =>
    rw [namespaceAncestors_below hbelow]
    exact List.nodup_cons.mpr ⟨fun h => absurd (length_le_of_mem_namespaceAncestors h) (not_le.mpr hbelow.length_lt), ih⟩

end AiMemory
