import Mathlib.Data.List.Nodup
import Mathlib.Data.List.Sort
import Mathlib.Data.List.TakeWhile
import Mathlib.Tactic

/-!
# Ranked lists

The members of a ranked list have different keys. `before` lists what stands before a key, so the member is among the
first `k` if less than `k` others stand before it (`mem_take_iff`). Where a filter comes before the cut, only those that
pass it count (`mem_take_filter_iff`).

`arrange` sorts by falling score and settles ties by a fixed order of the keys, so the result depends on nothing but
the members (`arrange_congr`). `firsts` keeps the first member of each key (`mem_firsts_iff`). Core's `mergeSort` keeps the
order of members that are tied (`filter_mergeSort`).
-/

namespace Ranking

variable {α κ σ : Type*}

/-! ## The first `k` -/

section Cut

variable {key : α → κ} {l : List α} {a x : α} {p : α → Bool} {k : ℕ}

theorem eq_or_ne (hnodup : ((x :: l).map key).Nodup) (ha : a ∈ x :: l) : a = x ∨ a ∈ l ∧ key x ≠ key a := by
  rw [List.map_cons, List.nodup_cons] at hnodup
  rcases List.mem_cons.mp ha with ha | ha
  · exact Or.inl ha
  · exact Or.inr ⟨ha, fun hkey => hnodup.1 (hkey ▸ List.mem_map_of_mem ha)⟩

/-- What a cut leaves out comes after all that it keeps, and these are as many as it may keep. -/
theorem mem_take_or {r : α → α → Prop} (hranked : l.Pairwise r) (ha : a ∈ l) :
    a ∈ l.take k ∨ (l.take k).length = k ∧ ∀ x ∈ l.take k, r x a := by
  rw [← List.take_append_drop k l] at ha hranked
  refine (List.mem_append.mp ha).imp id fun hdrop => ⟨?_, fun x hx => (List.pairwise_append.mp hranked).2.2 x hx a hdrop⟩
  have hpos := List.length_pos_of_mem hdrop
  rw [List.length_drop] at hpos
  rw [List.length_take]
  omega

variable [DecidableEq κ]

def before (key : α → κ) (l : List α) (b : κ) : List α := l.takeWhile fun a => key a ≠ b

theorem before_cons_self : before key (a :: l) (key a) = [] := by
  rw [before, List.takeWhile_cons_of_neg (by simp)]

theorem before_cons_of_ne (h : key x ≠ key a) : before key (x :: l) (key a) = x :: before key l (key a) := by
  rw [before, List.takeWhile_cons_of_pos (by simpa using h)]
  rfl

/-- A member is among the first `k` if less than `k` stand before it. -/
theorem mem_take_iff (hnodup : (l.map key).Nodup) (ha : a ∈ l) :
    a ∈ l.take k ↔ (before key l (key a)).length < k := by
  induction l generalizing k with
  | nil => cases ha
  | cons x l ih =>
    cases k with
    | zero => simp
    | succ k =>
      rcases eq_or_ne hnodup ha with rfl | ⟨ha, hne⟩
      · simp [before_cons_self]
      · have hax : a ≠ x := fun h => hne (h ▸ rfl)
        rw [before_cons_of_ne hne, List.length_cons, Nat.add_lt_add_iff_right, List.take_succ_cons, List.mem_cons,
          or_iff_right hax]
        exact ih (List.nodup_cons.mp hnodup).2 ha

theorem before_filter (hnodup : (l.map key).Nodup) (ha : a ∈ l) (hp : p a = true) :
    before key (l.filter p) (key a) = (before key l (key a)).filter p := by
  induction l with
  | nil => cases ha
  | cons x l ih =>
    rcases eq_or_ne hnodup ha with rfl | ⟨ha, hne⟩
    · rw [List.filter_cons_of_pos hp, before_cons_self, before_cons_self, List.filter_nil]
    · have htail := ih (List.nodup_cons.mp hnodup).2 ha
      rw [before_cons_of_ne hne]
      by_cases hx : p x = true
      · rw [List.filter_cons_of_pos hx, List.filter_cons_of_pos hx, before_cons_of_ne hne, htail]
      · rw [List.filter_cons_of_neg hx, List.filter_cons_of_neg hx, htail]

/-- A member is among the first `k` that pass if it passes, and less than `k` that pass stand before it. -/
theorem mem_take_filter_iff (hnodup : (l.map key).Nodup) (ha : a ∈ l) :
    a ∈ (l.filter p).take k ↔ ((before key l (key a)).filter p).length < k ∧ p a = true := by
  by_cases hp : p a = true
  · have hnodup' : ((l.filter p).map key).Nodup := hnodup.sublist (List.filter_sublist.map key)
    rw [mem_take_iff hnodup' (List.mem_filter.mpr ⟨ha, hp⟩), before_filter hnodup ha hp, and_iff_left hp]
  · exact ⟨fun h => absurd (List.mem_filter.mp (List.mem_of_mem_take h)).2 hp, fun h => absurd h.2 hp⟩

end Cut

/-! ## Sorting -/

/-- A linear order of the keys. -/
structure Ties (κ : Type*) where
  le : κ → κ → Bool
  total : ∀ a b, le a b = true ∨ le b a = true
  trans : ∀ a b c, le a b = true → le b c = true → le a c = true
  antisymm : ∀ a b, le a b = true → le b a = true → a = b

def Ties.ofLinearOrder (κ : Type*) [LinearOrder κ] : Ties κ where
  le a b := a ≤ b
  total a b := by simpa using le_total a b
  trans a b c := by simpa using le_trans
  antisymm a b := by simpa using le_antisymm

section Arrange

variable (ties : Ties κ) (key : α → κ) (score : α → σ)

def inOrder (l : List α) : List α := l.insertionSort fun a b => ties.le (key a) (key b) = true

/-- The members by falling score, and of equal scores in the order of the keys. -/
def arrange [LinearOrder σ] (l : List α) : List α := (inOrder ties key l).insertionSort fun a b => score b ≤ score a

variable {ties key score} {l m : List α} {a : α}

@[simp] theorem mem_inOrder : a ∈ inOrder ties key l ↔ a ∈ l := List.mem_insertionSort _

@[simp] theorem mem_arrange [LinearOrder σ] : a ∈ arrange ties key score l ↔ a ∈ l :=
  (List.mem_insertionSort _).trans mem_inOrder

theorem pairwise_inOrder : (inOrder ties key l).Pairwise fun a b => ties.le (key a) (key b) = true := by
  have : Std.Total fun a b : α => ties.le (key a) (key b) = true := ⟨fun a b => ties.total _ _⟩
  have : IsTrans α fun a b => ties.le (key a) (key b) = true := ⟨fun a b c => ties.trans _ _ _⟩
  exact List.pairwise_insertionSort _ l

theorem inOrder_congr (hl : (l.map key).Nodup) (hm : (m.map key).Nodup) (h : ∀ a, a ∈ l ↔ a ∈ m) :
    inOrder ties key l = inOrder ties key m := by
  have hperm : l.Perm m := (List.perm_ext_iff_of_nodup (List.Nodup.of_map key hl) (List.Nodup.of_map key hm)).mpr h
  refine List.Perm.eq_of_pairwise (fun a b ha hb hab hba => ?_) pairwise_inOrder pairwise_inOrder
    ((List.perm_insertionSort _ l).trans (hperm.trans (List.perm_insertionSort _ m).symm))
  have hbl : b ∈ l := (h b).mpr (mem_inOrder.mp hb)
  exact List.inj_on_of_nodup_map hl (mem_inOrder.mp ha) hbl (ties.antisymm _ _ hab hba)

theorem arrange_congr [LinearOrder σ] {score' : α → σ} (hl : (l.map key).Nodup) (hm : (m.map key).Nodup)
    (h : ∀ a, a ∈ l ↔ a ∈ m) (hscore : ∀ a ∈ l, score a = score' a) :
    arrange ties key score l = arrange ties key score' m := by
  rw [arrange, arrange, ← inOrder_congr hl hm h]
  have hmap := List.map_insertionSort (fun a b => score b ≤ score a) (fun a b => score' b ≤ score' a) id
    (inOrder ties key l) fun a ha b hb => by
      rw [id, id, hscore a (mem_inOrder.mp ha), hscore b (mem_inOrder.mp hb)]
  rwa [List.map_id, List.map_id] at hmap

theorem nodup_arrange [LinearOrder σ] (hl : (l.map key).Nodup) : ((arrange ties key score l).map key).Nodup :=
  (((List.perm_insertionSort _ _).trans (List.perm_insertionSort _ l)).map key).nodup_iff.mpr hl

end Arrange

/-! ## The first of each key -/

section Firsts

variable [DecidableEq κ] (key : α → κ)

/-- The members whose key was not seen before, here or in `seen`. -/
def firsts : List κ → List α → List α
  | _, [] => []
  | seen, a :: l => if key a ∈ seen then firsts seen l else a :: firsts (key a :: seen) l

variable {key} {seen : List κ} {l : List α} {a : α}

theorem mem_firsts_iff : a ∈ firsts key seen l ↔ key a ∉ seen ∧ l.find? (fun b => key b = key a) = some a := by
  induction l generalizing seen with
  | nil => simp [firsts]
  | cons x l ih =>
    rw [firsts, List.find?_cons]
    by_cases hkey : key x = key a
    · -- the head has the key, so it is the first
      by_cases hseen : key a ∈ seen
      · simp [hkey, hseen, ih]
      · simp [hkey, hseen, ih, eq_comm]
    · by_cases hseen : key x ∈ seen
      · simp [hkey, hseen, ih]
      · have hax : a ≠ x := fun h => hkey (h ▸ rfl)
        simp [hkey, hseen, ih, hax, Ne.symm hkey]

theorem nodup_firsts : ((firsts key seen l).map key).Nodup := by
  induction l generalizing seen with
  | nil => exact List.nodup_nil
  | cons x l ih =>
    rw [firsts]
    split_ifs with hseen
    · exact ih
    · rw [List.map_cons, List.nodup_cons]
      refine ⟨fun hmem => ?_, ih⟩
      obtain ⟨y, hy, hkey⟩ := List.mem_map.mp hmem
      exact (mem_firsts_iff.mp hy).1 (hkey ▸ List.mem_cons_self)

theorem length_firsts_le : (firsts key seen l).length ≤ l.length := by
  induction l generalizing seen with
  | nil => exact le_rfl
  | cons x l ih =>
    rw [firsts]
    split_ifs
    · exact ih.trans (Nat.le_succ _)
    · exact Nat.succ_le_succ ih

theorem le_of_find? [Preorder σ] {score : α → σ} {p : α → Bool} {b : α} (hl : l.Pairwise fun a b => score a ≤ score b)
    (ha : l.find? p = some a) (hb : b ∈ l) (hp : p b = true) : score a ≤ score b := by
  induction l with
  | nil => cases hb
  | cons x l ih =>
    rw [List.pairwise_cons] at hl
    rw [List.find?_cons] at ha
    cases hx : p x with
    | true =>
      rw [hx] at ha
      cases ha
      rcases List.mem_cons.mp hb with rfl | hb
      · exact le_rfl
      · exact hl.1 b hb
    | false =>
      rw [hx] at ha
      rcases List.mem_cons.mp hb with rfl | hb
      · rw [hp] at hx
        cases hx
      · exact ih hl.2 ha hb

end Firsts

/-! ## Stable sorts -/

theorem filter_mergeSort {le : α → α → Bool} {p : α → Bool} {l : List α} (htrans : ∀ a b c, le a b → le b c → le a c)
    (htotal : ∀ a b, le a b || le b a) (htied : ∀ a b, p a → p b → le a b) :
    (l.mergeSort le).filter p = l.filter p := by
  have hsorted : (l.filter p).Pairwise fun a b => le a b = true := by
    refine List.pairwise_of_forall_mem_list fun a ha b hb => ?_
    exact htied a b (List.mem_filter.mp ha).2 (List.mem_filter.mp hb).2
  have hsub : (l.filter p).Sublist (l.mergeSort le) := List.sublist_mergeSort htrans htotal hsorted List.filter_sublist
  have hsub' : (l.filter p).Sublist ((l.mergeSort le).filter p) := by
    simpa [List.filter_filter] using hsub.filter p
  refine (hsub'.eq_of_length ?_).symm
  exact ((List.mergeSort_perm l le).filter p).length_eq.symm

end Ranking
