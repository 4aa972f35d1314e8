import Mathlib.Data.List.Basic
import Mathlib.Logic.Function.Iterate
import Mathlib.Tactic

/-!
# Recursive queries

A recursive query with `UNION ALL` holds its rows in a queue: each row taken from the front is part of the result, and
what the recursive member makes of it goes to the back (`run`). The rows then come level by level (`run_eq_levels`), so
the query ends as soon as one level is empty.

Two queries whose members agree along a map have levels that agree along it (`levels_map`).
-/

namespace Recursion

variable {α β : Type*}

/-- The rows of a recursive query that starts from a queue, or nothing within `fuel` rows. -/
def run (member : α → List α) : ℕ → List α → Option (List α)
  | _, [] => some []
  | 0, _ :: _ => none
  | fuel + 1, a :: queue => (run member fuel (queue ++ member a)).map (a :: ·)

/-- The rows `n` steps away from those of `l`. -/
def level (member : α → List α) (n : ℕ) (l : List α) : List α := (List.flatMap member)^[n] l

/-- The first `n` levels. -/
def levels (member : α → List α) : ℕ → List α → List α
  | 0, _ => []
  | n + 1, l => l ++ levels member n (l.flatMap member)

variable {member : α → List α} {l m : List α} {a : α} {n k : ℕ}

@[simp] theorem level_zero : level member 0 l = l := rfl

theorem level_succ : level member (n + 1) l = level member n (l.flatMap member) := rfl

theorem level_succ' : level member (n + 1) l = (level member n l).flatMap member :=
  Function.iterate_succ_apply' _ n l

theorem run_nil : run member n [] = some [] := by
  cases n <;> rfl

theorem run_append : run member (l.length + n) (l ++ m) = (run member n (m ++ l.flatMap member)).map (l ++ ·) := by
  induction l generalizing m with
  | nil =>
    rw [List.flatMap_nil, List.append_nil, List.nil_append, List.length_nil, Nat.zero_add]
    exact Option.map_id'.symm
  | cons a l ih =>
    have hfuel : (a :: l).length + n = l.length + n + 1 := by rw [List.length_cons]; omega
    rw [hfuel, List.cons_append, run, List.append_assoc, ih, Option.map_map, List.flatMap_cons, List.append_assoc]
    rfl

theorem run_eq_levels (h : level member n l = []) {fuel : ℕ} (hfuel : (levels member n l).length ≤ fuel) :
    run member fuel l = some (levels member n l) := by
  induction n generalizing l fuel with
  | zero =>
    rw [level_zero] at h
    rw [h, run_nil]
    rfl
  | succ n ih =>
    rw [levels, List.length_append] at hfuel
    obtain ⟨rest, rfl⟩ : ∃ rest, fuel = l.length + rest := ⟨fuel - l.length, by omega⟩
    have hrun : run member (l.length + rest) (l ++ []) = (run member rest ([] ++ l.flatMap member)).map (l ++ ·) :=
      run_append
    rw [List.append_nil, List.nil_append] at hrun
    rw [hrun, ih h (by omega)]
    rfl

theorem mem_levels : a ∈ levels member n l ↔ ∃ k < n, a ∈ level member k l := by
  induction n generalizing l with
  | zero => simp [levels]
  | succ n ih =>
    rw [levels, List.mem_append, ih]
    constructor
    · rintro (h | ⟨k, hk, h⟩)
      · exact ⟨0, Nat.succ_pos n, h⟩
      · exact ⟨k + 1, by omega, h⟩
    · rintro ⟨k, hk, h⟩
      cases k with
      | zero => exact Or.inl h
      | succ k => exact Or.inr ⟨k, by omega, h⟩

theorem nodup_levels (hnodup : ∀ k < n, (level member k l).Nodup)
    (hdisjoint : ∀ j k a, j < k → k < n → a ∈ level member j l → a ∉ level member k l) :
    (levels member n l).Nodup := by
  induction n generalizing l with
  | zero => exact List.nodup_nil
  | succ n ih =>
    have hrest : (levels member n (l.flatMap member)).Nodup := by
      refine ih (fun k hk => hnodup (k + 1) (by omega)) fun j k a hjk hk hj => ?_
      exact hdisjoint (j + 1) (k + 1) a (by omega) (by omega) hj
    refine List.Nodup.append (hnodup 0 (Nat.succ_pos n)) hrest fun a ha hrest => ?_
    obtain ⟨k, hk, hlevel⟩ := mem_levels.mp hrest
    exact hdisjoint 0 (k + 1) a (Nat.succ_pos k) (by omega) ha hlevel

theorem mem_level_filter {ok : α → Bool} {P : α → Prop} (hl : ∀ a ∈ l, P a)
    (hstep : ∀ a, ∀ b ∈ member a, (P b ↔ P a ∧ ok b = true)) :
    a ∈ level (fun a => (member a).filter ok) n l ↔ a ∈ level member n l ∧ P a := by
  induction n generalizing a with
  | zero => exact (and_iff_left_of_imp (hl a)).symm
  | succ n ih =>
    simp only [level_succ', List.mem_flatMap, List.mem_filter]
    constructor
    · rintro ⟨b, hb, hab, hok⟩
      obtain ⟨hb, hP⟩ := ih.mp hb
      exact ⟨⟨b, hb, hab⟩, (hstep b a hab).mpr ⟨hP, hok⟩⟩
    · rintro ⟨⟨b, hb, hab⟩, hP⟩
      obtain ⟨hPb, hok⟩ := (hstep b a hab).mp hP
      exact ⟨b, ih.mpr ⟨hb, hPb⟩, hab, hok⟩

theorem mem_levels_filter {ok : α → Bool} {P : α → Prop} (hl : ∀ a ∈ l, P a)
    (hstep : ∀ a, ∀ b ∈ member a, (P b ↔ P a ∧ ok b = true)) :
    a ∈ levels (fun a => (member a).filter ok) n l ↔ a ∈ levels member n l ∧ P a := by
  simp only [mem_levels, mem_level_filter hl hstep, ← and_assoc, ← exists_and_right]

section Map

variable {member' : β → List β} {f : α → β}

theorem flatMap_map (h : ∀ a, member' (f a) = (member a).map f) :
    (l.map f).flatMap member' = (l.flatMap member).map f := by
  rw [List.flatMap_map, List.map_flatMap]
  exact congrArg l.flatMap (funext h)

theorem level_map (h : ∀ a, member' (f a) = (member a).map f) : level member' n (l.map f) = (level member n l).map f := by
  induction n generalizing l with
  | zero => rfl
  | succ n ih => rw [level_succ, flatMap_map h, ih, level_succ]

theorem levels_map (h : ∀ a, member' (f a) = (member a).map f) :
    levels member' n (l.map f) = (levels member n l).map f := by
  induction n generalizing l with
  | zero => rfl
  | succ n ih => rw [levels, flatMap_map h, ih, levels, List.map_append]

end Map

end Recursion
