import Mathlib.Order.Basic
import Mathlib.Data.List.Basic
import Mathlib.Data.Set.Basic
import Mathlib.Tactic

/-!
# Reading a log from a cursor

Entries carry a stamp of a linear order. A reader asks for the entries from its cursor on and moves the cursor to the
greatest stamp it was given. An entry that is inserted behind the cursor is missed for ever (`missed_append_iff`), a read
never adds to what is missed (`missed_read_iff`), and after a read an entry that was not given is a missed one
(`complete_read_iff`).
-/

namespace Cursor

variable {ε κ : Type*} [LinearOrder κ]

/-- A log, and what one reader has seen of it. -/
@[ext] structure Feed (ε κ : Type*) where
  log : List ε
  cursor : κ
  given : Set ε

namespace Feed

variable (stamp : ε → κ) (s : Feed ε κ) (e : ε)

def append : Feed ε κ := { s with log := s.log ++ [e] }

def result : List ε := s.log.filter fun e => s.cursor ≤ stamp e

def read : Feed ε κ where
  log := s.log
  cursor := (s.result stamp).foldl (fun c e => max c (stamp e)) s.cursor
  given := s.given ∪ {e | e ∈ s.result stamp}

/-- An entry behind the cursor that was not given. -/
def Missed : Prop := ∃ e ∈ s.log, e ∉ s.given ∧ stamp e < s.cursor

/-- Every entry was given. -/
def Complete : Prop := ∀ e ∈ s.log, e ∈ s.given

variable {stamp} {s} {e}

theorem mem_result : e ∈ s.result stamp ↔ e ∈ s.log ∧ s.cursor ≤ stamp e := by
  simp [result]

theorem le_foldl_max (es : List ε) (c : κ) :
    c ≤ es.foldl (fun c e => max c (stamp e)) c ∧ ∀ e ∈ es, stamp e ≤ es.foldl (fun c e => max c (stamp e)) c := by
  induction es generalizing c with
  | nil => exact ⟨le_rfl, fun e he => absurd he List.not_mem_nil⟩
  | cons x es ih =>
    obtain ⟨hc, hes⟩ := ih (max c (stamp x))
    refine ⟨(le_max_left c (stamp x)).trans hc, fun e he => ?_⟩
    rcases List.mem_cons.mp he with rfl | he
    · exact (le_max_right c (stamp e)).trans hc
    · exact hes e he

theorem cursor_le_read : s.cursor ≤ (s.read stamp).cursor := (le_foldl_max _ _).1

theorem cursor_read_of_perm {es : List ε} (h : es.Perm (s.result stamp)) :
    es.foldl (fun c e => max c (stamp e)) s.cursor = (s.read stamp).cursor :=
  h.foldl_eq' (fun x _ y _ c => max_right_comm c (stamp x) (stamp y)) s.cursor

theorem given_read (h : ∀ e ∈ s.given, e ∈ s.log) : ∀ e ∈ (s.read stamp).given, e ∈ (s.read stamp).log := by
  rintro e (he | he)
  · exact h e he
  · exact (mem_result.mp he).1

theorem missed_append_iff (hnew : e ∉ s.given) :
    ¬(s.append e).Missed stamp ↔ ¬s.Missed stamp ∧ s.cursor ≤ stamp e := by
  have hmissed : (s.append e).Missed stamp ↔ s.Missed stamp ∨ stamp e < s.cursor := by
    simp only [Missed, append, List.mem_append, List.mem_singleton, or_and_right, exists_or, exists_eq_left]
    rw [and_iff_right hnew]
  rw [hmissed, not_or, not_lt]

theorem missed_read_iff : (s.read stamp).Missed stamp ↔ s.Missed stamp := by
  constructor
  · rintro ⟨e, he, hgiven, -⟩
    have hlt : stamp e < s.cursor := not_le.mp fun hle => hgiven (Or.inr (mem_result.mpr ⟨he, hle⟩))
    exact ⟨e, he, fun hg => hgiven (Or.inl hg), hlt⟩
  · rintro ⟨e, he, hgiven, hlt⟩
    refine ⟨e, he, ?_, hlt.trans_le cursor_le_read⟩
    rintro (hg | hg)
    · exact hgiven hg
    · exact absurd (mem_result.mp hg).2 (not_le.mpr hlt)

/-- After a read, all was given unless something was missed. -/
theorem complete_read_iff : (s.read stamp).Complete ↔ ¬s.Missed stamp := by
  constructor
  · rintro hall ⟨e, he, hgiven, hlt⟩
    rcases hall e he with hg | hg
    · exact hgiven hg
    · exact absurd (mem_result.mp hg).2 (not_le.mpr hlt)
  · intro hmissed e he
    by_contra hgiven
    have hlt : stamp e < s.cursor := not_le.mp fun hle => hgiven (Or.inr (mem_result.mpr ⟨he, hle⟩))
    exact hmissed ⟨e, he, fun hg => hgiven (Or.inl hg), hlt⟩

end Feed

end Cursor
