import Mathlib.Data.List.Intervals
import Mathlib.Tactic

/-!
# Following a log that grows

A follower polls the number of records, and where it has grown it reads what lies behind its mark, to the end of the log as
it is by then, and moves the mark to the number it polled. What is written between a poll and its read is given again by the
next read. A record is given once for the mark that passes it and once more if it was written in such a gap
(`times_run`), and where there are no such records the follower gives each record behind its first mark once, in order
(`given_run`).
-/

namespace Tail

inductive Phase where
  | idle
  | found (size : ℕ)
  deriving DecidableEq

/-- A log of which only the length matters, and what one follower was given of it, as spans. -/
structure Follower where
  count : ℕ
  mark : ℕ
  phase : Phase
  given : List (ℕ × ℕ)

inductive Event where
  | grow (n : ℕ)
  | poll
  | read

namespace Follower

def step (s : Follower) : Event → Follower
  | .grow n => { s with count := s.count + n }
  | .poll =>
    match s.phase with
    | .idle => if s.mark < s.count then { s with phase := .found s.count } else s
    | .found _ => s
  | .read =>
    match s.phase with
    | .idle => s
    | .found size =>
      { s with
        mark := size
        phase := .idle
        given := s.given ++ [(s.mark, s.count)] }

def run (s : Follower) (es : List Event) : Follower := es.foldl step s

def begun (count mark : ℕ) : Follower where
  count := count
  mark := mark
  phase := .idle
  given := []

end Follower

def times (given : List (ℕ × ℕ)) (i : ℕ) : ℕ := given.countP fun span => span.1 ≤ i ∧ i < span.2

/-- The record was written after a poll and before its read. -/
def Raced (s : Follower) (es : List Event) (i : ℕ) : Prop :=
  ∃ es₁ es₂, es = es₁ ++ .read :: es₂ ∧
    ∃ size, (s.run es₁).phase = .found size ∧ size ≤ i ∧ i < (s.run es₁).count

variable {s : Follower} {es : List Event} {e : Event} {i : ℕ}

@[simp] theorem run_nil : s.run [] = s := rfl

theorem run_append_one : s.run (es ++ [e]) = (s.run es).step e := List.foldl_concat ..

theorem step_poll : s.step .poll = { s with phase := (s.step .poll).phase } := by
  obtain ⟨count, mark, phase, given⟩ := s
  cases phase with
  | idle =>
    by_cases hgrown : mark < count
    · simp only [Follower.step, if_pos hgrown]
    · simp only [Follower.step, if_neg hgrown]
  | found size => rfl

theorem phase_poll {size : ℕ} (h : (s.step .poll).phase = .found size) : s.count = size ∨ s.phase = .found size := by
  cases hphase : s.phase with
  | idle =>
    by_cases hgrown : s.mark < s.count
    · simp only [Follower.step, hphase, if_pos hgrown] at h
      exact .inl (Phase.found.inj h)
    · simp only [Follower.step, hphase, if_neg hgrown] at h
      exact .inr h
  | found n =>
    simp only [Follower.step, hphase] at h
    exact .inr h

theorem times_append_one (given : List (ℕ × ℕ)) (a b : ℕ) :
    times (given ++ [(a, b)]) i = times given i + if a ≤ i ∧ i < b then 1 else 0 := by
  rw [times, List.countP_append, List.countP_singleton]
  simp only [times, decide_eq_true_eq]

theorem not_raced_nil : ¬Raced s [] i := by
  rintro ⟨es₁, es₂, h, -⟩
  simp at h

theorem exists_split_append_one {α : Type*} {P : List α → Prop} {l : List α} {a x : α} :
    (∃ l₁ l₂, l ++ [a] = l₁ ++ x :: l₂ ∧ P l₁) ↔ (∃ l₁ l₂, l = l₁ ++ x :: l₂ ∧ P l₁) ∨ a = x ∧ P l := by
  constructor
  · rintro ⟨l₁, l₂, h, hP⟩
    induction l₂ using List.reverseRecOn with
    | nil =>
      obtain ⟨rfl, hlast⟩ := List.append_inj' h rfl
      exact .inr ⟨List.singleton_inj.mp hlast, hP⟩
    | append_singleton l₂ y _ =>
      rw [← List.cons_append, ← List.append_assoc] at h
      exact .inl ⟨l₁, l₂, (List.append_inj' h rfl).1, hP⟩
  · rintro (⟨l₁, l₂, rfl, hP⟩ | ⟨rfl, hP⟩)
    · exact ⟨l₁, l₂ ++ [a], by simp, hP⟩
    · exact ⟨l, [], rfl, hP⟩

/-- A record is raced by what came before, or by the last event, which is then a read. -/
theorem raced_append_one : Raced s (es ++ [e]) i ↔
    Raced s es i ∨ e = .read ∧ ∃ size, (s.run es).phase = .found size ∧ size ≤ i ∧ i < (s.run es).count :=
  exists_split_append_one

open scoped Classical in
/-- What holds of a follower that began at a mark. Of the records behind its own mark it was given those that its last read
raced, up to `high`, and these it saw when it polled. -/
structure Stands (start : Follower) (es : List Event) (high : ℕ) : Prop where
  mark_le : start.mark ≤ (start.run es).mark
  mark_high : (start.run es).mark ≤ high
  high_le : high ≤ (start.run es).count
  found : ∀ size, (start.run es).phase = .found size → high ≤ size ∧ size ≤ (start.run es).count
  raced : ∀ i, (start.run es).mark ≤ i → (Raced start es i ↔ i < high)
  fresh : ∀ i, i < start.mark → ¬Raced start es i
  times : ∀ i, times (start.run es).given i =
    (if start.mark ≤ i ∧ i < (start.run es).mark then 1 else 0) + if Raced start es i then 1 else 0

variable {count mark : ℕ}

theorem stands_begun (h : mark ≤ count) : Stands (.begun count mark) [] mark where
  mark_le := le_rfl
  mark_high := le_rfl
  high_le := h
  found size hsize := Phase.noConfusion hsize
  raced i hi := iff_of_false not_raced_nil hi.not_gt
  fresh i _ := not_raced_nil
  times i := by
    rw [if_neg not_raced_nil, if_neg]
    · rfl
    · exact fun h => h.1.not_gt h.2

theorem count_le_step (s : Follower) (e : Event) : s.count ≤ (s.step e).count := by
  cases e with
  | grow n => exact Nat.le_add_right _ _
  | poll => rw [step_poll]
  | read =>
    cases hphase : s.phase with
    | idle => rw [Follower.step, hphase]
    | found size => rw [Follower.step, hphase]

theorem lt_count_of_raced (h : Raced s es i) : i < (s.run es).count := by
  induction es using List.reverseRecOn with
  | nil => exact absurd h not_raced_nil
  | append_singleton es e ih =>
    rw [run_append_one]
    refine lt_of_lt_of_le ?_ (count_le_step _ e)
    obtain h | ⟨-, size, -, -, hlt⟩ := raced_append_one.mp h
    · exact ih h
    · exact hlt

section Step

open scoped Classical

variable {start : Follower} {high : ℕ}

/-- An event that gives nothing. -/
theorem Stands.quiet (h : Stands start es high) (hread : e = .read → (start.run es).phase = .idle)
    (hmark : (start.run (es ++ [e])).mark = (start.run es).mark)
    (hgiven : (start.run (es ++ [e])).given = (start.run es).given)
    (hcount : (start.run es).count ≤ (start.run (es ++ [e])).count)
    (hfound : ∀ size, (start.run (es ++ [e])).phase = .found size → high ≤ size ∧ size ≤ (start.run (es ++ [e])).count) :
    Stands start (es ++ [e]) high := by
  have hraced : ∀ i, Raced start (es ++ [e]) i ↔ Raced start es i := by
    intro i
    rw [raced_append_one, or_iff_left]
    rintro ⟨rfl, size, hphase, -⟩
    rw [hread rfl] at hphase
    exact Phase.noConfusion hphase
  refine ⟨?_, ?_, h.high_le.trans hcount, hfound, fun i hi => ?_, fun i hi => ?_, fun i => ?_⟩
  · rw [hmark]
    exact h.mark_le
  · rw [hmark]
    exact h.mark_high
  · rw [hmark] at hi
    rw [hraced]
    exact h.raced i hi
  · rw [hraced]
    exact h.fresh i hi
  · rw [hgiven, hmark, h.times i]
    simp only [hraced]

/-- A read that a poll called for. -/
theorem Stands.read (h : Stands start es high) {size : ℕ} (hphase : (start.run es).phase = .found size) :
    Stands start (es ++ [.read]) (start.run es).count := by
  obtain ⟨hhigh, hsize⟩ := h.found size hphase
  have hmark := h.mark_high
  have hle := h.mark_le
  have hstep : start.run (es ++ [.read]) =
      { start.run es with
        mark := size
        phase := .idle
        given := (start.run es).given ++ [((start.run es).mark, (start.run es).count)] } := by
    rw [run_append_one, Follower.step, hphase]
  have hraced : ∀ i, Raced start (es ++ [.read]) i ↔ Raced start es i ∨ size ≤ i ∧ i < (start.run es).count := by
    intro i
    rw [raced_append_one, hphase]
    simp
  rw [show (start.run es).count = (start.run (es ++ [.read])).count by rw [hstep]]
  constructor
  · rw [hstep]
    dsimp only
    omega
  · rw [hstep]
    exact hsize
  · exact le_rfl
  · intro n hn
    rw [hstep] at hn
    exact Phase.noConfusion hn
  · intro i hi
    rw [hstep] at hi ⊢
    dsimp only at hi ⊢
    rw [hraced, h.raced i (by omega)]
    omega
  · intro i hi
    rw [hraced, or_iff_right (h.fresh i hi)]
    omega
  · intro i
    rw [hstep]
    rw [times_append_one, h.times i]
    simp only [hraced]
    by_cases hi : i < (start.run es).mark
    · have hpast : ¬(size ≤ i ∧ i < (start.run es).count) := by omega
      simp only [hpast, or_false]
      split_ifs <;> omega
    · simp only [h.raced i (by omega)]
      split_ifs <;> omega

end Step

theorem stands_run (h : mark ≤ count) (es : List Event) : ∃ high, Stands (.begun count mark) es high := by
  induction es using List.reverseRecOn with
  | nil => exact ⟨mark, stands_begun h⟩
  | append_singleton es e ih =>
    obtain ⟨high, ih⟩ := ih
    have hhigh := ih.high_le
    cases e with
    | grow n =>
      refine ⟨high, ih.quiet Event.noConfusion ?_ ?_ ?_ ?_⟩ <;> rw [run_append_one]
      · rfl
      · rfl
      · exact Nat.le_add_right _ _
      · intro size hsize
        obtain ⟨hle, hsize⟩ := ih.found size hsize
        exact ⟨hle, hsize.trans (Nat.le_add_right _ _)⟩
    | poll =>
      refine ⟨high, ih.quiet Event.noConfusion ?_ ?_ ?_ ?_⟩ <;> rw [run_append_one, step_poll]
      intro size hsize
      obtain rfl | hsize := phase_poll hsize
      · exact ⟨hhigh, le_rfl⟩
      · exact ih.found size hsize
    | read =>
      cases hphase : ((Follower.begun count mark).run es).phase with
      | idle =>
        have hstep : (Follower.begun count mark).run (es ++ [.read]) = (Follower.begun count mark).run es := by
          rw [run_append_one, Follower.step, hphase]
        refine ⟨high, ih.quiet (fun _ => hphase) ?_ ?_ ?_ ?_⟩ <;> rw [hstep]
        exact ih.found
      | found size => exact ⟨_, ih.read hphase⟩

open scoped Classical in
/-- Every record behind the first mark is given once when the mark passes it, and once more if it was raced. -/
theorem times_run (h : mark ≤ count) (es : List Event) (i : ℕ) :
    times ((Follower.begun count mark).run es).given i =
      (if mark ≤ i ∧ i < ((Follower.begun count mark).run es).mark then 1 else 0) +
        if Raced (.begun count mark) es i then 1 else 0 := by
  obtain ⟨high, h⟩ := stands_run h es
  exact h.times i

/-- Where nothing is raced, the records from the first mark to the present one are given, in order. -/
theorem given_run (h : mark ≤ count) (es : List Event) (hraced : ∀ i, ¬Raced (.begun count mark) es i) :
    ((Follower.begun count mark).run es).given.flatMap (fun span => List.Ico span.1 span.2) =
      List.Ico mark ((Follower.begun count mark).run es).mark := by
  induction es using List.reverseRecOn with
  | nil => exact (List.Ico.self_empty (n := mark)).symm
  | append_singleton es e ih =>
    have ih := ih fun i hi => hraced i (raced_append_one.mpr (.inl hi))
    rw [run_append_one]
    cases e with
    | grow n => exact ih
    | poll =>
      rw [step_poll]
      exact ih
    | read =>
      cases hphase : ((Follower.begun count mark).run es).phase with
      | idle =>
        rw [Follower.step, hphase]
        exact ih
      | found size =>
        obtain ⟨high, hstands⟩ := stands_run h es
        obtain ⟨hhigh, hsize⟩ := hstands.found size hphase
        have hall : size = ((Follower.begun count mark).run es).count := by
          refine hsize.antisymm (not_lt.mp fun hlt =>
            hraced size (raced_append_one.mpr (.inr ⟨rfl, size, hphase, le_rfl, hlt⟩)))
        rw [Follower.step, hphase]
        rw [List.flatMap_append, ih, List.flatMap_singleton, ← hall]
        exact List.Ico.append_consecutive hstands.mark_le (hstands.mark_high.trans hhigh)

end Tail
