import AiMemory.Lib.Transitions

/-!
# A worker that answers in batches

Callers put requests into a queue. One worker pulls some of them, works on them together, and sends each caller the answer at the place of
its request. When the worker stops, whoever still waits gets a fallback. How many requests a batch has, and when the worker stops, is left
to the run.

Every request is answered once, or held by a running worker (`accounted_states`). If the work is right for each place of a batch, the
answers of a run are right exactly when the fallback is right for the requests that get it (`answers_iff_meets`).
-/

namespace Batching

/-- Requests `ρ`, answers `α`, and the circumstances `ω` of one piece of work, which may also break down. -/
structure Worker (ρ α ω : Type*) where
  maxBatch : ℕ
  work : ω → List ρ → Option (List α)
  fallback : ρ → α

/-- A request with the number of its caller. -/
abbrev Job (ρ : Type*) := ℕ × ρ

/-- `outbox` is worked on and not yet sent; `answers` is what callers got. -/
structure State (ρ α : Type*) where
  running : Bool := true
  submitted : List (Job ρ) := []
  queue : List (Job ρ) := []
  batch : List (Job ρ) := []
  outbox : List (Job ρ × α) := []
  answers : List (Job ρ × α) := []

inductive Action (ρ ω : Type*) where
  | submit (r : ρ)
  | pull
  | work (w : ω)
  | reply
  | stop

variable {ρ α ω : Type*}

namespace State

def held (s : State ρ α) : List (Job ρ) := s.queue ++ s.batch ++ s.outbox.map Prod.fst

/-- The worker is gone, and every caller that waits gets the fallback. -/
def halt (f : ρ → α) (s : State ρ α) : State ρ α :=
  { s with running := false, queue := [], batch := [], outbox := [], answers := s.answers ++ s.held.map fun j => (j, f j.2) }

end State

namespace Worker

variable (p : Worker ρ α ω)

/-- What an action does; one that is not possible does nothing. A place of the batch without an answer gets the fallback. -/
def step (s : State ρ α) : Action ρ ω → State ρ α
  | .submit r =>
    let job := (s.submitted.length, r)
    if s.running then { s with submitted := s.submitted ++ [job], queue := s.queue ++ [job] }
    else { s with submitted := s.submitted ++ [job], answers := s.answers ++ [(job, p.fallback r)] }
  | .pull =>
    match s.queue with
    | [] => s
    | job :: rest =>
      if s.outbox = [] ∧ (s.batch = [] ∨ s.batch.length < p.maxBatch) then { s with queue := rest, batch := s.batch ++ [job] } else s
  | .work w =>
    if s.batch = [] then s
    else
      match p.work w (s.batch.map Prod.snd) with
      | none => s.halt p.fallback
      | some outs => { s with
          batch := []
          outbox := s.outbox ++ s.batch.zip outs
          answers := s.answers ++ (s.batch.drop outs.length).map fun j => (j, p.fallback j.2) }
  | .reply =>
    match s.outbox with
    | [] => s
    | answer :: rest => { s with outbox := rest, answers := s.answers ++ [answer] }
  | .stop => s.halt p.fallback

/-- Whoever gets the fallback in this step is served by it. -/
def Spared (Q : ρ → α → Prop) (s : State ρ α) : Action ρ ω → Prop
  | .submit r => s.running = false → Q r (p.fallback r)
  | .work w => s.batch ≠ [] →
    match p.work w (s.batch.map Prod.snd) with
    | none => ∀ j ∈ s.held, Q j.2 (p.fallback j.2)
    | some outs => ∀ j ∈ s.batch.drop outs.length, Q j.2 (p.fallback j.2)
  | .stop => ∀ j ∈ s.held, Q j.2 (p.fallback j.2)
  | _ => True

variable {p} {s : State ρ α} {Q : ρ → α → Prop} {as : List (Action ρ ω)}

/-! ## Nobody is lost, and nobody is answered twice -/

/-- Every submitted request is answered or held, once; and a worker that is gone holds none. -/
structure Accounted (s : State ρ α) : Prop where
  once : (s.held ++ s.answers.map Prod.fst).Perm s.submitted
  gone : s.running = false → s.held = []

theorem Accounted.halt (hs : Accounted s) : Accounted (s.halt p.fallback) where
  once := by
    unfold State.halt State.held
    simp only [List.map_nil, List.append_nil, List.nil_append, List.map_append, List.map_map]
    refine List.perm_append_comm.trans (.trans (.of_eq ?_) hs.once)
    unfold State.held
    simp [Function.comp_def]
  gone _ := rfl

theorem once_iff : (s.held ++ s.answers.map Prod.fst).Perm s.submitted ↔
    (s.queue + s.batch + s.outbox.map Prod.fst + s.answers.map Prod.fst : Multiset (Job ρ)) = s.submitted := by
  unfold State.held
  rw [← Multiset.coe_eq_coe]
  simp only [← Multiset.coe_add]

theorem map_fst_zip_eq_take {β γ : Type*} (l : List β) (l' : List γ) : (l.zip l').map Prod.fst = l.take l'.length := by
  induction l generalizing l' with
  | nil => rw [List.zip_nil_left, List.take_nil, List.map_nil]
  | cons x l ih =>
    cases l' with
    | nil => rfl
    | cons y l' => rw [List.zip_cons_cons, List.map_cons, ih, List.length_cons, List.take_succ_cons]

theorem accounted_step (hs : Accounted s) (a : Action ρ ω) : Accounted (p.step s a) := by
  have honce := once_iff.mp hs.once
  unfold step
  cases a with
  | submit r =>
    simp only
    split_ifs with hrun
    · refine ⟨once_iff.mpr ?_, fun hgone => absurd (hrun.symm.trans hgone) (by decide)⟩
      rw [← Multiset.coe_add, ← Multiset.coe_add, ← honce]
      abel
    · have hgone := hs.gone (Bool.eq_false_iff.mpr hrun)
      refine ⟨once_iff.mpr ?_, fun _ => hgone⟩
      rw [List.map_append, ← Multiset.coe_add, ← Multiset.coe_add, ← honce]
      exact (add_assoc _ _ _).symm
  | pull =>
    simp only
    cases hq : s.queue with
    | nil => exact hs
    | cons job rest =>
      split_ifs with hroom
      · rw [hq, ← List.singleton_append, ← Multiset.coe_add] at honce
        refine ⟨once_iff.mpr ?_, fun hgone => ?_⟩
        · rw [← Multiset.coe_add, ← honce]
          abel
        · have hnone := hs.gone hgone
          unfold State.held at hnone
          rw [hq] at hnone
          cases hnone
      · exact hs
  | work w =>
    simp only
    split_ifs with hbatch
    · exact hs
    · cases hw : p.work w (s.batch.map Prod.snd) with
      | none => exact hs.halt
      | some outs =>
        refine ⟨once_iff.mpr ?_, fun hgone => ?_⟩
        · have hsplit : (s.batch : Multiset (Job ρ)) = (s.batch.take outs.length : List _) + (s.batch.drop outs.length : List _) := by
            rw [Multiset.coe_add, List.take_append_drop]
          have hid : (s.batch.drop outs.length).map (Prod.fst ∘ fun j => (j, p.fallback j.2)) = s.batch.drop outs.length :=
            List.map_id _
          rw [hsplit] at honce
          rw [List.map_append, List.map_append, map_fst_zip_eq_take, List.map_map, hid, ← Multiset.coe_add, ← Multiset.coe_add,
            Multiset.coe_nil, ← honce]
          abel
        · have hnone := hs.gone hgone
          unfold State.held at hnone
          rw [List.append_eq_nil_iff, List.append_eq_nil_iff] at hnone
          exact absurd hnone.1.2 hbatch
  | reply =>
    cases ho : s.outbox with
    | nil => exact hs
    | cons answer rest =>
      rw [ho, List.map_cons, ← List.singleton_append, ← Multiset.coe_add] at honce
      refine ⟨once_iff.mpr ?_, fun hgone => ?_⟩
      · rw [List.map_append, List.map_singleton, ← Multiset.coe_add, ← honce]
        abel
      · have hnone := hs.gone hgone
        unfold State.held at hnone
        rw [ho, List.append_eq_nil_iff] at hnone
        cases hnone.2
  | stop => exact hs.halt

/-- In every state of a run each request that was submitted is answered or held by the worker, once. -/
theorem accounted_states (as : List (Action ρ ω)) : ∀ t ∈ Machine.states p.step {} as, Accounted t :=
  Machine.forall_states_of_meets (fun _ a hs _ => accounted_step hs a) ⟨List.Perm.refl _, nofun⟩ Machine.meets_true

/-! ## The answers -/

/-- What was worked out is right, sent or not. -/
def Right (Q : ρ → α → Prop) (s : State ρ α) : Prop := ∀ x ∈ s.answers ++ s.outbox, Q x.1.2 x.2

theorem right_halt_iff (hs : Right Q s) :
    (∀ x ∈ (s.halt p.fallback).answers, Q x.1.2 x.2) ↔ ∀ j ∈ s.held, Q j.2 (p.fallback j.2) := by
  unfold State.halt
  simp only [List.forall_mem_append, List.forall_mem_map]
  exact and_iff_right fun x hx => hs x (List.mem_append_left _ hx)

theorem right_halt (hs : Right Q s) (hheld : ∀ j ∈ s.held, Q j.2 (p.fallback j.2)) : Right Q (s.halt p.fallback) := by
  intro x hx
  rw [show (s.halt p.fallback).outbox = [] from rfl, List.append_nil] at hx
  exact (right_halt_iff hs).mpr hheld x hx

/-- A step that spares whoever it gives the fallback keeps what was worked out right. -/
theorem right_step {a : Action ρ ω}
    (hwork : ∀ w, a = .work w → ∀ rs outs, p.work w rs = some outs → ∀ x ∈ rs.zip outs, Q x.1 x.2) (hs : Right Q s)
    (hspared : p.Spared Q s a) : Right Q (p.step s a) := by
  unfold step
  cases a with
  | submit r =>
    simp only
    split_ifs with hrun
    · exact hs
    · intro x hx
      rw [List.append_assoc, List.mem_append, List.mem_append, List.mem_singleton] at hx
      rcases hx with hx | rfl | hx
      · exact hs x (List.mem_append_left _ hx)
      · exact hspared (Bool.eq_false_iff.mpr hrun)
      · exact hs x (List.mem_append_right _ hx)
  | pull =>
    simp only
    cases s.queue with
    | nil => exact hs
    | cons job rest =>
      split_ifs
      · exact hs
      · exact hs
  | work w =>
    simp only
    split_ifs with hbatch
    · exact hs
    · have hplaces := hspared hbatch
      cases hw : p.work w (s.batch.map Prod.snd) with
      | none =>
        simp only [hw] at hplaces
        exact right_halt hs hplaces
      | some outs =>
        simp only [hw] at hplaces
        intro x hx
        rw [List.mem_append, List.mem_append, List.mem_append] at hx
        rcases hx with (hx | hx) | hx | hx
        · exact hs x (List.mem_append_left _ hx)
        · obtain ⟨j, hj, rfl⟩ := List.mem_map.mp hx
          exact hplaces j hj
        · exact hs x (List.mem_append_right _ hx)
        · have hplace : (x.1.2, x.2) ∈ (s.batch.map Prod.snd).zip outs := by
            rw [List.zip_map_left]
            exact List.mem_map_of_mem hx
          exact hwork w rfl _ _ hw _ hplace
  | reply =>
    cases ho : s.outbox with
    | nil => exact hs
    | cons answer rest =>
      intro x hx
      refine hs x ?_
      rw [ho]
      simpa [or_assoc] using hx
  | stop => exact right_halt hs hspared

theorem not_right_step {a : Action ρ ω} (hs : Right Q s) (hspared : ¬p.Spared Q s a) :
    ¬∀ x ∈ (p.step s a).answers, Q x.1.2 x.2 := by
  intro hall
  refine hspared ?_
  unfold step at hall
  cases a with
  | submit r =>
    intro hgone
    simp only [hgone, Bool.false_eq_true, if_false] at hall
    exact hall ((s.submitted.length, r), p.fallback r) (List.mem_append_right _ List.mem_cons_self)
  | pull => trivial
  | work w =>
    intro hbatch
    simp only [hbatch, if_false] at hall
    cases hw : p.work w (s.batch.map Prod.snd) with
    | none =>
      rw [hw] at hall
      exact (right_halt_iff hs).mp hall
    | some outs =>
      rw [hw] at hall
      exact fun j hj => hall (j, p.fallback j.2) (List.mem_append_right _ (List.mem_map_of_mem hj))
  | reply => trivial
  | stop => exact (right_halt_iff hs).mp hall

/-- Where the work is right for every place of a batch, the answers of a run are right exactly if the fallback is right for everyone who
gets it. -/
theorem answers_iff_meets (as : List (Action ρ ω))
    (hwork : ∀ w, .work w ∈ as → ∀ rs outs, p.work w rs = some outs → ∀ x ∈ rs.zip outs, Q x.1 x.2) (hs : Right Q s) :
    (∀ t ∈ Machine.states p.step s as, ∀ x ∈ t.answers, Q x.1.2 x.2) ↔ Machine.Meets p.step (p.Spared Q) s as := by
  induction as generalizing s with
  | nil =>
    refine iff_of_true (fun t ht x hx => ?_) trivial
    cases List.mem_singleton.mp ht
    exact hs x (List.mem_append_left _ hx)
  | cons a as ih =>
    have hstep : p.Spared Q s a → Right Q (p.step s a) := right_step (fun w hw => hwork w (hw ▸ List.mem_cons_self)) hs
    rw [Machine.states, List.forall_mem_cons, Machine.Meets]
    have hnow : ∀ x ∈ s.answers, Q x.1.2 x.2 := fun x hx => hs x (List.mem_append_left _ hx)
    by_cases hspared : p.Spared Q s a
    · rw [and_iff_right hnow, and_iff_right hspared]
      exact ih (fun w hw => hwork w (List.mem_cons_of_mem a hw)) (hstep hspared)
    · refine iff_of_false (fun hall => ?_) fun hmeets => hspared hmeets.1
      exact not_right_step hs hspared (hall.2 _ Machine.mem_states_self)

end Worker

end Batching
