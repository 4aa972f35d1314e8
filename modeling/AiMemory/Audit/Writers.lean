import AiMemory.Audit.Chain
import AiMemory.Lib.Transitions

/-!
# Processes that append to one log

Processes initialise and append to one file; an append goes through whole or not at all. A state keeps, beside the file,
the events that were appended, how many calls returned `Ok`, and how long the log was when a process last read or wrote it.

As long as a process appends only where nobody has since it last looked, the events stay linked (`linked_step`).
-/

namespace AiMemory.Audit

open HashChain Machine

/-- The file and the processes. -/
structure State (π : Type) where
  file : Option String
  process : π → Process
  written : List AuditEvent
  returnedOk : ℕ
  lookedAt : π → ℕ

/-- What a process does. -/
inductive Op (π : Type) where
  | init (p : π)
  | tryEmit (p : π) (builder : EventBuilder) (now : String) (writes : Bool)

variable {π : Type} [DecidableEq π] (K : Crates)

def State.start : State π := ⟨none, fun _ => Process.disabled, [], 0, fun _ => 0⟩

/-- The event an operation appends. -/
def appended (s : State π) : Op π → Option AuditEvent
  | .tryEmit p b now true => (s.process p).lastHash.map fun h => buildEvent K b now h ((s.process p).sequence + 1)
  | _ => none

def step (s : State π) (o : Op π) : State π :=
  match o with
  | .init p =>
    { s with
      file := (init K s.file).2
      process := Function.update s.process p (init K s.file).1
      lookedAt := Function.update s.lookedAt p s.written.length }
  | .tryEmit p b now writes =>
    let r := tryEmit K (s.process p) s.file b now writes
    { file := r.2.1
      process := Function.update s.process p r.1
      written := s.written ++ (appended K s o).toList
      returnedOk := if r.2.2.toOption.isSome then s.returnedOk + 1 else s.returnedOk
      lookedAt :=
        if (appended K s o).isSome then Function.update s.lookedAt p (s.written.length + 1) else s.lookedAt }

/-- The process that appends has seen the last line. -/
def Current (s : State π) : Op π → Prop
  | .tryEmit p _ _ true => s.lookedAt p = s.written.length
  | _ => True

variable {K} {s : State π} {o : Op π} {p : π} {b : EventBuilder} {now : String} {writes : Bool} {ops : List (Op π)}

@[simp] theorem buildEvent_prevHash {h : String} {q : UInt64} : (buildEvent K b now h q).prevHash = h := rfl

@[simp] theorem buildEvent_sequence {h : String} {q : UInt64} : (buildEvent K b now h q).sequence = q := rfl

/-! ## One call -/

section Calls

variable {last : String}

theorem step_disabled (h : (s.process p).lastHash = none) :
    step K s (.tryEmit p b now writes) = { s with returnedOk := s.returnedOk + 1 } := by
  have hnone : appended K s (.tryEmit p b now writes) = none := by cases writes <;> simp [appended, h]
  simp [step, hnone, tryEmit, h, Except.toOption]

theorem step_failed (h : (s.process p).lastHash = some last) : step K s (.tryEmit p b now false) =
    { s with process := Function.update s.process p ⟨some last, (s.process p).sequence + 1⟩ } := by
  simp [step, appended, tryEmit, h, Except.toOption]

theorem step_append (h : (s.process p).lastHash = some last) :
    let ev := buildEvent K b now last ((s.process p).sequence + 1)
    step K s (.tryEmit p b now true) =
      { file := some (s.file.getD "" ++ K.toJson ev ++ "\n")
        process := Function.update s.process p ⟨some ev.selfHash, ev.sequence⟩
        written := s.written ++ [ev]
        returnedOk := s.returnedOk + 1
        lookedAt := Function.update s.lookedAt p (s.written.length + 1) } := by
  simp [step, appended, tryEmit, h, Except.toOption]

end Calls

/-- Every operation leaves the written events, or appends one. -/
theorem written_step : (step K s o).written = s.written ++ (appended K s o).toList := by
  cases o with
  | init p => exact (List.append_nil _).symm
  | tryEmit p b now writes => rfl

theorem written_prefix_foldl : s.written <+: (ops.foldl (step K) s).written := by
  induction ops generalizing s with
  | nil => exact List.prefix_rfl
  | cons o ops ih =>
    have hstep : s.written <+: (step K s o).written := ⟨_, written_step.symm⟩
    exact hstep.trans ih

/-- A property of all written events of a run holds of those written in each of its states. -/
theorem forall_written {P : AuditEvent → Prop} (h : ∀ ev ∈ (ops.foldl (step K) s).written, P ev) :
    ∀ t ∈ states (step K) s ops, ∀ ev ∈ t.written, P ev := by
  intro t ht ev hev
  obtain ⟨first, ⟨rest, rfl⟩, rfl⟩ := mem_states_iff.mp ht
  rw [List.foldl_append] at h
  exact h ev (written_prefix_foldl.subset hev)

/-! ## The file and what was written -/

/-- The file is what was written, by its own hashes. -/
structure Filed (K : Crates) (s : State π) : Prop where
  rendered : s.file.getD "" = render K s.written
  opened : s.file = none → s.written = []
  hashed : ∀ ev ∈ s.written, computeSelfHash K ev = ev.selfHash

/-- A process that looked last has the last line's hash. -/
structure Seen (s : State π) : Prop where
  bound : ∀ p, s.lookedAt p ≤ s.written.length
  tip : ∀ p h, (s.process p).lastHash = some h → s.lookedAt p = s.written.length → h = chainTip s.written

omit [DecidableEq π] in
theorem filed_start : Filed K (State.start : State π) := ⟨rfl, fun _ => rfl, fun _ h => absurd h List.not_mem_nil⟩

omit [DecidableEq π] in
theorem seen_start : Seen (State.start : State π) := ⟨fun _ => le_rfl, fun _ _ h => nomatch h⟩

theorem filed_step (h : Filed K s) : Filed K (step K s o) := by
  cases o with
  | init p => exact ⟨h.rendered, nofun, h.hashed⟩
  | tryEmit p b now writes =>
    cases hlast : (s.process p).lastHash with
    | none =>
      rw [step_disabled hlast]
      exact ⟨h.rendered, h.opened, h.hashed⟩
    | some last =>
      cases writes with
      | false =>
        rw [step_failed hlast]
        exact ⟨h.rendered, h.opened, h.hashed⟩
      | true =>
        rw [step_append hlast]
        refine ⟨?_, nofun, ?_⟩
        · rw [Option.getD_some, render_concat, h.rendered]
        · intro ev hev
          rcases List.mem_append.mp hev with hev | hev
          · exact h.hashed ev hev
          · rw [List.mem_singleton.mp hev]
            rfl

omit [DecidableEq π] in
theorem Filed.file_eq (h : Filed K s) {text : String} (hfile : s.file = some text) : text = render K s.written := by
  rw [← h.rendered, hfile, Option.getD_some]

omit [DecidableEq π] in
theorem readChainTail_eq (h : Filed K s) (hread : ∀ ev ∈ s.written, Readable K ev) :
    (readChainTail K s.file).getD chainHeadPrevHash = chainTip s.written := by
  rw [chainTip, tip_eq]
  cases hfile : s.file with
  | none =>
    rw [h.opened hfile]
    rfl
  | some text => rw [readChainTail_some, h.file_eq hfile, events_render hread]

theorem seen_step (h : Seen s) (hfiled : Filed K s) (hread : ∀ ev ∈ s.written, Readable K ev) : Seen (step K s o) := by
  cases o with
  | init p =>
    refine ⟨fun x => ?_, fun x hash hlast hlook => ?_⟩ <;> by_cases hx : x = p
    · subst hx
      simp [step]
    · simpa [step, Function.update_of_ne hx] using h.bound x
    · subst hx
      simp only [step, Function.update_self, init, readChainTail_eq hfiled hread, Option.some.injEq] at hlast
      exact hlast.symm
    · simp only [step, Function.update_of_ne hx] at hlast hlook
      exact h.tip x hash hlast hlook
  | tryEmit p b now writes =>
    cases hlast : (s.process p).lastHash with
    | none =>
      rw [step_disabled hlast]
      exact ⟨h.bound, h.tip⟩
    | some last =>
      cases writes with
      | false =>
        rw [step_failed hlast]
        refine ⟨h.bound, fun x hash hx hlook => ?_⟩
        by_cases hxp : x = p
        · subst hxp
          simp only [Function.update_self] at hx
          exact h.tip x hash (hlast.trans hx) hlook
        · simp only [Function.update_of_ne hxp] at hx
          exact h.tip x hash hx hlook
      | true =>
        rw [step_append hlast]
        refine ⟨fun x => ?_, fun x hash hx hlook => ?_⟩ <;> by_cases hxp : x = p
        · subst hxp
          simp
        · have hbound := h.bound x
          simp only [Function.update_of_ne hxp, List.length_append, List.length_singleton]
          omega
        · subst hxp
          simp only [Function.update_self] at hx
          rw [chainTip, tip_concat]
          exact (Option.some.inj hx).symm
        · -- Another process looked before this line was there.
          have hbound := h.bound x
          simp only [Function.update_of_ne hxp, List.length_append, List.length_singleton] at hlook
          omega

/-- Where the process that appends has seen the last line, the events stay linked. -/
theorem linked_step (hlinked : Chained chainHeadPrevHash s.written) (h : Seen s) (hok : Current s o) :
    Chained chainHeadPrevHash (step K s o).written := by
  rw [written_step]
  cases o with
  | init p => exact (List.append_nil s.written).symm ▸ hlinked
  | tryEmit p b now writes =>
    cases writes with
    | false => exact (List.append_nil s.written).symm ▸ hlinked
    | true =>
      cases hlast : (s.process p).lastHash with
      | none =>
        have hnone : appended K s (.tryEmit p b now true) = none := by simp [appended, hlast]
        rw [hnone]
        exact (List.append_nil s.written).symm ▸ hlinked
      | some last =>
        have hsome : appended K s (.tryEmit p b now true) =
            some (buildEvent K b now last ((s.process p).sequence + 1)) := by simp [appended, hlast]
        rw [hsome, Option.toList_some, Chained, linked_concat]
        exact ⟨hlinked, h.tip p last hlast hok⟩

end AiMemory.Audit
