import AiMemory.Audit.Writers

/-!
# Processes that append at once

Each process links its next line to the hash it has kept, so two processes that looked at the same last line link to
it both. The links of the file are right along every run in which a process appends only where nobody has since it last
initialised or appended (`linked_of_meets`).
-/

namespace AiMemory.Audit

open HashChain Machine

variable {π : Type} [DecidableEq π] {K : Crates} {ops : List (Op π)}

/-- Every line of the file carries the hash of the one before it. -/
theorem linked_of_meets (hread : ∀ ev ∈ (ops.foldl (step K) State.start).written, Readable K ev)
    (hok : Meets (step K) Current State.start ops) :
    ∀ s ∈ states (step K) State.start ops, ∀ text, s.file = some text →
      Chained chainHeadPrevHash (events K text) := by
  have hwritten := forall_written hread
  have hinv : ∀ s ∈ states (step K) State.start ops,
      Filed K s ∧ Seen s ∧ Chained chainHeadPrevHash s.written := by
    refine forall_states_of_meets (fun s o h hC => ?_) ⟨filed_start, seen_start, trivial⟩ (meets_and hwritten hok)
    obtain ⟨hfiled, hseen, hlinked⟩ := h
    exact ⟨filed_step hfiled, seen_step hseen hfiled hC.1, linked_step hlinked hseen hC.2⟩
  intro s hs text hfile
  obtain ⟨hfiled, -, hlinked⟩ := hinv s hs
  rw [hfiled.file_eq hfile, events_render (hwritten s hs)]
  exact hlinked

instance (s : State π) (o : Op π) : Decidable (Current s o) := by
  unfold Current
  split <;> infer_instance

def inTurn : List (Op Bool) :=
  [.init false, .tryEmit false storeBuilder "2026-05-01T10:00:00+00:00" true, .init true,
    .tryEmit true updateBuilder "2026-05-01T10:05:00+00:00" true]

def atOnce : List (Op Bool) :=
  [.init false, .init true, .tryEmit false storeBuilder "2026-05-01T10:00:00+00:00" true,
    .tryEmit true storeBuilder "2026-05-01T10:00:00+00:00" true]

theorem written_inTurn : (inTurn.foldl (step sampleCrates) State.start).written =
    [withHash storeEntry, withHash restartEntry] := by
  simp [inTurn, step, State.start, Process.disabled, init, tryEmit, appended, buildEvent_store, readChainTail_store,
    buildEvent_restart]

theorem written_atOnce : (atOnce.foldl (step sampleCrates) State.start).written =
    [withHash storeEntry, withHash storeEntry] := by
  simp [atOnce, step, State.start, Process.disabled, init, tryEmit, appended, buildEvent_store]

theorem linked_inTurn : Meets (step sampleCrates) Current State.start inTurn ∧
    ∀ s ∈ states (step sampleCrates) State.start inTurn, ∀ text, s.file = some text →
      Chained chainHeadPrevHash (events sampleCrates text) := by
  have hok : Meets (step sampleCrates) Current State.start inTurn := by decide
  exact ⟨hok, linked_of_meets (written_inTurn ▸ readable_of_subset (by simp [sampleTable])) hok⟩

theorem atOnce_unlinked : (∀ ev ∈ (atOnce.foldl (step sampleCrates) State.start).written, Readable sampleCrates ev) ∧
    ¬∀ s ∈ states (step sampleCrates) State.start atOnce, ∀ text, s.file = some text →
      Chained chainHeadPrevHash (events sampleCrates text) := by
  have hread : ∀ ev ∈ [withHash storeEntry, withHash storeEntry], Readable sampleCrates ev :=
    readable_of_subset (by simp [sampleTable])
  obtain ⟨text, hfile, hevents⟩ : ∃ text, (atOnce.foldl (step sampleCrates) State.start).file = some text ∧
      events sampleCrates text = [withHash storeEntry, withHash storeEntry] := by
    refine ⟨render sampleCrates [withHash storeEntry, withHash storeEntry], ?_, events_render hread⟩
    simp [atOnce, step, State.start, Process.disabled, init, tryEmit, buildEvent_store, render]
  refine ⟨written_atOnce ▸ hread, fun h => ?_⟩
  have hchained := h _ foldl_mem_states text hfile
  rw [hevents] at hchained
  revert hchained
  decide

end AiMemory.Audit
