import AiMemory.Audit.Writers

/-!
# Processes that run one after the other

A process that starts on a log takes up its last hash, but not its last number: `init` sets the counter to zero, and the
verifier wants the numbers of the whole file to increase. So the file verifies exactly when every append comes at a call
whose number is above that of the last line (`verifies_iff_meets`).
-/

namespace AiMemory.Audit

open HashChain Machine

/-- A call of `try_emit`, and whether its append goes through. -/
structure Emit where
  builder : EventBuilder
  now : String
  writes : Bool

def lifetimes (ls : List (List Emit)) : List (Op Unit) :=
  ls.flatMap fun es => .init () :: es.map fun e => .tryEmit () e.builder e.now e.writes

/-- The number of the call that appends is above that of the last line. -/
def Counting (s : State Unit) : Op Unit → Prop
  | .tryEmit p _ _ true => lastSequence s.written = 0 ∨ lastSequence s.written < (s.process p).sequence + 1
  | _ => True

instance (s : State Unit) (o : Op Unit) : Decidable (Counting s o) := by
  unfold Counting
  split <;> infer_instance

variable {K : Crates} {s : State Unit} {o : Op Unit} {ls : List (List Emit)}

theorem counting_after_init {p : Unit} {b : EventBuilder} {now : String} :
    Counting (step K s (.init p)) (.tryEmit p b now true) ↔ lastSequence s.written = 0 := by
  constructor
  · rintro (h | h)
    · exact h
    · exact UInt64.lt_one_iff.mp h
  · exact Or.inl

/-- The invariant of one process after the other, from the first `init` on. -/
structure Alone (K : Crates) (s : State Unit) : Prop extends Filed K s, Seen s where
  created : s.file.isSome
  enabled : (s.process ()).lastHash.isSome
  looked : s.lookedAt () = s.written.length
  linked : Chained chainHeadPrevHash s.written
  counted : s.returnedOk = s.written.length

theorem Alone.current (h : Alone K s) : Current s o := by
  cases o with
  | init p => trivial
  | tryEmit p b now writes =>
    cases writes with
    | false => trivial
    | true => exact h.looked

theorem alone_init (hfiled : Filed K s) (hseen : Seen s) (hread : ∀ ev ∈ s.written, Readable K ev)
    (hlinked : Chained chainHeadPrevHash s.written) (hcounted : s.returnedOk = s.written.length) :
    Alone K (step K s (.init ())) where
  toFiled := filed_step hfiled
  toSeen := seen_step hseen hfiled hread
  created := rfl
  enabled := by simp [step, init]
  looked := by simp [step]
  linked := hlinked
  counted := hcounted

theorem alone_step (h : Alone K s) (hread : ∀ ev ∈ s.written, Readable K ev) : Alone K (step K s o) := by
  cases o with
  | init p => exact alone_init h.toFiled h.toSeen hread h.linked h.counted
  | tryEmit p b now writes =>
    have hfiled : Filed K (step K s (.tryEmit p b now writes)) := filed_step h.toFiled
    have hseen : Seen (step K s (.tryEmit p b now writes)) := seen_step h.toSeen h.toFiled hread
    have hlinked := linked_step (K := K) h.linked h.toSeen (h.current (o := .tryEmit p b now writes))
    obtain ⟨last, hlast⟩ := Option.isSome_iff_exists.mp h.enabled
    cases writes with
    | false =>
      rw [step_failed (p := p) hlast] at hfiled hseen hlinked ⊢
      exact ⟨hfiled, hseen, h.created, by simp, h.looked, hlinked, h.counted⟩
    | true =>
      rw [step_append (p := p) hlast] at hfiled hseen hlinked ⊢
      exact ⟨hfiled, hseen, rfl, by simp, by simp, hlinked, by simp [h.counted]⟩

/-- An append keeps the numbers increasing exactly when it comes at a number above the last line's. -/
theorem numbered_step (h : Alone K s) :
    Numbered 0 (step K s o).written ↔ Numbered 0 s.written ∧ Counting s o := by
  cases o with
  | init p => exact (and_iff_left trivial).symm
  | tryEmit p b now writes =>
    obtain ⟨last, hlast⟩ := Option.isSome_iff_exists.mp h.enabled
    cases writes with
    | false =>
      rw [step_failed (p := p) hlast]
      exact (and_iff_left trivial).symm
    | true =>
      rw [step_append (p := p) hlast]
      rw [numbered_concat, buildEvent_sequence, not_and_or, not_not, UInt64.not_le, or_comm]
      rfl

/-- What `verify_chain` reports on the file of a lone process. -/
theorem Alone.verifies_iff (h : Alone K s) (hread : ∀ ev ∈ s.written, Readable K ev) :
    (∃ report, verifyChain K s.file = .ok report ∧ report.firstFailure = none ∧ report.totalLines = s.returnedOk) ↔
      Numbered 0 s.written := by
  obtain ⟨text, hfile⟩ := Option.isSome_iff_exists.mp h.created
  have htext : text = render K s.written := h.toFiled.file_eq hfile
  have hevents : events K text = s.written := by rw [htext, events_render hread]
  have hok : (verifyChainFromReader K text).firstFailure = none ↔ Numbered 0 s.written := by
    rw [verifyChainFromReader_ok, hevents]
    refine ⟨fun hok => hok.2.2.1, fun hnumbered => ⟨?_, h.linked, hnumbered, h.hashed⟩⟩
    rw [htext]
    exact legible_render hread
  rw [hfile]
  constructor
  · rintro ⟨report, hreport, hnone, -⟩
    cases hreport
    exact hok.mp hnone
  · intro hnumbered
    refine ⟨_, rfl, hok.mpr hnumbered, ?_⟩
    rw [verifyChainFromReader_total (hok.mpr hnumbered), hevents, h.counted]

/-- The file of one lifetime after the other verifies, with a line for each call that returned `Ok`, exactly when every
append comes at a number above the last line's. -/
theorem verifies_iff_meets {es : List Emit}
    (hread : ∀ ev ∈ ((lifetimes (es :: ls)).foldl (step K) State.start).written, Readable K ev) :
    (∃ report, verifyChain K ((lifetimes (es :: ls)).foldl (step K) State.start).file = .ok report ∧
      report.firstFailure = none ∧
        report.totalLines = ((lifetimes (es :: ls)).foldl (step K) State.start).returnedOk) ↔
      Meets (step K) Counting State.start (lifetimes (es :: ls)) := by
  have hwritten := forall_written hread
  -- The first operation is an `init`; the invariant holds from there on.
  obtain ⟨ops, hops⟩ : ∃ ops, lifetimes (es :: ls) = .init () :: ops := ⟨_, rfl⟩
  rw [hops] at hread hwritten ⊢
  have hfirst : Alone K (step K State.start (.init ())) :=
    alone_init filed_start seen_start (fun _ h => absurd h List.not_mem_nil) trivial rfl
  have halone : ∀ t ∈ states (step K) (step K State.start (.init ())) ops, Alone K t :=
    forall_states_of_meets (fun s o h hC => alone_step h hC.1) hfirst
      (meets_and (fun t ht => hwritten t (List.mem_cons_of_mem _ ht)) meets_true)
  have hlast : Alone K ((Op.init () :: ops).foldl (step K) State.start) := halone _ foldl_mem_states
  have hnumbered : Numbered 0 ((Op.init () :: ops).foldl (step K) State.start).written ↔
      Numbered 0 (step K State.start (.init ())).written ∧ Meets (step K) Counting (step K State.start (.init ())) ops :=
    foldl_iff_meets (P := fun s => Numbered 0 s.written) halone fun s o h => numbered_step h
  rw [hlast.verifies_iff hread, hnumbered]
  exact and_congr_left fun _ => iff_of_true trivial trivial

def storeCall : Emit := ⟨storeBuilder, "2026-05-01T10:00:00+00:00", true⟩

def updateCall : Emit := ⟨updateBuilder, "2026-05-01T10:05:00+00:00", true⟩

/-- The first call of the second lifetime does not get through, its second call does. -/
def lateSecond : List (List Emit) := [[storeCall], [{ updateCall with writes := false }, updateCall]]

theorem written_lateSecond : ((lifetimes lateSecond).foldl (step sampleCrates) State.start).written =
    [withHash storeEntry, withHash updateEntry] := by
  simpa [lifetimes, lateSecond, storeCall, updateCall, step, State.start, Process.disabled, init, tryEmit, appended,
    buildEvent_store, readChainTail_store] using buildEvent_update

theorem verifies_lateSecond : ∃ report,
    verifyChain sampleCrates ((lifetimes lateSecond).foldl (step sampleCrates) State.start).file = .ok report ∧
      report.firstFailure = none ∧
        report.totalLines = ((lifetimes lateSecond).foldl (step sampleCrates) State.start).returnedOk :=
  (verifies_iff_meets (written_lateSecond ▸ readable_of_subset sampleLog_subset)).mpr (by decide)

def twoLifetimes : List (List Emit) := [[storeCall], [updateCall]]

theorem twoLifetimes_fails : ¬∃ report,
    verifyChain sampleCrates ((lifetimes twoLifetimes).foldl (step sampleCrates) State.start).file = .ok report ∧
      report.firstFailure = none ∧
        report.totalLines = ((lifetimes twoLifetimes).foldl (step sampleCrates) State.start).returnedOk := by
  obtain ⟨text, hfile, hevents⟩ : ∃ text,
      ((lifetimes twoLifetimes).foldl (step sampleCrates) State.start).file = some text ∧
        events sampleCrates text = [withHash storeEntry, withHash restartEntry] := by
    refine ⟨render sampleCrates [withHash storeEntry, withHash restartEntry], ?_,
      events_render (readable_of_subset (by simp [sampleTable]))⟩
    simp [lifetimes, twoLifetimes, storeCall, updateCall, step, State.start, Process.disabled, init, tryEmit, render,
      buildEvent_store, readChainTail_store, buildEvent_restart]
  rintro ⟨report, hreport, hnone, -⟩
  rw [hfile] at hreport
  cases hreport
  -- The second line has number one again.
  obtain ⟨-, -, hnumbered, -⟩ := verifyChainFromReader_ok.mp hnone
  rw [hevents] at hnumbered
  revert hnumbered
  decide

end AiMemory.Audit
