import AiMemory.Transcripts.Sweep

/-!
# Reading back and removing

What a run does to the transcripts. A row changes in one column only, `archived_at`, and only a sweep sets it. So a
content is read back exactly when the decoder lets it through, and a row that a sweep deletes was archived by an earlier
one, which looked at the linked memories. The deleting sweep does not.
-/

namespace AiMemory

open Relational

namespace Transcripts

variable {σ : Type} {z : Zstd σ} {c : Chrono} {cfg : TranscriptsConfig} {now : c.Reading} {s s' : TranscriptDb}
  {report : SweepReport} {r r₀ : TranscriptRow} {id : String}

/-! ## The archive phase -/

theorem markArchived_idem (stamp : String) (r : TranscriptRow) :
    markArchived stamp (markArchived stamp r) = markArchived stamp r := by
  unfold markArchived
  cases r.archivedAt <;> rfl

/-- A row after an archive phase that began with the row `r₀`: the same, or archived while no live memory was linked
to it. -/
def Archived (s : TranscriptDb) (stamp : String) (r₀ r : TranscriptRow) : Prop :=
  r = r₀ ∨ r₀.archivedAt = none ∧ aliveCount s r₀.id stamp = 0 ∧ r = markArchived stamp r₀

variable {stamp : String}

theorem Archived.id_eq (h : Archived s stamp r₀ r) : r.id = r₀.id := by
  rcases h with rfl | ⟨-, -, rfl⟩ <;> rfl

/-- What an archive phase leaves of a database. -/
structure Archives (s : TranscriptDb) (stamp : String) (s' : TranscriptDb) : Prop where
  db : s'.db = s.db
  spans : s'.spans = s.spans
  rows : ∀ r ∈ s'.transcripts, ∃ r₀ ∈ s.transcripts, Archived s stamp r₀ r
  kept : ∀ r₀ ∈ s.transcripts, ∃ r ∈ s'.transcripts, Archived s stamp r₀ r

theorem archives_refl (s : TranscriptDb) (stamp : String) : Archives s stamp s :=
  ⟨rfl, rfl, fun r hr => ⟨r, hr, Or.inl rfl⟩, fun r hr => ⟨r, hr, Or.inl rfl⟩⟩

theorem Archives.mark (h : Archives s stamp s') (hmem : r ∈ s.transcripts)
    (hnone : r.archivedAt = none) (hdead : aliveCount s r.id stamp = 0) :
    Archives s stamp { s' with transcripts := s'.transcripts.modify r.id (markArchived stamp) fun _ => rfl } := by
  have hmark : ∀ {r₀ r₁ : TranscriptRow}, r₀ ∈ s.transcripts → Archived s stamp r₀ r₁ →
      Archived s stamp r₀ (if r₁.id = r.id then markArchived stamp r₁ else r₁) := by
    intro r₀ r₁ hr₀ harch
    by_cases hid : r₁.id = r.id
    · obtain rfl := Table.eq_of_key hr₀ hmem (harch.id_eq.symm.trans hid)
      rw [if_pos hid]
      refine Or.inr ⟨hnone, hdead, ?_⟩
      rcases harch with rfl | ⟨-, -, rfl⟩
      · rfl
      · exact markArchived_idem stamp r₀
    · rwa [if_neg hid]
  have hid : ∀ r, (markArchived stamp r).id = r.id := fun _ => rfl
  refine ⟨h.db, h.spans, fun x hx => ?_, fun r₀ hr₀ => ?_⟩
  · obtain ⟨r₁, hr₁, rfl⟩ := (Table.mem_modify hid).mp hx
    obtain ⟨r₀, hr₀, harch⟩ := h.rows r₁ hr₁
    exact ⟨r₀, hr₀, hmark hr₀ harch⟩
  · obtain ⟨r₁, hr₁, harch⟩ := h.kept r₀ hr₀
    exact ⟨_, (Table.mem_modify hid).mpr ⟨r₁, hr₁, rfl⟩, hmark hr₀ harch⟩

theorem aliveCount_eq_zero_of_shouldArchive {createdAt : String} {resolved : ResolvedTranscriptLifecycle}
    (h : shouldArchive c now s id createdAt resolved = .ok true) : aliveCount s id now.text = 0 := by
  unfold shouldArchive at h
  split at h
  · cases h
  · split_ifs at h
    · cases h
    · exact of_decide_eq_true (Except.ok.inj h)

theorem archivePhase_archives : Archives s now.text (archivePhase c cfg now s report).1 := by
  unfold archivePhase
  refine Machine.foldl_induct (P := fun acc : TranscriptDb × SweepReport => Archives s now.text acc.1) (fun acc a ha hacc => ?_)
    (archives_refl s now.text)
  obtain ⟨hmem, hnone⟩ := List.mem_filter.mp ha
  unfold archiveOne
  split
  · next hok =>
    refine hacc.mark hmem (of_decide_eq_true hnone) ?_
    have hdead := aliveCount_eq_zero_of_shouldArchive hok
    rwa [aliveCount, hacc.db, hacc.spans] at hdead
  · exact hacc
  · exact hacc

/-! ## The prune phase -/

/-- The grace period of an archived row is over. -/
def GraceOver (c : Chrono) (cfg : TranscriptsConfig) (now : c.Reading) (r : TranscriptRow) : Prop :=
  ∃ stamp archived, r.archivedAt = some stamp ∧ c.parseFromRfc3339 stamp = some archived ∧
    archived + seconds (cfg.resolve r.ns).archiveGraceSecs < now.instant

theorem prunePhase_prunes : (∀ r ∈ (prunePhase c cfg now s report).1.transcripts, r ∈ s.transcripts) ∧
    ∀ r ∈ s.transcripts, r ∈ (prunePhase c cfg now s report).1.transcripts ∨ GraceOver c cfg now r := by
  unfold prunePhase
  refine Machine.foldl_induct (P := fun acc : TranscriptDb × SweepReport => (∀ r ∈ acc.1.transcripts, r ∈ s.transcripts) ∧
    ∀ r ∈ s.transcripts, r ∈ acc.1.transcripts ∨ GraceOver c cfg now r) (fun acc a ha hacc => ?_)
    ⟨fun r hr => hr, fun r hr => Or.inl hr⟩
  obtain ⟨cand, hcand, hpair⟩ := List.mem_filterMap.mp ha
  obtain ⟨stamp, hstamp, rfl⟩ := Option.map_eq_some_iff.mp hpair
  unfold pruneOne
  split
  · exact hacc
  · next archived hparse =>
    split_ifs with hgrace
    · exact hacc
    · refine ⟨fun r hr => hacc.1 r (Table.mem_filter.mp hr).1, fun r hr => ?_⟩
      by_cases hid : r.id = cand.id
      · rw [Table.eq_of_key hr hcand hid]
        exact Or.inr ⟨stamp, archived, hstamp, hparse, not_le.mp hgrace⟩
      · exact (hacc.2 r hr).imp_left fun hin => Table.mem_filter.mpr ⟨hin, decide_eq_true hid⟩

/-! ## A sweep -/

theorem archived_of_mem_sweep (h : r ∈ (sweepTranscriptLifecycle c cfg now s).1.transcripts) :
    ∃ r₀ ∈ s.transcripts, Archived s now.text r₀ r :=
  archivePhase_archives.rows r (prunePhase_prunes.1 r h)

theorem graceOver_of_swept (hmem : r ∈ s.transcripts)
    (hgone : (sweepTranscriptLifecycle c cfg now s).1.transcripts.find r.id = none) : GraceOver c cfg now r := by
  have harchives : Archives s now.text (archivePhase c cfg now s ⟨0, 0, 0⟩).1 := archivePhase_archives
  obtain ⟨r₁, hr₁, harch⟩ := harchives.kept r hmem
  have hover : GraceOver c cfg now r₁ := (prunePhase_prunes.2 r₁ hr₁).resolve_left fun hin =>
    Table.find_eq_none.mp hgone r₁ hin harch.id_eq
  rcases harch with rfl | ⟨hnone, -, rfl⟩
  · exact hover
  · -- a row archived by this very sweep keeps its whole grace period
    obtain ⟨stamp, archived, hstamp, hparse, hlt⟩ := hover
    have htext : stamp = now.text := by
      rw [markArchived, hnone] at hstamp
      exact (Option.some.inj hstamp).symm
    rw [htext, Chrono.Reading.text, now.reads] at hparse
    have hgrace := (cfg.resolve (markArchived now.text r).ns).grace_bounds.1
    have hinst : now.instant = archived := Option.some.inj hparse
    unfold seconds at hlt
    omega

/-! ## One step -/

theorem step_frame (op : Op c) (h : op.sweeps = false) : (step z s op).transcripts = s.transcripts ∨
    ∃ r, r.archivedAt = none ∧ s.transcripts.insertNew? r = some (step z s op).transcripts := by
  cases op with
  | insert mem =>
    show (settle s _ (s.db.insert mem)).transcripts = _ ∨ _
    cases s.db.insert mem <;> exact Or.inl rfl
  | update id u now =>
    show (settle s _ (s.db.update id u now)).transcripts = _ ∨ _
    cases s.db.update id u now <;> exact Or.inl rfl
  | touch id times => exact Or.inl rfl
  | delete id => exact Or.inl rfl
  | gc archive now => exact Or.inl rfl
  | store id ns content ttl now =>
    show (settle s Prod.fst (store z c s id ns content ttl now)).transcripts = _ ∨
      ∃ r : TranscriptRow, r.archivedAt = none ∧ _ = some (settle s Prod.fst (store z c s id ns content ttl now)).transcripts
    cases hstore : store z c s id ns content ttl now with
    | error e => exact Or.inl rfl
    | ok p =>
      obtain ⟨-, r, hins, -, -, -, hnone, -⟩ := store_eq_ok hstore
      exact Or.inr ⟨r, hnone, hins⟩
  | linkTranscript memoryId transcriptId a b =>
    show (settle s _ (linkTranscript s memoryId transcriptId a b)).transcripts = _ ∨ _
    unfold linkTranscript
    split_ifs <;> exact Or.inl rfl
  | purgeExpired now => cases h
  | sweep cfg now => cases h

/-- An archived row was archived, or is being archived by a sweep that found nothing live linked to it. -/
theorem archived_step {op : Op c} (hmem : r ∈ (step z s op).transcripts)
    (hstamp : r.archivedAt = some stamp) : r ∈ s.transcripts ∨
      ∃ cfg now, op = .sweep cfg now ∧ stamp = now.text ∧ { r with archivedAt := none } ∈ s.transcripts ∧
        aliveCount s r.id now.text = 0 := by
  cases hop : op.sweeps with
  | false =>
    rcases step_frame (z := z) (s := s) op hop with hsame | ⟨x, hnone, hins⟩
    · exact Or.inl (hsame ▸ hmem)
    · rcases (Table.mem_insertNew? hins).mp hmem with hold | rfl
      · exact Or.inl hold
      · rw [hnone] at hstamp
        cases hstamp
  | true =>
    cases op with
    | purgeExpired now => exact Or.inl (Table.mem_filter.mp hmem).1
    | sweep cfg now =>
      obtain ⟨r₀, hr₀, rfl | ⟨hnone, hdead, rfl⟩⟩ := archived_of_mem_sweep hmem
      · exact Or.inl hr₀
      · refine Or.inr ⟨cfg, now, rfl, ?_, ?_, hdead⟩
        · rw [markArchived, hnone] at hstamp
          exact (Option.some.inj hstamp).symm
        · have hrow : { markArchived now.text r₀ with archivedAt := none } = r₀ := by
            cases r₀
            cases hnone
            rfl
          rwa [hrow]
    | _ => cases hop

/-! ## Runs -/

abbrev run {σ : Type} (z : Zstd σ) {c : Chrono} (s : TranscriptDb) (ops : List (Op c)) : TranscriptDb :=
  ops.foldl (step z) s

theorem find_run {ops : List (Op c)} (hops : ∀ op ∈ ops, op.sweeps = false) (h : s.transcripts.find id = some r) :
    (run z s ops).transcripts.find id = some r := by
  refine Machine.foldl_induct (P := fun t : TranscriptDb => t.transcripts.find id = some r) (fun t op hop ht => ?_) h
  rcases step_frame (z := z) (s := t) op (hops op hop) with hsame | ⟨x, -, hins⟩
  · rwa [hsame]
  · rw [Table.find_insertNew? hins, ht]
    rfl

theorem archived_by_sweep {s₀ : TranscriptDb} (h₀ : ∀ r ∈ s₀.transcripts, r.archivedAt = none) {ops : List (Op c)}
    (hmem : r ∈ (run z s₀ ops).transcripts) (hstamp : r.archivedAt = some stamp) :
    ∃ before cfg now after, ops = before ++ .sweep cfg now :: after ∧ stamp = now.text ∧
      { r with archivedAt := none } ∈ (run z s₀ before).transcripts ∧
      aliveCount (run z s₀ before) r.id now.text = 0 := by
  induction ops using List.reverseRecOn with
  | nil =>
    rw [h₀ r hmem] at hstamp
    cases hstamp
  | append_singleton ops op ih =>
    rw [run, List.foldl_append] at hmem
    rcases archived_step hmem hstamp with hold | ⟨cfg, now, rfl, htext, hrow, hdead⟩
    · obtain ⟨before, cfg, now, after, rfl, hrest⟩ := ih hold
      exact ⟨before, cfg, now, after ++ [op], List.append_assoc _ _ _, hrest⟩
    · exact ⟨ops, cfg, now, [], rfl, htext, hrow, hdead⟩

/-! ## Reading back -/

/-- Until something is swept, a stored content is read back exactly when it is within the cap. -/
theorem fetched_iff_within_cap {content ns : String} {ttl : Option ℤ} {t : Transcript} (hz : Inverts z)
    (hstore : store z c s id ns content ttl now = .ok (s', t)) {ops : List (Op c)}
    (hops : ∀ op ∈ ops, op.sweeps = false) :
    fetch z (run z s' ops) t.id = .ok (some content) ↔ content.utf8ByteSize ≤ maxDecompressedBytes := by
  obtain ⟨r, hfind, hblob⟩ := find_store hstore
  rw [fetch_eq hz (find_run hops hfind) hblob]
  split_ifs with hsize
  · exact iff_of_true rfl hsize
  · exact iff_of_false (fun h => (by cases h)) hsize

def plain : Zstd (List UInt8) where
  compress _ bytes := .ok bytes
  decoder := .ok
  read n s := Chunks.window n s

theorem plain_inverts : Inverts plain := fun bytes blob h =>
  ⟨bytes, congrArg Except.ok (Except.ok.inj h).symm, Chunks.streams_window (by decide) bytes⟩

def days : List (ℤ × String) :=
  [(1767225600000000000, "2026-01-01T00:00:00+00:00"), (1769904000000000000, "2026-02-01T00:00:00+00:00"),
    (1770595200000000000, "2026-02-09T00:00:00+00:00")]

def calendar : Chrono where
  toRfc3339 t := ((days.find? fun d => d.1 = t).map Prod.snd).getD ""
  parseFromRfc3339 s := (days.find? fun d => d.2 = s).map Prod.fst

def januaryFirst : calendar.Reading := ⟨1767225600000000000, by decide⟩

def februaryFirst : calendar.Reading := ⟨1769904000000000000, by decide⟩

def februaryNinth : calendar.Reading := ⟨1770595200000000000, by decide⟩

def emptyFile : TranscriptDb := ⟨Db.empty, Table.empty, Table.empty⟩

/-- A short content, read back after other writes. -/
theorem greeting_fetched : ∃ s' t, store plain calendar emptyFile "t-1" "chat" "hi" none januaryFirst = .ok (s', t) ∧
    fetch plain (run plain s' [Op.store "t-2" "chat" "ho" none januaryFirst]) t.id = .ok (some "hi") := by
  have hok : ∃ s' t, store plain calendar emptyFile "t-1" "chat" "hi" none januaryFirst = .ok (s', t) :=
    store_isOk (by decide) rfl (by decide) rfl
  obtain ⟨s', t, hstore⟩ := hok
  exact ⟨s', t, hstore, (fetched_iff_within_cap plain_inverts hstore (by decide)).mpr (by decide)⟩

def overlong : String := String.ofList (List.replicate (maxDecompressedBytes + 1) 'a')

theorem utf8ByteSize_replicate (n : ℕ) : (String.ofList (List.replicate n 'a')).utf8ByteSize = n := by
  induction n with
  | zero => rfl
  | succ n ih =>
    rw [List.replicate_succ, ← List.singleton_append, String.ofList_append, String.utf8ByteSize_append, ih]
    exact Nat.add_comm 1 n

/-- It is stored, and refused when it is fetched. -/
theorem overlong_refused : ∃ s' t, store plain calendar emptyFile "t-1" "chat" overlong none januaryFirst = .ok (s', t) ∧
    fetch plain s' t.id = .error "zstd decompression failed" := by
  have hsize : overlong.utf8ByteSize = maxDecompressedBytes + 1 := utf8ByteSize_replicate _
  have hcap : maxDecompressedBytes + 1 < 2 ^ 63 := by decide
  have hlen : (asBytes overlong).length < 2 ^ 63 := by rwa [length_asBytes, hsize]
  have hblob : plain.compress zstdLevel (asBytes overlong) = .ok (asBytes overlong) := rfl
  have hok : ∃ s' t, store plain calendar emptyFile "t-1" "chat" overlong none januaryFirst = .ok (s', t) :=
    store_isOk (hsize ▸ hcap) hblob hlen rfl
  obtain ⟨s', t, hstore⟩ := hok
  obtain ⟨r, hfind, hblob⟩ := find_store hstore
  refine ⟨s', t, hstore, ?_⟩
  rw [fetch_eq plain_inverts hfind hblob, if_neg (by rw [hsize]; omega)]

/-! ## Removal -/

/-- A row that a sweep deletes was archived by an earlier sweep of the run, to which no linked memory was live, and its
grace period is over. -/
theorem swept_after_grace {s₀ : TranscriptDb} (h₀ : ∀ r ∈ s₀.transcripts, r.archivedAt = none) {ops : List (Op c)}
    (hmem : r ∈ (run z s₀ ops).transcripts)
    (hgone : (step z (run z s₀ ops) (.sweep cfg now)).transcripts.find r.id = none) :
    ∃ before cfg' then' after, ops = before ++ .sweep cfg' then' :: after ∧ r.archivedAt = some then'.text ∧
      { r with archivedAt := none } ∈ (run z s₀ before).transcripts ∧
      then'.instant + seconds (cfg.resolve r.ns).archiveGraceSecs < now.instant ∧
      ∀ l ∈ (run z s₀ before).spans, l.transcriptId = r.id →
        ∀ m ∈ (run z s₀ before).db.memories, m.id = l.memoryId → ¬isAlive then'.text m := by
  obtain ⟨stamp, archived, hstamp, hparse, hover⟩ := graceOver_of_swept hmem hgone
  obtain ⟨before, cfg', then', after, hops, rfl, hrow, hdead⟩ := archived_by_sweep h₀ hmem hstamp
  rw [Chrono.Reading.text, then'.reads] at hparse
  cases hparse
  refine ⟨before, cfg', then', after, hops, hstamp, hrow, hover, fun l hl htr m hm hid halive => ?_⟩
  have hnot := List.countP_eq_zero.mp hdead l hl
  rw [← hid, Db.get_of_mem hm] at hnot
  exact hnot (by simp [htr, halive])

/-- The compiled-in periods: thirty days, then seven. -/
def defaults : TranscriptsConfig := ⟨none, none, none⟩

def january : List (Op calendar) := [.store "t-1" "chat" "" none januaryFirst, .sweep defaults februaryFirst]

def januaryRow : TranscriptRow :=
  ⟨"t-1", "chat", "2026-01-01T00:00:00+00:00", none, 0, 0, 3, [], some "2026-02-01T00:00:00+00:00"⟩

theorem january_swept : januaryRow ∈ (run plain emptyFile january).transcripts ∧
    ∃ before cfg then' after, january = before ++ .sweep cfg then' :: after ∧ januaryRow.archivedAt = some then'.text ∧
      { januaryRow with archivedAt := none } ∈ (run plain emptyFile before).transcripts ∧
      then'.instant + seconds (defaults.resolve januaryRow.ns).archiveGraceSecs < februaryNinth.instant ∧
      ∀ l ∈ (run plain emptyFile before).spans, l.transcriptId = januaryRow.id →
        ∀ m ∈ (run plain emptyFile before).db.memories, m.id = l.memoryId → ¬isAlive then'.text m := by
  have hmem : januaryRow ∈ (run plain emptyFile january).transcripts :=
    show januaryRow ∈ (run plain emptyFile january).transcripts.rows by decide
  have hgone : (step plain (run plain emptyFile january) (.sweep defaults februaryNinth)).transcripts.find
      januaryRow.id = none := by decide
  exact ⟨hmem, swept_after_grace (fun r hr => absurd hr List.not_mem_nil) hmem hgone⟩

def lesson : Memory :=
  ⟨"m-1", .long, "chat", "lesson", "greet first", [], 5, 1, "user", 0, "2026-02-01T00:00:00+00:00",
    "2026-02-01T00:00:00+00:00", none, none, .obj []⟩

/-- The archived transcript is linked to a memory that never expires. -/
def linkedLate : TranscriptDb :=
  run plain emptyFile (january ++ [.insert lesson, .linkTranscript "m-1" "t-1" none none])

/-- The sweep of February the ninth deletes it all the same. -/
theorem linkedLate_swept : januaryRow ∈ linkedLate.transcripts ∧
    (step plain linkedLate (.sweep defaults februaryNinth)).transcripts.find januaryRow.id = none ∧
    ∃ l ∈ linkedLate.spans.rows, l.transcriptId = januaryRow.id ∧
      ∃ m ∈ linkedLate.db.memories.rows, m.id = l.memoryId ∧ isAlive februaryNinth.text m = true := by
  refine ⟨show januaryRow ∈ linkedLate.transcripts.rows by decide, by decide, by decide⟩

end Transcripts

end AiMemory
