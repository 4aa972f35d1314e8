import AiMemory.Sync.Records

/-!
# A dry run of a push

With `dry_run` set, each of the nine loops of `sync_push` validates its entries and counts the others as
no-ops. `dryRun_previews` says that nothing is written, that every entry is counted once, and that the
entries counted as skipped are those the loops turn away at validation when they write. What a writing
run skips later, a forged signature or a write that fails, is not foreseen.
-/

namespace AiMemory

open Relational Validate

namespace Push

/-- One entry of a body. -/
inductive Entry where
  | memory (mem : Memory)
  | deletion (id : String)
  | archive (id : String)
  | restore (id : String)
  | link (link : MemoryLink)
  | pending (pa : PendingAction)
  | decision (dec : PendingDecision)
  | namespaceMeta (entry : NamespaceMetaEntry)
  | namespaceMetaClear (ns : String)

/-- The validation that the loop of an entry starts with. -/
def Entry.Valid (h : Host) : Entry → Prop
  | memory mem => Accepts (validateMemory h.rfc3339 mem)
  | deletion id => Accepts (validateId id)
  | archive id => Accepts (validateId id)
  | restore id => Accepts (validateId id)
  | link l => Accepts (validateLink l.sourceId l.targetId l.relation)
  | pending pa => Accepts (validateId pa.id)
  | decision dec => Accepts (validateId dec.id)
  | namespaceMeta e => Accepts (validateNamespace e.ns) ∧ Accepts (validateId e.standardId)
  | namespaceMetaClear ns => Accepts (validateNamespace ns)

instance (h : Host) : (e : Entry) → Decidable (e.Valid h)
  | .memory mem => inferInstanceAs (Decidable (Accepts (validateMemory h.rfc3339 mem)))
  | .deletion id | .archive id | .restore id => inferInstanceAs (Decidable (Accepts (validateId id)))
  | .link l => inferInstanceAs (Decidable (Accepts (validateLink l.sourceId l.targetId l.relation)))
  | .pending pa => inferInstanceAs (Decidable (Accepts (validateId pa.id)))
  | .decision dec => inferInstanceAs (Decidable (Accepts (validateId dec.id)))
  | .namespaceMeta e =>
    inferInstanceAs (Decidable (Accepts (validateNamespace e.ns) ∧ Accepts (validateId e.standardId)))
  | .namespaceMetaClear ns => inferInstanceAs (Decidable (Accepts (validateNamespace ns)))

def entries (b : SyncPushBody) : List Entry :=
  b.memories.map .memory ++ b.deletions.map .deletion ++ b.archives.map .archive ++
    b.restores.map .restore ++ b.links.map .link ++ b.pendings.map .pending ++
    b.pendingDecisions.map .decision ++ b.namespaceMeta.map .namespaceMeta ++
    b.namespaceMetaClears.map .namespaceMetaClear

def entry (h : Host) (t : Tick) (dryRun : Bool) (s : Push) : Entry → Push
  | .memory mem => memory h dryRun s mem
  | .deletion id => deletion dryRun s id
  | .archive id => archive t dryRun s id
  | .restore id => restore t dryRun s id
  | .link l => link h t dryRun s l
  | .pending pa => pending dryRun s pa
  | .decision dec => decision h t dryRun s dec
  | .namespaceMeta e => namespaceMeta t dryRun s e
  | .namespaceMetaClear ns => namespaceMetaClear dryRun s ns

/-- The local variables after the first `n` entries. -/
def after (h : Host) (t : Tick) (dryRun : Bool) (b : SyncPushBody) (db : Db) (n : ℕ) : Push :=
  ((entries b).take n).foldl (entry h t dryRun) { db }

/-- The signature of an entry is rejected. -/
def Forged (h : Host) : Entry → Prop
  | .link l => attestLevel h l = none
  | _ => False

/-- The write of an entry fails. -/
def Fails (h : Host) (t : Tick) (db : Db) : Entry → Prop
  | .memory mem => ∃ e, h.insertIfNewer db mem = .error e
  | .restore id => ∃ e, db.restoreArchived id t.now = .error e
  | .link l => ∃ level, attestLevel h l = some level ∧ ∃ e, db.createLinkInbound l level t.now = .error e
  | .namespaceMeta entry =>
    ∃ e, db.setNamespaceStandard entry.ns entry.standardId entry.parentNamespace t.now = .error e
  | _ => False

/-- Why an entry is skipped. -/
inductive SkipReason where
  | validation
  | signature
  | write

/-- A loop that writes skips the entry for that reason. -/
def SkippedFor (h : Host) (t : Tick) (db : Db) (e : Entry) : SkipReason → Prop
  | .validation => ¬e.Valid h
  | .signature => e.Valid h ∧ Forged h e
  | .write => e.Valid h ∧ Fails h t db e

/-- The entry was counted as skipped. -/
def CountsSkip (s s' : Push) : Prop := s'.report.skipped = s.report.skipped + 1

section Entries

variable {h : Host} {t : Tick} {b : SyncPushBody} {db : Db} {s : Push} {e : Entry}

theorem records_eq_foldl (h : Host) (t : Tick) (b : SyncPushBody) (db : Db) :
    records h t b db = (entries b).foldl (entry h t b.dryRun) { db } := by
  unfold records entries
  simp only [List.foldl_append, List.foldl_map]
  rfl

theorem entry_of_not_valid (dryRun : Bool) (hv : ¬e.Valid h) : entry h t dryRun s e = s.skip := by
  cases e with
  | namespaceMeta x =>
    refine if_pos ?_
    by_contra hc
    rw [not_or, not_not, not_not] at hc
    exact hv hc
  | _ => exact if_pos hv

theorem spec_of_noop {s' : Push} (he : s' = s.noop) : s'.db = s.db ∧ s'.report = s.noop.report := by
  rw [he]
  exact ⟨rfl, rfl⟩

theorem entry_dry_of_valid (hv : e.Valid h) :
    (entry h t true s e).db = s.db ∧ (entry h t true s e).report = s.noop.report := by
  cases e with
  | memory mem =>
    have hacc : Accepts (validateMemory h.rfc3339 mem) := hv
    simp only [entry, memory, hacc, not_true, if_false, if_true]
    split_ifs <;> exact ⟨rfl, rfl⟩
  | namespaceMeta x =>
    have hno : ¬(¬Accepts (validateNamespace x.ns) ∨ ¬Accepts (validateId x.standardId)) := by
      rw [not_or, not_not, not_not]
      exact hv
    exact spec_of_noop (if_neg hno)
  | _ => exact spec_of_noop (if_neg (not_not.mpr hv))

theorem entry_dry_of_not_valid (hv : ¬e.Valid h) :
    (entry h t true s e).db = s.db ∧ (entry h t true s e).report = s.skip.report := by
  rw [entry_of_not_valid true hv]
  exact ⟨rfl, rfl⟩

theorem entry_dry (h : Host) (t : Tick) (s : Push) (e : Entry) :
    (entry h t true s e).db = s.db ∧
    (entry h t true s e).report.noop + (entry h t true s e).report.skipped =
      s.report.noop + s.report.skipped + 1 ∧
    (CountsSkip s (entry h t true s e) ↔ ¬e.Valid h) := by
  unfold CountsSkip
  by_cases hv : e.Valid h
  · obtain ⟨hdb, hrep⟩ := entry_dry_of_valid (t := t) (s := s) hv
    rw [hrep]
    refine ⟨hdb, ?_, iff_of_false ?_ (not_not.mpr hv)⟩
    · show s.report.noop + 1 + s.report.skipped = _
      omega
    · show ¬s.report.skipped = s.report.skipped + 1
      omega
  · obtain ⟨hdb, hrep⟩ := entry_dry_of_not_valid (t := t) (s := s) hv
    rw [hrep]
    exact ⟨hdb, rfl, iff_of_true rfl hv⟩

theorem not_countsSkip_of_eq {s' : Push} (h : s'.report.skipped = s.report.skipped) : ¬CountsSkip s s' := by
  unfold CountsSkip
  omega

/-- A loop that writes skips a valid entry exactly for a forged signature or a write that fails. -/
theorem countsSkip_of_valid (hv : e.Valid h) :
    CountsSkip s (entry h t false s e) ↔ Forged h e ∨ Fails h t s.db e := by
  cases e with
  | memory mem =>
    have hacc : ¬¬Accepts (validateMemory h.rfc3339 mem) := not_not.mpr hv
    obtain ⟨s', hs', hdb, hrep⟩ : ∃ s' : Push, (if s.latestSeen.all (mem.updatedAt > ·) then
        { s with latestSeen := some mem.updatedAt } else s) = s' ∧ s'.db = s.db ∧ s'.report = s.report :=
      ⟨_, rfl, by split_ifs <;> rfl, by split_ifs <;> rfl⟩
    simp only [entry, memory, if_neg hacc, Bool.false_eq_true, if_false, Forged, Fails, false_or, hs', hdb]
    cases h.insertIfNewer s.db mem with
    | ok res =>
      refine iff_of_false (not_countsSkip_of_eq ?_) (by simp)
      show s'.report.skipped = s.report.skipped
      rw [hrep]
    | error e =>
      refine iff_of_true ?_ ⟨e, rfl⟩
      show s'.report.skipped + 1 = s.report.skipped + 1
      rw [hrep]
  | deletion id =>
    have hacc : ¬¬Accepts (validateId id) := not_not.mpr hv
    refine iff_of_false (not_countsSkip_of_eq ?_) (by simp [Forged, Fails])
    simp only [entry, deletion, if_neg hacc, Bool.false_eq_true, if_false]
    split <;> rfl
  | archive id =>
    have hacc : ¬¬Accepts (validateId id) := not_not.mpr hv
    refine iff_of_false (not_countsSkip_of_eq ?_) (by simp [Forged, Fails])
    simp only [entry, archive, if_neg hacc, Bool.false_eq_true, if_false]
    split <;> rfl
  | restore id =>
    have hacc : ¬¬Accepts (validateId id) := not_not.mpr hv
    simp only [entry, restore, if_neg hacc, Bool.false_eq_true, if_false, Forged, Fails, false_or]
    cases s.db.restoreArchived id t.now with
    | ok res =>
      obtain ⟨db, found⟩ := res
      cases found <;> exact iff_of_false (not_countsSkip_of_eq rfl) (by simp)
    | error e => exact iff_of_true rfl ⟨e, rfl⟩
  | link l =>
    have hacc : ¬¬Accepts (validateLink l.sourceId l.targetId l.relation) := not_not.mpr hv
    simp only [entry, link, if_neg hacc, Bool.false_eq_true, if_false, Forged, Fails]
    cases attestLevel h l with
    | none => exact iff_of_true rfl (Or.inl rfl)
    | some level =>
      simp only [reduceCtorEq, false_or, Option.some.injEq, exists_eq_left']
      cases s.db.createLinkInbound l level t.now with
      | ok db => exact iff_of_false (not_countsSkip_of_eq rfl) (by simp)
      | error e => exact iff_of_true rfl ⟨e, rfl⟩
  | pending pa =>
    have hacc : ¬¬Accepts (validateId pa.id) := not_not.mpr hv
    refine iff_of_false (not_countsSkip_of_eq ?_) (by simp [Forged, Fails])
    simp only [entry, pending, if_neg hacc, Bool.false_eq_true, if_false]
    rfl
  | decision dec =>
    have hacc : ¬¬Accepts (validateId dec.id) := not_not.mpr hv
    refine iff_of_false (not_countsSkip_of_eq ?_) (by simp [Forged, Fails])
    simp only [entry, decision, if_neg hacc, Bool.false_eq_true, if_false]
    split <;> rfl
  | namespaceMeta x =>
    have hno : ¬(¬Accepts (validateNamespace x.ns) ∨ ¬Accepts (validateId x.standardId)) := by
      rw [not_or, not_not, not_not]
      exact hv
    simp only [entry, namespaceMeta, if_neg hno, Bool.false_eq_true, if_false, Forged, Fails, false_or]
    cases s.db.setNamespaceStandard x.ns x.standardId x.parentNamespace t.now with
    | ok db => exact iff_of_false (not_countsSkip_of_eq rfl) (by simp)
    | error e => exact iff_of_true rfl ⟨e, rfl⟩
  | namespaceMetaClear ns =>
    have hacc : ¬¬Accepts (validateNamespace ns) := not_not.mpr hv
    refine iff_of_false (not_countsSkip_of_eq ?_) (by simp [Forged, Fails])
    simp only [entry, namespaceMetaClear, if_neg hacc, Bool.false_eq_true, if_false]
    split <;> rfl

theorem countsSkip_entry (h : Host) (t : Tick) (s : Push) (e : Entry) :
    CountsSkip s (entry h t false s e) ↔ ∃ reason, SkippedFor h t s.db e reason := by
  by_cases hv : e.Valid h
  · rw [countsSkip_of_valid hv]
    constructor
    · rintro (hforged | hfails)
      · exact ⟨.signature, hv, hforged⟩
      · exact ⟨.write, hv, hfails⟩
    · rintro ⟨reason, hr⟩
      cases reason with
      | validation => exact absurd hv hr
      | signature => exact Or.inl hr.2
      | write => exact Or.inr hr.2
  · rw [entry_of_not_valid false hv]
    exact iff_of_true rfl ⟨.validation, hv⟩

theorem after_succ {dryRun : Bool} {n : ℕ} (he : (entries b)[n]? = some e) :
    after h t dryRun b db (n + 1) = entry h t dryRun (after h t dryRun b db n) e := by
  unfold after
  rw [List.take_add_one, he, List.foldl_append]
  rfl

theorem foldl_entry_dry (es : List Entry) (s : Push) :
    (es.foldl (entry h t true) s).db = s.db ∧
    (es.foldl (entry h t true) s).report.noop + (es.foldl (entry h t true) s).report.skipped =
      s.report.noop + s.report.skipped + es.length := by
  induction es generalizing s with
  | nil => exact ⟨rfl, rfl⟩
  | cons e es ih =>
    obtain ⟨hdb, hcount, -⟩ := entry_dry h t s e
    obtain ⟨ihdb, ihcount⟩ := ih (entry h t true s e)
    refine ⟨ihdb.trans hdb, ?_⟩
    rw [List.foldl_cons, ihcount, hcount, List.length_cons]
    omega

theorem body_dry (agent : String) (hd : b.dryRun = true) : body h t agent b db = records h t b db := by
  have hobs : observed t agent b (records h t b db) = records h t b db := by
    unfold observed
    split
    · rw [if_pos hd]
    · rfl
  unfold body
  rw [hobs]
  split
  · exact if_pos hd
  · rfl

theorem body_report (agent : String) : (body h t agent b db).report = (records h t b db).report := by
  have hobserve : (observed t agent b (records h t b db)).report = (records h t b db).report := by
    unfold observed
    split
    · split_ifs <;> rfl
    · rfl
  unfold body
  rw [← hobserve]
  split
  · split_ifs <;> rfl
  · rfl

theorem syncPush_answered {header : Option String} (dry : Bool) (hacc : b.Accepted t header) :
    ∃ agent clock, (syncPush h t header { b with dryRun := dry } db).2 =
        .ok (after h t dry b db (entries b).length).report dry agent clock ∧
      (syncPush h t header { b with dryRun := dry } db).1.live = (after h t dry b db (entries b).length).db.live := by
  obtain ⟨hcheck, agent, hagent⟩ := hacc
  have hloops : after h t dry b db (entries b).length = records h t { b with dryRun := dry } db := by
    rw [after, List.take_length, records_eq_foldl]
    rfl
  rw [hloops, ← body_report agent, ← body_live agent]
  unfold syncPush
  rw [show SyncPushBody.check { b with dryRun := dry } = .ok () from hcheck, hagent]
  exact ⟨agent, _, rfl, rfl⟩

end Entries

/-- A dry run of a body writes nothing and counts every entry once, as a no-op or as skipped; it skips
the entries that a run of the same body skips at validation, and no other. An accepted request is answered with the counters
of its loops, dry or not. -/
theorem dryRun_previews (h : Host) (t : Tick) (header : Option String) (b : SyncPushBody) (db : Db) :
    (syncPush h t header { b with dryRun := true } db).1 = db ∧
    (∀ report dry agent clock,
      (syncPush h t header { b with dryRun := true } db).2 = .ok report dry agent clock →
        report = (after h t true b db (entries b).length).report ∧
        report.noop + report.skipped = (entries b).length) ∧
    (∀ dry, b.Accepted t header → ∃ agent clock, (syncPush h t header { b with dryRun := dry } db).2 =
        .ok (after h t dry b db (entries b).length).report dry agent clock ∧
      (syncPush h t header { b with dryRun := dry } db).1.live = (after h t dry b db (entries b).length).db.live) ∧
    ∀ n e, (entries b)[n]? = some e →
      (CountsSkip (after h t true b db n) (after h t true b db (n + 1)) ↔
        SkippedFor h t (after h t false b db n).db e .validation) ∧
      (CountsSkip (after h t false b db n) (after h t false b db (n + 1)) ↔
        ∃ reason, SkippedFor h t (after h t false b db n).db e reason) := by
  have hrun : ∀ agent, body h t agent { b with dryRun := true } db = after h t true b db (entries b).length := by
    intro agent
    rw [body_dry agent rfl, records_eq_foldl, after, List.take_length]
    rfl
  have hend : (after h t true b db (entries b).length).db = db ∧
      (after h t true b db (entries b).length).report.noop +
        (after h t true b db (entries b).length).report.skipped = (entries b).length := by
    rw [after, List.take_length]
    obtain ⟨hdb, hcount⟩ := foldl_entry_dry (h := h) (t := t) (entries b) { db }
    exact ⟨hdb, hcount.trans (Nat.zero_add _)⟩
  refine ⟨?_, ?_, fun dry => syncPush_answered dry, fun n e he => ?_⟩
  · obtain ⟨agent, -, hdb, -⟩ | ⟨hdb, -⟩ := syncPush_cases h t header { b with dryRun := true } db
    · rw [hdb, hrun]
      exact hend.1
    · exact hdb
  · intro report dry agent clock hres
    have hrep : report = (after h t true b db (entries b).length).report := by
      unfold syncPush at hres
      split at hres
      · cases hres
      · split at hres
        · cases hres
        · cases hres
          rw [hrun]
    exact ⟨hrep, hrep ▸ hend.2⟩
  · rw [after_succ he, after_succ he]
    exact ⟨(entry_dry h t _ e).2.2, countsSkip_entry h t _ e⟩

end Push

end AiMemory
