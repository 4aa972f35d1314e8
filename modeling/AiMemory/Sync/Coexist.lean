import AiMemory.Db.LongTier
import AiMemory.Sync.DryRun
import AiMemory.Sync.Replay

/-!
# Live and archived copies

Archiving moves a row to `archived_memories` and restoring moves it back, so an id should be in one of the two
tables only. The upserts do not look at the archive: a memory whose archived copy is here is filed as a new row
when its title and namespace are free, and archiving it again then replaces the copy. `apart_of_meets` follows
any run of writes, record by record inside `sync_push`, and says that the copies stay apart as long as no
upsert files a row under an archived id.
-/

namespace AiMemory

open Relational Machine

namespace Coexist

/-- No id is live and archived. -/
def Apart (db : Db) : Prop := ∀ id, db.get id ≠ none → db.archived.find id = none

/-- Archiving the rows `sel` would replace an archived copy of other content. -/
def Replaces (db : Db) (sel : MemoryRow → Bool) : Prop :=
  ∃ r ∈ db.memories, sel r ∧ ∃ a, db.archived.find r.id = some a ∧ a.content ≠ r.content

/-- Filing the memory as a new row does not bring an archived id back. -/
def Fresh (db : Db) (mem : Memory) : Prop := db.getKey mem.key = none → db.archived.find mem.id = none

section Tables

variable {db db' : Db}

theorem Apart.not_replaces (h : Apart db) (sel : MemoryRow → Bool) : ¬Replaces db sel := by
  rintro ⟨r, hr, -, a, ha, -⟩
  have hnone := h r.id (by rw [Db.get_of_mem hr]; exact fun hc => by cases hc)
  rw [hnone] at ha
  cases ha

theorem Apart.of_get (h : Apart db) (harch : db'.archived = db.archived)
    (hget : ∀ id, db.get id = none → db'.get id ≠ none → db.archived.find id = none) : Apart db' := by
  intro id hid
  rw [harch]
  by_cases hold : db.get id = none
  · exact hget id hold hid
  · exact h id hold

theorem Apart.of_eq (h : Apart db) (hmem : db'.memories = db.memories) (harch : db'.archived = db.archived) :
    Apart db' := by
  refine h.of_get harch fun id hold hid => ?_
  have hsame : db'.get id = db.get id := by
    unfold Db.get
    rw [hmem]
  exact absurd (hsame.trans hold) hid

theorem Apart.insert {mem : Memory} {merge : MemoryRow → MemoryRow} {hid : ∀ r, (merge r).id = r.id}
    {hkey : ∀ r, (merge r).key = r.key} {id : String} (h : Apart db) (hfresh : Fresh db mem)
    (hi : db.insertOnConflict mem merge hid hkey = .ok (db', id)) : Apart db' := by
  refine h.of_get (by rw [Db.insertOnConflict_frame hi]) fun i hold hnew => ?_
  by_contra harch
  refine hnew (Db.get_insertOnConflict_eq_none hi hold fun hnone hmi => harch ?_)
  rw [← hmi]
  exact hfresh hnone

theorem Apart.deleteMemories (h : Apart db) (keep : MemoryRow → Bool) : Apart (db.deleteMemories keep) := by
  refine h.of_get rfl fun id hold hnew => absurd ?_ hnew
  rw [Db.get_deleteMemories, hold]
  rfl

theorem Apart.delete (h : Apart db) (id : String) : Apart (db.delete id).1 :=
  Apart.deleteMemories (h.of_eq rfl rfl : Apart (db.dropStandard id)) _

theorem Apart.archiveWhere (h : Apart db) (sel : MemoryRow → Bool) (mk : MemoryRow → ArchivedRow)
    (hmk : ∀ r, (mk r).id = r.id) (harch : db'.archived = (db.archiveWhere sel mk).archived)
    (hget : ∀ id, db'.get id = (db.get id).filter fun r => !sel r) : Apart db' := by
  intro id hid
  rw [hget] at hid
  rw [harch, Db.find_archived_archiveWhere hmk]
  cases hr : db.get id with
  | none =>
    rw [hr] at hid
    exact absurd rfl hid
  | some r =>
    rw [hr] at hid
    have hsel : sel r = false := by
      by_contra hc
      exact hid (by simp [hc])
    have hold : db.archived.find id = none := h id (by rw [hr]; exact fun hc => by cases hc)
    simp [hsel, hold]

theorem Apart.archiveMemory (h : Apart db) (id : String) (reason : Option String) (now : String) :
    Apart (db.archiveMemory id reason now).1 := by
  unfold Db.archiveMemory
  split_ifs
  · exact h
  · refine h.archiveWhere (fun r => r.id = id) (archiveRow now (reason.getD "archive")) (fun _ => rfl) rfl fun i => ?_
    show ((_ : Db).deleteMemories _).get i = _
    rw [Db.get_deleteMemories]
    simp only [ne_eq, decide_not]
    rfl

theorem Apart.gc (h : Apart db) (archive : Bool) (now : String) : Apart (db.gc archive now).1 := by
  cases archive with
  | true =>
    refine h.archiveWhere (Db.isExpired now) (archiveRow now "ttl_expired") (fun _ => rfl) rfl fun i => ?_
    exact Db.get_deleteMemories
  | false => exact (h.deleteMemories fun r => !Db.isExpired now r).of_eq rfl rfl

theorem Apart.forget (h : Apart db) {fts : Fts} {ns pattern : Option String} {tier : Option Tier}
    {archive : Bool} {now : String} {n : ℕ} (hf : db.forget fts ns pattern tier archive now = .ok (db', n)) :
    Apart db' := by
  rw [Db.forget_eq_ok hf]
  cases archive with
  | true =>
    refine h.archiveWhere (Db.forgetSelects fts ns pattern tier) (forgetRow now) (fun _ => rfl) rfl fun i => ?_
    exact Db.get_deleteMemories
  | false => exact h.deleteMemories _

theorem Apart.restoreArchived (h : Apart db) {id now : String} {restored : Bool}
    (hr : db.restoreArchived id now = .ok (db', restored)) : Apart db' := by
  obtain ⟨-, -, rfl⟩ | ⟨a, t, ha, -, -, ht, rfl⟩ := Db.restoreArchived_cases hr
  · exact h
  · intro i hi
    show (db.archived.filter fun a => a.id ≠ id).find i = none
    rw [Table.find_filter]
    cases hfind : db.archived.find i with
    | none => rfl
    | some x =>
      have hx : x.id = i := (Table.find_eq_some.mp hfind).2
      by_cases he : i = id
      · simp [hx, he]
      · -- the row of another id was live before
        exfalso
        have hrow : (restoreRow now a).id = id := (Table.find_eq_some.mp ha).2
        have hnew : t.find i = db.get i := by
          rw [Indexed.find_insertNew? ht, if_neg (fun hc => he (hc.symm.trans hrow))]
          exact Option.or_none
        have hnone := h i (fun hc => hi (hnew.trans hc))
        rw [hnone] at hfind
        cases hfind

end Tables

/-! ## The records of a push -/

/-- What a record of a push needs: a memory that is written is fresh, and so is the id drawn for an approved
action. -/
def EntryOk (h : Host) (t : Tick) (db : Db) : Push.Entry → Prop
  | .memory mem => mem.Valid h.rfc3339 → h.insertFault mem = false → Fresh db mem
  | .decision dec => dec.approved = true → db.archived.find (t.newId dec.id) = none
  | _ => True

def onEntry (h : Host) (t : Tick) (db : Db) : Push.Entry → Db
  | .memory mem => h.takeIn db mem
  | .deletion id => Push.onDeletion db id
  | .archive id => Push.onArchive t db id
  | .restore id => Push.onRestore t db id
  | .link l => Push.onLink h t db l
  | .pending pa => Push.onPending db pa
  | .decision dec => Push.onDecision h t db dec
  | .namespaceMeta e => Push.onNamespaceMeta t db e
  | .namespaceMetaClear ns => Push.onNamespaceMetaClear db ns

theorem entry_db (h : Host) (t : Tick) (s : Push) (e : Push.Entry) :
    (Push.entry h t false s e).db = onEntry h t s.db e := by
  cases e with
  | memory mem => exact Push.memory_db s mem
  | deletion id => exact (Push.writes_deletion s id).2
  | archive id => exact (Push.writes_archive s id).2
  | restore id => exact (Push.writes_restore s id).2
  | link l => exact (Push.writes_link s l).2
  | pending pa => exact (Push.writes_pending s pa).2
  | decision dec => exact (Push.writes_decision s dec).2
  | namespaceMeta x => exact (Push.writes_namespaceMeta s x).2
  | namespaceMetaClear ns => exact (Push.writes_namespaceMetaClear s ns).2

section Records

variable {h : Host} {t : Tick} {db db' : Db}

theorem Apart.takeIn (ha : Apart db) {mem : Memory}
    (hok : mem.Valid h.rfc3339 → h.insertFault mem = false → Fresh db mem) : Apart (h.takeIn db mem) := by
  obtain ⟨id, hv, hf, hi⟩ | ⟨he, -⟩ := takeIn_cases h db mem
  · exact ha.insert (hok hv hf) hi
  · rwa [he]

/-- An executed action brings in no id but the one drawn for it. -/
theorem Apart.execute (ha : Apart db) {x : Db.Execution} {id : String} {res : Option String}
    (hfresh : db.archived.find x.newId = none) (he : db.executePendingAction x id = .ok (db', res)) :
    Apart db' := by
  obtain ⟨mem, actualId, hid, hi⟩ | ⟨mid, rfl⟩ | ⟨mid, toNs, cloneId, hp⟩ | ⟨mid, res, hu⟩ | rfl :=
    Db.executePendingAction_cases he
  · exact ha.insert (fun _ => hid.symm ▸ hfresh) hi
  · exact ha.delete mid
  · obtain ⟨source, db₁, -, -, -, hi, hframe⟩ := Db.promoteToNamespace_cases hp
    rw [hframe]
    exact (ha.insert (fun _ => hfresh) hi).of_eq rfl rfl
  · obtain ⟨-, -, rfl⟩ | ⟨e, -, -, hframe, hrows⟩ := Db.update_cases hu
    · exact ha
    · refine ha.of_get (by rw [hframe]) fun i hold hnew => absurd ?_ hnew
      refine Indexed.find_eq_none.mpr fun r hr hri => ?_
      rw [Indexed.mem_def, hrows, List.mem_map] at hr
      obtain ⟨r₀, hr₀, rfl⟩ := hr
      refine Indexed.find_eq_none.mp hold r₀ hr₀ ?_
      rw [← hri]
      split_ifs <;> rfl
  · exact ha

theorem Apart.decide (ha : Apart db) {dec : PendingDecision}
    (hok : dec.approved = true → db.archived.find (t.newId dec.id) = none) :
    Apart (Push.decide h t db dec).1 := by
  unfold Push.decide
  have hdecided : Apart (db.decidePendingAction dec.id dec.approved dec.decider t.now).1 := ha.of_eq rfl rfl
  have harch : (db.decidePendingAction dec.id dec.approved dec.decider t.now).1.archived = db.archived := rfl
  cases hp : db.decidePendingAction dec.id dec.approved dec.decider t.now with
  | mk db₁ changed =>
    rw [hp] at hdecided harch
    cases changed with
    | false => exact hdecided
    | true =>
      simp only
      split_ifs with happ
      · split
        · rename_i hx
          refine hdecided.execute ?_ hx
          rw [harch]
          exact hok happ
        · exact hdecided
      · exact hdecided

theorem Apart.onEntry (ha : Apart db) {e : Push.Entry} (hok : EntryOk h t db e) : Apart (onEntry h t db e) := by
  cases e with
  | memory mem => exact ha.takeIn hok
  | deletion id =>
    show Apart (Push.onDeletion db id)
    unfold Push.onDeletion
    split_ifs
    · exact ha.delete id
    · exact ha
  | archive id =>
    show Apart (Push.onArchive t db id)
    unfold Push.onArchive
    split_ifs
    · exact ha.archiveMemory id _ _
    · exact ha
  | restore id =>
    show Apart (Push.onRestore t db id)
    unfold Push.onRestore
    split_ifs
    · cases hr : db.restoreArchived id t.now with
      | error e => exact ha
      | ok res => exact ha.restoreArchived hr
    · exact ha
  | link l =>
    show Apart (Push.onLink h t db l)
    unfold Push.onLink
    split_ifs
    · split
      · exact ha
      · split
        · rename_i hl
          rw [Db.createLinkInbound_frame hl]
          exact ha.of_eq rfl rfl
        · exact ha
    · exact ha
  | pending pa =>
    show Apart (Push.onPending db pa)
    unfold Push.onPending
    split_ifs
    · exact ha.of_eq rfl rfl
    · exact ha
  | decision dec =>
    show Apart (Push.onDecision h t db dec)
    unfold Push.onDecision
    split_ifs
    · exact ha.decide hok
    · exact ha
  | namespaceMeta x =>
    show Apart (Push.onNamespaceMeta t db x)
    unfold Push.onNamespaceMeta Db.setNamespaceStandard
    split_ifs <;> exact ha.of_eq rfl rfl
  | namespaceMetaClear ns =>
    show Apart (Push.onNamespaceMetaClear db ns)
    unfold Push.onNamespaceMetaClear
    split_ifs <;> exact ha.of_eq rfl rfl

theorem Apart.entry {s : Push} {e : Push.Entry} (ha : Apart s.db) (hok : EntryOk h t s.db e) :
    Apart (Push.entry h t false s e).db := by
  rw [entry_db]
  exact ha.onEntry hok

end Records

/-! ## Runs -/

open LongTier (settle settle_ind)

/-- The calls of a run. -/
inductive Op where
  | insert (mem : Memory)
  | insertIfNewer (mem : Memory)
  | archiveMemory (id : String) (reason : Option String) (now : String)
  | restoreArchived (id now : String)
  | gc (archive : Bool) (now : String)
  | forget (fts : Fts) (ns pattern : Option String) (tier : Option Tier) (archive : Bool) (now : String)
  | delete (id : String)
  | syncPush (h : Host) (t : Tick) (header : Option String) (b : SyncPushBody)

def step (db : Db) : Op → Db
  | .insert mem => settle db (db.insert mem)
  | .insertIfNewer mem => settle db (db.insertIfNewer mem)
  | .archiveMemory id reason now => (db.archiveMemory id reason now).1
  | .restoreArchived id now => settle db (db.restoreArchived id now)
  | .gc archive now => (db.gc archive now).1
  | .forget fts ns pattern tier archive now => settle db (db.forget fts ns pattern tier archive now)
  | .delete id => (db.delete id).1
  | .syncPush h t header b => (AiMemory.syncPush h t header b db).1

/-- No upsert files a row under an archived id. -/
def OpOk (db : Db) : Op → Prop
  | .insert mem | .insertIfNewer mem => Fresh db mem
  | .syncPush h t header b => b.Accepted t header → b.dryRun = false →
      ∀ n e, (Push.entries b)[n]? = some e → EntryOk h t (Push.after h t false b db n).db e
  | _ => True

/-- Every archive statement of a call leaves the archived copies of other content as they are, and a push keeps
the copies apart from record to record. -/
def Clean (db : Db) : Op → Prop
  | .archiveMemory id _ _ => ¬Replaces db fun r => r.id = id
  | .gc true now => ¬Replaces db (Db.isExpired now)
  | .forget fts ns pattern tier true _ => ¬Replaces db (Db.forgetSelects fts ns pattern tier)
  | .syncPush h t header b => b.Accepted t header → b.dryRun = false → ∀ n,
      Apart (Push.after h t false b db n).db ∧ ∀ id, (Push.entries b)[n]? = some (.archive id) →
        ¬Replaces (Push.after h t false b db n).db fun r => r.id = id
  | _ => True

section Run

variable {db : Db}

variable {b : SyncPushBody}

theorem Apart.after {h : Host} {t : Tick} (ha : Apart db)
    (hok : ∀ n e, (Push.entries b)[n]? = some e → EntryOk h t (Push.after h t false b db n).db e) (n : ℕ) :
    Apart (Push.after h t false b db n).db := by
  induction n with
  | zero => exact ha
  | succ n ih =>
    cases he : (Push.entries b)[n]? with
    | none =>
      have hstop : Push.after h t false b db (n + 1) = Push.after h t false b db n := by
        unfold Push.after
        rw [List.take_add_one, he]
        simp
      rwa [hstop]
    | some e =>
      rw [Push.after_succ he]
      exact ih.entry (hok n e he)

theorem Apart.body {h : Host} {t : Tick} {agent : String} (hd : b.dryRun = false)
    (ha : Apart (Push.records h t b db).db) : Apart (Push.body h t agent b db).db := by
  refine ha.of_get ?_ fun _ hold hnew =>
    absurd ((Db.get_eq_none_iff_of_live (Push.body_live agent b db)).mpr hold) hnew
  rw [(Push.body_tables hd agent db).1, (Push.records_spec b db).2, hd]
  rfl

theorem Apart.syncPush {h : Host} {t : Tick} {header : Option String} (ha : Apart db)
    (hok : OpOk db (.syncPush h t header b)) : Apart (AiMemory.syncPush h t header b db).1 := by
  obtain ⟨hacc, agent, hdb⟩ | ⟨-, hdb⟩ := syncPush_accepted h t header b db
  · rw [hdb]
    cases hd : b.dryRun with
    | true =>
      rw [Push.body_dry agent hd, (Push.records_spec b db).2, hd]
      exact ha
    | false =>
      refine Apart.body hd ?_
      rw [Push.records_eq_foldl, hd]
      have hend := ha.after (hok hacc hd) (Push.entries b).length
      unfold Push.after at hend
      rwa [List.take_length] at hend
  · rw [hdb]
    exact ha

theorem apart_step (ha : Apart db) {op : Op} (hok : OpOk db op) : Apart (step db op) := by
  cases op with
  | insert mem => exact settle_ind ha fun _ _ hi => ha.insert hok hi
  | insertIfNewer mem => exact settle_ind ha fun _ _ hi => ha.insert hok hi
  | archiveMemory id reason now => exact ha.archiveMemory id reason now
  | restoreArchived id now => exact settle_ind ha fun _ _ hr => ha.restoreArchived hr
  | gc archive now => exact ha.gc archive now
  | forget fts ns pattern tier archive now => exact settle_ind ha fun _ _ hf => ha.forget hf
  | delete id => exact ha.delete id
  | syncPush h t header b => exact ha.syncPush hok

theorem clean_of_apart (ha : Apart db) {op : Op} (hok : OpOk db op) : Clean db op := by
  cases op with
  | archiveMemory id reason now => exact ha.not_replaces _
  | gc archive now =>
    cases archive with
    | true => exact ha.not_replaces _
    | false => trivial
  | forget fts ns pattern tier archive now =>
    cases archive with
    | true => exact ha.not_replaces _
    | false => trivial
  | syncPush h t header b =>
    intro hacc hd n
    have hn := ha.after (hok hacc hd) n
    exact ⟨hn, fun id _ => hn.not_replaces _⟩
  | insert mem | insertIfNewer mem | restoreArchived id now | delete id => trivial

end Run

/-- In every run from an empty database in which no upsert files a row under an archived id, no id is ever live
and archived at once, and no archive operation replaces an archived copy of other content. -/
theorem apart_of_meets (ops : List Op) (hok : Meets step OpOk Db.empty ops) :
    (∀ s ∈ states step Db.empty ops, Apart s) ∧ Meets step Clean Db.empty ops := by
  have hempty : Apart Db.empty := fun id hid => absurd rfl hid
  refine ⟨forall_states_of_meets (fun s op hs hC => apart_step hs hC) hempty hok, ?_⟩
  exact meets_of_meets (fun s op hs hC => ⟨clean_of_apart hs hC, apart_step hs hC⟩) hempty hok

/-- A note that is stored, archived and restored. -/
theorem note_restored :
    let ops : List Op := [.insert (note "m1" "Rota" "2026-01-01T00:00:00+00:00"),
      .archiveMemory "m1" none "2026-01-02T00:00:00+00:00", .restoreArchived "m1" "2026-01-03T00:00:00+00:00"]
    (∀ s ∈ states step Db.empty ops, Apart s) ∧ Meets step Clean Db.empty ops :=
  apart_of_meets _ ⟨fun _ => rfl, trivial, trivial, trivial⟩

/-- A peer pushes a newer version of a note that was archived here: the note is live and archived, and archiving
it again replaces the first copy. -/
theorem archived_note_replaced :
    let ops : List Op := [.insert (note "m1" "Rota" "2026-01-01T00:00:00+00:00"),
      .archiveMemory "m1" none "2026-01-02T00:00:00+00:00",
      .syncPush (plainHost ["2026-01-03T00:00:00+00:00"] fun _ => false) (tickAt "2026-01-03T00:00:00+00:00") none
        { senderAgentId := "bob"
          memories := [{ note "m1" "Rota" "2026-01-03T00:00:00+00:00" with content := "see the board" }] },
      .archiveMemory "m1" none "2026-01-04T00:00:00+00:00"]
    ¬(∀ s ∈ states step Db.empty ops, Apart s) ∧ ¬Meets step Clean Db.empty ops := by
  intro ops
  let pushed := (ops.take 3).foldl step Db.empty
  have hlive : pushed.get "m1" =
      some { note "m1" "Rota" "2026-01-03T00:00:00+00:00" with
        content := "see the board", embedding := none, embeddingDim := none } := by decide
  have harch : (pushed.archived.find "m1").map (fun a => a.content) = some "see the wiki" := by decide
  obtain ⟨a, ha, hcontent⟩ := Option.map_eq_some_iff.mp harch
  constructor
  · intro h
    have hmem : pushed ∈ states step Db.empty ops :=
      mem_states_iff.mpr ⟨ops.take 3, List.take_prefix 3 ops, rfl⟩
    have hnone := h pushed hmem "m1" (by rw [hlive]; exact fun hc => by cases hc)
    rw [ha] at hnone
    cases hnone
  · rintro ⟨-, -, -, hclean, -⟩
    obtain ⟨hrow, -⟩ := Db.get_eq_some.mp hlive
    refine hclean ⟨_, hrow, by decide, a, ha, ?_⟩
    rw [hcontent]
    decide

end Coexist

end AiMemory
