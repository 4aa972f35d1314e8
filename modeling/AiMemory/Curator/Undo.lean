import AiMemory.Curator.Records

/-!
# Undoing an entry of the rollback log

`reverse_rollback_entry` of `autonomy.rs`. The snapshots of an entry are stored again with the upsert on title and namespace, after a
check that looks for another memory under these among the first 50 memories that `list` returns for the namespace. The statements
are not in a transaction, so a call is modelled by the databases that it leaves behind, one after each statement.

`undo_iff` says when a call changes nothing but the memories that its entry names, and when a second call changes nothing at all.
-/

namespace AiMemory

open Relational Machine

namespace Curator

/-! ## The call -/

/-- `check_no_collision`, for a snapshot. -/
def checkNoCollision (db : Db) (m : Memory) (now : String) : Except String Unit :=
  let rows := db.list { ListQuery.everything 50 with ns := some m.ns } now
  match rows.find? fun row => row.ns = m.ns ∧ row.title = m.title ∧ row.id ≠ m.id with
  | some row =>
    let id := row.id
    let title := m.title.quote
    let ns := m.ns.quote
    .error s!"rollback aborted: memory {id} now occupies (title={title}, namespace={ns}) — reverting would overwrite it. Resolve the conflict manually."
  | none => .ok ()

/-- The check of every original of a merge; each reads the clock. -/
def checkOriginals (db : Db) (clock : ℕ → String) (originals : List Memory) : Except String Unit :=
  originals.zipIdx.forM fun x => checkNoCollision db x.1 (clock x.2)

/-- `insert` of one snapshot after another, up to the first that fails. -/
def insertEach (db : Db) : List Memory → List Db × Except String Unit
  | [] => ([db], .ok ())
  | m :: ms =>
    match db.insert m with
    | .error e => ([db], .error e)
    | .ok (db', _) =>
      let (dbs, result) := insertEach db' ms
      (db :: dbs, result)

/-- `reverse_rollback_entry`: the databases it leaves behind, and its result. -/
def reverseRollbackEntry (db : Db) (clock : ℕ → String) (now : String) : RollbackEntry → List Db × Except String Bool
  | .consolidate originals resultId =>
    match checkOriginals db clock originals with
    | .error e => ([db], .error e)
    | .ok () =>
      let (db₁, existed) := db.delete resultId
      let (dbs, result) := insertEach db₁ originals
      (db :: dbs, result.map fun _ => existed)
  | .forget snapshot =>
    match checkNoCollision db snapshot (clock 0) with
    | .error e => ([db], .error e)
    | .ok () =>
      let (dbs, result) := insertEach db [snapshot]
      (dbs, result.map fun _ => true)
  | .priorityAdjust memoryId before _ =>
    match db.update memoryId { priority := some before } now with
    | .error e => ([db], .error e)
    | .ok (db', _) => ([db, db'], .ok true)

def RollbackEntry.writes : RollbackEntry → List String
  | consolidate originals _ => originals.map fun m => m.id
  | forget snapshot => [snapshot.id]
  | priorityAdjust memoryId _ _ => [memoryId]

def RollbackEntry.deletes : RollbackEntry → List String
  | consolidate _ resultId => [resultId]
  | _ => []

/-! ## Storing snapshots -/

section Snapshots

variable {db db' : Db} {m : Memory} {ms : List Memory} {i : String} {r : MemoryRow}

/-- The same memories are live. -/
def SameRows (db db' : Db) : Prop := ∀ i, db'.get i = db.get i

/-- The snapshot can be stored: where its title is free, so is its id. -/
def Fits (db : Db) (m : Memory) : Prop := db.getKey m.key = none → db.get m.id = none

instance (db : Db) (m : Memory) : Decidable (Fits db m) := inferInstanceAs (Decidable (_ → _))

/-- Storing the snapshot changes nothing: the row of its title has all that it would write, or it cannot be stored. -/
def Keeps (db : Db) (m : Memory) : Prop :=
  match db.getKey m.key with
  | some stored => upsertRow stored m = stored
  | none => db.get m.id ≠ none

instance (db : Db) (m : Memory) : Decidable (Keeps db m) := by
  unfold Keeps
  split <;> infer_instance

/-- Storing the snapshots up to the first that cannot be stored changes nothing. -/
def Idle (db : Db) : List Memory → Prop
  | [] => True
  | m :: ms => Keeps db m ∧ (db.getKey m.key ≠ none → Idle db ms)

instance Idle.decidable (db : Db) (ms : List Memory) : Decidable (Idle db ms) :=
  match ms with
  | [] => isTrue trivial
  | _ :: ms => @instDecidableAnd _ _ _ (@instDecidableForall _ _ _ (Idle.decidable db ms))

variable {id : String}

theorem fits_of_ok (h : db.insert m = .ok (db', id)) : Fits db m := by
  intro hkey
  by_contra htaken
  obtain ⟨e, he⟩ := Db.insertOnConflict_error_iff.mpr ⟨hkey, htaken⟩
  cases h.symm.trans he

theorem not_fits_of_error {e : String} (h : db.insert m = .error e) : ¬Fits db m := by
  obtain ⟨hkey, htaken⟩ := Db.insertOnConflict_error_iff.mp ⟨e, h⟩
  exact fun hfits => htaken (hfits hkey)

theorem map_of_getKey_none {k : String × String} (hkey : db.getKey k = none) (f : MemoryRow → MemoryRow) (i : String) :
    ((db.get i).map fun r => if r.key = k then f r else r) = db.get i := by
  cases hr : db.get i with
  | none => rfl
  | some r =>
    rw [Option.map_some, if_neg]
    intro hk
    rw [← hk, Db.getKey_of_mem (Db.get_eq_some.mp hr).1] at hkey
    cases hkey

theorem get_insertOnConflict_of_ne {merge : MemoryRow → MemoryRow} {hid : ∀ r, (merge r).id = r.id}
    {hkey : ∀ r, (merge r).key = r.key} (h : db.insertOnConflict m merge hid hkey = .ok (db', id)) (hne : m.id ≠ i) :
    db'.get i = (db.get i).map fun r => if r.key = m.key then merge r else r := by
  rcases Db.insertOnConflict_cases h with ⟨stored, hs, -, rfl⟩ | ⟨hfree, -, -, t, ht, rfl⟩
  · rw [Db.get_updateRow]
    refine Option.map_congr fun r hr => ?_
    obtain ⟨hmem, hk⟩ := Db.getKey_eq_some.mp hs
    obtain ⟨hlive, rfl⟩ := Db.get_eq_some.mp hr
    refine if_congr ⟨fun hid => ?_, fun hkey => ?_⟩ rfl rfl
    · rw [Indexed.eq_of_pk hlive hmem hid, hk]
    · exact congrArg (fun r : MemoryRow => r.id) (Indexed.eq_of_uk hlive hmem (hkey.trans hk.symm))
  · rw [map_of_getKey_none hfree]
    show t.find i = _
    rw [Indexed.find_insertNew? ht, if_neg (show ¬m.toRow.id = i from hne), Option.or_none]
    rfl

theorem get_insertOrSkip_of_ne (hne : m.id ≠ i) :
    (db.insertOrSkip m).get i = (db.get i).map fun r => if r.key = m.key then upsertRow r m else r := by
  rcases Db.insertOrSkip_cases db m with ⟨id, hi⟩ | ⟨hskip, hkey, -⟩
  · exact get_insertOnConflict_of_ne hi hne
  · rw [hskip, map_of_getKey_none hkey]

/-- A row that no snapshot has the id of stays all along exactly if every snapshot of its title would leave it. -/
theorem forall_states_get_iff (hr : db.get i = some r) (hms : ∀ m ∈ ms, m.id ≠ i) :
    (∀ t ∈ states Db.insertOrSkip db ms, t.get i = some r) ↔ ∀ m ∈ ms, m.key = r.key → upsertRow r m = r := by
  induction ms generalizing db with
  | nil =>
    refine iff_of_true (fun t ht => ?_) fun m hm => absurd hm List.not_mem_nil
    rwa [List.mem_singleton.mp ht]
  | cons m ms ih =>
    obtain ⟨hm, hms⟩ := List.forall_mem_cons.mp hms
    rw [states, List.forall_mem_cons, List.forall_mem_cons, and_iff_right hr]
    have hstep : (db.insertOrSkip m).get i = _ := get_insertOrSkip_of_ne hm
    rw [hr, Option.map_some] at hstep
    by_cases hk : r.key = m.key
    · rw [if_pos hk] at hstep
      by_cases hsame : upsertRow r m = r
      · rw [hsame] at hstep
        rw [ih hstep hms]
        exact (and_iff_right fun _ => hsame).symm
      · refine iff_of_false (fun h => hsame ?_) fun h => hsame (h.1 hk.symm)
        exact Option.some.inj (hstep.symm.trans (h _ mem_states_self))
    · rw [if_neg hk] at hstep
      rw [ih hstep hms]
      exact (and_iff_right fun h => absurd h.symm hk).symm

theorem forall_states_get_none (hnone : db.get i = none) (hms : ∀ m ∈ ms, m.id ≠ i) :
    ∀ t ∈ states Db.insertOrSkip db ms, t.get i = none := by
  induction ms generalizing db with
  | nil =>
    intro t ht
    rwa [List.mem_singleton.mp ht]
  | cons m ms ih =>
    obtain ⟨hm, hms⟩ := List.forall_mem_cons.mp hms
    refine List.forall_mem_cons.mpr ⟨hnone, ih ?_ hms⟩
    rw [get_insertOrSkip_of_ne hm, hnone]
    rfl

theorem insertEach_ok_iff : (insertEach db ms).2 = .ok () ↔ Meets Db.insertOrSkip Fits db ms := by
  induction ms generalizing db with
  | nil => exact iff_of_true rfl trivial
  | cons m ms ih =>
    unfold insertEach
    cases hi : db.insert m with
    | error e => exact iff_of_false nofun fun h => not_fits_of_error hi h.1
    | ok res =>
      rw [Meets, and_iff_right (fits_of_ok hi), Db.insertOrSkip_of_ok hi]
      exact ih

theorem insertEach_of_meets (h : Meets Db.insertOrSkip Fits db ms) : (insertEach db ms).1 = states Db.insertOrSkip db ms := by
  induction ms generalizing db with
  | nil => rfl
  | cons m ms ih =>
    unfold insertEach
    cases hi : db.insert m with
    | error e => exact absurd h.1 (not_fits_of_error hi)
    | ok res =>
      have hrest := h.2
      rw [Db.insertOrSkip_of_ok hi] at hrest
      rw [states, Db.insertOrSkip_of_ok hi]
      exact congrArg _ (ih hrest)

theorem sameRows_of_eq (h : db'.memories = db.memories) : SameRows db db' := fun i => congrArg (fun t => Indexed.find t i) h

theorem insertOnConflict_keeps {merge : MemoryRow → MemoryRow} {hid : ∀ r, (merge r).id = r.id}
    {hkey : ∀ r, (merge r).key = r.key} (h : db.insertOnConflict m merge hid hkey = .ok (db', id)) :
    (SameRows db db' → ∃ stored, db.getKey m.key = some stored ∧ merge stored = stored) ∧
      ∀ stored, db.getKey m.key = some stored → merge stored = stored → db'.memories = db.memories := by
  rcases Db.insertOnConflict_cases h with ⟨stored, hs, -, rfl⟩ | ⟨hfree, hget, -, t, ht, rfl⟩
  · obtain ⟨hmem, -⟩ := Db.getKey_eq_some.mp hs
    constructor
    · intro hsame
      have hrow := hsame stored.id
      rw [Db.get_updateRow, Db.get_of_mem hmem, Option.map_some, if_pos rfl] at hrow
      exact ⟨stored, hs, Option.some.inj hrow⟩
    · intro stored' hs' hkeep
      cases hs.symm.trans hs'
      refine Indexed.ext ((List.map_congr_left fun r hr => ?_).trans (List.map_id _))
      split_ifs with hr'
      · rw [Indexed.eq_of_pk hr hmem hr']
        exact hkeep
      · rfl
  · constructor
    · intro hsame
      have hnew : t.find m.id = some m.toRow := Indexed.find_of_mem ((Indexed.mem_insertNew? ht).mpr (Or.inr rfl))
      cases hnew.symm.trans ((hsame m.id).trans hget)
    · intro stored hs
      cases hfree.symm.trans hs

/-- A store leaves every row exactly if the row of its title has all that it would write; then it leaves the table. -/
theorem insert_keeps (h : db.insert m = .ok (db', id)) :
    (SameRows db db' → Keeps db m ∧ db.getKey m.key ≠ none) ∧ (Keeps db m → db'.memories = db.memories) := by
  obtain ⟨hsame, hkeep⟩ := insertOnConflict_keeps h
  unfold Keeps
  constructor
  · intro hrows
    obtain ⟨stored, hs, heq⟩ := hsame hrows
    rw [hs]
    exact ⟨heq, Option.some_ne_none stored⟩
  · cases hs : db.getKey m.key with
    | some stored => exact hkeep stored hs
    | none => exact fun htaken => absurd (fits_of_ok h hs) htaken

theorem idle_of_eq (h : db'.memories = db.memories) : Idle db' ms ↔ Idle db ms := by
  induction ms with
  | nil => exact Iff.rfl
  | cons m ms ih =>
    unfold Idle Keeps Db.getKey Db.get
    rw [h, ih]

/-- Storing snapshots leaves every row all along exactly if those up to the first that cannot be stored change nothing. -/
theorem forall_insertEach_iff : (∀ t ∈ (insertEach db ms).1, SameRows db t) ↔ Idle db ms := by
  induction ms generalizing db with
  | nil =>
    refine iff_of_true (fun t ht => ?_) trivial
    rw [List.mem_singleton.mp ht]
    exact fun i => rfl
  | cons m ms ih =>
    unfold insertEach Idle
    cases hi : db.insert m with
    | error e =>
      obtain ⟨hkey, htaken⟩ := Db.insertOnConflict_error_iff.mp ⟨e, hi⟩
      refine iff_of_true (fun t ht => ?_) ⟨?_, fun h => absurd hkey h⟩
      · rw [List.mem_singleton.mp ht]
        exact fun i => rfl
      · unfold Keeps
        rw [hkey]
        exact htaken
    | ok res =>
      obtain ⟨db₁, id⟩ := res
      obtain ⟨hkeeps, hsame⟩ := insert_keeps hi
      rw [List.forall_mem_cons, and_iff_right (sameRows_of_eq rfl)]
      constructor
      · intro h
        have hfirst : SameRows db db₁ := h db₁ ?_
        · obtain ⟨hk, htaken⟩ := hkeeps hfirst
          have heq := hsame hk
          refine ⟨hk, fun _ => (idle_of_eq heq).mp (ih.mp fun t ht i => ?_)⟩
          exact (h t ht i).trans (hfirst i).symm
        · cases ms with
          | nil => exact List.mem_cons_self
          | cons m' ms' =>
            unfold insertEach
            cases db₁.insert m' <;> exact List.mem_cons_self
      · rintro ⟨hk, hrest⟩ t ht i
        have heq := hsame hk
        have htaken : db.getKey m.key ≠ none := (hkeeps (sameRows_of_eq heq)).2
        exact (ih.mpr ((idle_of_eq heq).mpr (hrest htaken)) t ht i).trans (sameRows_of_eq heq i)

theorem live_states (h : db.get i ≠ none) : ∀ t ∈ states Db.insertOrSkip db ms, t.get i ≠ none := by
  refine forall_states_of_meets (C := fun _ _ => True) (fun db m h _ => ?_) h meets_true
  obtain ⟨r, hr⟩ := Option.ne_none_iff_exists'.mp h
  obtain ⟨r', hr', -⟩ := get_insertOrSkip m hr
  rw [hr']
  exact Option.some_ne_none r'

theorem mem_insertEach_self (db : Db) (ms : List Memory) : db ∈ (insertEach db ms).1 := by
  cases ms with
  | nil => exact List.mem_cons_self
  | cons m ms =>
    unfold insertEach
    cases db.insert m <;> exact List.mem_cons_self

theorem memories_delete_of_none (h : db.get id = none) : (db.delete id).1.memories = db.memories := by
  refine Indexed.ext (List.filter_eq_self.mpr fun r hr => ?_)
  rw [decide_eq_true_eq]
  rintro rfl
  cases (Db.get_of_mem hr).symm.trans h

/-- A merge is taken back without any change exactly if its memory is gone and its sources are as they were. -/
theorem forall_delete_insertEach_iff : (∀ t ∈ db :: (insertEach (db.delete id).1 ms).1, SameRows db t) ↔
    db.get id = none ∧ Idle db ms := by
  rw [List.forall_mem_cons, and_iff_right (sameRows_of_eq rfl)]
  constructor
  · intro h
    have hid := h _ (mem_insertEach_self _ ms) id
    rw [Db.get_delete, if_pos rfl] at hid
    have heq := memories_delete_of_none hid.symm
    exact ⟨hid.symm, (idle_of_eq heq).mp (forall_insertEach_iff.mp fun t ht i => (h t ht i).trans (sameRows_of_eq heq i).symm)⟩
  · rintro ⟨hid, hidle⟩ t ht i
    have heq := memories_delete_of_none hid
    exact (forall_insertEach_iff.mpr ((idle_of_eq heq).mpr hidle) t ht i).trans (sameRows_of_eq heq i)

end Snapshots

/-! ## What a call changes -/

section Calls

variable {db : Db} {clock : ℕ → String} {now : String}

/-- The call names what it changes: it fails and changes nothing, or, after each statement, the memories that the entry does not have
the state of are as they were, but for the merged one, which alone is deleted. -/
def Contained (db : Db) (entry : RollbackEntry) (call : List Db × Except String Bool) : Prop :=
  match call.2 with
  | .error _ => ∀ t ∈ call.1, SameRows db t
  | .ok _ => ∀ t ∈ call.1, ∀ i, (i ∉ entry.writes → t.get i = db.get i ∨ i ∈ entry.deletes ∧ t.get i = none) ∧
      (t.get i = none → db.get i = none ∨ i ∈ entry.deletes)

/-- A snapshot is stored under its own id: a row that the entry does not name, with the title of a snapshot, has all that the
snapshot would write. -/
def Spared (db : Db) (named : List String) (ms : List Memory) : Prop :=
  ∀ r ∈ db.memories, r.id ∉ named → ∀ m ∈ ms, m.key = r.key → upsertRow r m = r

/-- Nothing that the entry does not name is in the way of a call that gets past its check; and where a snapshot cannot be stored, the
statements before it change nothing. -/
def Unobstructed (db : Db) (clock : ℕ → String) : RollbackEntry → Prop
  | .consolidate originals resultId => checkOriginals db clock originals = .ok () →
      (Meets Db.insertOrSkip Fits (db.delete resultId).1 originals →
        Spared db (resultId :: originals.map fun m => m.id) originals) ∧
      (¬Meets Db.insertOrSkip Fits (db.delete resultId).1 originals → db.get resultId = none ∧ Idle db originals)
  | .forget snapshot => checkNoCollision db snapshot (clock 0) = .ok () → Spared db [snapshot.id] [snapshot]
  | .priorityAdjust .. => True

/-- What a call would write is there: the merged memory is gone, the rows of the snapshots have all that these would write, and the
priority and the time of the update are those of the row. -/
def Settled (db : Db) (clock : ℕ → String) (now : String) : RollbackEntry → Prop
  | .consolidate originals resultId => checkOriginals db clock originals = .ok () → db.get resultId = none ∧ Idle db originals
  | .forget snapshot => checkNoCollision db snapshot (clock 0) = .ok () → Keeps db snapshot
  | .priorityAdjust memoryId before _ => ∀ r ∈ db.get memoryId, applyUpdate { priority := some before } now r = r

/-- A call that stores its snapshots all. -/
theorem contained_states_iff (ms : List Memory) (deleted : Option String) {start : Db}
    (hstart : ∀ i, start.get i = if deleted = some i then none else db.get i) :
    (∀ t ∈ states Db.insertOrSkip start ms, ∀ i,
        (i ∉ ms.map (fun m => m.id) → t.get i = db.get i ∨ deleted = some i ∧ t.get i = none) ∧
          (t.get i = none → db.get i = none ∨ deleted = some i)) ↔
      Spared db (deleted.toList ++ ms.map fun m => m.id) ms := by
  have hne : ∀ i, i ∉ ms.map (fun m => m.id) → ∀ m ∈ ms, m.id ≠ i := fun i hi m hm hid => hi (hid ▸ List.mem_map_of_mem hm)
  constructor
  · intro h r hr hnamed
    rw [List.mem_append, not_or, Option.mem_toList] at hnamed
    have hget : start.get r.id = some r := by rw [hstart, if_neg hnamed.1, Db.get_of_mem hr]
    refine (forall_states_get_iff hget (hne r.id hnamed.2)).mp fun t ht => ?_
    rcases (h t ht r.id).1 hnamed.2 with heq | ⟨hdel, -⟩
    · rw [heq, Db.get_of_mem hr]
    · exact absurd hdel hnamed.1
  · intro h t ht i
    constructor
    · intro hi
      by_cases hdel : deleted = some i
      · exact Or.inr ⟨hdel, forall_states_get_none ((hstart i).trans (if_pos hdel)) (hne i hi) t ht⟩
      · have hget : start.get i = db.get i := (hstart i).trans (if_neg hdel)
        refine Or.inl ?_
        cases hr : db.get i with
        | none => exact forall_states_get_none (hget.trans hr) (hne i hi) t ht
        | some r =>
          obtain ⟨hmem, rfl⟩ := Db.get_eq_some.mp hr
          refine (forall_states_get_iff (hget.trans hr) (hne r.id hi)).mpr (h r hmem ?_) t ht
          rw [List.mem_append, not_or, Option.mem_toList]
          exact ⟨hdel, hi⟩
    · intro hnone
      by_contra hno
      obtain ⟨hlive, hdel⟩ := not_or.mp hno
      exact live_states (((hstart i).trans (if_neg hdel)) ▸ hlive) t ht hnone

theorem contained_self {e : String} {entry : RollbackEntry} : Contained db entry ([db], .error e) := fun t ht => by
  rw [List.mem_singleton.mp ht]
  exact sameRows_of_eq rfl

theorem insertEach_error {ms : List Memory} (h : ¬Meets Db.insertOrSkip Fits db ms) : ∃ e, (insertEach db ms).2 = .error e := by
  cases hres : (insertEach db ms).2 with
  | error e => exact ⟨e, rfl⟩
  | ok u => exact absurd (insertEach_ok_iff.mp hres) h

variable {originals : List Memory} {resultId : String} {snapshot : Memory}

theorem reverse_consolidate (hcheck : checkOriginals db clock originals = .ok ()) :
    reverseRollbackEntry db clock now (.consolidate originals resultId) =
      (db :: (insertEach (db.delete resultId).1 originals).1,
        (insertEach (db.delete resultId).1 originals).2.map fun _ => (db.delete resultId).2) := by
  simp only [reverseRollbackEntry, hcheck]

theorem reverse_forget (hcheck : checkNoCollision db snapshot (clock 0) = .ok ()) :
    reverseRollbackEntry db clock now (.forget snapshot) =
      ((insertEach db [snapshot]).1, (insertEach db [snapshot]).2.map fun _ => true) := by
  simp only [reverseRollbackEntry, hcheck]

theorem contained_consolidate_iff (hcheck : checkOriginals db clock originals = .ok ()) :
    Contained db (.consolidate originals resultId) (reverseRollbackEntry db clock now (.consolidate originals resultId)) ↔
      (Meets Db.insertOrSkip Fits (db.delete resultId).1 originals →
        Spared db (resultId :: originals.map fun m => m.id) originals) ∧
      (¬Meets Db.insertOrSkip Fits (db.delete resultId).1 originals → db.get resultId = none ∧ Idle db originals) := by
  rw [reverse_consolidate hcheck]
  by_cases hmeets : Meets Db.insertOrSkip Fits (db.delete resultId).1 originals
  · rw [insertEach_ok_iff.mpr hmeets, insertEach_of_meets hmeets, forall_prop_of_true hmeets,
      and_iff_left fun h => absurd hmeets h]
    have hstart : ∀ i, (db.delete resultId).1.get i = if some resultId = some i then none else db.get i := fun i => by
      rw [Db.get_delete]
      exact if_congr ⟨fun h => congrArg some h.symm, fun h => (Option.some.inj h).symm⟩ rfl rfl
    refine Iff.trans ?_ (contained_states_iff originals (some resultId) hstart)
    have hdel : ∀ i, i ∈ (RollbackEntry.consolidate originals resultId).deletes ↔ some resultId = some i := fun i =>
      List.mem_singleton.trans ⟨fun h => congrArg some h.symm, fun h => (Option.some.inj h).symm⟩
    show (∀ t ∈ db :: states Db.insertOrSkip (db.delete resultId).1 originals, ∀ i, _) ↔ _
    rw [List.forall_mem_cons]
    simp only [hdel]
    exact and_iff_right fun i => ⟨fun _ => Or.inl trivial, fun h => Or.inl h⟩
  · obtain ⟨e, herror⟩ := insertEach_error hmeets
    rw [herror, and_iff_right fun h => absurd h hmeets, forall_prop_of_true hmeets]
    exact forall_delete_insertEach_iff

theorem contained_forget_iff (hcheck : checkNoCollision db snapshot (clock 0) = .ok ()) :
    Contained db (.forget snapshot) (reverseRollbackEntry db clock now (.forget snapshot)) ↔
      Spared db [snapshot.id] [snapshot] := by
  rw [reverse_forget hcheck]
  by_cases hmeets : Meets Db.insertOrSkip Fits db [snapshot]
  · rw [insertEach_ok_iff.mpr hmeets, insertEach_of_meets hmeets]
    refine Iff.trans ?_ (contained_states_iff [snapshot] none fun i => rfl)
    refine forall₂_congr fun t ht => forall_congr' fun i => ?_
    show (i ∉ [snapshot.id] → t.get i = db.get i ∨ i ∈ [] ∧ t.get i = none) ∧ (t.get i = none → db.get i = none ∨ i ∈ []) ↔ _
    simp
  · obtain ⟨e, herror⟩ := insertEach_error hmeets
    have hfits : ¬Fits db snapshot := fun h => hmeets ⟨h, trivial⟩
    obtain ⟨hkey, htaken⟩ := Classical.not_imp.mp hfits
    rw [herror]
    refine iff_of_true (forall_insertEach_iff.mpr ⟨?_, fun _ => trivial⟩) fun r hr _ m hm hk => ?_
    · unfold Keeps
      rw [hkey]
      exact htaken
    · rw [List.mem_singleton.mp hm] at hk
      rw [hk, Db.getKey_of_mem hr] at hkey
      cases hkey

theorem contained_iff (db : Db) (clock : ℕ → String) (now : String) (entry : RollbackEntry) :
    Contained db entry (reverseRollbackEntry db clock now entry) ↔ Unobstructed db clock entry := by
  cases entry with
  | consolidate originals resultId =>
    cases hcheck : checkOriginals db clock originals with
    | error e =>
      refine iff_of_true ?_ fun h => (by cases hcheck.symm.trans h)
      simp only [reverseRollbackEntry, hcheck]
      exact contained_self
    | ok u => exact (contained_consolidate_iff hcheck).trans ⟨fun h _ => h, fun h => h hcheck⟩
  | forget snapshot =>
    cases hcheck : checkNoCollision db snapshot (clock 0) with
    | error e =>
      refine iff_of_true ?_ fun h => (by cases hcheck.symm.trans h)
      simp only [reverseRollbackEntry, hcheck]
      exact contained_self
    | ok u => exact (contained_forget_iff hcheck).trans ⟨fun h _ => h, fun h => h hcheck⟩
  | priorityAdjust memoryId before after =>
    obtain ⟨db', found, changed, hu, hget⟩ := update_priority db memoryId now before
    refine iff_of_true ?_ trivial
    simp only [reverseRollbackEntry, hu]
    refine List.forall_mem_cons.mpr ⟨fun i => ⟨fun _ => Or.inl rfl, Or.inl⟩, fun t ht i => ?_⟩
    rw [List.mem_singleton.mp ht, hget]
    refine ⟨fun hi => Or.inl ?_, fun h => Or.inl (Option.map_eq_none_iff.mp h)⟩
    have hne : i ≠ memoryId := fun h => hi (List.mem_singleton.mpr h)
    simp only [if_neg hne, Option.map_id']

/-- When a call changes nothing. -/
theorem unchanged_iff (db : Db) (clock : ℕ → String) (now : String) (entry : RollbackEntry) :
    (∀ t ∈ (reverseRollbackEntry db clock now entry).1, SameRows db t) ↔ Settled db clock now entry := by
  have hself : ∀ t ∈ [db], SameRows db t := fun t ht => by
    rw [List.mem_singleton.mp ht]
    exact sameRows_of_eq rfl
  cases entry with
  | consolidate originals resultId =>
    cases hcheck : checkOriginals db clock originals with
    | error e =>
      refine iff_of_true ?_ fun h => (by cases hcheck.symm.trans h)
      simp only [reverseRollbackEntry, hcheck]
      exact hself
    | ok u =>
      rw [reverse_consolidate hcheck]
      exact forall_delete_insertEach_iff.trans ⟨fun h _ => h, fun h => h hcheck⟩
  | forget snapshot =>
    cases hcheck : checkNoCollision db snapshot (clock 0) with
    | error e =>
      refine iff_of_true ?_ fun h => (by cases hcheck.symm.trans h)
      simp only [reverseRollbackEntry, hcheck]
      exact hself
    | ok u =>
      rw [reverse_forget hcheck]
      refine forall_insertEach_iff.trans (Iff.trans ?_ ⟨fun h _ => h, fun h => h hcheck⟩)
      exact and_iff_left fun _ => trivial
  | priorityAdjust memoryId before after =>
    obtain ⟨db', found, changed, hu, hget⟩ := update_priority db memoryId now before
    simp only [reverseRollbackEntry, hu]
    rw [List.forall_mem_cons, and_iff_right (sameRows_of_eq rfl), List.forall_mem_singleton]
    constructor
    · intro h r hr
      have hrow := h memoryId
      rw [hget, hr, Option.map_some, if_pos rfl] at hrow
      exact Option.some.inj hrow
    · intro h i
      rw [hget]
      cases hr : db.get i with
      | none => rfl
      | some r =>
        rw [Option.map_some]
        split_ifs with hi
        · rw [h r (hi ▸ hr)]
        · rfl

end Calls

/-! ## An entry undone twice -/

/-- Edits of memories, each with `update`; one that is refused changes nothing. -/
def edited (db : Db) (edits : List (String × UpdateMemory × String)) : Db :=
  edits.foldl (fun db e => settled db ((db.update e.1 e.2.1 e.2.2).map Prod.fst)) db

def between (db : Db) (call : List Db × Except String Bool) (edits : List (String × UpdateMemory × String)) : Db :=
  edited (call.1.getLast?.getD db) edits

/-- A call changes nothing but what its entry names, and after edits a second call changes nothing, exactly if nothing that the
entry does not name is in the way of the first, and all that the second would write is there. -/
theorem undo_iff (db : Db) (entry : RollbackEntry) (clock clock' : ℕ → String) (now now' : String)
    (edits : List (String × UpdateMemory × String)) :
    let call := reverseRollbackEntry db clock now entry
    (Contained db entry call ∧ (call.2.isOk → ∀ t ∈ (reverseRollbackEntry (between db call edits) clock' now' entry).1,
        SameRows (between db call edits) t)) ↔
      Unobstructed db clock entry ∧ (call.2.isOk → Settled (between db call edits) clock' now' entry) :=
  and_congr (contained_iff db clock now entry) (imp_congr_right fun _ => unchanged_iff _ clock' now' entry)

def expired : Memory := { noteAt "x" "a newer gate" "3" [] with title := "a", expiresAt := some "4" }

/-- The title of the snapshot is that of an expired memory, which the check does not see and the restore overwrites. And without
such a memory, a second undo overwrites an edit of the restored one. -/
theorem undo_overwrites :
    ¬Contained (Db.empty.insertAll [expired]) (.forget north)
      (reverseRollbackEntry (Db.empty.insertAll [expired]) (fun _ => "5") "5" (.forget north)) ∧
    let edits : List (String × UpdateMemory × String) := [("a", { content := some "the north gate is shut" }, "6")]
    let db := between Db.empty (reverseRollbackEntry Db.empty (fun _ => "5") "5" (.forget north)) edits
    ¬∀ t ∈ (reverseRollbackEntry db (fun _ => "7") "7" (.forget north)).1, SameRows db t := by
  constructor
  · rw [contained_iff]
    intro h
    have hspared := h (by decide +kernel)
    have hlive : expired.toRow ∈ (Db.empty.insertAll [expired]).memories.rows := by decide
    exact absurd (hspared expired.toRow hlive (by decide) north (List.mem_singleton.mpr rfl) (by decide)) (by decide)
  · intro edits db
    rw [unchanged_iff]
    intro h
    exact absurd (h (by decide +kernel)) (by decide +kernel)

end Curator

end AiMemory
