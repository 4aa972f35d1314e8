import AiMemory.Db.Chain
import AiMemory.Db.LongTier

/-!
# Standards that exist

`namespace_meta` has no foreign key, so an operation that removes memories must remove the rows that name them as
standards. `delete`, `archive_memory` and `consolidate` do so first, and `gc` afterwards; `forget` does not. A run
keeps every standard in existence exactly when no `forget` takes one, and no `gc` whose clean-up fails
(`noDangling_iff_meets`).
-/

namespace AiMemory

open Relational LongTier

namespace Standards

/-- The operations of a run. A call that fails before its first write is no step; `halted` are those that fail after
it, where what was written stays. -/
inductive Op where
  | setNamespaceStandard (ns standardId : String) (parent : Option String) (now : String)
  | clearNamespaceStandard (ns : String)
  | insert (mem : Memory)
  | insertIfNewer (mem : Memory)
  | update (id : String) (u : UpdateMemory) (now : String)
  | delete (id : String) (halted : Bool)
  | archiveMemory (id : String) (reason : Option String) (now : String)
  | restoreArchived (id now : String)
  | consolidate (ids : List String) (title summary ns : String) (tier : Tier)
      (source consolidatorAgentId newId now : String)
  | forget (fts : Fts) (ns pattern : Option String) (tier : Option Tier) (archive : Bool) (now : String)
      (halted : Bool)
  | gc (archive : Bool) (now : String) (halted : Bool)

/-- One operation. A halted `delete` has removed the standards, a halted `forget` has archived, a halted `gc` has
committed and not cleaned up. -/
def step (db : Db) : Op → Db
  | .setNamespaceStandard ns standardId parent now =>
    match db.setNamespaceStandard ns standardId parent now with
    | .ok db' => db'
    | .error _ => db
  | .clearNamespaceStandard ns => (db.clearNamespaceStandard ns).1
  | .insert mem => settle db (db.insert mem)
  | .insertIfNewer mem => settle db (db.insertIfNewer mem)
  | .update id u now => settle db (db.update id u now)
  | .delete id halted => if halted then db.dropStandard id else (db.delete id).1
  | .archiveMemory id reason now => (db.archiveMemory id reason now).1
  | .restoreArchived id now => settle db (db.restoreArchived id now)
  | .consolidate ids title summary ns tier source agent newId now =>
    settle db (db.consolidate ids title summary ns tier source agent newId now)
  | .forget fts ns pattern tier archive now halted =>
    let db' := settle db (db.forget fts ns pattern tier archive now)
    if halted then { db with archived := db'.archived } else db'
  | .gc archive now halted =>
    let db' := (db.gc archive now).1
    if halted then { db' with namespaceMeta := db.namespaceMeta } else db'

/-- Every standard is the id of a memory. -/
def NoDangling (db : Db) : Prop := ∀ e ∈ db.namespaceMeta, (db.get e.standardId).isSome

/-- None of the memories that `sel` selects is a standard. -/
def SparesStandards (db : Db) (sel : MemoryRow → Bool) : Prop :=
  ∀ e ∈ db.namespaceMeta, ∀ r, db.get e.standardId = some r → sel r = false

/-- A `forget` that is accepted spares the standards, and so does a `gc` that does not clean up. -/
def StepOk (db : Db) : Op → Prop
  | .forget fts ns pattern tier _ _ false =>
    pattern.isNone ∧ ns.isNone ∧ tier.isNone ∨ SparesStandards db (Db.forgetSelects fts ns pattern tier)
  | .gc _ now true => SparesStandards db (Db.isExpired now)
  | _ => True

section Step

variable {db db' : Db} {id now : String}

theorem NoDangling.mono (h : NoDangling db) (hmeta : ∀ e ∈ db'.namespaceMeta, e ∈ db.namespaceMeta)
    (hget : ∀ r ∈ db.memories, ∃ r' ∈ db'.memories, r'.id = r.id) : NoDangling db' := by
  intro e he
  obtain ⟨r, hr⟩ := Option.isSome_iff_exists.mp (h e (hmeta e he))
  obtain ⟨hmem, hid⟩ := Db.get_eq_some.mp hr
  obtain ⟨r', hmem', hid'⟩ := hget r hmem
  exact Option.isSome_iff_exists.mpr ⟨r', Db.get_eq_some.mpr ⟨hmem', hid'.trans hid⟩⟩

theorem NoDangling.insertOnConflict {mem : Memory} {merge : MemoryRow → MemoryRow} {hid : ∀ r, (merge r).id = r.id}
    {hkey : ∀ r, (merge r).key = r.key} (h : NoDangling db)
    (hi : db.insertOnConflict mem merge hid hkey = .ok (db', id)) : NoDangling db' := by
  have hframe := Db.insertOnConflict_frame hi
  refine h.mono (fun _ he => by rwa [hframe] at he) fun r hr => ?_
  obtain ⟨r', hr', hid', -⟩ := Db.liveOn_insertOnConflict hi r hr
  exact ⟨r', hr', hid'⟩

theorem NoDangling.update {u : UpdateMemory} {res : Bool × Bool} (h : NoDangling db)
    (hu : db.update id u now = .ok (db', res)) : NoDangling db' := by
  obtain ⟨-, -, rfl⟩ | ⟨existing, -, -, hframe, hrows⟩ := Db.update_cases hu
  · exact h
  · refine h.mono (fun _ he => by rwa [hframe] at he) fun r hr => ?_
    refine ⟨_, by rw [Indexed.mem_def, hrows]; exact List.mem_map_of_mem hr, ?_⟩
    split_ifs <;> rfl

theorem NoDangling.dropStandard (h : NoDangling db) : NoDangling (db.dropStandard id) :=
  h.mono (fun _ he => (Table.mem_filter.mp he).1) fun r hr => ⟨r, hr, rfl⟩

theorem NoDangling.delete (h : NoDangling db) : NoDangling (db.delete id).1 := by
  intro e he
  obtain ⟨hold, hne⟩ := Table.mem_filter.mp he
  obtain ⟨r, hr⟩ := Option.isSome_iff_exists.mp (h e hold)
  obtain ⟨hmem, hid⟩ := Db.get_eq_some.mp hr
  refine Option.isSome_iff_exists.mpr ⟨r, Db.get_eq_some.mpr ⟨Db.mem_deleteMemories.mpr ⟨hmem, ?_⟩, hid⟩⟩
  rw [hid]
  exact hne

theorem NoDangling.archiveMemory {reason : Option String} (h : NoDangling db) :
    NoDangling (db.archiveMemory id reason now).1 := by
  unfold Db.archiveMemory
  split_ifs
  · exact h
  · -- the archive apart this is a deletion
    exact (show NoDangling (db.archiveWhere (fun r => r.id = id) (archiveRow now (reason.getD "archive"))) from h).delete

theorem NoDangling.restore {b : Bool} (h : NoDangling db) (hr : db.restoreArchived id now = .ok (db', b)) :
    NoDangling db' := by
  obtain ⟨-, -, rfl⟩ | ⟨a, t, -, -, -, ht, rfl⟩ := Db.restoreArchived_cases hr
  · exact h
  · exact h.mono (fun _ he => he) fun r hmem => ⟨r, (Indexed.mem_insertNew? ht).mpr (Or.inl hmem), rfl⟩

theorem NoDangling.foldl_delete {ids : List String} (h : NoDangling db) :
    NoDangling (ids.foldl (fun db id => (db.delete id).1) db) :=
  Machine.foldl_induct (fun _ _ _ hs => hs.delete) h

theorem NoDangling.consolidate {ids : List String} {title summary ns source agent newId : String} {tier : Tier}
    (h : NoDangling db) (hc : db.consolidate ids title summary ns tier source agent newId now = .ok (db', id)) :
    NoDangling db' := by
  obtain ⟨c, t, ht, rfl⟩ := Db.consolidate_cases hc
  refine NoDangling.foldl_delete (h.mono (fun _ he => he) fun r hr => ?_)
  exact ⟨r, (Indexed.mem_insertNew? ht).mpr (Or.inl hr), rfl⟩

theorem NoDangling.setNamespaceStandard {ns standardId : String} {parent : Option String} (h : NoDangling db)
    (hs : db.setNamespaceStandard ns standardId parent now = .ok db') : NoDangling db' := by
  unfold Db.setNamespaceStandard at hs
  split_ifs at hs with hnone hself
  cases hs
  rw [Bool.not_eq_true, Option.isNone_eq_false_iff] at hnone
  intro e he
  have hfind := Table.find_of_mem he
  rw [Table.find_upsert] at hfind
  show (db.get e.standardId).isSome = true
  split_ifs at hfind with hns
  · cases hold : db.namespaceMeta.find e.ns with
    | none =>
      rw [hold] at hfind
      cases hfind
      exact hnone
    | some old =>
      rw [hold] at hfind
      cases hfind
      exact hnone
  · exact h e (Table.find_mem hfind)

theorem noDangling_filter_iff {sel : MemoryRow → Bool} (h : NoDangling db) (hmeta : db'.namespaceMeta = db.namespaceMeta)
    (hmem : ∀ r, r ∈ db'.memories ↔ r ∈ db.memories ∧ sel r = false) :
    NoDangling db' ↔ SparesStandards db sel := by
  constructor
  · intro h' e he r hr
    obtain ⟨r', hr'⟩ := Option.isSome_iff_exists.mp (h' e (by rwa [hmeta]))
    obtain ⟨hin, hid⟩ := Db.get_eq_some.mp hr'
    obtain ⟨hold, hkeep⟩ := (hmem r').mp hin
    have hsame : some r' = some r := (Db.get_eq_some.mpr ⟨hold, hid⟩).symm.trans hr
    cases hsame
    exact hkeep
  · intro hspares e he
    rw [hmeta] at he
    obtain ⟨r, hr⟩ := Option.isSome_iff_exists.mp (h e he)
    obtain ⟨hin, hid⟩ := Db.get_eq_some.mp hr
    exact Option.isSome_iff_exists.mpr ⟨r, Db.get_eq_some.mpr ⟨(hmem r).mpr ⟨hin, hspares e he r hr⟩, hid⟩⟩

theorem noDangling_forget_iff {fts : Fts} {ns pattern : Option String} {tier : Option Tier} {archive : Bool} {n : ℕ}
    (h : NoDangling db) (hf : db.forget fts ns pattern tier archive now = .ok (db', n)) :
    NoDangling db' ↔ SparesStandards db (Db.forgetSelects fts ns pattern tier) := by
  rw [Db.forget_eq_ok hf]
  refine noDangling_filter_iff h ?_ fun r => ?_
  · cases archive <;> rfl
  · rw [Db.mem_deleteMemories, Bool.not_eq_true']
    cases archive <;> rfl

/-- A `gc` whose clean-up fails. -/
theorem noDangling_halted_gc_iff {archive : Bool} (h : NoDangling db) :
    NoDangling { (db.gc archive now).1 with namespaceMeta := db.namespaceMeta } ↔
      SparesStandards db (Db.isExpired now) :=
  noDangling_filter_iff h rfl fun _ => Db.mem_gc

/-- A `gc` that cleans up leaves no standard without its memory. -/
theorem noDangling_gc (archive : Bool) : NoDangling (db.gc archive now).1 := fun _ he => (Table.mem_filter.mp he).2

/-- Every operation that meets its condition keeps the standards in existence. -/
theorem NoDangling.step (op : Op) (h : NoDangling db) (hok : StepOk db op) : NoDangling (step db op) := by
  cases op with
  | setNamespaceStandard ns standardId parent now =>
    unfold Standards.step
    simp only
    split
    · exact h.setNamespaceStandard ‹_›
    · exact h
  | clearNamespaceStandard ns => exact h.mono (fun e he => (Table.mem_filter.mp he).1) fun r hr => ⟨r, hr, rfl⟩
  | insert mem => exact settle_ind h fun db' id hi => h.insertOnConflict hi
  | insertIfNewer mem => exact settle_ind h fun db' id hi => h.insertOnConflict hi
  | update id u now => exact settle_ind h fun db' res hu => h.update hu
  | delete id halted =>
    cases halted with
    | true => exact h.dropStandard
    | false => exact h.delete
  | archiveMemory id reason now => exact h.archiveMemory
  | restoreArchived id now => exact settle_ind h fun db' b hr => h.restore hr
  | consolidate ids title summary ns tier source agent newId now => exact settle_ind h fun db' id hc => h.consolidate hc
  | forget fts ns pattern tier archive now halted =>
    cases halted with
    | true => exact h
    | false =>
      refine settle_ind h fun db' n hf => (noDangling_forget_iff h hf).mpr (hok.resolve_left fun hnone => ?_)
      unfold Db.forget at hf
      rw [if_pos hnone] at hf
      cases hf
  | gc archive now halted =>
    cases halted with
    | false => exact noDangling_gc archive
    | true => exact (noDangling_halted_gc_iff h).mpr hok

theorem not_noDangling_step {op : Op} (h : NoDangling db) (hbad : ¬StepOk db op) : ¬NoDangling (step db op) := by
  cases op with
  | forget fts ns pattern tier archive now halted =>
    cases halted with
    | true => exact absurd trivial hbad
    | false =>
      rw [StepOk, not_or] at hbad
      cases hf : db.forget fts ns pattern tier archive now with
      | error _ =>
        unfold Db.forget at hf
        rw [if_neg hbad.1] at hf
        cases hf
      | ok res =>
        obtain ⟨db', n⟩ := res
        have hstep : step db (.forget fts ns pattern tier archive now false) = db' := by
          show settle db (db.forget fts ns pattern tier archive now) = db'
          rw [hf]
          rfl
        rw [hstep]
        exact mt (noDangling_forget_iff h hf).mp hbad.2
  | gc archive now halted =>
    cases halted with
    | false => exact absurd trivial hbad
    | true => exact mt (noDangling_halted_gc_iff h).mp hbad
  | _ => exact absurd trivial hbad

end Step

/-! ## Runs -/

/-- A run from the empty database keeps every standard in existence exactly if every `forget` that is accepted, and
every `gc` whose clean-up fails, spares the standards. -/
theorem noDangling_iff_meets (ops : List Op) :
    (∀ db ∈ Machine.states step Db.empty ops, NoDangling db) ↔ Machine.Meets step StepOk Db.empty ops :=
  Machine.forall_states_iff_meets (fun _ h => h) (fun _ op h => h.step op) (fun _ _ => not_noDangling_step)
    fun _ he => absurd he List.not_mem_nil

/-- The standard of `team` is stored and set, and then the namespace is forgotten. -/
def forgotten : List Op :=
  [.insert (Db.standardMemory "s1" "team" (.obj [("governance", .obj [("write", .str "approve")])])),
    .setNamespaceStandard "team" "s1" none "2026-01-01T00:00:00+00:00",
    .forget (fun _ _ => false) (some "team") none none true "2026-01-02T00:00:00+00:00" false]

/-- `team` keeps a standard that is gone, and has no policy any more. -/
theorem standard_forgotten :
    ((forgotten.take 2).foldl step Db.empty).resolveGovernancePolicy "team" ≠ none ∧
      (forgotten.foldl step Db.empty).getNamespaceStandard "team" = some "s1" ∧
      (forgotten.foldl step Db.empty).get "s1" = none ∧
      (forgotten.foldl step Db.empty).resolveGovernancePolicy "team" = none ∧
      ¬∀ db ∈ Machine.states step Db.empty forgotten, NoDangling db := by
  refine ⟨by decide, by decide, by decide, by decide, fun h => ?_⟩
  have hlast := h _ Machine.foldl_mem_states
  have hmem : (⟨"team", "s1", none, "2026-01-01T00:00:00+00:00"⟩ : NamespaceMetaEntry) ∈
      (forgotten.foldl step Db.empty).namespaceMeta := by
    rw [Table.mem_def]
    decide
  exact absurd (hlast _ hmem) (by decide)

end Standards

end AiMemory
