import AiMemory.Store.Sqlite

/-!
# Batches of stores

`bulk_create`, `import_memories` and the importers write a batch with `insert`, one memory after another, and skip a memory
whose statement fails. `insertAll` is such a batch.
-/

namespace AiMemory

open Relational

/-- The rows of a namespace are the same. -/
def SameIn (ns : String) (db db' : Db) : Prop := ∀ r, r.ns = ns → (r ∈ db'.memories ↔ r ∈ db.memories)

theorem mem_iff_get {db : Db} {r : MemoryRow} : r ∈ db.memories ↔ db.get r.id = some r :=
  ⟨Db.get_of_mem, fun h => (Db.get_eq_some.mp h).1⟩

theorem SameIn.refl (ns : String) (db : Db) : SameIn ns db db := fun _ _ => Iff.rfl

theorem SameIn.trans {ns : String} {db db' db'' : Db} (h : SameIn ns db db') (h' : SameIn ns db' db'') : SameIn ns db db'' :=
  fun r hr => (h' r hr).trans (h r hr)

theorem sameIn_of_getKey {ns : String} {db db' : Db} (h : ∀ title, db'.getKey (title, ns) = db.getKey (title, ns)) : SameIn ns db db' := by
  rintro r rfl
  have hmem : ∀ d : Db, r ∈ d.memories ↔ d.getKey (r.title, r.ns) = some r := fun d =>
    ⟨Db.getKey_of_mem, fun hr => (Db.getKey_eq_some.mp hr).1⟩
  rw [hmem, hmem, h]

namespace Db

/-- `insert`, where a failure is skipped. -/
def insertOrSkip (db : Db) (mem : Memory) : Db := settled db ((db.insert mem).map Prod.fst)

/-- `insert` of one memory after another. -/
def insertAll (db : Db) (mems : List Memory) : Db := mems.foldl insertOrSkip db

variable {db db' : Db} {mem : Memory} {mems : List Memory} {id ns : String} {k : String × String}

theorem insertOrSkip_of_ok (h : db.insert mem = .ok (db', id)) : db.insertOrSkip mem = db' := by
  unfold insertOrSkip
  rw [h]
  rfl

theorem insertOrSkip_of_error {e : String} (h : db.insert mem = .error e) : db.insertOrSkip mem = db := by
  unfold insertOrSkip
  rw [h]
  rfl

theorem insertOrSkip_cases (db : Db) (mem : Memory) : (∃ id, db.insert mem = .ok (db.insertOrSkip mem, id)) ∨
    (db.insertOrSkip mem = db ∧ db.getKey mem.key = none ∧ db.get mem.id ≠ none) := by
  cases hi : db.insert mem with
  | ok res => exact Or.inl ⟨res.2, by rw [insertOrSkip_of_ok hi]⟩
  | error e => exact Or.inr ⟨insertOrSkip_of_error hi, insertOnConflict_error_iff.mp ⟨e, hi⟩⟩

theorem liveOn_insertOrSkip (db : Db) (mem : Memory) : db.LiveOn (db.insertOrSkip mem) := by
  rcases insertOrSkip_cases db mem with ⟨id, hi⟩ | ⟨he, -, -⟩
  · exact liveOn_insertOnConflict hi
  · exact he.symm ▸ .refl db

theorem key_insertOnConflict_self {merge : MemoryRow → MemoryRow} {hid : ∀ r, (merge r).id = r.id}
    {hkey : ∀ r, (merge r).key = r.key} {r : MemoryRow} (h : db.insertOnConflict mem merge hid hkey = .ok (db', id))
    (hr : db'.get id = some r) : r.key = mem.key := by
  rcases insertOnConflict_cases h with ⟨stored, hs, rfl, rfl⟩ | ⟨-, hget, rfl, t, ht, rfl⟩
  · obtain ⟨hmem, hk⟩ := getKey_eq_some.mp hs
    rw [get_updateRow, get_of_mem hmem, Option.map_some, if_pos rfl] at hr
    cases hr
    exact (hkey stored).trans hk
  · have hnew : t.find mem.id = some mem.toRow := Indexed.find_of_mem ((Indexed.mem_insertNew? ht).mpr (Or.inr rfl))
    cases hnew.symm.trans hr
    rfl

theorem get_insertOnConflict_of_some {merge : MemoryRow → MemoryRow} {hid : ∀ r, (merge r).id = r.id}
    {hkey : ∀ r, (merge r).key = r.key} {r : MemoryRow} {i : String} (h : db.insertOnConflict mem merge hid hkey = .ok (db', id))
    (hr : db.get i = some r) : db'.get i = some (if r.key = mem.key then merge r else r) := by
  obtain ⟨hmem, rfl⟩ := get_eq_some.mp hr
  rcases insertOnConflict_cases h with ⟨stored, hs, rfl, rfl⟩ | ⟨hnone, -, -, t, ht, rfl⟩
  · obtain ⟨hstored, hk⟩ := getKey_eq_some.mp hs
    rw [get_updateRow, hr, Option.map_some]
    have hsame : r.id = stored.id ↔ r.key = mem.key :=
      ⟨fun he => Indexed.eq_of_pk hmem hstored he ▸ hk, fun he => Indexed.eq_of_uk hmem hstored (he.trans hk.symm) ▸ rfl⟩
    exact congrArg some (if_congr hsame rfl rfl)
  · rw [if_neg (Indexed.findBy_eq_none.mp hnone r hmem)]
    show t.find r.id = some r
    rw [Indexed.find_insertNew? ht, show db.memories.find r.id = some r from hr]
    rfl

/-! ## Other namespaces -/

theorem sameIn_insertOrSkip (hne : mem.ns ≠ ns) : SameIn ns db (db.insertOrSkip mem) := by
  rcases insertOrSkip_cases db mem with ⟨id, hi⟩ | ⟨h, -, -⟩
  · refine sameIn_of_getKey fun title => getKey_insertOnConflict_of_ne hi fun hk => ?_
    exact hne (congrArg Prod.snd hk).symm
  · rw [h]
    exact SameIn.refl ns db

theorem sameIn_insertAll (hne : ∀ m ∈ mems, m.ns ≠ ns) : SameIn ns db (db.insertAll mems) :=
  Machine.foldl_induct (P := SameIn ns db) (fun _ m hm h => SameIn.trans h (sameIn_insertOrSkip (hne m hm))) (SameIn.refl ns db)

/-! ## The memories of a batch -/

/-- A title and namespace hold a row of the stamp `u`. -/
def HasStamp (db : Db) (k : String × String) (u : String) : Prop := ∃ r, db.getKey k = some r ∧ r.updatedAt = u

theorem hasStamp_insert (h : db.insert mem = .ok (db', id)) : db'.HasStamp mem.key mem.updatedAt := by
  refine ⟨_, getKey_insertOnConflict h, ?_⟩
  cases db.getKey mem.key <;> rfl

theorem HasStamp.insertOrSkip {u : String} (h : db.HasStamp k u) (hsame : mem.key = k → mem.updatedAt = u) :
    (db.insertOrSkip mem).HasStamp k u := by
  rcases insertOrSkip_cases db mem with ⟨id, hi⟩ | ⟨hskip, -, -⟩
  · by_cases hk : mem.key = k
    · rw [← hk, ← hsame hk]
      exact hasStamp_insert hi
    · obtain ⟨r, hr, hu⟩ := h
      exact ⟨r, (getKey_insertOnConflict_of_ne hi (Ne.symm hk)).trans hr, hu⟩
  · rwa [hskip]

/-- A batch that finds the ids of its new memories free. -/
structure Lands (db : Db) (mems : List Memory) : Prop where
  nodup : (mems.map fun m => m.id).Nodup
  free : ∀ m ∈ mems, db.getKey m.key = none → db.get m.id = none
  /-- Memories of one title and namespace have one stamp. -/
  stamps : ∀ m ∈ mems, ∀ m' ∈ mems, m'.key = m.key → m'.updatedAt = m.updatedAt

/-- Every memory of such a batch leaves its stamp. -/
theorem hasStamp_insertAll (h : Lands db mems) : ∀ m ∈ mems, (db.insertAll mems).HasStamp m.key m.updatedAt := by
  induction mems generalizing db with
  | nil => exact fun m hm => absurd hm List.not_mem_nil
  | cons x mems ih =>
    obtain ⟨hx, hnodup⟩ := List.nodup_cons.mp h.nodup
    have hwritten : (db.insertOrSkip x).HasStamp x.key x.updatedAt := by
      rcases insertOrSkip_cases db x with ⟨id, hi⟩ | ⟨-, hkey, htaken⟩
      · exact hasStamp_insert hi
      · exact absurd (h.free x List.mem_cons_self hkey) htaken
    have hrest : Lands (db.insertOrSkip x) mems := by
      refine ⟨hnodup, fun m hm hkey => ?_, fun m hm m' hm' =>
        h.stamps m (List.mem_cons_of_mem x hm) m' (List.mem_cons_of_mem x hm')⟩
      rcases insertOrSkip_cases db x with ⟨id, hi⟩ | ⟨hskip, -, -⟩
      · have hold : db.getKey m.key = none := by
          by_contra hsome
          exact (liveOn_insertOnConflict hi).getKey_ne_none hsome hkey
        refine get_insertOnConflict_eq_none hi (h.free m (List.mem_cons_of_mem x hm) hold) fun _ hid => ?_
        exact hx (List.mem_map.mpr ⟨m, hm, hid.symm⟩)
      · rw [hskip] at hkey ⊢
        exact h.free m (List.mem_cons_of_mem x hm) hkey
    intro m hm
    rcases List.mem_cons.mp hm with rfl | hm
    · show ((db.insertOrSkip m).insertAll mems).HasStamp m.key m.updatedAt
      refine Machine.foldl_induct (P := fun d : Db => d.HasStamp m.key m.updatedAt) (fun d y hy hd => ?_) hwritten
      exact hd.insertOrSkip fun hk => h.stamps m List.mem_cons_self y (List.mem_cons_of_mem m hy) hk
    · exact ih hrest m hm

end Db

end AiMemory
