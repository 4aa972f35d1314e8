import Mathlib.Data.List.Destutter
import AiMemory.Db.Consolidate
import AiMemory.Db.Inserts

/-!
# Authors through consolidations

`consolidate` folds the metadata of its sources into one object, later keys over earlier ones, and writes the authors of the
sources under `consolidated_from_agents`. It takes them from `agent_id` alone: of a source that is itself the result of a
consolidation the list is overwritten, and with it the authors of one generation before (`first_authors_lost`). Who is credited
in the end is said by `consolidated_iff` for one consolidation, and by `consolidations_credit_iff` for a run; tags, access counts
and the other memories come out right in each of them (`consolidated_frame`).
-/

namespace AiMemory

open Relational Machine Consolidation

/-! ## Objects with distinct keys -/

namespace Json

variable {k l : String} {v : Json} {fs : List (String × Json)} {j : Json}

/-- The keys of the object are distinct, as those of a map are. -/
def Keyed : Json → Prop
  | .obj fields => (fields.map Prod.fst).Nodup
  | _ => True

instance (j : Json) : Decidable j.Keyed :=
  match j with
  | .obj fields => inferInstanceAs (Decidable (fields.map Prod.fst).Nodup)
  | .null | .bool _ | .int _ | .float _ | .str _ | .arr _ => isTrue trivial

theorem getField_eq_none_iff : getField k fs = none ↔ k ∉ fs.map Prod.fst := by
  induction fs with
  | nil => exact iff_of_true rfl List.not_mem_nil
  | cons f fs ih =>
    obtain ⟨l, w⟩ := f
    rw [List.map_cons, List.mem_cons, not_or, ← ih, getField]
    by_cases hl : l = k
    · exact iff_of_false (by rw [if_pos hl]; exact Option.some_ne_none w) fun h => h.1 hl.symm
    · rw [if_neg hl]
      exact (and_iff_right (Ne.symm hl)).symm

theorem mem_iff_getField (hfs : (fs.map Prod.fst).Nodup) : (k, v) ∈ fs ↔ getField k fs = some v := by
  induction fs with
  | nil => exact iff_of_false List.not_mem_nil (by simp [getField])
  | cons f fs ih =>
    obtain ⟨l, w⟩ := f
    obtain ⟨hl, hfs⟩ := List.nodup_cons.mp hfs
    rw [List.mem_cons, ih hfs, getField, Prod.mk.injEq]
    by_cases heq : l = k
    · subst heq
      rw [if_pos rfl, getField_eq_none_iff.mpr hl, Option.some.injEq]
      simp [eq_comm]
    · rw [if_neg heq]
      exact or_iff_right fun h => heq h.1.symm

theorem keys_replaceField : (replaceField k v fs).map Prod.fst = fs.map Prod.fst := by
  induction fs with
  | nil => rfl
  | cons f fs ih =>
    rw [replaceField]
    split_ifs with hl
    · rw [List.map_cons, List.map_cons, hl]
    · rw [List.map_cons, List.map_cons, ih]

theorem insertField_perm : (insertField k v fs).Perm ((k, v) :: fs) := by
  induction fs with
  | nil => exact List.Perm.refl _
  | cons f fs ih =>
    rw [insertField]
    split_ifs
    · exact List.Perm.refl _
    · exact (ih.cons _).trans (List.Perm.swap _ _ _)

theorem nodup_setField (hfs : (fs.map Prod.fst).Nodup) : ((setField k v fs).map Prod.fst).Nodup := by
  unfold setField
  split_ifs with hk
  · rwa [keys_replaceField]
  · rw [(insertField_perm.map Prod.fst).nodup_iff, List.map_cons, List.nodup_cons]
    exact ⟨getField_eq_none_iff.mp (by simpa using hk), hfs⟩

theorem Keyed.set (hj : j.Keyed) : (j.set k v).Keyed := by
  cases j with
  | obj fs => exact nodup_setField hj
  | _ => trivial

end Json

/-! ## What a consolidation collects -/

def MemoryRow.author (r : MemoryRow) : Option String := (r.metadata.get "agent_id").bind Json.asStr

theorem MemoryRow.author_eq_some {r : MemoryRow} {a : String} : r.author = some a ↔ r.metadata.get "agent_id" = some (.str a) := by
  unfold MemoryRow.author
  cases r.metadata.get "agent_id" with
  | none => simp
  | some v => cases v <;> simp [Json.asStr]

namespace Consolidation

variable {c : Consolidation} {f : String × Json} {fields : List (String × Json)} {mem : Memory} {a k : String}

theorem addField_totals : (c.addField f).allTags = c.allTags ∧ (c.addField f).totalAccess = c.totalAccess := by
  unfold addField
  split_ifs
  · cases f.2 with
    | str aid => dsimp only; split_ifs <;> exact ⟨rfl, rfl⟩
    | _ => exact ⟨rfl, rfl⟩
  · exact ⟨rfl, rfl⟩

theorem mem_addField : a ∈ (c.addField f).sourceAgentIds ↔ a ∈ c.sourceAgentIds ∨ f = ("agent_id", .str a) := by
  obtain ⟨l, v⟩ := f
  unfold addField
  split_ifs with hl
  · obtain rfl : l = "agent_id" := hl
    cases v with
    | str aid =>
      dsimp only
      split_ifs with hin
      · refine (or_iff_left_of_imp fun h => ?_).symm
        rw [Prod.mk.injEq, Json.str.injEq] at h
        exact h.2 ▸ hin
      · simp [eq_comm]
    | _ => simp
  · exact (or_iff_left fun h => hl (congrArg Prod.fst h)).symm

theorem getField_addField (hk : k ≠ "agent_id") : Json.getField k (c.addField f).mergedMetadata =
    if f.1 = k then some f.2 else Json.getField k c.mergedMetadata := by
  unfold addField
  by_cases hl : f.1 = "agent_id"
  · rw [if_pos hl, if_neg fun h => hk (h.symm.trans hl)]
    cases f.2 with
    | str aid => dsimp only; split_ifs <;> rfl
    | _ => rfl
  · rw [if_neg hl]
    by_cases hf : f.1 = k
    · rw [if_pos hf, hf, Json.getField_setField]
    · rw [if_neg hf, Json.getField_setField_of_ne (Ne.symm hf)]

theorem nodup_addField (hc : (c.mergedMetadata.map Prod.fst).Nodup) : ((c.addField f).mergedMetadata.map Prod.fst).Nodup := by
  unfold addField
  split_ifs
  · cases f.2 with
    | str aid => dsimp only; split_ifs <;> exact hc
    | _ => exact hc
  · exact Json.nodup_setField hc

theorem foldl_addField_totals (c : Consolidation) : (fields.foldl addField c).allTags = c.allTags ∧
    (fields.foldl addField c).totalAccess = c.totalAccess :=
  ⟨foldl_keeps (fun _ _ => addField_totals.1) c fields, foldl_keeps (fun _ _ => addField_totals.2) c fields⟩

theorem mem_foldl_addField : a ∈ (fields.foldl addField c).sourceAgentIds ↔
    a ∈ c.sourceAgentIds ∨ ("agent_id", .str a) ∈ fields := by
  induction fields generalizing c with
  | nil => simp
  | cons f fields ih => rw [List.foldl_cons, ih, mem_addField, List.mem_cons, or_assoc, eq_comm (a := f)]

theorem getField_foldl_addField (hk : k ≠ "agent_id") (hfields : (fields.map Prod.fst).Nodup) :
    Json.getField k (fields.foldl addField c).mergedMetadata = (Json.getField k fields).or (Json.getField k c.mergedMetadata) := by
  induction fields generalizing c with
  | nil => rfl
  | cons f fields ih =>
    obtain ⟨l, v⟩ := f
    obtain ⟨hl, hfields⟩ := List.nodup_cons.mp hfields
    rw [List.foldl_cons, ih hfields, getField_addField hk, Json.getField]
    by_cases heq : l = k
    · rw [if_pos heq, if_pos heq, Json.getField_eq_none_iff.mpr (heq ▸ hl)]
      rfl
    · rw [if_neg heq, if_neg heq]

theorem add_totals : (c.add mem).allTags = c.allTags ++ mem.tags ∧
    (c.add mem).totalAccess = saturatingAdd c.totalAccess mem.accessCount := by
  unfold add
  cases mem.metadata with
  | obj fields => exact foldl_addField_totals _
  | _ => exact ⟨rfl, rfl⟩

theorem mem_add (hmem : mem.metadata.Keyed) : a ∈ (c.add mem).sourceAgentIds ↔
    a ∈ c.sourceAgentIds ∨ mem.metadata.get "agent_id" = some (.str a) := by
  unfold add
  cases hm : mem.metadata with
  | obj fields =>
    rw [hm] at hmem
    exact mem_foldl_addField.trans (or_congr_right (Json.mem_iff_getField hmem))
  | _ => simp [Json.get]

theorem getField_add (hk : k ≠ "agent_id") (hmem : mem.metadata.Keyed) : Json.getField k (c.add mem).mergedMetadata =
    (mem.metadata.get k).or (Json.getField k c.mergedMetadata) := by
  unfold add
  cases hm : mem.metadata with
  | obj fields =>
    rw [hm] at hmem
    exact getField_foldl_addField hk hmem
  | _ => rfl

theorem nodup_add (hc : (c.mergedMetadata.map Prod.fst).Nodup) : ((c.add mem).mergedMetadata.map Prod.fst).Nodup := by
  unfold add
  cases mem.metadata with
  | obj fields =>
    exact foldl_induct (P := fun c : Consolidation => (c.mergedMetadata.map Prod.fst).Nodup) (fun _ _ _ => nodup_addField) hc
  | _ => exact hc

theorem keyed_metadata {ids : List String} {agentId : String} (hc : (c.mergedMetadata.map Prod.fst).Nodup) :
    (c.metadata ids agentId).Keyed := by
  unfold metadata
  split_ifs
  · exact Json.nodup_setField (Json.nodup_setField hc)
  · exact Json.nodup_setField (Json.nodup_setField (Json.nodup_setField hc))

theorem get_metadata_agentId (ids : List String) (agentId : String) :
    (c.metadata ids agentId).get "agent_id" = some (.str agentId) := by
  unfold metadata
  split_ifs
  · exact Json.getField_setField ..
  · exact (Json.getField_setField_of_ne (by decide) ..).trans (Json.getField_setField ..)

theorem get_metadata_authors (ids : List String) (agentId : String) :
    (c.metadata ids agentId).get "consolidated_from_agents" =
      if c.sourceAgentIds = [] then Json.getField "consolidated_from_agents" c.mergedMetadata
      else some (.arr (c.sourceAgentIds.map .str)) := by
  unfold metadata
  split_ifs
  · exact (Json.getField_setField_of_ne (by decide) ..).trans (Json.getField_setField_of_ne (by decide) ..)
  · exact Json.getField_setField ..

end Consolidation

namespace Db

variable {db db' : Db} {ids : List String} {c c' : Consolidation}

def sources (db : Db) (ids : List String) : List MemoryRow := ids.filterMap db.get

/-- The keys of every metadata are distinct. -/
def KeyedRows (db : Db) : Prop := ∀ r ∈ db.memories, r.metadata.Keyed

theorem KeyedRows.sources (hdb : db.KeyedRows) : ∀ r ∈ db.sources ids, r.metadata.Keyed := fun r hr => by
  obtain ⟨id, -, hget⟩ := List.mem_filterMap.mp hr
  exact hdb r (get_eq_some.mp hget).1

theorem collect_eq (h : db.collect ids c = .ok c') : c' = (db.sources ids).foldl (fun c r => c.add r.toMemory) c := by
  induction ids generalizing c with
  | nil => exact (Except.ok.inj h).symm
  | cons id ids ih =>
    unfold collect at h
    cases hget : db.get id with
    | none => rw [hget] at h; cases h
    | some r =>
      rw [hget] at h
      rw [show db.sources (id :: ids) = r :: db.sources ids from List.filterMap_cons_some hget]
      exact ih h

end Db

/-- A sum that stops at the bounds of an `i64`. -/
def saturatingSum (counts : List ℤ) : ℤ := counts.foldl saturatingAdd 0

section Fold

variable {rows : List MemoryRow} {c : Consolidation} {a k : String}

theorem allTags_foldl_add : (rows.foldl (fun c r => c.add r.toMemory) c).allTags = c.allTags ++ rows.flatMap (·.tags) := by
  induction rows generalizing c with
  | nil => exact (List.append_nil _).symm
  | cons r rows ih =>
    rw [List.foldl_cons, ih, add_totals.1, List.flatMap_cons, List.append_assoc]

theorem totalAccess_foldl_add : (rows.foldl (fun c r => c.add r.toMemory) c).totalAccess =
    (rows.map (·.accessCount)).foldl saturatingAdd c.totalAccess := by
  induction rows generalizing c with
  | nil => rfl
  | cons r rows ih =>
    rw [List.foldl_cons, ih, add_totals.2, List.map_cons, List.foldl_cons]

theorem mem_foldl_add (hrows : ∀ r ∈ rows, r.metadata.Keyed) :
    a ∈ (rows.foldl (fun c r => c.add r.toMemory) c).sourceAgentIds ↔ a ∈ c.sourceAgentIds ∨ ∃ r ∈ rows, r.author = some a := by
  induction rows generalizing c with
  | nil => simp
  | cons r rows ih =>
    obtain ⟨hr, hrows⟩ := List.forall_mem_cons.mp hrows
    rw [List.foldl_cons, ih hrows, mem_add hr, List.exists_mem_cons_iff, MemoryRow.author_eq_some, or_assoc]

theorem getField_foldl_add (hk : k ≠ "agent_id") (hrows : ∀ r ∈ rows, r.metadata.Keyed) :
    Json.getField k (rows.foldl (fun c r => c.add r.toMemory) c).mergedMetadata =
      (rows.filterMap (·.metadata.get k)).getLast?.or (Json.getField k c.mergedMetadata) := by
  induction rows generalizing c with
  | nil => rfl
  | cons r rows ih =>
    obtain ⟨hr, hrows⟩ := List.forall_mem_cons.mp hrows
    rw [List.foldl_cons, ih hrows, getField_add hk hr]
    cases hget : r.metadata.get k with
    | none =>
      rw [List.filterMap_cons_none (f := fun r : MemoryRow => r.metadata.get k) hget]
      rfl
    | some v =>
      rw [List.filterMap_cons_some (f := fun r : MemoryRow => r.metadata.get k) hget, List.getLast?_cons]
      cases (rows.filterMap (·.metadata.get k)).getLast? <;> rfl

theorem nodup_foldl_add (hc : (c.mergedMetadata.map Prod.fst).Nodup) :
    ((rows.foldl (fun c r => c.add r.toMemory) c).mergedMetadata.map Prod.fst).Nodup :=
  foldl_induct (P := fun c : Consolidation => (c.mergedMetadata.map Prod.fst).Nodup) (fun _ _ _ => nodup_add) hc

end Fold

/-! ## One consolidation -/

/-- The author is on a list of authors. -/
def Listed (list : Option Json) (a : String) : Prop := ∃ items, list = some (.arr items) ∧ .str a ∈ items

/-- The author has a part in the metadata: as the owner, or on the list. -/
def Credits (metadata : Json) (a : String) : Prop :=
  metadata.get "agent_id" = some (.str a) ∨ Listed (metadata.get "consolidated_from_agents") a

/-- The arguments of `consolidate`. -/
structure ConsolidateCall where
  ids : List String
  title : String
  summary : String
  ns : String
  tier : Tier
  source : String
  agentId : String
  newId : String
  now : String

def ConsolidateCall.run (x : ConsolidateCall) (db : Db) : Except String (Db × String) :=
  db.consolidate x.ids x.title x.summary x.ns x.tier x.source x.agentId x.newId x.now

/-- What a consolidation leaves, but for the authors. -/
structure ConsolidatedInto (db db' : Db) (ids : List String) (r : MemoryRow) : Prop where
  tagsSorted : r.tags.Pairwise (· < ·)
  tags : ∀ t, t ∈ r.tags ↔ ∃ src ∈ db.sources ids, t ∈ src.tags
  accessCount : r.accessCount = saturatingSum ((db.sources ids).map (·.accessCount))
  gone : ∀ id ∈ ids, db'.get id = none
  others : ∀ id ∉ ids, id ≠ r.id → db'.get id = db.get id

/-- The list that stays on the result if no source has an author. -/
def lastList (db : Db) (ids : List String) : Option Json :=
  ((db.sources ids).filterMap (·.metadata.get "consolidated_from_agents")).getLast?

section Call

variable {db db' : Db} {x : ConsolidateCall} {id a : String}

theorem tags_sortedUnion (l : List String) : ((l.insertionSort (· ≤ ·)).destutter (· ≠ ·)).Pairwise (· < ·) ∧
    ∀ t, t ∈ (l.insertionSort (· ≤ ·)).destutter (· ≠ ·) ↔ t ∈ l := by
  have hsorted : (l.insertionSort (· ≤ ·)).Pairwise (· ≤ ·) := List.pairwise_insertionSort _ l
  rw [hsorted.destutter_eq_dedup]
  refine ⟨?_, fun t => by rw [List.mem_dedup, List.mem_insertionSort]⟩
  have hle : (l.insertionSort (· ≤ ·)).dedup.Pairwise (· ≤ ·) := hsorted.sublist (List.dedup_sublist _)
  exact (hle.and (List.nodup_dedup _)).imp fun h => lt_of_le_of_ne h.1 h.2

/-- Tags, access count and the other memories are as they should be. -/
theorem consolidated_frame (hdb : db.KeyedRows) (h : x.run db = .ok (db', id)) : ∃ r, db'.get id = some r ∧ r.id = id ∧
    ConsolidatedInto db db' x.ids r ∧ r.metadata.Keyed ∧ (∀ y ∈ db'.memories, y ∈ db.memories ∨ y = r) ∧
    ∃ c : Consolidation, r.metadata = c.metadata x.ids x.agentId ∧
      (∀ a, a ∈ c.sourceAgentIds ↔ ∃ src ∈ db.sources x.ids, src.author = some a) ∧
      Json.getField "consolidated_from_agents" c.mergedMetadata = lastList db x.ids := by
  obtain ⟨c, t, hc, ht, rfl, rfl⟩ := Db.consolidate_spec h
  have hfold := Db.collect_eq hc
  obtain ⟨hfree, -⟩ := Indexed.insertNew?_isSome.mp (Option.isSome_of_mem ht)
  have hnew : x.newId ∉ x.ids := fun hin => Db.get_of_collect hc x.newId hin hfree
  have hget : ∀ i, (x.ids.foldl (fun (db : Db) id => (db.delete id).1) { db with memories := t }).get i = if i ∈ x.ids then none else
      (db.get i).or (if x.newId = i then some (c.row x.newId x.title x.summary x.ns x.tier x.source x.now
        (c.metadata x.ids x.agentId)) else none) := fun i => by
    rw [Db.get_foldl_remove Db.get_delete]
    exact congrArg (ite _ _) (Indexed.find_insertNew? ht i)
  refine ⟨c.row x.newId x.title x.summary x.ns x.tier x.source x.now (c.metadata x.ids x.agentId), ?_, rfl, ?_, ?_, ?_, c, rfl, ?_, ?_⟩
  · rw [hget, if_neg hnew, show db.get x.newId = none from hfree, if_pos rfl]
    rfl
  · obtain ⟨hsorted, hmem⟩ := tags_sortedUnion c.allTags
    refine ⟨hsorted, fun t => (hmem t).trans ?_, ?_, fun i hi => ?_, fun i hi hne => ?_⟩
    · rw [hfold, allTags_foldl_add]
      exact List.mem_flatMap
    · show c.totalAccess = _
      rw [hfold, totalAccess_foldl_add]
      rfl
    · rw [hget, if_pos hi]
    · rw [hget, if_neg hi, if_neg (show ¬x.newId = i from Ne.symm hne), Option.or_none]
  · exact keyed_metadata (hfold ▸ nodup_foldl_add List.nodup_nil)
  · exact fun y hy => (Indexed.mem_insertNew? ht).mp (Db.mem_foldl_delete hy)
  · intro a
    rw [hfold, mem_foldl_add hdb.sources]
    exact or_iff_right List.not_mem_nil
  · rw [hfold, getField_foldl_add (by decide) hdb.sources]
    exact Option.or_none

/-- Who is credited on the result: the consolidator, and the authors of the sources; if there are none, those on the last list. -/
theorem credits_iff (hdb : db.KeyedRows) (h : x.run db = .ok (db', id)) {r : MemoryRow} (hr : db'.get id = some r) :
    Credits r.metadata a ↔ a = x.agentId ∨ (∃ src ∈ db.sources x.ids, src.author = some a) ∨
      (∀ src ∈ db.sources x.ids, src.author = none) ∧ Listed (lastList db x.ids) a := by
  obtain ⟨r', hr', -, -, -, -, c, hmeta, hauthors, hlist⟩ := consolidated_frame hdb h
  obtain rfl : r' = r := Option.some.inj (hr'.symm.trans hr)
  unfold Credits
  rw [hmeta, c.get_metadata_agentId, c.get_metadata_authors, Option.some.injEq, Json.str.injEq, eq_comm (a := x.agentId)]
  refine or_congr_right ?_
  by_cases hnil : c.sourceAgentIds = []
  · have hnone : ∀ src ∈ db.sources x.ids, src.author = none := fun src hsrc => Option.eq_none_iff_forall_ne_some.mpr fun b hb =>
      List.not_mem_nil (hnil ▸ (hauthors b).mpr ⟨src, hsrc, hb⟩)
    rw [if_pos hnil, hlist, and_iff_right hnone]
    refine (or_iff_right ?_).symm
    rintro ⟨src, hsrc, ha⟩
    rw [hnone src hsrc] at ha
    cases ha
  · obtain ⟨b, hb⟩ := List.exists_mem_of_ne_nil _ hnil
    obtain ⟨src, hsrc, hauthor⟩ := (hauthors b).mp hb
    rw [if_neg hnil, ← hauthors]
    constructor
    · rintro ⟨items, heq, hin⟩
      rw [Option.some.injEq, Json.arr.injEq] at heq
      obtain ⟨a', ha', hstr⟩ := List.mem_map.mp (heq ▸ hin)
      exact Or.inl (Json.str.inj hstr ▸ ha')
    · rintro (ha | ⟨hnone, -⟩)
      · exact ⟨_, rfl, List.mem_map_of_mem ha⟩
      · rw [hnone src hsrc] at hauthor
        cases hauthor

end Call

/-! ## Runs -/

/-- The database, and for each memory the authors of all that was ever merged into it. -/
structure Lineage where
  db : Db
  merged : String → List String

/-- The authors of the sources and of all that was merged into them. -/
def Lineage.authors (s : Lineage) (ids : List String) : List String :=
  (s.db.sources ids).flatMap fun r => r.author.toList ++ s.merged r.id

/-- A store, of a metadata that is a map, or a consolidation. -/
inductive LineageStep where
  | store (mem : Memory) (h : mem.metadata.Keyed)
  | consolidate (x : ConsolidateCall)

/-- One step. A store that meets a live title keeps the memory and its history. -/
def Lineage.step (s : Lineage) : LineageStep → Lineage
  | .store mem _ => { s with db := s.db.insertOrSkip mem }
  | .consolidate x =>
    match x.run s.db with
    | .ok (db, id) => { db, merged := Function.update (fun i => if i ∈ x.ids then [] else s.merged i) id (s.authors x.ids) }
    | .error _ => s

def Lineage.start (db : Db) : Lineage where
  db
  merged _ := []

/-- What every consolidation should do. -/
def LosesNothing (s : Lineage) : LineageStep → Prop
  | .store .. => True
  | .consolidate x => ∀ db' id, x.run s.db = .ok (db', id) → ∃ r, db'.get id = some r ∧ ConsolidatedInto s.db db' x.ids r ∧
      ∀ a ∈ (s.step (.consolidate x)).merged id, Credits r.metadata a

/-- Whoever was merged into a source before is the consolidator or the author of a source; or, if no source has an author,
on the last list. -/
def Attributed (s : Lineage) : LineageStep → Prop
  | .store .. => True
  | .consolidate x => (∃ res, x.run s.db = .ok res) → ∀ src ∈ s.db.sources x.ids, ∀ a ∈ s.merged src.id,
      a = x.agentId ∨ (∃ q ∈ s.db.sources x.ids, q.author = some a) ∨
        (∀ q ∈ s.db.sources x.ids, q.author = none) ∧ Listed (lastList s.db x.ids) a

section Runs

variable {s : Lineage} {db : Db} {mem : Memory}

theorem Db.KeyedRows.insertOrSkip (hdb : db.KeyedRows) (hmem : mem.metadata.Keyed) : (db.insertOrSkip mem).KeyedRows := by
  rcases Db.insertOrSkip_cases db mem with ⟨id, h⟩ | ⟨heq, -, -⟩
  · intro y hy
    rcases Db.mem_insertOnConflict h hy with hold | ⟨r, hr, -, rfl⟩ | rfl
    · exact hdb y hold
    · show (keepAgentId r.metadata mem.metadata).Keyed
      unfold keepAgentId
      cases agentId r.metadata with
      | none => exact hmem
      | some a => exact hmem.set
    · exact hmem
  · rwa [heq]

theorem keyedRows_step (hs : s.db.KeyedRows) (w : LineageStep) : (s.step w).db.KeyedRows := by
  cases w with
  | store mem h => exact hs.insertOrSkip h
  | consolidate x =>
    unfold Lineage.step
    dsimp only
    cases hrun : x.run s.db with
    | error e => exact hs
    | ok res =>
      obtain ⟨r, -, -, -, hkeyed, hrows, -⟩ := consolidated_frame hs hrun
      exact fun y hy => (hrows y hy).elim (hs y) fun heq => heq ▸ hkeyed

/-- A consolidation loses nothing exactly when those merged before are attributed. -/
theorem losesNothing_iff (hs : s.db.KeyedRows) (w : LineageStep) : LosesNothing s w ↔ Attributed s w := by
  cases w with
  | store mem h => exact Iff.rfl
  | consolidate x =>
    unfold LosesNothing Attributed
    cases hrun : x.run s.db with
    | error e => exact iff_of_true (fun _ _ h => by cases hrun.symm.trans h) fun ⟨_, h⟩ => by cases hrun.symm.trans h
    | ok res =>
      obtain ⟨db', id⟩ := res
      obtain ⟨r, hr, -, hinto, -, -, -⟩ := consolidated_frame hs hrun
      have hmerged : (s.step (.consolidate x)).merged id = s.authors x.ids := by
        unfold Lineage.step
        simp only [hrun, Function.update_self]
      have hcredits := fun a => credits_iff (a := a) hs hrun hr
      constructor
      · intro h _ src hsrc a ha
        obtain ⟨r', hr', -, hall⟩ := h db' id hrun
        obtain rfl : r' = r := Option.some.inj (hr'.symm.trans hr)
        refine (hcredits a).mp (hall a ?_)
        rw [hmerged]
        exact List.mem_flatMap.mpr ⟨src, hsrc, List.mem_append_right _ ha⟩
      · intro h db₂ id₂ hok
        cases Except.ok.inj (hok.symm.trans hrun)
        refine ⟨r, hr, hinto, fun a ha => ?_⟩
        rw [hmerged] at ha
        obtain ⟨src, hsrc, ha⟩ := List.mem_flatMap.mp ha
        refine (hcredits a).mpr ?_
        rcases List.mem_append.mp ha with hauthor | hbefore
        · exact Or.inr (Or.inl ⟨src, hsrc, by simpa using hauthor⟩)
        · exact h ⟨_, hrun⟩ src hsrc a hbefore

/-- The consolidations of a run lose nothing exactly when each attributes those merged before. -/
theorem consolidations_credit_iff (hdb : db.KeyedRows) (run : List LineageStep) :
    Meets Lineage.step LosesNothing (.start db) run ↔ Meets Lineage.step Attributed (.start db) run := by
  have hstep : ∀ (s : Lineage) w, s.db.KeyedRows → (Lineage.step s w).db.KeyedRows := fun _ w hs => keyedRows_step hs w
  constructor
  · exact meets_of_meets (fun s w (hs : s.db.KeyedRows) h => ⟨(losesNothing_iff hs w).mp h, hstep s w hs⟩) hdb
  · exact meets_of_meets (fun s w (hs : s.db.KeyedRows) h => ⟨(losesNothing_iff hs w).mpr h, hstep s w hs⟩) hdb

end Runs

/-! ## Two generations -/

def signedNote (id author : String) : Memory where
  id
  tier := .long
  ns := "notes"
  title := id
  content := id
  tags := [id]
  priority := 5
  confidence := 1
  source := "user"
  accessCount := 1
  createdAt := "1"
  updatedAt := "1"
  lastAccessedAt := none
  expiresAt := none
  metadata := .obj [("agent_id", .str author)]

def foldNotes (ids : List String) (agentId newId : String) : ConsolidateCall where
  ids
  title := newId
  summary := newId
  ns := "notes"
  tier := .long
  source := "user"
  agentId
  newId
  now := "2"

def oneGeneration : List LineageStep :=
  [.store (signedNote "a" "alice") (by decide), .store (signedNote "b" "bob") (by decide), .consolidate (foldNotes ["a", "b"] "carol" "ab")]

def twoGenerations : List LineageStep :=
  oneGeneration ++ [.store (signedNote "d" "dave") (by decide), .consolidate (foldNotes ["ab", "d"] "erin" "abd")]

theorem consolidations_credit_oneGeneration : Meets Lineage.step LosesNothing (.start .empty) oneGeneration := by
  refine (consolidations_credit_iff (fun r hr => absurd hr List.not_mem_nil) oneGeneration).mpr ⟨trivial, trivial, ?_, trivial⟩
  exact fun _ src _ a ha => absurd ha List.not_mem_nil

theorem second_credits : ((foldNotes ["ab", "d"] "erin" "abd").run
    (List.foldl Lineage.step (.start .empty) (twoGenerations.take 4)).db).toOption.any fun p => (p.1.get p.2).any fun r =>
      r.metadata.get "agent_id" = some (.str "erin") ∧
        r.metadata.get "consolidated_from_agents" = some (.arr [.str "carol", .str "dave"]) := by
  decide

/-- The second consolidation takes over the first consolidator, and neither of the authors before. -/
theorem first_authors_lost : ¬Meets Lineage.step LosesNothing (.start .empty) twoGenerations := by
  rintro ⟨-, -, -, -, h, -⟩
  have hsecond := second_credits
  change ∀ db' id, (foldNotes ["ab", "d"] "erin" "abd").run
    (List.foldl Lineage.step (.start .empty) (twoGenerations.take 4)).db = .ok (db', id) → _ at h
  cases hrun : (foldNotes ["ab", "d"] "erin" "abd").run (List.foldl Lineage.step (.start .empty) (twoGenerations.take 4)).db with
  | error e =>
    rw [hrun] at hsecond
    cases hsecond
  | ok res =>
    obtain ⟨db', id⟩ := res
    obtain ⟨r, hr, -, hall⟩ := h db' id hrun
    rw [hrun] at hsecond
    simp only [Except.toOption, Option.any_some, hr, decide_eq_true_eq] at hsecond
    obtain rfl : id = "abd" := Db.consolidate_id hrun
    have hlost := hall "alice" (by decide +kernel)
    unfold Credits Listed at hlost
    rw [hsecond.1, hsecond.2] at hlost
    rcases hlost with howner | ⟨items, hitems, hin⟩
    · exact absurd howner (by decide)
    · rw [← Json.arr.inj (Option.some.inj hitems)] at hin
      exact absurd hin (by decide)

end AiMemory
