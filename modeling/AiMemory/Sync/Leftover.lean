import AiMemory.Sync.Quiet

/-!
# The rows a body leaves

`RowsOk h b db` is what a body needs so that its first five phases leave a database that is quiet for it (`calm_rows`): the
title of each of its memories keeps the row that they are in, or has none at the end and would have none again; and what it
restores it does not delete or archive.
-/

namespace AiMemory

open Relational Convergence

namespace Push

variable (h : Host) (b : SyncPushBody) (db : Db)

/-- The row of a title and namespace after the memories of a body. -/
def Placed (i : String) (k : String × String) : Prop := (i, k) ∈ placesAfter db (h.merges b.memories)

/-- The title of `m` keeps the row that its memories merge into or make, and it would take them again without a change. -/
structure Stays (m : Memory) (i : String) : Prop where
  row : rowId db (h.merges b.memories) m.key = some i
  placed : Placed h b db i m.key
  left : ¬Drops b i
  agent : (∃ r, db.getKey m.key = some r ∧ agentId r.metadata ≠ none) ∨
    ∀ x ∈ (ofKey (h.merges b.memories) m.key).getLast?, x.metadata.StableAt "agent_id"
  expiry : db.getKey m.key = none → ∀ x, ofKey (h.merges b.memories) m.key = [x] → x.tier = .long → x.expiresAt = none

/-- The row of the memories of the title of `m` is archived, as they alone would make it. -/
structure Filed (m : Memory) : Prop where
  archives : m.id ∈ b.archives
  undeleted : m.id ∉ b.deletions
  placed : Placed h b db m.id m.key
  ids : ∀ x ∈ h.merges b.memories, x.key = m.key → x.id = m.id
  same : (mergeAll (db.getKey m.key) (ofKey (h.merges b.memories) m.key)).map (archiveRow "" "sync_push") =
    (mergeAll none (ofKey (h.merges b.memories) m.key)).map (archiveRow "" "sync_push")

/-- The title of `m` has no row at the end: `m` is refused for its id, or goes again with the row it makes. -/
structure Leaves (m : Memory) : Prop where
  rows : ∀ i, Placed h b db i m.key → Drops b i
  restored : ∀ id ∈ b.restores, Accepts (Validate.validateId id) → ∀ a, db.archived.find id = some a → a.key ≠ m.key
  id : ((∃ k, Placed h b db m.id k) ∧ ¬Drops b m.id) ∨
    (m.id ∈ b.deletions ∧ ((∃ k, Placed h b db m.id k) ∨ Unlinked db m.id)) ∨ Filed h b db m

/-- What a body needs so that its rows are left alone by a second push. -/
structure RowsOk : Prop where
  memories : ∀ m ∈ h.merges b.memories, (∃ i, Stays h b db m i) ∨ Leaves h b db m
  restores : ∀ id ∈ b.restores, Accepts (Validate.validateId id) → ¬Drops b id ∨
    (id ∈ b.archives → id ∈ b.deletions ∨ ∀ k, ¬Placed h b db id k) ∧
      ∀ a, db.archived.find id = some a → ∃ i, Placed h b db i a.key ∧ ¬Drops b i

/-- The rows that the first five phases can leave, by id, title and namespace. -/
def Had (i : String) (k : String × String) : Prop :=
  Placed h b db i k ∨ i ∈ b.restores ∧ Accepts (Validate.validateId i) ∧ ∃ a, db.archived.find i = some a ∧ a.key = k

/-- A quiet database with the rows of `Had` and others whose ids are `new`. -/
structure Calm (new : String → Prop) (d : Db) : Prop where
  quiet : Quiet h b d
  titled : ∀ m ∈ h.merges b.memories, ∀ r, d.getKey m.key = some r → Placed h b db r.id m.key
  stays : ∀ m ∈ h.merges b.memories, ∀ i, Placed h b db i m.key → ¬Drops b i → d.getKey m.key ≠ none
  known : ∀ r ∈ d.memories, Had h b db r.id r.key ∨ new r.id
  archived : ∀ id ∈ b.restores, Accepts (Validate.validateId id) → ∀ a, d.archived.find id = some a →
    db.archived.find id = some a

section Rows

variable {h b db} {t : Tick} {m : Memory} {r : MemoryRow} {i : String} {k : String × String}

theorem placed_iff : Placed h b db i k ↔ ∃ r, (retaken h b db).getKey k = some r ∧ r.id = i := by
  unfold Placed
  rw [← places_retaken]
  exact mem_places

theorem exists_placed_iff : (∃ k, Placed h b db i k) ↔ (retaken h b db).get i ≠ none := by
  unfold Placed
  rw [← places_retaken]
  exact exists_mem_places

def dropped (h : Host) (t : Tick) (b : SyncPushBody) (db : Db) : Db :=
  b.archives.foldl (onArchive t) (b.deletions.foldl onDeletion (retaken h b db))

theorem rows_eq (h : Host) (t : Tick) (b : SyncPushBody) (db : Db) : rows h t b db =
    b.links.foldl (onLink h t) (b.restores.foldl (onRestore t) (dropped h t b db)) := rfl

theorem rows_memories (h : Host) (t : Tick) (b : SyncPushBody) (db : Db) :
    (rows h t b db).memories = (b.restores.foldl (onRestore t) (dropped h t b db)).memories := by
  rw [rows_eq, foldl_onLink_frame]

theorem get_rows (h : Host) (t : Tick) (b : SyncPushBody) (db : Db) (i : String) :
    (rows h t b db).get i = (b.restores.foldl (onRestore t) (dropped h t b db)).get i := by
  unfold Db.get
  rw [rows_memories]

theorem getKey_rows (h : Host) (t : Tick) (b : SyncPushBody) (db : Db) (k : String × String) :
    (rows h t b db).getKey k = (b.restores.foldl (onRestore t) (dropped h t b db)).getKey k := by
  unfold Db.getKey
  rw [rows_memories]

theorem rows_archived (h : Host) (t : Tick) (b : SyncPushBody) (db : Db) :
    (rows h t b db).archived = (b.restores.foldl (onRestore t) (dropped h t b db)).archived := by
  rw [rows_eq, foldl_onLink_frame]

theorem rows_namespaceMeta (h : Host) (t : Tick) (b : SyncPushBody) (db : Db) :
    (rows h t b db).namespaceMeta = (dropped h t b db).namespaceMeta := by
  rw [rows_eq, foldl_onLink_frame]
  exact Machine.foldl_keeps (g := fun d : Db => d.namespaceMeta) onRestore_namespaceMeta _ _

/-! ### After the deletions and archivals -/

theorem getKey_dropped (h : Host) (t : Tick) (b : SyncPushBody) (db : Db) (k : String × String) :
    (dropped h t b db).getKey k = ((retaken h b db).getKey k).filter fun r => ¬Drops b r.id := by
  unfold dropped Db.getKey
  rw [memories_dropped, Indexed.findBy_filter]

theorem get_dropped (h : Host) (t : Tick) (b : SyncPushBody) (db : Db) (i : String) :
    (dropped h t b db).get i = if Drops b i then none else (retaken h b db).get i := by
  unfold dropped Db.get
  rw [memories_dropped, Indexed.find_filter]
  cases hi : (retaken h b db).memories.find i with
  | none => rw [ite_self]; rfl
  | some r =>
    rw [Option.filter_some, (Indexed.find_eq_some.mp hi).2]
    by_cases hd : Drops b i <;> simp [hd]

theorem find_archived_dropped (h : Host) (t : Tick) (b : SyncPushBody) (db : Db) (i : String) :
    (dropped h t b db).archived.find i =
      if Drops b i ∧ i ∈ b.archives ∧ i ∉ b.deletions then
        (((retaken h b db).get i).map (archiveRow t.now "sync_push")).or (db.archived.find i)
      else db.archived.find i := by
  have hold : (b.deletions.foldl onDeletion (retaken h b db)).archived = db.archived := by
    rw [archived_foldl_onDeletion, retaken_frame]
  unfold dropped Drops
  rw [find_archived_foldl_onArchive, hold, get_foldl_removes removes_onDeletion]
  by_cases hv : Accepts (Validate.validateId i) <;> by_cases ha : i ∈ b.archives <;> by_cases hd : i ∈ b.deletions <;>
    simp [hv, ha, hd]

theorem find_archived_of_restores (hok : RowsOk h b db) (t : Tick) (hi : i ∈ b.restores)
    (hv : Accepts (Validate.validateId i)) : (dropped h t b db).archived.find i = db.archived.find i := by
  rw [find_archived_dropped]
  split_ifs with hc
  · obtain ⟨hdrops, harch, hdel⟩ := hc
    rcases hok.restores i hi hv with hleft | ⟨hfree, -⟩
    · exact absurd hdrops hleft
    · have hget : (retaken h b db).get i = none := by
        by_contra hlive
        obtain ⟨k, hk⟩ := exists_placed_iff.mpr hlive
        exact (hfree harch).elim hdel fun hno => hno k hk
      rw [hget]
      rfl
  · rfl

/-! ### At the end -/

theorem getKey_rows_of_placed (t : Tick) (hp : Placed h b db i k) (hleft : ¬Drops b i) :
    ∃ r, (retaken h b db).getKey k = some r ∧ (rows h t b db).getKey k = some r ∧ r.id = i := by
  obtain ⟨r, hr, rfl⟩ := placed_iff.mp hp
  refine ⟨r, hr, ?_, rfl⟩
  rw [getKey_rows]
  refine getKey_foldl_onRestore ?_
  rw [getKey_dropped, hr, Option.filter_some_pos (by simpa using hleft)]

theorem get_rows_of_drops (hok : RowsOk h b db) (t : Tick) (hdrops : Drops b i) : (rows h t b db).get i = none := by
  rw [get_rows]
  refine get_foldl_onRestore (by rw [get_dropped, if_pos hdrops]) fun hi hv a ha => ?_
  rw [find_archived_of_restores hok t hi hv] at ha
  obtain ⟨x, hx, hleft⟩ := ((hok.restores i hi hv).resolve_left (not_not.mpr hdrops)).2 a ha
  obtain ⟨r, hr, rfl⟩ := placed_iff.mp hx
  rw [getKey_dropped, hr, Option.filter_some_pos (by simpa using hleft)]
  exact Option.some_ne_none r

theorem getKey_rows_of_leaves (hok : RowsOk h b db) (t : Tick) (hm : Leaves h b db m) :
    (rows h t b db).getKey m.key = none := by
  rw [getKey_rows]
  refine getKey_foldl_onRestore_eq_none ?_ fun id hid hv a ha => hm.restored id hid hv a ?_
  · rw [getKey_dropped]
    cases hr : (retaken h b db).getKey m.key with
    | none => rfl
    | some r => exact Option.filter_some_neg (by simpa using hm.rows r.id (placed_iff.mpr ⟨r, hr, rfl⟩))
  · rwa [find_archived_of_restores hok t hid hv] at ha

theorem had_of_mem_rows (hok : RowsOk h b db) (hr : r ∈ (rows h t b db).memories) : Had h b db r.id r.key := by
  rw [rows_memories] at hr
  rcases mem_foldl_onRestore hr with hold | ⟨hi, hv, -, a, ha, hak⟩
  · have hkey := Db.getKey_of_mem hold
    rw [getKey_dropped] at hkey
    exact Or.inl (placed_iff.mpr ⟨r, (Option.filter_eq_some_iff.mp hkey).1, rfl⟩)
  · rw [find_archived_of_restores hok t hi hv] at ha
    exact Or.inr ⟨hi, hv, a, ha, hak⟩

theorem kept_of_stays (t : Tick) (hs : Stays h b db m i) :
    Kept h b (rows h t b db) m := by
  obtain ⟨r, hr, hend, hid⟩ := getKey_rows_of_placed t hs.placed hs.left
  unfold retaken at hr
  rw [foldl_takeIn_merges] at hr
  have hall := getKey_foldl_of_rowId (fun _ hx => canMerge_of_mem hx) hr (by rw [hs.row, hid])
  refine ⟨r, hend, foldl_of_mergeAll hall (fun x hx => ?_) ?_ hs.expiry⟩
  · exact (canMerge_of_mem (mem_ofKey.mp hx).1).1.isObject
  · exact hs.agent

/-- The row that is archived is the one that is made again. -/
theorem refiled_of_filed (hok : RowsOk h b db) (t : Tick) (hm : m ∈ h.merges b.memories) (hf : Filed h b db m) :
    Refiled h b (rows h t b db) m := by
  have hdrops : Drops b m.id := ⟨accepts_id hm, Or.inr hf.archives⟩
  refine ⟨hf.archives, hf.ids, fun x hx hxid => ?_, ?_⟩
  · rcases hok.memories x hx with ⟨i, hs⟩ | hl
    · obtain ⟨r, -, hr, -⟩ := getKey_rows_of_placed t hs.placed hs.left
      rw [hr]
      exact Or.inr (Option.some_ne_none r)
    · rcases hl.id with ⟨-, hleft⟩ | ⟨hdel, -⟩ | hxf
      · exact absurd (hxid ▸ hdrops) hleft
      · exact absurd (hxid ▸ hdel) hf.undeleted
      · left
        have hplace := hxf.placed
        have hplace' := hf.placed
        unfold Placed at hplace hplace'
        rw [hxid, ← places_retaken] at hplace
        rw [← places_retaken] at hplace'
        exact eq_of_mem_places hplace hplace'
  · have hrestored : m.id ∉ b.restores := fun hi => by
      rcases hok.restores m.id hi (accepts_id hm) with hleft | ⟨hfree, -⟩
      · exact hleft hdrops
      · exact (hfree hf.archives).elim hf.undeleted fun hno => hno m.key hf.placed
    obtain ⟨r, hr, hid⟩ := placed_iff.mp hf.placed
    have hrow : rowId db (h.merges b.memories) m.key = some r.id := by
      unfold rowId
      cases hold : db.getKey m.key with
      | some x =>
        have hplace : Placed h b db x.id m.key := places_subset db _ (mem_places.mpr ⟨x, hold, rfl⟩)
        obtain ⟨y, hy, hyid⟩ := placed_iff.mp hplace
        rw [hr, Option.some.injEq] at hy
        rw [Option.map_some, ← hyid, ← hy]
        rfl
      | none =>
        obtain ⟨x, hx⟩ := Option.isSome_iff_exists.mp
          (List.find?_isSome.mpr ⟨m, hm, decide_eq_true rfl⟩ : ((h.merges b.memories).find? fun x => x.key = m.key).isSome)
        rw [hx, hid, ← hf.ids x (List.mem_of_find?_eq_some hx) (by simpa using List.find?_some hx)]
        rfl
    have hget : (retaken h b db).get m.id = some r := by
      rw [← hid]
      exact Db.get_of_mem (Db.getKey_eq_some.mp hr).1
    unfold retaken at hr
    rw [foldl_takeIn_merges] at hr
    have hall := getKey_foldl_of_rowId (fun _ hx => canMerge_of_mem hx) hr hrow
    rw [rows_archived, find_archived_foldl_onRestore hrestored, find_archived_dropped,
      if_pos ⟨hdrops, hf.archives, hf.undeleted⟩, hget, ← hf.same, hall]
    rfl

/-- Nothing refers to a row that came and went. -/
theorem bare_rows (hok : RowsOk h b db) (t : Tick) (hdrops : Drops b i) (hgone : (retaken h b db).get i ≠ none ∨
    i ∈ b.deletions ∧ Unlinked db i) : Bare (rows h t b db) i := by
  have hdrop : Bare (dropped h t b db) i := by
    unfold dropped
    by_cases hget : (b.deletions.foldl onDeletion (retaken h b db)).get i = none
    · -- it was deleted, or it never was there
      have hbare : Bare (b.deletions.foldl onDeletion (retaken h b db)) i := by
        rcases hgone with hlive | ⟨hdel, hfree⟩
        · have hin : i ∈ b.deletions := by
            by_contra hout
            rw [get_foldl_removes removes_onDeletion, if_neg fun hc => hout hc.2] at hget
            exact hlive hget
          exact bare_foldl_removes removes_onDeletion hdrops.1 hin hlive
        · refine ⟨fun l hl => hfree l ?_, (gone_foldl_onDeletion hdel hdrops.1).2⟩
          have hl' := links_foldl_removes removes_onDeletion b.deletions _ l hl
          rwa [retaken_frame] at hl'
      exact ⟨fun l hl => hbare.1 l (links_foldl_removes removes_onArchive b.archives _ l hl),
        fun e he => hbare.2 e (standards_foldl_removes removes_onArchive b.archives _ e he)⟩
    · refine bare_foldl_removes removes_onArchive hdrops.1 (hdrops.2.resolve_left fun hin => hget ?_) hget
      rw [get_foldl_removes removes_onDeletion, if_pos ⟨hdrops.1, hin⟩]
  constructor
  · have hgone' := get_rows_of_drops hok t hdrops
    rw [get_rows] at hgone'
    rw [rows_eq]
    refine unlinked_foldl hgone' ?_
    intro l hl
    rw [Machine.foldl_keeps (g := fun d : Db => d.links) onRestore_links] at hl
    exact hdrop.1 l hl
  · rw [rows_namespaceMeta]
    exact hdrop.2

theorem quiet_rows (hok : RowsOk h b db) (t : Tick) : Quiet h b (rows h t b db) := by
  refine ⟨fun m hm => ?_, fun id hid hv => ⟨get_rows_of_drops hok t ⟨hv, Or.inl hid⟩, ?_⟩,
    fun id hid hv => get_rows_of_drops hok t ⟨hv, Or.inr hid⟩, fun id hid hv a ha => ?_, fun l hl => ?_⟩
  · rcases hok.memories m hm with ⟨i, hs⟩ | hl
    · exact Or.inl (kept_of_stays t hs)
    · refine Or.inr ⟨getKey_rows_of_leaves hok t hl, ?_⟩
      rcases hl.id with ⟨⟨k, hk⟩, hleft⟩ | ⟨hdel, hfree⟩ | hf
      · obtain ⟨r, -, hr, hid⟩ := getKey_rows_of_placed t hk hleft
        exact Or.inl (Db.get_ne_none_iff.mpr ⟨r, (Db.getKey_eq_some.mp hr).1, hid⟩)
      · have hdrops : Drops b m.id := ⟨accepts_id hm, Or.inl hdel⟩
        refine Or.inr ⟨get_rows_of_drops hok t hdrops, bare_rows hok t hdrops ?_, Or.inl hdel⟩
        exact hfree.imp exists_placed_iff.mp fun hfree => ⟨hdel, hfree⟩
      · have hdrops : Drops b m.id := ⟨accepts_id hm, Or.inr hf.archives⟩
        refine Or.inr ⟨get_rows_of_drops hok t hdrops, bare_rows hok t hdrops ?_, Or.inr (refiled_of_filed hok t hm hf)⟩
        exact Or.inl (exists_placed_iff.mp ⟨m.key, hf.placed⟩)
  · rw [rows_namespaceMeta]
    exact fun e he => (gone_foldl_onDeletion hid hv).2 e (standards_foldl_removes removes_onArchive b.archives _ e he)
  · rw [rows_archived] at ha
    rw [get_rows, getKey_rows]
    exact noRestore_foldl hid hv a ha
  · rw [rows_eq]
    exact linked_foldl hl

theorem calm_rows (hok : RowsOk h b db) (t : Tick) (new : String → Prop) : Calm h b db new (rows h t b db) := by
  refine ⟨quiet_rows hok t, fun m hm r hr => ?_, fun m hm i hi hleft => ?_, fun r hr => Or.inl (had_of_mem_rows hok hr),
    fun id hid hv a ha => ?_⟩
  · rcases hok.memories m hm with ⟨i, hs⟩ | hl
    · obtain ⟨x, -, hx, hid⟩ := getKey_rows_of_placed t hs.placed hs.left
      rw [hr, Option.some.injEq] at hx
      rw [hx, hid]
      exact hs.placed
    · rw [getKey_rows_of_leaves hok t hl] at hr
      cases hr
  · obtain ⟨r, -, hr, -⟩ := getKey_rows_of_placed t hi hleft
    rw [hr]
    exact Option.some_ne_none r
  · rw [rows_archived] at ha
    have hold := find_archived_of_foldl_onRestore ha
    rwa [find_archived_of_restores hok t hid hv] at hold

end Rows

end Push

end AiMemory
