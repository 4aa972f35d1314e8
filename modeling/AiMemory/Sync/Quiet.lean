import AiMemory.Sync.Settled

/-!
# A database that a body leaves as it is

`Quiet h b d` says that the first five phases of a push find nothing to do in `d`: the memories of the body merge into rows
that have them already, or are refused, or come and go within the push; its deletions and archivals find no row; its restores
find nothing to restore or no room for it; its links are there or miss an end. `rows_again` says what these phases then
leave: `d` itself, with another time in the archive.
-/

namespace AiMemory

open Relational Convergence Validate

namespace Push

/-- Deleted or archived by the body. -/
def Drops (b : SyncPushBody) (id : String) : Prop :=
  Accepts (validateId id) ∧ (id ∈ b.deletions ∨ id ∈ b.archives)

instance (b : SyncPushBody) (id : String) : Decidable (Drops b id) := inferInstanceAs (Decidable (_ ∧ _))

def unfiled (a : ArchivedRow) : ArchivedRow := { a with archivedAt := "" }

/-- The row of the title of `m` has all of its memories in it. -/
def Kept (h : Host) (b : SyncPushBody) (d : Db) (m : Memory) : Prop :=
  ∃ r, d.getKey m.key = some r ∧ (ofKey (h.merges b.memories) m.key).foldl mergeNewer r = r

/-- A row that the memories of the title of `m` make is archived in the same push, and is archived already. -/
structure Refiled (h : Host) (b : SyncPushBody) (d : Db) (m : Memory) : Prop where
  archives : m.id ∈ b.archives
  ids : ∀ x ∈ h.merges b.memories, x.key = m.key → x.id = m.id
  alone : ∀ x ∈ h.merges b.memories, x.id = m.id → x.key = m.key ∨ d.getKey x.key ≠ none
  archived : (d.archived.find m.id).map unfiled =
    (mergeAll none (ofKey (h.merges b.memories) m.key)).map (archiveRow "" "sync_push")

/-- A row that `m` makes is deleted or archived in the same push. -/
structure Passing (h : Host) (b : SyncPushBody) (d : Db) (m : Memory) : Prop where
  free : d.get m.id = none
  bare : Bare d m.id
  goes : m.id ∈ b.deletions ∨ Refiled h b d m

/-- The first five phases of a body find nothing to do. -/
structure Quiet (h : Host) (b : SyncPushBody) (d : Db) : Prop where
  memories : ∀ m ∈ h.merges b.memories, Kept h b d m ∨ d.getKey m.key = none ∧ (d.get m.id ≠ none ∨ Passing h b d m)
  deletions : ∀ id ∈ b.deletions, Accepts (validateId id) → Gone d id
  archives : ∀ id ∈ b.archives, Accepts (validateId id) → d.get id = none
  restores : ∀ id ∈ b.restores, Accepts (validateId id) → NoRestore d id
  links : ∀ l ∈ b.links, Linked h d l

section Again

variable {h : Host} {t : Tick} {b : SyncPushBody} {d : Db} {m : Memory} {r : MemoryRow} {id : String}

theorem canMerge_of_mem (hm : m ∈ h.merges b.memories) : h.CanMerge m := (mem_merges.mp hm).2

theorem accepts_id (hm : m ∈ h.merges b.memories) : Accepts (validateId m.id) := by
  have hv : Accepts (validateMemory h.rfc3339 m) := (canMerge_of_mem hm).1
  unfold validateMemory at hv
  rw [accepts_bind] at hv
  exact hv.1

theorem Quiet.not_drops (hq : Quiet h b d) (hget : d.get id ≠ none) : ¬Drops b id := by
  rintro ⟨hv, hid | hid⟩
  · exact hget (hq.deletions id hid hv).1
  · exact hget (hq.archives id hid hv)

theorem Passing.drops (hm : m ∈ h.merges b.memories) (hp : Passing h b d m) : Drops b m.id :=
  ⟨accepts_id hm, hp.goes.imp_right Refiled.archives⟩

/-! ### The memories -/

def retaken (h : Host) (b : SyncPushBody) (d : Db) : Db := b.memories.foldl h.takeIn d

theorem places_retaken (h : Host) (b : SyncPushBody) (d : Db) :
    (retaken h b d).places = placesAfter d (h.merges b.memories) := by
  unfold retaken
  rw [foldl_takeIn_merges]
  exact places_foldl_takeIn (fun _ hm => canMerge_of_mem hm) d

theorem retaken_frame (h : Host) (b : SyncPushBody) (d : Db) : retaken h b d = { d with memories := (retaken h b d).memories } :=
  foldl_takeIn_frame h d b.memories

/-- The memories make no rows but those that go again. -/
theorem passing_of_mem_retaken (hq : Quiet h b d) (hr : r ∈ (retaken h b d).memories) (hnew : d.get r.id = none) :
    ∃ m ∈ h.merges b.memories, r.id = m.id ∧ r.key = m.key ∧ d.getKey m.key = none ∧ Passing h b d m := by
  have hplace : (r.id, r.key) ∈ placesAfter d (h.merges b.memories) := by
    rw [← places_retaken]
    exact mem_places.mpr ⟨r, Db.getKey_of_mem hr, rfl⟩
  rcases mem_placesAfter hplace with hold | ⟨m, hm, he⟩
  · exact absurd hnew (exists_mem_places.mp ⟨_, hold⟩)
  · obtain ⟨hid, hkey⟩ := Prod.mk.injEq .. ▸ he
    rcases hq.memories m hm with ⟨x, hx, -⟩ | ⟨hnone, htaken | hpass⟩
    · have hkept : (x.id, m.key) ∈ (retaken h b d).places := by
        rw [places_retaken]
        exact places_subset d _ (mem_places.mpr ⟨x, hx, rfl⟩)
      obtain ⟨y, hy, hyid⟩ := mem_places.mp hkept
      rw [← hkey, Db.getKey_of_mem hr, Option.some.injEq] at hy
      rw [hy, hyid, Db.get_of_mem (Db.getKey_eq_some.mp hx).1] at hnew
      cases hnew
    · rw [hid] at hnew
      exact absurd hnew htaken
    · exact ⟨m, hm, hid, hkey, hnone, hpass⟩

theorem getKey_retaken (hq : Quiet h b d) {k : String × String} (hk : d.getKey k = some r) :
    (retaken h b d).getKey k = some r := by
  unfold retaken
  rw [foldl_takeIn_merges, getKey_foldl_of_some (fun _ hm => canMerge_of_mem hm) hk]
  by_cases hne : ofKey (h.merges b.memories) k = []
  · rw [hne]
    rfl
  · obtain ⟨m, hm⟩ := List.exists_mem_of_ne_nil _ hne
    obtain ⟨hmem, rfl⟩ := mem_ofKey.mp hm
    rcases hq.memories m hmem with ⟨x, hx, hfix⟩ | ⟨hnone, -⟩
    · rw [hk] at hx
      cases hx
      rw [hfix]
    · rw [hk] at hnone
      cases hnone

/-- The rows that stay are those of before. -/
theorem memories_retaken (hq : Quiet h b d) : ((retaken h b d).memories.filter fun r => ¬Drops b r.id) = d.memories := by
  have hkeep : (d.places.filter fun p => ¬Drops b p.1) = d.places :=
    List.filter_eq_self.mpr fun p hp => decide_eq_true (hq.not_drops (exists_mem_places.mp ⟨p.2, hp⟩))
  have hplaces : ((retaken h b d).places.filter fun p => ¬Drops b p.1) = d.places := by
    rw [places_retaken, filter_placesAfter (f := fun id => Decidable.decide ¬Drops b id) fun m hm hstays => ?_, hkeep]
    rcases hq.memories m hm with ⟨x, hx, -⟩ | ⟨-, htaken | hpass⟩
    · exact ⟨(x.id, m.key), mem_places.mpr ⟨x, hx, rfl⟩, Or.inr rfl⟩
    · obtain ⟨k, hk⟩ := exists_mem_places.mpr htaken
      exact ⟨(m.id, k), hk, Or.inl rfl⟩
    · exact absurd (hpass.drops hm) (of_decide_eq_true hstays)
  refine Indexed.ext_findBy ?_ fun k => ?_
  · have hkeys := congrArg (List.map Prod.snd) hplaces
    unfold Db.places at hkeys
    rw [List.filter_map, List.map_map, List.map_map] at hkeys
    exact hkeys
  · rw [Indexed.findBy_filter]
    show ((retaken h b d).getKey k).filter _ = d.getKey k
    cases hk : d.getKey k with
    | some r =>
      rw [getKey_retaken hq hk, Option.filter_some_pos]
      exact decide_eq_true (hq.not_drops (Db.get_ne_none_iff.mpr ⟨r, (Db.getKey_eq_some.mp hk).1, rfl⟩))
    | none =>
      cases hr : (retaken h b d).getKey k with
      | none => rfl
      | some r =>
        refine Option.filter_some_neg (Bool.eq_false_iff.mpr fun hstays => ?_)
        obtain ⟨hmem, rfl⟩ := Db.getKey_eq_some.mp hr
        have hplace : (r.id, r.key) ∈ d.places := by
          rw [← hplaces]
          exact List.mem_filter.mpr ⟨mem_places.mpr ⟨r, hr, rfl⟩, hstays⟩
        obtain ⟨x, hx, -⟩ := mem_places.mp hplace
        rw [hk] at hx
        cases hx

/-! ### The five phases -/

theorem bare_retaken (hq : Quiet h b d) (hdrops : Drops b id) (hget : (retaken h b d).get id ≠ none) :
    Bare (retaken h b d) id := by
  obtain ⟨r, hmem, rfl⟩ := Db.get_ne_none_iff.mp hget
  have hnew : d.get r.id = none := not_not.mp fun hlive => hq.not_drops hlive hdrops
  obtain ⟨m, -, hid, -, -, hpass⟩ := passing_of_mem_retaken hq hmem hnew
  rw [retaken_frame, hid]
  exact hpass.bare

theorem memories_dropped (t : Tick) (b : SyncPushBody) (d : Db) :
    (b.archives.foldl (onArchive t) (b.deletions.foldl onDeletion d)).memories = d.memories.filter fun r => ¬Drops b r.id := by
  rw [memories_foldl_removes removes_onArchive, memories_foldl_removes removes_onDeletion]
  refine Indexed.ext ?_
  show (d.memories.rows.filter _).filter _ = d.memories.rows.filter _
  rw [List.filter_filter]
  refine List.filter_congr fun r _ => ?_
  unfold Drops
  by_cases hv : Accepts (validateId r.id)
  · simp [hv, Bool.and_comm]
  · simp [hv]

theorem archived_foldl_onDeletion (ids : List String) (d : Db) : (ids.foldl onDeletion d).archived = d.archived := by
  refine Machine.foldl_keeps (g := fun d : Db => d.archived) (fun d id => ?_) d ids
  unfold onDeletion
  split_ifs <;> rfl

theorem unfiled_archiveRow (now reason : String) (r : MemoryRow) :
    unfiled (archiveRow now reason r) = archiveRow "" reason r := rfl

theorem archived_again (hq : Quiet h b d) (t : Tick) (i : String) :
    ((b.archives.foldl (onArchive t) (b.deletions.foldl onDeletion (retaken h b d))).archived.find i).map unfiled =
      (d.archived.find i).map unfiled := by
  have hold : (b.deletions.foldl onDeletion (retaken h b d)).archived = d.archived := by
    rw [archived_foldl_onDeletion, retaken_frame]
  rw [find_archived_foldl_onArchive, hold, get_foldl_removes removes_onDeletion]
  split_ifs with harch hdel
  · rfl
  · cases hr : (retaken h b d).get i with
    | none => rfl
    | some r =>
      obtain ⟨hmem, rfl⟩ := Db.get_eq_some.mp hr
      obtain ⟨m, hm, hid, hkey, hnone, hpass⟩ := passing_of_mem_retaken hq hmem (hq.archives r.id harch.2 harch.1)
      have hrefiled : Refiled h b d m := hpass.goes.resolve_left fun hin => hdel ⟨harch.1, hid ▸ hin⟩
      have hmade : mergeAll none (ofKey (h.merges b.memories) m.key) = some r := by
        rw [← Db.getKey_of_mem hmem, hkey, ← getKey_foldl_of_free (fun _ hx => canMerge_of_mem hx) hnone hpass.free
          hrefiled.ids hrefiled.alone, ← foldl_takeIn_merges]
        rfl
      rw [Option.map_some, Option.some_or, Option.map_some, unfiled_archiveRow, hid, hrefiled.archived, hmade]
      rfl
  · rfl

/-- The first five phases leave a quiet database as it is, but for the times of the archive. -/
theorem rows_again (hq : Quiet h b d) (t : Tick) : ∃ archived, rows h t b d = { d with archived } ∧
    ∀ i, (archived.find i).map unfiled = (d.archived.find i).map unfiled := by
  have hdel : b.deletions.foldl onDeletion (retaken h b d) =
      { retaken h b d with memories := (b.deletions.foldl onDeletion (retaken h b d)).memories
                           archived := (b.deletions.foldl onDeletion (retaken h b d)).archived } := by
    refine foldl_removes_frame removes_onDeletion fun id hid hv => ?_
    by_cases hget : (retaken h b d).get id = none
    · refine Or.inl ⟨hget, ?_⟩
      rw [retaken_frame]
      exact (hq.deletions id hid hv).2
    · exact Or.inr (bare_retaken hq ⟨hv, Or.inl hid⟩ hget)
  have harch : b.archives.foldl (onArchive t) (b.deletions.foldl onDeletion (retaken h b d)) =
      { d with memories := d.memories
               archived := (b.archives.foldl (onArchive t) (b.deletions.foldl onDeletion (retaken h b d))).archived } := by
    have hids : ∀ id ∈ b.archives, Accepts (validateId id) →
        (b.deletions.foldl onDeletion (retaken h b d)).get id = none ∨
          Bare (b.deletions.foldl onDeletion (retaken h b d)) id := by
      intro id hid hv
      by_cases hget : (b.deletions.foldl onDeletion (retaken h b d)).get id = none
      · exact Or.inl hget
      · rw [get_foldl_removes removes_onDeletion] at hget
        have hlive : (retaken h b d).get id ≠ none := fun hc => hget (by rw [hc, ite_self])
        right
        rw [hdel]
        exact bare_retaken hq ⟨hv, Or.inr hid⟩ hlive
    have hframe := foldl_removes_frame (removes_onArchive (t := t)) hids
    have hmem := (memories_dropped t b (retaken h b d)).trans (memories_retaken hq)
    rw [← hmem]
    generalize (b.archives.foldl (onArchive t) (b.deletions.foldl onDeletion (retaken h b d))).memories = memories at hframe ⊢
    generalize (b.archives.foldl (onArchive t) (b.deletions.foldl onDeletion (retaken h b d))).archived = archived at hframe ⊢
    rw [hframe, hdel, retaken_frame]
  have hfind := archived_again hq t
  refine ⟨(b.archives.foldl (onArchive t) (b.deletions.foldl onDeletion (retaken h b d))).archived, ?_, hfind⟩
  show b.links.foldl (onLink h t) (b.restores.foldl (onRestore t)
    (b.archives.foldl (onArchive t) (b.deletions.foldl onDeletion (retaken h b d)))) = _
  rw [harch, Machine.foldl_eq_self fun id hid => onRestore_eq_self fun hv a ha => ?_]
  · exact Machine.foldl_eq_self fun l hl => onLink_eq_self (hq.links l hl)
  have hmap := hfind id
  rw [show Table.find _ id = some a from ha, Option.map_some] at hmap
  obtain ⟨a', ha', he⟩ := Option.map_eq_some_iff.mp hmap.symm
  have hkey : (unfiled a').key = (unfiled a).key := by rw [he]
  replace hkey : a'.key = a.key := hkey
  rw [← hkey]
  exact hq.restores id hid hv a' ha'

end Again

end Push

end AiMemory
