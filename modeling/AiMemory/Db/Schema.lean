import AiMemory.Lib.Table
import AiMemory.Model.Validate

/-!
# The database

The tables of schema version 28 that the sync, archive and governance code reads and writes. A
`Db` is the content of one SQLite file: `memories` has a primary key and the unique index on
`(title, namespace)`, every other table one primary key. Rows stand in insertion order.

Two schema rules act on deletion: `memory_links` rows go with either endpoint (`ON DELETE CASCADE`),
and nothing else does.
-/

namespace AiMemory

open Relational

/-- A row of `memories`. -/
structure MemoryRow extends Memory where
  embedding : Option (List UInt8)
  embeddingDim : Option ℤ
  deriving DecidableEq

/-- The row a plain `INSERT` of a memory leaves. -/
def Memory.toRow (m : Memory) : MemoryRow := { m with embedding := none, embeddingDim := none }

@[simp] theorem Memory.toRow_toMemory (m : Memory) : m.toRow.toMemory = m := rfl

/-- A row of `archived_memories`. -/
structure ArchivedRow extends Memory where
  archivedAt : String
  archiveReason : String
  embedding : Option (List UInt8)
  embeddingDim : Option ℤ
  originalTier : Option Tier
  originalExpiresAt : Option String
  deriving DecidableEq

/-- A row of `memory_links`. -/
structure LinkRow extends MemoryLink where
  attestLevel : Option String
  deriving DecidableEq

/-- The primary key of `memory_links`. -/
def LinkRow.key (l : LinkRow) : String × String × String := (l.sourceId, l.targetId, l.relation)

/-- A row of `pending_actions`. -/
structure PendingRow extends PendingAction where
  defaultTimeoutSeconds : Option ℤ
  expiredAt : Option String
  deriving DecidableEq

/-- A row of `sync_state`. -/
structure SyncStateRow where
  agentId : String
  peerId : String
  lastSeenAt : String
  lastPulledAt : String
  lastPushedAt : Option String
  deriving DecidableEq

/-- The primary key of `sync_state`. -/
def SyncStateRow.key (r : SyncStateRow) : String × String := (r.agentId, r.peerId)

/-- The table `memories`. -/
abbrev Memories := Indexed (fun r : MemoryRow => r.id) (fun r => r.key)

/-- The content of the database file. -/
structure Db where
  memories : Memories
  archived : Table (fun r : ArchivedRow => r.id)
  links : Table LinkRow.key
  namespaceMeta : Table (fun r : NamespaceMetaEntry => r.ns)
  pending : Table (fun r : PendingRow => r.id)
  syncState : Table SyncStateRow.key

/-- The database after `open` on a new file. -/
def Db.empty : Db where
  memories := Indexed.empty
  archived := Table.empty
  links := Table.empty
  namespaceMeta := Table.empty
  pending := Table.empty
  syncState := Table.empty

def Db.single (r : MemoryRow) : Db :=
  { Db.empty with memories := ⟨⟨[r], List.nodup_singleton _⟩, List.nodup_singleton _⟩ }

namespace Db

def get (db : Db) (id : String) : Option MemoryRow := db.memories.find id

def getKey (db : Db) (k : String × String) : Option MemoryRow := db.memories.findBy k

/-- `DELETE FROM memories`, given by the rows that stay, with the cascade on `memory_links`. -/
def deleteMemories (db : Db) (keep : MemoryRow → Bool) : Db :=
  { db with
    memories := db.memories.filter keep
    links := db.links.filter fun l =>
      ((db.get l.sourceId).all keep) && ((db.get l.targetId).all keep) }

/-- `UPDATE memories` on the row of `id`, by a function that keeps its keys. -/
def updateRow (db : Db) (id : String) (f : MemoryRow → MemoryRow) (hid : ∀ r, (f r).id = r.id)
    (hkey : ∀ r, (f r).key = r.key) : Db :=
  { db with
    memories := db.memories.map (fun r => if r.id = id then f r else r)
      (by intro r; split_ifs <;> simp [hid]) (by intro r; split_ifs <;> simp [hkey]) }

variable {db : Db} {id : String} {k : String × String} {r : MemoryRow}

theorem get_eq_some : db.get id = some r ↔ r ∈ db.memories ∧ r.id = id := Indexed.find_eq_some

theorem getKey_eq_some : db.getKey k = some r ↔ r ∈ db.memories ∧ r.key = k := Indexed.findBy_eq_some

theorem get_of_mem (h : r ∈ db.memories) : db.get r.id = some r := Indexed.find_of_mem h

theorem getKey_of_mem (h : r ∈ db.memories) : db.getKey r.key = some r := Indexed.findBy_of_mem h

theorem get_ne_none_iff : db.get id ≠ none ↔ ∃ r ∈ db.memories, r.id = id :=
  Option.ne_none_iff_exists'.trans (exists_congr fun _ => get_eq_some)

theorem getKey_ne_none_iff : db.getKey k ≠ none ↔ ∃ r ∈ db.memories, r.key = k :=
  Option.ne_none_iff_exists'.trans (exists_congr fun _ => getKey_eq_some)

/-- Every row of the one database lives on in the other, under its id and title. -/
def LiveOn (db db' : Db) : Prop := ∀ r ∈ db.memories, ∃ r' ∈ db'.memories, r'.id = r.id ∧ r'.key = r.key

theorem LiveOn.refl (db : Db) : db.LiveOn db := fun r hr => ⟨r, hr, rfl, rfl⟩

theorem LiveOn.trans {db' db'' : Db} (h : db.LiveOn db') (h' : db'.LiveOn db'') : db.LiveOn db'' := by
  intro r hr
  obtain ⟨r', hr', hid, hkey⟩ := h r hr
  obtain ⟨r'', hr'', hid', hkey'⟩ := h' r' hr'
  exact ⟨r'', hr'', hid'.trans hid, hkey'.trans hkey⟩

theorem LiveOn.get_ne_none {db' : Db} (h : db.LiveOn db') (hget : db.get id ≠ none) : db'.get id ≠ none := by
  obtain ⟨r, hr, rfl⟩ := get_ne_none_iff.mp hget
  obtain ⟨r', hr', hid, -⟩ := h r hr
  exact get_ne_none_iff.mpr ⟨r', hr', hid⟩

theorem LiveOn.getKey_ne_none {db' : Db} (h : db.LiveOn db') (hkey : db.getKey k ≠ none) : db'.getKey k ≠ none := by
  obtain ⟨r, hr, rfl⟩ := getKey_ne_none_iff.mp hkey
  obtain ⟨r', hr', -, hk⟩ := h r hr
  exact getKey_ne_none_iff.mpr ⟨r', hr', hk⟩

section UpdateRow

variable {f : MemoryRow → MemoryRow} {hid : ∀ r, (f r).id = r.id} {hkey : ∀ r, (f r).key = r.key}

theorem get_updateRow (i : String) : (db.updateRow id f hid hkey).get i =
    (db.get i).map fun r => if i = id then f r else r := by
  unfold get updateRow
  rw [Indexed.find_map]
  cases h : db.memories.find i with
  | none => rfl
  | some r => simp only [Option.map_some, (Indexed.find_eq_some.mp h).2]

theorem getKey_updateRow (k : String × String) : (db.updateRow id f hid hkey).getKey k =
    (db.getKey k).map fun r => if r.id = id then f r else r := by
  unfold getKey updateRow
  rw [Indexed.findBy_map]

theorem mem_updateRow {x : MemoryRow} : x ∈ (db.updateRow id f hid hkey).memories ↔
    ∃ r ∈ db.memories, (if r.id = id then f r else r) = x := List.mem_map

end UpdateRow

variable {keep : MemoryRow → Bool}

@[simp] theorem mem_deleteMemories :
    r ∈ (db.deleteMemories keep).memories ↔ r ∈ db.memories ∧ keep r := Indexed.mem_filter

@[simp] theorem get_deleteMemories :
    (db.deleteMemories keep).get id = (db.get id).filter keep := Indexed.find_filter keep

@[simp] theorem getKey_deleteMemories :
    (db.deleteMemories keep).getKey k = (db.getKey k).filter keep := Indexed.findBy_filter keep

end Db

end AiMemory
