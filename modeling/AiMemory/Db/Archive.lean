import AiMemory.Db.Memories

/-!
# The archive

The statements of `db.rs` that move rows between `memories` and `archived_memories`:
`archive_memory`, `gc`, `forget` and `restore_archived`. Three of them write an archived row through
their own `INSERT .. SELECT`; a column missing from the list takes its default, which is how `forget`
comes to archive the metadata `{}`.

Full-text search is SQLite's: `Fts` says which rows a query of `memories_fts` matches.
-/

namespace AiMemory

open Relational

/-! ## Full-text queries -/

/-- The rows that `memories_fts MATCH query` selects. -/
abbrev Fts := String → MemoryRow → Bool

/-- The characters `strip_invisible` removes. -/
def isInvisible (c : Char) : Bool :=
  let n := c.toNat
  n ∈ [0x200B, 0x200C, 0x200D, 0xFEFF, 0xAD, 0x34F, 0x61C, 0x180E, 0x2060, 0x200E, 0x200F] ||
    (0x2061 ≤ n && n ≤ 0x2064) || (0xFE00 ≤ n && n ≤ 0xFE0F) || (0x202A ≤ n && n ≤ 0x202E) ||
    (0x2066 ≤ n && n ≤ 0x2069)

def stripInvisible (s : List Char) : List Char := s.filter fun c => !isInvisible c

/-- `sanitize_fts_query`. No letter outside ASCII has an upper case in the four operators. -/
def sanitizeFtsQuery (input : String) (useOr : Bool) : String :=
  let joiner := if useOr then " OR " else " "
  let cleaned := stripInvisible input.toList
  let words := (cleaned.splitOnP Validate.isWhitespace).filter fun t =>
    t ≠ [] ∧ String.ofList (t.map Char.toUpper) ∉ ["AND", "OR", "NOT", "NEAR"]
  let tokens := (words.map fun t => t.filter fun c => c ∉ "\"*^\x7b\x7d():|+".toList).filter (· ≠ [])
  if tokens = [] then "\"_empty_\""
  else joiner.intercalate (tokens.map fun t => "\"" ++ String.ofList t ++ "\"")

example : sanitizeFtsQuery "-secret +required NOT x*" true =
    "\"-secret\" OR \"required\" OR \"x\"" := by decide

/-! ## Archived rows -/

/-- The archived row of `archive_memory` and `gc`. -/
def archiveRow (now reason : String) (r : MemoryRow) : ArchivedRow :=
  { r.toMemory with
    archivedAt := now
    archiveReason := reason
    embedding := r.embedding
    embeddingDim := r.embeddingDim
    originalTier := some r.tier
    originalExpiresAt := r.expiresAt }

/-- The archived row of `forget`: `metadata` is not in the column list and takes its default. -/
def forgetRow (now : String) (r : MemoryRow) : ArchivedRow :=
  { r.toMemory with
    metadata := .obj []
    archivedAt := now
    archiveReason := "forget"
    embedding := r.embedding
    embeddingDim := r.embeddingDim
    originalTier := some r.tier
    originalExpiresAt := r.expiresAt }

/-- The live row of `restore_archived`, after the metadata check. -/
def restoreRow (now : String) (a : ArchivedRow) : MemoryRow :=
  { a.toMemory with
    tier := a.originalTier.getD .long
    updatedAt := now
    expiresAt := a.originalExpiresAt
    metadata := if Accepts (Validate.validateMetadata a.metadata) then a.metadata else .obj []
    embedding := a.embedding
    embeddingDim := a.embeddingDim }

namespace Db

/-! ## The operations -/

/-- `INSERT OR REPLACE INTO archived_memories .. SELECT .. FROM memories WHERE sel`. -/
def archiveWhere (db : Db) (sel : MemoryRow → Bool) (mk : MemoryRow → ArchivedRow) : Db :=
  { db with archived := ((db.memories.rows.filter sel).map mk).foldl Table.replace db.archived }

/-- `archive_memory`: whether a row was moved. -/
def archiveMemory (db : Db) (id : String) (reason : Option String) (now : String) : Db × Bool :=
  if (db.get id).isNone then (db, false)
  else
    let db := db.archiveWhere (fun r => r.id = id) (archiveRow now (reason.getD "archive"))
    ((db.dropStandard id).deleteMemories fun r => r.id ≠ id, true)

/-- `expires_at IS NOT NULL AND expires_at < now`. -/
def isExpired (now : String) (r : MemoryRow) : Bool := r.expiresAt.any (· < now)

/-- `gc`: the number of rows deleted. -/
def gc (db : Db) (archive : Bool) (now : String) : Db × ℕ :=
  let db := if archive then db.archiveWhere (isExpired now) (archiveRow now "ttl_expired") else db
  let deleted := (db.memories.rows.filter (isExpired now)).length
  let db := db.deleteMemories fun r => !isExpired now r
  ({ db with namespaceMeta := db.namespaceMeta.filter fun e => (db.get e.standardId).isSome }, deleted)

def gcIfNeeded (db : Db) (archive : Bool) (now : String) : Db :=
  if db.memories.rows.any (isExpired now) then (db.gc archive now).1 else db

/-- The `WHERE` clause of `forget`. -/
def forgetSelects (fts : Fts) (ns pattern : Option String) (tier : Option Tier) (r : MemoryRow) : Bool :=
  pattern.all (fun pat => fts (sanitizeFtsQuery pat true) r) && ns.all (r.ns = ·) && tier.all (r.tier = ·)

/-- `forget`: the number of rows deleted. -/
def forget (db : Db) (fts : Fts) (ns pattern : Option String) (tier : Option Tier) (archive : Bool)
    (now : String) : Except String (Db × ℕ) :=
  if pattern.isNone ∧ ns.isNone ∧ tier.isNone then
    .error "at least one of namespace, pattern, or tier is required"
  else
    let sel := forgetSelects fts ns pattern tier
    let db := if archive then db.archiveWhere sel (forgetRow now) else db
    .ok (db.deleteMemories fun r => !sel r, (db.memories.rows.filter sel).length)

/-- `restore_archived`: whether a row was restored. -/
def restoreArchived (db : Db) (id now : String) : Except String (Db × Bool) :=
  match db.archived.find id with
  | none => .ok (db, false)
  | some a =>
    if (db.get id).isSome then
      .error s!"cannot restore: memory {id} already exists in active table (would overwrite)"
    else
      match db.memories.insertNew? (restoreRow now a) with
      | some t => .ok ({ db with memories := t, archived := db.archived.filter fun a => a.id ≠ id }, true)
      | none => .error "UNIQUE constraint failed: memories.title, memories.namespace"

/-! ## What they leave -/

section Archive

variable {db db' : Db} {id now : String} {r : MemoryRow}

variable {mk : MemoryRow → ArchivedRow} {sel : MemoryRow → Bool}

/-- Archiving the selected rows files each of them under its id and keeps every other archived row. -/
theorem find_archived_archiveWhere
    (hmk : ∀ r, (mk r).id = r.id) (i : String) :
    (db.archiveWhere sel mk).archived.find i =
      (((db.get i).filter sel).map mk).or (db.archived.find i) := by
  have hids : ((db.memories.rows.filter sel).map mk).map (fun a => a.id) =
      (db.memories.filter sel).rows.map fun r => r.id := by
    rw [List.map_map]
    exact List.map_congr_left fun r _ => hmk r
  have hn : (((db.memories.rows.filter sel).map mk).map fun a => a.id).Nodup := by
    rw [hids]
    exact (db.memories.filter sel).nodup
  have hlook : lookup (fun a : ArchivedRow => a.id) i ((db.memories.rows.filter sel).map mk) =
      ((db.memories.filter sel).find i).map mk := by
    ext a
    rw [lookup_eq_some hn, Option.map_eq_some_iff, List.mem_map]
    constructor
    · rintro ⟨⟨r, hr, rfl⟩, rfl⟩
      exact ⟨r, Indexed.find_eq_some.mpr ⟨hr, (hmk r).symm⟩, rfl⟩
    · rintro ⟨r, hr, rfl⟩
      obtain ⟨hmem, rfl⟩ := Indexed.find_eq_some.mp hr
      exact ⟨⟨r, hmem, rfl⟩, hmk r⟩
  show (((db.memories.rows.filter sel).map mk).foldl Table.replace db.archived).find i = _
  rw [Table.find_foldl_replace hn, hlook, Indexed.find_filter]
  rfl

theorem find_archived_of_filtered
    (hmk : ∀ r, (mk r).id = r.id) (hr : r ∈ db.memories)
    (hout : (db.get r.id).filter (fun r => !sel r) = none) :
    (db.archiveWhere sel mk).archived.find r.id = some (mk r) := by
  have hsel : sel r := by simpa [get_of_mem hr] using hout
  rw [find_archived_archiveWhere hmk, get_of_mem hr]
  simp [hsel]

theorem mem_archived_archiveWhere
    (hmk : ∀ r, (mk r).id = r.id) {a : ArchivedRow} (ha : a ∈ (db.archiveWhere sel mk).archived) :
    a ∈ db.archived ∨ ∃ r ∈ db.memories, a = mk r := by
  have hfind := Table.find_of_mem ha
  rw [find_archived_archiveWhere hmk, Option.or_eq_some_iff] at hfind
  rcases hfind with hnew | ⟨-, hold⟩
  · obtain ⟨r, hr, rfl⟩ := Option.map_eq_some_iff.mp hnew
    exact Or.inr ⟨r, (get_eq_some.mp (Option.filter_eq_some_iff.mp hr).1).1, rfl⟩
  · exact Or.inl (Table.find_mem hold)

@[simp] theorem mem_gc {archive : Bool} :
    r ∈ (db.gc archive now).1.memories ↔ r ∈ db.memories ∧ isExpired now r = false := by
  cases archive <;> exact Indexed.mem_filter.trans (and_congr_right fun _ => by simp)

theorem mem_gcIfNeeded {archive : Bool} :
    r ∈ (db.gcIfNeeded archive now).memories ↔ r ∈ db.memories ∧ isExpired now r = false := by
  unfold gcIfNeeded
  split
  · exact mem_gc
  · rename_i hnone
    rw [List.any_eq_true] at hnone
    exact ⟨fun hr => ⟨hr, Bool.eq_false_iff.mpr fun hexpired => hnone ⟨r, hr, hexpired⟩⟩, And.left⟩

theorem forget_eq_ok {fts : Fts} {ns pattern : Option String} {tier : Option Tier} {archive : Bool}
    {n : ℕ} (h : db.forget fts ns pattern tier archive now = .ok (db', n)) :
    db' = (if archive then db.archiveWhere (forgetSelects fts ns pattern tier) (forgetRow now)
      else db).deleteMemories fun r => !forgetSelects fts ns pattern tier r := by
  unfold forget at h
  split at h
  · cases h
  · simp only [Except.ok.injEq, Prod.mk.injEq] at h
    exact h.1.symm

theorem restoreArchived_cases {restored : Bool} (h : db.restoreArchived id now = .ok (db', restored)) :
    (db.archived.find id = none ∧ restored = false ∧ db' = db) ∨
    (∃ a t, db.archived.find id = some a ∧ restored = true ∧ db.get id = none ∧
      db.memories.insertNew? (restoreRow now a) = some t ∧
      db' = { db with memories := t, archived := db.archived.filter fun a => a.id ≠ id }) := by
  unfold restoreArchived at h
  cases ha : db.archived.find id with
  | none =>
    rw [ha] at h
    simp only [Except.ok.injEq, Prod.mk.injEq] at h
    exact Or.inl ⟨rfl, h.2.symm, h.1.symm⟩
  | some a =>
    rw [ha] at h
    simp only at h
    split_ifs at h with hlive
    cases ht : db.memories.insertNew? (restoreRow now a) with
    | none => rw [ht] at h; cases h
    | some t =>
      rw [ht] at h
      simp only [Except.ok.injEq, Prod.mk.injEq] at h
      exact Or.inr ⟨a, t, rfl, h.2.symm, by simpa using hlive, ht, h.1.symm⟩

theorem get_restoreArchived (h : db.restoreArchived id now = .ok (db', true)) :
    ∃ a, db.archived.find id = some a ∧ db'.get id = some (restoreRow now a) := by
  obtain ⟨-, hc, -⟩ | ⟨a, t, ha, -, hnone, ht, rfl⟩ := restoreArchived_cases h
  · cases hc
  · refine ⟨a, ha, ?_⟩
    show t.find id = _
    have hid : (restoreRow now a).id = id := (Table.find_eq_some.mp ha).2
    rw [Indexed.find_insertNew? ht, if_pos hid]
    show (db.get id).or _ = _
    rw [hnone]
    rfl

end Archive

end Db

end AiMemory
