import AiMemory.Db.Archive

/-!
# Archiving and restoring a row

An archived row that is restored should be the row it was, up to `updated_at`. Each operation that
archives is followed by a restore from any later database that still has the archived row: the row
comes back whole, except that `forget` loses its metadata.
-/

namespace AiMemory

open Relational

/-- The operations that archive live rows. -/
inductive ArchiveOp where
  | archiveMemory (id : String) (reason : Option String)
  | gc
  | forget (ns pattern : Option String) (tier : Option Tier)

namespace ArchiveOp

def run (fts : Fts) (db : Db) (now : String) : ArchiveOp → Except String Db
  | archiveMemory id reason => .ok (db.archiveMemory id reason now).1
  | gc => .ok (db.gc true now).1
  | forget ns pattern tier =>
    match db.forget fts ns pattern tier true now with
    | .ok (db, _) => .ok db
    | .error e => .error e

/-- The operation is a `forget`. -/
def IsForget : ArchiveOp → Prop
  | forget .. => True
  | _ => False

/-- The archived row the operation writes for `r`. -/
def rowOf (now : String) (r : MemoryRow) : ArchiveOp → ArchivedRow
  | archiveMemory _ reason => archiveRow now (reason.getD "archive") r
  | gc => archiveRow now "ttl_expired" r
  | forget .. => forgetRow now r

/-- A row that an operation takes out of `memories` is in the archive. -/
theorem find_archived_run {fts : Fts} {db db₁ : Db} {now : String} {op : ArchiveOp} {r : MemoryRow}
    (hr : r ∈ db.memories) (h : op.run fts db now = .ok db₁) (hout : db₁.get r.id = none) :
    db₁.archived.find r.id = some (op.rowOf now r) := by
  cases op with
  | archiveMemory id reason =>
    simp only [run, Except.ok.injEq] at h
    subst h
    unfold Db.archiveMemory at hout ⊢
    by_cases hnone : (db.get id).isNone
    · rw [if_pos hnone, Db.get_of_mem hr] at hout
      cases hout
    · rw [if_neg hnone] at hout ⊢
      refine Db.find_archived_of_filtered (fun _ => rfl) hr ?_
      rw [Db.get_deleteMemories] at hout
      change (db.get r.id).filter _ = none at hout
      simpa using hout
  | gc =>
    simp only [run, Except.ok.injEq] at h
    subst h
    exact Db.find_archived_of_filtered (fun _ => rfl) hr (Db.get_deleteMemories ▸ hout)
  | forget ns pattern tier =>
    simp only [run] at h
    cases hf : db.forget fts ns pattern tier true now with
    | error e => rw [hf] at h; cases h
    | ok res =>
      rw [hf] at h
      cases h
      rw [Db.forget_eq_ok hf, if_pos rfl] at hout ⊢
      exact Db.find_archived_of_filtered (fun _ => rfl) hr (Db.get_deleteMemories ▸ hout)

end ArchiveOp

/-- All columns but `updated_at` agree. -/
def SameButUpdatedAt (r r' : MemoryRow) : Prop := r' = { r with updatedAt := r'.updatedAt }

instance (r r' : MemoryRow) : Decidable (SameButUpdatedAt r r') := inferInstanceAs (Decidable (_ = _))

theorem restoreRow_archiveRow {now now' reason : String} {r : MemoryRow}
    (h : Accepts (Validate.validateMetadata r.metadata)) :
    restoreRow now' (archiveRow now reason r) = { r with updatedAt := now' } := by
  unfold restoreRow archiveRow
  simp [h]

theorem restoreRow_forgetRow {now now' : String} {r : MemoryRow} :
    restoreRow now' (forgetRow now r) = { r with updatedAt := now', metadata := .obj [] } := by
  unfold restoreRow forgetRow
  simp

/-- Archiving a row with valid metadata and restoring it is lossless, except through `forget` with
metadata to lose. -/
theorem restored_same_iff (fts : Fts) (db : Db) (now now' : String) (op : ArchiveOp)
    {db₁ db₂ db₃ : Db} {r r' : MemoryRow} (hr : r ∈ db.memories) (hmeta : Accepts (Validate.validateMetadata r.metadata))
    (harchive : op.run fts db now = .ok db₁) (hout : db₁.get r.id = none)
    (hkept : db₂.archived.find r.id = db₁.archived.find r.id)
    (hrestore : db₂.restoreArchived r.id now' = .ok (db₃, true)) (hr' : db₃.get r.id = some r') :
    SameButUpdatedAt r r' ↔ (op.IsForget → r.metadata = .obj []) := by
  have hrow : r' = restoreRow now' (op.rowOf now r) := by
    obtain ⟨a, ha, hget⟩ := Db.get_restoreArchived hrestore
    rw [hkept, ArchiveOp.find_archived_run hr harchive hout, Option.some.injEq] at ha
    rw [hr', Option.some.injEq] at hget
    rw [hget, ha]
  subst hrow
  cases op with
  | archiveMemory id reason =>
    simp [ArchiveOp.rowOf, restoreRow_archiveRow hmeta, SameButUpdatedAt, ArchiveOp.IsForget]
  | gc => simp [ArchiveOp.rowOf, restoreRow_archiveRow hmeta, SameButUpdatedAt, ArchiveOp.IsForget]
  | forget ns pattern tier =>
    rw [ArchiveOp.rowOf, restoreRow_forgetRow]
    constructor
    · intro h _
      exact (congrArg (fun x : MemoryRow => x.metadata) h).symm
    · intro h
      unfold SameButUpdatedAt
      rw [← h trivial]

def noteRow : MemoryRow where
  id := "m1"
  tier := .mid
  ns := "notes"
  title := "Standup"
  content := "moved to ten"
  tags := ["team"]
  priority := 5
  confidence := 1
  source := "user"
  accessCount := 2
  createdAt := "2026-01-01T00:00:00+00:00"
  updatedAt := "2026-01-02T00:00:00+00:00"
  lastAccessedAt := none
  expiresAt := some "2026-01-09T00:00:00+00:00"
  metadata := .obj [("agent_id", .str "alice")]
  embedding := none
  embeddingDim := none

/-- Through `archive_memory` the row comes back whole. -/
theorem noteRow_archived_same : ∃ db₁ db₃ r',
    (ArchiveOp.archiveMemory "m1" none).run (fun _ _ => false) (Db.single noteRow) "2026-02-01T00:00:00+00:00" = .ok db₁ ∧
      db₁.restoreArchived "m1" "2026-02-02T00:00:00+00:00" = .ok (db₃, true) ∧ db₃.get "m1" = some r' ∧
      SameButUpdatedAt noteRow r' :=
  ⟨_, _, _, rfl, rfl, rfl, (restored_same_iff (fun _ _ => false) (Db.single noteRow)
    "2026-02-01T00:00:00+00:00" _ (.archiveMemory "m1" none) (List.mem_singleton.mpr rfl) (by decide)
    rfl rfl rfl rfl rfl).mpr (fun h => h.elim)⟩

/-- Through `forget` by namespace it loses its `agent_id`. -/
theorem noteRow_forgotten_loses_metadata : ∃ db₁ db₃ r',
    noteRow ∈ (Db.single noteRow).memories ∧
      Accepts (Validate.validateMetadata noteRow.metadata) ∧
      (ArchiveOp.forget (some "notes") none none).run (fun _ _ => false) (Db.single noteRow)
        "2026-02-01T00:00:00+00:00" = .ok db₁ ∧
      db₁.get "m1" = none ∧ db₁.restoreArchived "m1" "2026-02-02T00:00:00+00:00" = .ok (db₃, true) ∧
      db₃.get "m1" = some r' ∧ ¬SameButUpdatedAt noteRow r' ∧ agentId noteRow.metadata ≠ none ∧
      agentId r'.metadata = none :=
  ⟨_, _, _, List.mem_singleton.mpr rfl, by decide, rfl, rfl, rfl, rfl, by decide, by decide, by decide⟩

end AiMemory
