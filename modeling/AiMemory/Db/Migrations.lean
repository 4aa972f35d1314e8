import AiMemory.Lib.Schemas
import AiMemory.Lib.Transitions
import AiMemory.Model.Json

/-!
# The migration ladder

`migrate` brings the schema of an opened file from the version it finds in `schema_version` to version 28. The steps are
one script, cut at the version that was read; they run in one transaction, which an SQL error rolls back.

1. From any version the same tables, columns and indexes come about, and the only thing that stops a migration is a row
   whose metadata the backfill of version 17 cannot read.
2. Rows keep what they hold, but for the five backfills.
3. Openers may read the version before another opener commits, and may die at any statement: the file is the one that
   was there or the migrated one.
4. The step of version 27 for a `subscription_events` table made by hand is never reached.

Triggers are left out: the three there are write `memories_fts` alone. So is the text of JSON, which `Sqlite` reads.
-/

namespace AiMemory.Migrations

open Ddl

/-- A value as SQLite stores it. -/
inductive Value where
  | null
  | integer (n : ℤ)
  | real (bits : UInt64)
  | text (s : String)
  | blob (bytes : List UInt8)
  deriving DecidableEq

/-- The policy of the metadata, if it is an object that does not say whether it is inherited. -/
def silentPolicy (j : Json) : Option Json :=
  (j.extract "governance").filter fun policy => policy.isObject ∧ policy.extract "inherit" = none

/-- `json_set(metadata, '$.governance.inherit', json('true'))`. -/
def withInherit (j policy : Json) : Json := j.set "governance" (policy.set "inherit" (.bool true))

/-- The functions of SQLite that the backfills call. `json` is how the JSON functions read a value, with `none` for
"malformed JSON", and `text` what `json_set` returns. -/
structure Sqlite where
  json : Value → Option Json
  text : Json → Value
  json_text : ∀ {v j policy}, json v = some j → silentPolicy j = some policy →
    json (text (withInherit j policy)) = some (withInherit j policy)
  json_empty : json (.text "{}") = some (.obj [])
  length : Value → ℤ

/-- Reads no metadata but `{}`. -/
instance : Inhabited Sqlite := ⟨{
  json := fun v => if v = .text "{}" then some (.obj []) else none
  text := fun _ => .text "{}"
  json_text := by
    intro v j policy hj hpolicy
    split_ifs at hj
    cases hj
    cases hpolicy
  json_empty := if_pos rfl
  length := fun
    | .blob bytes => bytes.length
    | .text s => s.length
    | _ => 0 }⟩

/-! ## The backfills -/

/-- `(SELECT created_at FROM memories WHERE id = …)`. -/
def createdAt (rows : Rows Value) (id : Value) : Value :=
  (((rows "memories").find? fun m => id ≠ .null ∧ m "id" = id).map fun m => m "created_at").getD .null

theorem createdAt_congr {rows rows' : Rows Value} (h : rows.Agrees [("memories", "id"), ("memories", "created_at")] rows')
    (id : Value) : createdAt rows' id = createdAt rows id := by
  unfold createdAt
  have hm := h "memories"
  generalize rows "memories" = l, rows' "memories" = l' at hm
  induction hm with
  | nil => rfl
  | @cons m m' l l' hm _ ih =>
    have hid : m' "id" = m "id" := hm "id" (by decide)
    rw [List.find?_cons, List.find?_cons, hid]
    cases decide (id ≠ .null ∧ m "id" = id) with
    | true => exact hm "created_at" (by decide)
    | false => exact ih

/-- `UPDATE memory_links SET valid_from = (SELECT created_at …) WHERE valid_from IS NULL`. -/
def validFrom : Update Value where
  table := "memory_links"
  column := "valid_from"
  reads := [("memory_links", "source_id"), ("memories", "id"), ("memories", "created_at")]
  value rows r v := some (if v = .null then createdAt rows (r "source_id") else v)
  notMem_reads := by decide
  value_congr := by
    intro rows rows' r r' v hrows hr
    rw [hr "source_id" (by decide), createdAt_congr fun t => (hrows t).imp fun _ _ h c hc => h c (List.mem_cons_of_mem _ hc)]
  value_value := by
    intro rows r v w h
    cases h
    split_ifs <;> rfl

theorem silentPolicy_withInherit {j policy : Json} (h : silentPolicy j = some policy) :
    silentPolicy (withInherit j policy) = none := by
  obtain ⟨hget, hsilent⟩ := Option.filter_eq_some_iff.mp h
  obtain ⟨hobject, -⟩ := of_decide_eq_true hsilent
  have hset : (withInherit j policy).extract "governance" = some (policy.set "inherit" (.bool true)) := by
    rw [withInherit, Json.extract, Json.get_set (Json.isObject_of_extract hget)]
    cases policy <;> first | rfl | cases hobject
  have hinherit : (policy.set "inherit" (.bool true)).extract "inherit" = some (.int 1) := by
    rw [Json.extract, Json.get_set hobject]
    rfl
  rw [silentPolicy, hset, Option.filter_some, hinherit]
  exact if_neg fun h => Option.some_ne_none _ (of_decide_eq_true h).2

/-- The backfill of `metadata.governance.inherit`. -/
def governanceInherit (q : Sqlite) : Update Value where
  table := "memories"
  column := "metadata"
  reads := []
  value _ _ v := (q.json v).map fun j => ((silentPolicy j).map fun policy => q.text (withInherit j policy)).getD v
  notMem_reads := by decide
  value_congr := fun _ _ _ => rfl
  value_value := by
    intro rows r v w h
    obtain ⟨j, hj, hw⟩ := Option.map_eq_some_iff.mp h
    cases hpolicy : silentPolicy j with
    | none =>
      rw [hpolicy] at hw
      cases hw
      exact h
    | some policy =>
      rw [hpolicy] at hw
      cases hw
      rw [Option.map_some, Option.getD_some, q.json_text hj hpolicy, Option.map_some, silentPolicy_withInherit hpolicy]
      rfl

/-- `UPDATE memories SET embedding_dim = length(embedding) / 4 WHERE …`. -/
def embeddingDim (q : Sqlite) : Update Value where
  table := "memories"
  column := "embedding_dim"
  reads := [("memories", "embedding")]
  value _ r v := some (if v = .null ∧ r "embedding" ≠ .null ∧ 4 ≤ q.length (r "embedding") then
    .integer (q.length (r "embedding") / 4) else v)
  notMem_reads := by decide
  value_congr := by
    intro rows rows' r r' v hrows hr
    rw [hr "embedding" (by decide)]
  value_value := by
    intro rows r v w h
    cases h
    split_ifs <;> simp_all

/-- `UPDATE table SET column = 's' WHERE column IS NULL`. -/
def fillNull (table column s : String) : Update Value where
  table := table
  column := column
  reads := []
  value _ _ v := some (if v = .null then .text s else v)
  notMem_reads := List.not_mem_nil
  value_congr := fun _ _ _ => rfl
  value_value := by
    intro rows r v w h
    cases h
    split_ifs <;> rfl

/-! ## The scripts -/

def memoriesColumns : List String :=
  ["id", "tier", "namespace", "title", "content", "tags", "priority", "confidence", "source", "access_count", "created_at",
    "updated_at", "last_accessed_at", "expires_at", "metadata"]

/-- `SCHEMA`, which `open` executes first. -/
def schemaScript : List (Stmt Value) := [
  .createTable "memories" memoriesColumns,
  .createIndex "idx_memories_tier" "memories" ["tier"],
  .createIndex "idx_memories_namespace" "memories" ["namespace"],
  .createIndex "idx_memories_priority" "memories" ["priority"],
  .createIndex "idx_memories_expires" "memories" ["expires_at"],
  .createIndex "idx_memories_title_ns" "memories" ["title", "namespace"],
  .createTable "memory_links" ["source_id", "target_id", "relation", "created_at"],
  .createTable "memories_fts" ["title", "content", "tags"],
  .createTable "schema_version" ["version"],
  .createTable "audit_log" ["id", "agent_id", "event_type", "requested_family", "granted", "attestation_tier", "timestamp"],
  .createIndex "idx_audit_log_agent_id" "audit_log" ["agent_id"],
  .createIndex "idx_audit_log_timestamp" "audit_log" ["timestamp"],
  .createIndex "idx_audit_log_event_type" "audit_log" ["event_type"]]

/-- The step of version 27: `MIGRATION_V27_SQLITE`, and the probe for `correlation_id` after it. -/
def subscriptionEventsStep : List (Stmt Value) := [
  .createTable "subscription_events" ["id", "subscription_id", "correlation_id", "event_type", "payload", "delivered_at",
    "delivery_status"],
  .createIndex "idx_subscription_events_correlation" "subscription_events" ["correlation_id"],
  .createIndex "idx_subscription_events_subscription" "subscription_events" ["subscription_id", "delivered_at"],
  .createTable "subscription_dlq" ["id", "subscription_id", "correlation_id", "event_type", "payload", "retry_count",
    "last_error", "first_failed_at", "last_failed_at"],
  .createIndex "idx_subscription_dlq_subscription" "subscription_dlq" ["subscription_id", "last_failed_at"],
  .createIndex "idx_subscription_dlq_correlation" "subscription_dlq" ["correlation_id"],
  .addColumn "subscription_events" "correlation_id" (some (.text ""))]

/-- The steps of `migrate`, each with the version below which it runs. -/
def steps (q : Sqlite) : List (ℤ × List (Stmt Value)) := [
  (2, [
    .addColumn "memories" "confidence" (some (.real 0x3FF0000000000000)),
    .addColumn "memories" "source" (some (.text "api"))]),
  (3, [.addColumn "memories" "embedding" (some .null)]),
  (4, [
    .createTable "archived_memories" ["id", "tier", "namespace", "title", "content", "tags", "priority",
      "confidence", "source",
      "access_count", "created_at", "updated_at", "last_accessed_at", "expires_at", "archived_at", "archive_reason",
        "metadata"],
    .createIndex "idx_archived_namespace" "archived_memories" ["namespace"],
    .createIndex "idx_archived_at" "archived_memories" ["archived_at"]]),
  (5, [.createTable "namespace_meta" ["namespace", "standard_id", "updated_at"]]),
  (6, [.addColumn "namespace_meta" "parent_namespace" (some .null)]),
  (7, [
    .addColumn "memories" "metadata" (some (.text "{}")),
    .addColumn "archived_memories" "metadata" (some (.text "{}"))]),
  (8, [
    .createTable "pending_actions" ["id", "action_type", "memory_id", "namespace", "payload", "requested_by", "requested_at",
      "status", "decided_by", "decided_at"],
    .createIndex "idx_pending_status" "pending_actions" ["status"],
    .createIndex "idx_pending_namespace" "pending_actions" ["namespace"]]),
  (9, [.addColumn "pending_actions" "approvals" (some (.text "[]"))]),
  -- The two generated columns are computed when they are read.
  (10, [
    .addColumn "memories" "scope_idx" none,
    .createIndex "idx_memories_scope_idx" "memories" ["scope_idx"]]),
  (11, [
    .createTable "sync_state" ["agent_id", "peer_id", "last_seen_at", "last_pulled_at"],
    .createIndex "idx_sync_state_agent" "sync_state" ["agent_id"]]),
  (12, [.addColumn "sync_state" "last_pushed_at" (some .null)]),
  (13, [
    .createTable "subscriptions" ["id", "url", "events", "secret_hash", "namespace_filter", "agent_filter", "created_by",
      "created_at", "last_dispatched_at", "dispatch_count", "failure_count"],
    .createIndex "idx_subscriptions_url" "subscriptions" ["url"]]),
  (14, [
    .addColumn "memories" "agent_id_idx" none,
    .createIndex "idx_memories_agent_id" "memories" ["agent_id_idx"],
    .createIndex "idx_memories_created_at" "memories" ["created_at"]]),
  (15, [
    .addColumn "memory_links" "valid_from" (some .null),
    .addColumn "memory_links" "valid_until" (some .null),
    .addColumn "memory_links" "observed_by" (some .null),
    .addColumn "memory_links" "signature" (some .null),
    .update validFrom,
    .createIndex "idx_links_temporal_src" "memory_links" ["source_id", "valid_from", "valid_until"],
    .createIndex "idx_links_temporal_tgt" "memory_links" ["target_id", "valid_from", "valid_until"],
    .createIndex "idx_links_relation" "memory_links" ["relation", "valid_from"],
    .createTable "entity_aliases" ["entity_id", "alias", "created_at"],
    .createIndex "idx_entity_aliases_alias" "entity_aliases" ["alias"]]),
  (16, []),
  (17, [.update (governanceInherit q)]),
  (18, [
    .addColumn "memories" "embedding_dim" (some .null),
    .addColumn "archived_memories" "embedding" (some .null),
    .addColumn "archived_memories" "embedding_dim" (some .null),
    .addColumn "archived_memories" "original_tier" (some .null),
    .addColumn "archived_memories" "original_expires_at" (some .null),
    .update (embeddingDim q),
    .update (fillNull "archived_memories" "original_tier" "long"),
    .createIndex "idx_memories_embedding_dim" "memories" ["embedding_dim"],
    .createIndex "idx_memories_ns_dim" "memories" ["namespace", "embedding_dim"]]),
  (19, [
    .addColumn "subscriptions" "event_types" (some .null),
    .createIndex "idx_subscriptions_event_types" "subscriptions" ["event_types"]]),
  (20, [
    .createTable "audit_log" ["id", "agent_id", "event_type", "requested_family", "granted", "attestation_tier",
      "timestamp"],
    .createIndex "idx_audit_log_agent_id" "audit_log" ["agent_id"],
    .createIndex "idx_audit_log_timestamp" "audit_log" ["timestamp"],
    .createIndex "idx_audit_log_event_type" "audit_log" ["event_type"]]),
  (21, [
    .addColumn "pending_actions" "default_timeout_seconds" (some .null),
    .addColumn "pending_actions" "expired_at" (some .null),
    .createIndex "idx_pending_status_requested" "pending_actions" ["status", "requested_at"]]),
  (22, [
    .createTable "memory_transcripts" ["id", "namespace", "created_at", "expires_at", "compressed_size", "original_size",
      "zstd_level", "content_blob"],
    .createIndex "idx_memory_transcripts_namespace_created" "memory_transcripts" ["namespace", "created_at"]]),
  (23, [
    .addColumn "memory_links" "attest_level" (some .null),
    .update (fillNull "memory_links" "attest_level" "unsigned"),
    .createIndex "idx_memory_links_attest_level" "memory_links" ["attest_level", "created_at"]]),
  (24, [
    .createTable "memory_transcript_links" ["memory_id", "transcript_id", "span_start", "span_end"],
    .createIndex "idx_mtl_transcript" "memory_transcript_links" ["transcript_id"],
    .createIndex "idx_mtl_memory" "memory_transcript_links" ["memory_id"]]),
  (25, [
    .addColumn "memory_transcripts" "archived_at" (some .null),
    .createIndex "idx_memory_transcripts_archived_at" "memory_transcripts" ["archived_at"]]),
  (26, [
    .createTable "signed_events" ["id", "agent_id", "event_type", "payload_hash", "signature", "attest_level", "timestamp"],
    .createIndex "idx_signed_events_agent" "signed_events" ["agent_id"],
    .createIndex "idx_signed_events_type" "signed_events" ["event_type"],
    .createIndex "idx_signed_events_timestamp" "signed_events" ["timestamp"]]),
  (27, subscriptionEventsStep),
  (28, [
    .createTable "agent_quotas" ["agent_id", "max_memories_per_day", "max_storage_bytes", "max_links_per_day",
      "current_memories_today", "current_storage_bytes", "current_links_today", "day_started_at", "created_at",
        "updated_at"],
    .createIndex "idx_agent_quotas_agent_id" "agent_quotas" ["agent_id"]])]

def currentSchemaVersion : ℤ := 28

/-- What runs when `version` was read. -/
def script (q : Sqlite) (version : ℤ) : List (Stmt Value) := ((steps q).filter (version < ·.1)).flatMap Prod.snd

def ladder (q : Sqlite) : List (Stmt Value) := (steps q).flatMap Prod.snd

/-- A file: its tables, and the rows of `schema_version`. -/
structure File where
  db : Database Value
  versions : List ℤ

/-- `SELECT COALESCE(MAX(version), 0) FROM schema_version`. -/
def File.version (f : File) : ℤ := f.versions.max?.getD 0

/-- `migrate`, where `version` is what the first statement read: an SQL error rolls back. -/
def migrateFrom (q : Sqlite) (version : ℤ) (f : File) : Option File :=
  if currentSchemaVersion ≤ version then some f
  else (run (script q version) f.db).map fun db => { db, versions := [currentSchemaVersion] }

def migrate (q : Sqlite) (f : File) : Option File := migrateFrom q f.version f

/-! ## The names of the ladder

Which tables, columns and indexes the statements name does not depend on the functions of SQLite. -/

/-- The `CREATE TABLE` statements. -/
def created : List (String × List String) := (schemaScript ++ ladder default).filterMap fun
  | .createTable t cols => some (t, cols)
  | _ => none

/-- Columns of a `CREATE TABLE` that tables of early versions got later. -/
def lateColumns : List (String × String) :=
  [("memories", "confidence"), ("memories", "source"), ("memories", "metadata"), ("archived_memories", "metadata")]

/-- The columns a table has from the version on that introduced it. -/
def births (t : String) : List String :=
  ((created.find? (·.1 = t)).map fun p => p.2.filter fun c => (t, c) ∉ lateColumns).getD []

def base : List Item :=
  ["memories", "memory_links", "schema_version"].flatMap fun t => .table t :: (births t).map (.column t)

def ladderItems : Finset Item := ((ladder default).flatMap Stmt.adds).toFinset

variable {q : Sqlite} {f g : File} {v : ℤ}

theorem names_ladder (q : Sqlite) : (ladder q).map Stmt.names = (ladder default).map Stmt.names := rfl

theorem adds_ladder (q : Sqlite) : (ladder q).flatMap Stmt.adds = (ladder default).flatMap Stmt.adds := rfl

variable {s : Stmt Value}

theorem mem_names (hs : s ∈ ladder q) : s.names ∈ (ladder default).map Stmt.names :=
  names_ladder q ▸ List.mem_map_of_mem hs

theorem supplied_ladder (q : Sqlite) : Supplied births base (ladder q) := by
  rw [← supplied_names, names_ladder]
  decide +kernel

theorem apart_ladder (q : Sqlite) : (ladder q).Pairwise Stmt.Apart := by
  rw [← apart_map_names, names_ladder]
  decide

theorem bears_ladder (hs : s ∈ ladder q) : s.Bears births := by
  have h : ∀ s ∈ (ladder default).map Stmt.names, s.Bears births := by decide
  exact (Stmt.bears_names s).mp (h _ (mem_names hs))

/-- All that is added is what a statement provides, but for the column that old archives got later. -/
theorem provides_ladder (hs : s ∈ ladder q) {x : Item} (hx : x ∈ s.adds) :
    x ∈ s.provides births ∨ x = .column "archived_memories" "metadata" := by
  have h : ∀ s ∈ (ladder default).map Stmt.names, ∀ x ∈ s.adds,
      x ∈ s.provides births ∨ x = .column "archived_memories" "metadata" := by decide
  have hs' := h _ (mem_names hs) x
  rw [Stmt.adds_names, Stmt.provides_names] at hs'
  exact hs' hx

theorem archive_metadata_mem (q : Sqlite) :
    .addColumn "archived_memories" "metadata" (some (.text "{}")) ∈ ladder q :=
  List.mem_flatMap.mpr ⟨_, List.mem_of_getElem? (i := 5) rfl, List.mem_cons_of_mem _ List.mem_cons_self⟩

/-! ## The cut of the ladder -/

theorem filter_append_filter {β : Type*} {l : List (ℤ × β)} (h : l.Pairwise (·.1 < ·.1)) (v : ℤ) :
    l.filter (·.1 ≤ v) ++ l.filter (v < ·.1) = l := by
  induction l with
  | nil => rfl
  | cons a l ih =>
    obtain ⟨hfirst, hrest⟩ := List.pairwise_cons.mp h
    by_cases ha : a.1 ≤ v
    · rw [List.filter_cons, List.filter_cons, if_pos (decide_eq_true ha), if_neg (by simpa using ha),
        List.cons_append, ih hrest]
    · have hnone : l.filter (·.1 ≤ v) = [] := by
        refine List.filter_eq_nil_iff.mpr fun b hb hle => ?_
        have hlt := hfirst b hb
        have hbv : b.1 ≤ v := of_decide_eq_true hle
        omega
      have hall : l.filter (v < ·.1) = l := by
        refine List.filter_eq_self.mpr fun b hb => decide_eq_true ?_
        have hlt := hfirst b hb
        omega
      rw [List.filter_cons, List.filter_cons, if_neg (by simpa using ha), if_pos (by simpa using ha), hnone, hall,
        List.nil_append]

theorem sorted_steps (q : Sqlite) : (steps q).Pairwise (·.1 < ·.1) := by
  have h : ((steps q).map Prod.fst).Pairwise (· < ·) := by
    rw [show (steps q).map Prod.fst = (steps default).map Prod.fst from rfl]
    decide
  exact List.pairwise_map.mp h

def done (q : Sqlite) (v : ℤ) : List (Stmt Value) := ((steps q).filter (·.1 ≤ v)).flatMap Prod.snd

theorem done_append_script (q : Sqlite) (v : ℤ) : done q v ++ script q v = ladder q := by
  rw [done, script, ← List.flatMap_append, filter_append_filter (sorted_steps q), ladder]

theorem mem_ladder_of_mem_script (hs : s ∈ script q v) : s ∈ ladder q := by
  rw [← done_append_script q v]
  exact List.mem_append_right _ hs

theorem mem_done_or_script (hs : s ∈ ladder q) (v : ℤ) : s ∈ done q v ∨ s ∈ script q v := by
  rw [← done_append_script q v] at hs
  exact List.mem_append.mp hs

/-! ## A file of a version -/

theorem script_apart (q : Sqlite) (v : ℤ) : (script q v).Pairwise Stmt.Apart := by
  refine (apart_ladder q).sublist ?_
  rw [← done_append_script q v]
  exact List.sublist_append_right _ _

/-- A file of version `v`: it has all that the steps up to `v` provide, and no table without the columns of its birth. -/
structure AtVersion (q : Sqlite) (v : ℤ) (f : File) : Prop where
  version : f.version = v
  has : ∀ x ∈ base ++ (done q v).flatMap (Stmt.provides births), x ∈ f.db.schema
  whole : Whole births f.db.schema

/-- The metadata of every memory, if the column is there, is JSON. -/
def Readable (q : Sqlite) (db : Database Value) : Prop := db.AllIn (fun v => (q.json v).isSome) "memories" "metadata"

theorem born_metadata {d : Option Value} (hs : .addColumn "memories" "metadata" d ∈ ladder q) : d = some (.text "{}") := by
  have hborn : (ladder q).filterMap (fun
      | .addColumn t c d => if (t, c) = ("memories", "metadata") then some d else none
      | _ => none) = [some (.text "{}")] := rfl
  exact List.mem_singleton.mp (hborn ▸ List.mem_filterMap.mpr ⟨_, hs, rfl⟩)

def updateOf : Stmt Value → Option (Update Value)
  | .update u => some u
  | _ => none

theorem updates_ladder {u : Update Value} (hs : .update u ∈ ladder q) :
    u ∈ [validFrom, governanceInherit q, embeddingDim q, fillNull "archived_memories" "original_tier" "long",
      fillNull "memory_links" "attest_level" "unsigned"] := by
  have hupdates : (ladder q).filterMap updateOf = [validFrom, governanceInherit q, embeddingDim q,
      fillNull "archived_memories" "original_tier" "long", fillNull "memory_links" "attest_level" "unsigned"] := rfl
  exact hupdates ▸ List.mem_filterMap.mpr ⟨_, hs, rfl⟩

theorem isSome_of_governanceInherit {rows : Rows Value} {r : Row Value} {v w : Value}
    (h : (governanceInherit q).value rows r v = some w) : (q.json w).isSome := by
  have hagain := (governanceInherit q).value_value h
  obtain ⟨j, hj, -⟩ := Option.map_eq_some_iff.mp hagain
  rw [hj]
  rfl

theorem readable_exec (hs : s ∈ ladder q) {db db' : Database Value} (h : Readable q db)
    (hexec : s.exec db = some db') : Readable q db' := by
  refine Stmt.allIn_exec ?_ ?_ h hexec
  · rintro d rfl
    rw [born_metadata hs]
    exact ⟨_, rfl, by rw [q.json_empty]; rfl⟩
  · rintro u rfl htable hcolumn rows r v w hw -
    have hu := updates_ladder hs
    simp only [List.mem_cons, List.not_mem_nil, or_false] at hu
    obtain rfl | rfl | rfl | rfl | rfl := hu
    · exact absurd htable (by decide)
    · exact isSome_of_governanceInherit hw
    · exact absurd (show "embedding_dim" = "metadata" from hcolumn) (by decide)
    · exact absurd htable (by decide)
    · exact absurd htable (by decide)

/-! ## What a migration does -/

/-- The values the four `NULL` backfills write. -/
def Filled (t c : String) (w : Value) : Prop :=
  (t, c) = ("memory_links", "valid_from") ∨ (t, c) = ("memories", "embedding_dim") ∧ (∃ n, w = .integer n) ∨
    (t, c) = ("archived_memories", "original_tier") ∧ w = .text "long" ∨
    (t, c) = ("memory_links", "attest_level") ∧ w = .text "unsigned"

/-- A documented backfill turns `v` into `w`: `NULL` becomes a value, or a policy that does not say whether it is inherited
says that it is. -/
def Backfill (q : Sqlite) (t c : String) (v w : Value) : Prop :=
  v = .null ∧ Filled t c w ∨ (t, c) = ("memories", "metadata") ∧
    ∃ j policy, q.json v = some j ∧ silentPolicy j = some policy ∧ w = q.text (withInherit j policy)

theorem not_filled_metadata {w : Value} {t c : String} (hmeta : (t, c) = ("memories", "metadata")) : ¬Filled t c w := by
  cases hmeta
  rintro (h | ⟨h, -⟩ | ⟨h, -⟩ | ⟨h, -⟩) <;> exact absurd h (by decide)

theorem Backfill.trans {t c : String} {u v w : Value} (h : Backfill q t c u v) (h' : Backfill q t c v w) :
    Backfill q t c u w := by
  obtain ⟨hnull, hfilled⟩ | ⟨hmeta, j, policy, hj, hpolicy, rfl⟩ := h
  · obtain ⟨-, hfilled'⟩ | ⟨hmeta, -⟩ := h'
    · exact .inl ⟨hnull, hfilled'⟩
    · exact absurd hfilled (not_filled_metadata hmeta)
  · obtain ⟨-, hfilled⟩ | ⟨-, j', policy', hj', hpolicy', -⟩ := h'
    · exact absurd hfilled (not_filled_metadata hmeta)
    · rw [q.json_text hj hpolicy, Option.some.injEq] at hj'
      rw [← hj', silentPolicy_withInherit hpolicy] at hpolicy'
      cases hpolicy'

theorem fills_ladder (hs : s ∈ ladder q) : s.Fills (Backfill q) := by
  cases s with
  | update u =>
    intro rows r v w hw
    have hu := updates_ladder hs
    simp only [List.mem_cons, List.not_mem_nil, or_false] at hu
    obtain rfl | rfl | rfl | rfl | rfl := hu
    · cases hw
      by_cases hv : v = .null
      · exact .inr (.inl ⟨hv, .inl rfl⟩)
      · exact .inl (if_neg hv)
    · obtain ⟨j, hj, hw⟩ := Option.map_eq_some_iff.mp hw
      cases hpolicy : silentPolicy j with
      | none => rw [hpolicy] at hw; exact .inl hw.symm
      | some policy => rw [hpolicy] at hw; exact .inr (.inr ⟨rfl, j, policy, hj, hpolicy, hw.symm⟩)
    · cases hw
      split_ifs with hv
      · exact .inr (.inl ⟨hv.1, .inr (.inl ⟨rfl, _, rfl⟩)⟩)
      · exact .inl rfl
    · cases hw
      by_cases hv : v = .null
      · exact .inr (.inl ⟨hv, .inr (.inr (.inl ⟨rfl, if_pos hv⟩))⟩)
      · exact .inl (if_neg hv)
    · cases hw
      by_cases hv : v = .null
      · exact .inr (.inl ⟨hv, .inr (.inr (.inr ⟨rfl, if_pos hv⟩))⟩)
      · exact .inl (if_neg hv)
  | _ => trivial

theorem migrateFrom_eq_some (hv : v < currentSchemaVersion) :
    migrateFrom q v f = some g ↔ ∃ db, run (script q v) f.db = some db ∧ g = ⟨db, [currentSchemaVersion]⟩ := by
  rw [migrateFrom, if_neg (not_le.mpr hv), Option.map_eq_some_iff]
  exact exists_congr fun db => and_congr_right fun _ => eq_comm

/-- Everything there was is kept, whatever version was read and whatever the file held. -/
theorem kept_migrateFrom (h : migrateFrom q v f = some g) : f.db.schema ⊆ g.db.schema ∧ Kept (Backfill q) f.db g.db := by
  by_cases hv : currentSchemaVersion ≤ v
  · rw [migrateFrom, if_pos hv, Option.some.injEq] at h
    subst h
    exact ⟨Finset.Subset.refl _, kept_refl _⟩
  · obtain ⟨db, hrun, rfl⟩ := (migrateFrom_eq_some (not_le.mp hv)).mp h
    exact ⟨schema_subset_run hrun, kept_run (fun _ _ _ _ _ => Backfill.trans)
      (fun _ hs => fills_ladder (mem_ladder_of_mem_script hs)) hrun⟩

theorem schema_migrate (hat : AtVersion q v f) (hv : v < currentSchemaVersion) (h : migrate q f = some g) :
    g.db.schema = f.db.schema ∪ ladderItems := by
  rw [migrate, hat.version] at h
  obtain ⟨db, hrun, rfl⟩ := (migrateFrom_eq_some hv).mp h
  have hbears : ∀ s ∈ script q v, s.Bears births := fun s hs => bears_ladder (mem_ladder_of_mem_script hs)
  have hprovided : ∀ s ∈ ladder q, ∀ x ∈ s.provides births, x ∈ db.schema := by
    intro s hs x hx
    obtain hs | hs := mem_done_or_script hs v
    · exact schema_subset_run hrun (hat.has x (List.mem_append_right _ (List.mem_flatMap.mpr ⟨s, hs, hx⟩)))
    · exact provides_mem_run hbears hat.whole hrun hs hx
  refine Finset.Subset.antisymm (fun x hx => ?_) (Finset.union_subset (schema_subset_run hrun) fun x hx => ?_)
  · obtain hx | hx := Finset.mem_union.mp (run_schema_subset hrun hx)
    · exact Finset.mem_union_left _ hx
    · obtain ⟨s, hs, hadds⟩ := List.mem_flatMap.mp (List.mem_toFinset.mp hx)
      refine Finset.mem_union_right _ (List.mem_toFinset.mpr ?_)
      rw [← adds_ladder q]
      exact List.mem_flatMap.mpr ⟨s, mem_ladder_of_mem_script hs, hadds⟩
  · rw [ladderItems, List.mem_toFinset, ← adds_ladder q] at hx
    obtain ⟨s, hs, hadds⟩ := List.mem_flatMap.mp hx
    obtain hx | rfl := provides_ladder hs hadds
    · exact hprovided s hs x hx
    · exact hprovided _ (archive_metadata_mem q) _ List.mem_cons_self

theorem governanceInherit_mem (hv : v < 17) : .update (governanceInherit q) ∈ script q v :=
  List.mem_flatMap.mpr ⟨(17, [.update (governanceInherit q)]),
    List.mem_filter.mpr ⟨List.mem_of_getElem? (i := 15) rfl, decide_eq_true hv⟩, List.mem_singleton_self _⟩

theorem metadata_notMem_written (hv : 17 ≤ v) (hs : s ∈ script q v) :
    ("memories", "metadata") ∉ s.written := by
  have hnames : (steps q).map (fun p => (p.1, p.2.map Stmt.names)) = (steps default).map fun p =>
    (p.1, p.2.map Stmt.names) := rfl
  have hlater : ∀ p ∈ (steps default).map fun p => (p.1, p.2.map Stmt.names), 17 < p.1 →
      ∀ s ∈ p.2, ("memories", "metadata") ∉ s.written := by decide
  obtain ⟨p, hp, hs⟩ := List.mem_flatMap.mp hs
  obtain ⟨hp, hlt⟩ := List.mem_filter.mp hp
  have hmem := hlater (p.1, p.2.map Stmt.names) (hnames ▸ List.mem_map_of_mem hp) (lt_of_le_of_lt hv (of_decide_eq_true hlt))
    s.names (List.mem_map_of_mem hs)
  rwa [Stmt.written_names] at hmem

variable {db : Database Value}

/-- Only the metadata backfill can fail, and only on metadata that is not JSON. -/
theorem exists_newRows (hs : s ∈ script q v) (hread : v < 17 → Readable q db)
    (hneeds : ∀ x ∈ s.needs, x ∈ db.schema) : ∃ rows, s.newRows db.rows = some rows := by
  have key : ∀ {u : Update Value} {rows : Rows Value}, (∀ r ∈ rows u.table, (u.value rows r (r u.column)).isSome) →
      ∃ rows', (Stmt.update u).newRows rows = some rows' := by
    intro u rows hall
    have hmapM : ∀ l : List (Row Value), (∀ r ∈ l, (u.value rows r (r u.column)).isSome) → (l.mapM (u.row rows)).isSome := by
      intro l hl
      induction l with
      | nil => rfl
      | cons r l ih =>
        obtain ⟨hr, hl⟩ := List.forall_mem_cons.mp hl
        obtain ⟨w, hw⟩ := Option.isSome_iff_exists.mp hr
        obtain ⟨l', hl'⟩ := Option.isSome_iff_exists.mp (ih hl)
        rw [List.mapM_cons, Update.row, hw, hl']
        rfl
    obtain ⟨l, hl⟩ := Option.isSome_iff_exists.mp (hmapM _ hall)
    exact ⟨_, Option.map_eq_some_iff.mpr ⟨l, hl, rfl⟩⟩
  cases s with
  | createTable => exact ⟨_, rfl⟩
  | createIndex => exact ⟨_, rfl⟩
  | addColumn t c d => cases d <;> exact ⟨_, rfl⟩
  | update u =>
    apply key
    have hu := updates_ladder (mem_ladder_of_mem_script hs)
    simp only [List.mem_cons, List.not_mem_nil, or_false] at hu
    obtain rfl | rfl | rfl | rfl | rfl := hu
    · exact fun _ _ => rfl
    · intro r hr
      have hlt : v < 17 := not_le.mp fun h => metadata_notMem_written h hs List.mem_cons_self
      have hcolumn : .column "memories" "metadata" ∈ db.schema := hneeds _ (List.mem_cons_of_mem _ List.mem_cons_self)
      obtain ⟨j, hj⟩ := Option.isSome_iff_exists.mp (hread hlt hcolumn r hr)
      exact Option.isSome_iff_exists.mpr ⟨_, Option.map_eq_some_iff.mpr ⟨j, hj, rfl⟩⟩
    · exact fun _ _ => rfl
    · exact fun _ _ => rfl
    · exact fun _ _ => rfl

/-- A migration fails on metadata that the backfill of version 17 cannot read, and on nothing else. -/
theorem migrate_eq_none_iff (hat : AtVersion q v f) : migrate q f = none ↔ v < 17 ∧ ¬Readable q f.db := by
  rw [migrate, hat.version]
  constructor
  · intro h
    by_contra hgood
    have hread : v < 17 → Readable q f.db := fun hlt => not_not.mp fun hno => hgood ⟨hlt, hno⟩
    by_cases hv : currentSchemaVersion ≤ v
    · rw [migrateFrom, if_pos hv] at h
      cases h
    · have hsupplied := supplied_append ((done_append_script q v).symm ▸ supplied_ladder q)
      obtain ⟨db, hrun⟩ := exists_run (P := fun db => v < 17 → Readable q db)
        (fun s hs => bears_ladder (mem_ladder_of_mem_script hs)) (fun s hs db hP hneeds => exists_newRows hs hP hneeds)
        (fun s hs db db' hP hexec hlt => readable_exec (mem_ladder_of_mem_script hs) (hP hlt) hexec) hsupplied hat.has
        hat.whole hread
      rw [migrateFrom, if_neg hv, hrun] at h
      cases h
  · rintro ⟨hlt, hunreadable⟩
    have hv : v < currentSchemaVersion := hlt.trans (by decide)
    cases hm : migrateFrom q v f with
    | none => rfl
    | some g =>
      obtain ⟨hsub, hkept⟩ := kept_migrateFrom hm
      obtain ⟨db, hrun, rfl⟩ := (migrateFrom_eq_some hv).mp hm
      refine absurd (fun hcolumn r hr => ?_) hunreadable
      -- Once the script has run, the backfill has nothing left to do on any row: it reads them all.
      obtain ⟨-, hsettled⟩ := Stmt.settled_update_iff.mp (settled_run (script_apart q v) hrun _ (governanceInherit_mem hlt))
      obtain ⟨i, hi, rfl⟩ := List.getElem_of_mem hr
      have hlen := (hkept "memories").length_eq
      have hrow := List.forall₂_iff_get.mp (hkept "memories") |>.2 i hi (by omega) "metadata" hcolumn
      simp only [List.get_eq_getElem] at hrow
      obtain hsame | ⟨-, hfilled⟩ | ⟨-, j, policy, hj, -⟩ := hrow
      · rw [← hsame]
        exact isSome_of_governanceInherit (hsettled _ (List.getElem_mem _))
      · exact absurd hfilled (not_filled_metadata rfl)
      · exact Option.isSome_iff_exists.mpr ⟨j, hj⟩

/-- From every version: what stops a migration, and the schema it ends in. -/
theorem migrate_outcome (hat : AtVersion q v f) (hv : v < currentSchemaVersion) :
    (migrate q f = none ↔ v < 17 ∧ ¬Readable q f.db) ∧
      ∀ g, migrate q f = some g → g.version = currentSchemaVersion ∧ g.db.schema = f.db.schema ∪ ladderItems := by
  refine ⟨migrate_eq_none_iff hat, fun g h => ⟨?_, schema_migrate hat hv h⟩⟩
  rw [migrate, hat.version] at h
  obtain ⟨db, -, rfl⟩ := (migrateFrom_eq_some hv).mp h
  rfl

def empty : Database Value where
  schema := ∅
  rows _ := []
  rows_eq_nil _ := rfl
  table_mem h := absurd h (Finset.notMem_empty _)

theorem whole_empty : Whole births empty.schema := fun _ ht => absurd ht (Finset.notMem_empty _)

theorem bears_schemaScript : ∀ s ∈ schemaScript, s.Bears births := by decide

/-- A file that `open` has just executed `SCHEMA` on is one of version 0. -/
theorem atVersion_fresh (hversions : f.versions = []) (h : run schemaScript empty = some f.db) : AtVersion q 0 f where
  version := by rw [File.version, hversions]; rfl
  has := by
    have hprovided : ∀ x ∈ base ++ (done default 0).flatMap (Stmt.provides births), ∃ s ∈ schemaScript,
      x ∈ s.provides births := by
      decide
    intro x hx
    obtain ⟨s, hs, hx⟩ := hprovided x hx
    exact provides_mem_run bears_schemaScript whole_empty h hs hx
  whole := whole_run bears_schemaScript whole_empty h

def freshFile : File := { db := (run schemaScript empty).getD empty, versions := [] }

theorem run_schemaScript : run schemaScript empty = some freshFile.db := by
  have hsome : (run schemaScript empty).isSome := by decide +kernel
  obtain ⟨db, hdb⟩ := Option.isSome_iff_exists.mp hsome
  rw [freshFile, hdb]
  rfl

def policyText (j : Json) : Value :=
  .text (if j = .obj [] then "{}" else if (silentPolicy j).isSome then "approve" else "approve, inherited")

/-- Reads `{}` and the two texts of the policy. -/
def policyReader : Sqlite where
  json v :=
    if v = .text "{}" then some (.obj [])
    else if v = .text "approve" then some (.obj [("governance", .obj [("write", .str "approve")])])
    else if v = .text "approve, inherited" then
      some (withInherit (.obj [("governance", .obj [("write", .str "approve")])]) (.obj [("write", .str "approve")]))
    else none
  text := policyText
  json_text := by
    intro v j policy hj hpolicy
    split_ifs at hj <;> cases hj <;> cases hpolicy
    decide
  json_empty := if_pos rfl
  length _ := 0

/-- The tables with other rows, if every table with rows is there. -/
def withRows (db : Database Value) (rows : Rows Value) (h : ∀ {t}, .table t ∉ db.schema → rows t = []) : Database Value :=
  { db with rows, rows_eq_nil := h }

def linkedRows : Rows Value := fun t =>
  if t = "memories" then [fun c => .text (((([("id", "s1"), ("created_at", "2026-01-01"), ("metadata", "approve")] :
    List (String × String)).find? fun p => p.1 = c).map Prod.snd).getD "")]
  else if t = "memory_links" then [fun _ => .text "s1"]
  else []

theorem linkedRows_eq_nil (hat : AtVersion q v f) {t : String} (ht : .table t ∉ f.db.schema) : linkedRows t = [] := by
  have hbase : ∀ x ∈ base, x ∈ f.db.schema := fun x hx => hat.has x (List.mem_append_left _ hx)
  unfold linkedRows
  split_ifs with hm hl
  · exact absurd (hm ▸ hbase (.table "memories") (by decide)) ht
  · exact absurd (hl ▸ hbase (.table "memory_links") (by decide)) ht
  · rfl

theorem AtVersion.withRows (hat : AtVersion q v f) {rows : Rows Value} (h : ∀ {t}, .table t ∉ f.db.schema → rows t = []) :
    AtVersion q v { f with db := Migrations.withRows f.db rows h } :=
  ⟨hat.version, hat.has, hat.whole⟩

def linkedFile : File :=
  { db := withRows freshFile.db linkedRows (linkedRows_eq_nil (q := policyReader) (atVersion_fresh rfl run_schemaScript)), versions := [] }

theorem atVersion_linked : AtVersion policyReader 0 linkedFile :=
  AtVersion.withRows (f := freshFile) (atVersion_fresh rfl run_schemaScript) (linkedRows_eq_nil (q := policyReader)
    (atVersion_fresh rfl run_schemaScript))

theorem readable_linked : Readable policyReader linkedFile.db := by
  intro _ r hr
  have hrow : r "metadata" = .text "approve" := by
    cases List.mem_singleton.mp (show r ∈ linkedRows "memories" from hr)
    decide
  rw [hrow]
  rfl

theorem migrate_outcome_linked :
    ((migrate policyReader linkedFile = none ↔ (0 : ℤ) < 17 ∧ ¬Readable policyReader linkedFile.db) ∧
      ∀ g, migrate policyReader linkedFile = some g →
        g.version = currentSchemaVersion ∧ g.db.schema = linkedFile.db.schema ∪ ladderItems) ∧
    Readable policyReader linkedFile.db ∧ linkedFile.db.rows "memories" ≠ [] ∧ linkedFile.db.rows "memory_links" ≠ [] :=
  ⟨migrate_outcome atVersion_linked (by decide), readable_linked, List.cons_ne_nil _ _, List.cons_ne_nil _ _⟩

/-- An opener that read an older version before another one committed finds nothing left to do. -/
theorem migrateFrom_again {w : ℤ} (h : migrateFrom q v f = some g) (hv : v < currentSchemaVersion) (hvw : v ≤ w) :
    migrateFrom q w g = some g := by
  obtain ⟨db, hrun, rfl⟩ := (migrateFrom_eq_some hv).mp h
  by_cases hw : currentSchemaVersion ≤ w
  · rw [migrateFrom, if_pos hw]
  · refine (migrateFrom_eq_some (not_le.mp hw)).mpr ⟨db, run_again (script_apart q v) hrun fun s hs => ?_, rfl⟩
    obtain ⟨p, hp, hs⟩ := List.mem_flatMap.mp hs
    obtain ⟨hp, hlt⟩ := List.mem_filter.mp hp
    exact List.mem_flatMap.mpr ⟨p, List.mem_filter.mpr ⟨hp, decide_eq_true (hvw.trans_lt (of_decide_eq_true hlt))⟩, hs⟩

/-- Whatever version was read and whatever the file held, a migration that succeeds keeps the schema and every value but
those the backfills fill, and a later one, from any version read since, changes nothing. -/
theorem migrateFrom_keeps {w : ℤ} (h : migrateFrom q v f = some g) (hv : v < currentSchemaVersion) (hvw : v ≤ w) :
    f.db.schema ⊆ g.db.schema ∧ Kept (Backfill q) f.db g.db ∧ migrateFrom q w g = some g :=
  ⟨(kept_migrateFrom h).1, (kept_migrateFrom h).2, migrateFrom_again h hv hvw⟩

theorem migrateFrom_keeps_linked : ∃ g, migrate policyReader linkedFile = some g ∧ linkedFile.db.schema ⊆ g.db.schema ∧
    Kept (Backfill policyReader) linkedFile.db g.db ∧ migrateFrom policyReader 5 g = some g := by
  have hread : ¬(migrate policyReader linkedFile = none) := by
    rw [migrate_eq_none_iff atVersion_linked]
    exact fun h => h.2 readable_linked
  obtain ⟨g, hg⟩ := Option.ne_none_iff_exists'.mp hread
  exact ⟨g, hg, migrateFrom_keeps (v := 0) hg (by decide) (by decide)⟩

/-! ## Openers

Any number of processes open the file. Each reads the version, waits for the exclusive lock, executes its script statement
by statement and commits; it may die at any point, and the file is then as it was before its transaction. -/

/-- The transaction that holds the lock: the tables as it sees them, and what it has still to execute. -/
structure Opening where
  work : Database Value
  rest : List (Stmt Value)

/-- The file, the versions openers have read and not acted on yet, and the open transaction. -/
structure Openers where
  file : File
  read : List ℤ
  txn : Option Opening

inductive Act where
  /-- An opener reads the version. -/
  | read
  /-- The opener with the `i`th pending version goes on: it is content, or it takes the lock if that is free. -/
  | lock (i : ℕ)
  /-- The lock's holder executes its next statement; an SQL error rolls back. -/
  | exec
  | commit
  /-- The lock's holder dies. -/
  | crash

def step (q : Sqlite) (s : Openers) : Act → Openers
  | .read => { s with read := s.read ++ [s.file.version] }
  | .lock i =>
    match s.txn, s.read[i]? with
    | none, some v =>
      if currentSchemaVersion ≤ v then { s with read := s.read.eraseIdx i }
      else { s with
        read := s.read.eraseIdx i
        txn := some { work := s.file.db, rest := script q v } }
    | _, _ => s
  | .exec =>
    match s.txn with
    | some { work, rest := stmt :: rest } => { s with txn := (stmt.exec work).map fun work => { work, rest } }
    | _ => s
  | .commit =>
    match s.txn with
    | some { work, rest := [] } => { s with
        file := { db := work, versions := [currentSchemaVersion] }
        txn := none }
    | _ => s
  | .crash => { s with txn := none }

/-- A version an opener has read: the file's first one, or a later one once the file is migrated. -/
def Seen (q : Sqlite) (f file : File) (v : ℤ) : Prop := f.version ≤ v ∧ (migrate q f = some file ∨ v = f.version)

/-- What holds of the openers of a file: it is the one that was there or the migrated one, and an open transaction is
somewhere in a script. -/
structure Reached (q : Sqlite) (f : File) (s : Openers) : Prop where
  file : s.file = f ∨ migrate q f = some s.file
  read : ∀ v ∈ s.read, Seen q f s.file v
  txn : ∀ t ∈ s.txn, ∃ v executed, Seen q f s.file v ∧ v < currentSchemaVersion ∧ executed ++ t.rest = script q v ∧
    run executed s.file.db = some t.work

theorem reached_start (q : Sqlite) (f : File) : Reached q f { file := f, read := [], txn := none } where
  file := .inl rfl
  read := List.forall_mem_nil _
  txn _ ht := (Option.not_mem_none _ ht).elim

theorem version_le_of_migrate (h : migrate q f = some g) : f.version ≤ g.version := by
  by_cases hv : currentSchemaVersion ≤ f.version
  · rw [migrate, migrateFrom, if_pos hv, Option.some.injEq] at h
    rw [← h]
  · obtain ⟨db, -, rfl⟩ := (migrateFrom_eq_some (not_le.mp hv)).mp h
    exact (not_le.mp hv).le

theorem migrate_of_commit {file new : File} (hfile : file = f ∨ migrate q f = some file) (hseen : Seen q f file v)
    (hv : v < currentSchemaVersion) (h : migrateFrom q v file = some new) : migrate q f = some new := by
  have hf : f.version < currentSchemaVersion := hseen.1.trans_lt hv
  by_cases hdone : migrate q f = some file
  · rw [migrateFrom_again hdone hf hseen.1] at h
    rw [hdone, h]
  · rw [hseen.2.resolve_left hdone, hfile.resolve_right hdone] at h
    exact h

theorem reached_step {s : Openers} (h : Reached q f s) (a : Act) : Reached q f (step q s a) := by
  cases a with
  | read =>
    refine { h with read := fun v hv => ?_ }
    obtain hv | hv := List.mem_append.mp hv
    · exact h.read v hv
    · rw [List.mem_singleton.mp hv]
      obtain hfile | hfile := h.file
      · rw [hfile]
        exact ⟨le_rfl, .inr rfl⟩
      · exact ⟨version_le_of_migrate hfile, .inl hfile⟩
  | lock i =>
    simp only [step]
    split
    · next v _ hread =>
      have hold : ∀ w ∈ s.read.eraseIdx i, Seen q f s.file w := fun w hw => h.read w (List.mem_of_mem_eraseIdx hw)
      split_ifs with hv
      · exact { h with read := hold }
      · refine { h with
          read := hold
          txn := fun t ht => ?_ }
        cases ht
        exact ⟨v, [], h.read v (List.mem_of_getElem? hread), not_le.mp hv, rfl, rfl⟩
    · exact h
  | exec =>
    simp only [step]
    split
    · next work stmt rest htxn =>
      obtain ⟨v, executed, hseen, hv, hscript, hrun⟩ := h.txn _ htxn
      refine { h with txn := fun t ht => ?_ }
      obtain ⟨work', hexec, rfl⟩ := Option.map_eq_some_iff.mp ht
      refine ⟨v, executed ++ [stmt], hseen, hv, by rw [List.append_assoc]; exact hscript, ?_⟩
      rw [run_append, hrun, Option.bind_some, run, hexec]
      rfl
    · exact h
  | commit =>
    simp only [step]
    split
    · next work htxn =>
      obtain ⟨v, executed, hseen, hv, hscript, hrun⟩ := h.txn _ htxn
      rw [List.append_nil] at hscript
      subst hscript
      have hnew := migrate_of_commit h.file hseen hv ((migrateFrom_eq_some hv).mpr ⟨work, hrun, rfl⟩)
      exact {
        file := .inr hnew
        read := fun v hv => ⟨(h.read v hv).1, .inl hnew⟩
        txn := fun t ht => (Option.not_mem_none t ht).elim }
    · exact h
  | crash => exact { h with txn := fun t ht => (Option.not_mem_none t ht).elim }

theorem reached_foldl {s : Openers} (h : Reached q f s) (as : List Act) : Reached q f (as.foldl (step q) s) :=
  Machine.foldl_induct (fun _ _ _ h => reached_step h _) h

theorem file_step_of_migrated {s : Openers} (h : Reached q f s) (hdone : migrate q f = some s.file) (a : Act) :
    (step q s a).file = s.file := by
  cases a with
  | lock i =>
    simp only [step]
    split
    · split_ifs <;> rfl
    · rfl
  | exec =>
    simp only [step]
    split <;> rfl
  | commit =>
    have hnew := (reached_step h .commit).file
    simp only [step] at hnew ⊢
    split
    · next work htxn =>
      obtain ⟨v, executed, hseen, hv, hscript, hrun⟩ := h.txn _ htxn
      rw [List.append_nil] at hscript
      subst hscript
      have hcommit := migrate_of_commit h.file hseen hv ((migrateFrom_eq_some hv).mpr ⟨work, hrun, rfl⟩)
      exact Option.some.inj (hcommit.symm.trans hdone)
    · rfl
  | _ => rfl

/-- Whatever order any number of openers read the version, take the lock, execute, commit and die in, the file is at all
times the one that was there or the migrated one, and once it is the migrated one it stays so. -/
theorem openers_safe (q : Sqlite) (f : File) (as bs : List Act) :
    let start : Openers := { file := f, read := [], txn := none }
    let s := as.foldl (step q) start
    (s.file = f ∨ migrate q f = some s.file) ∧
      (migrate q f = some s.file → ((as ++ bs).foldl (step q) start).file = s.file) := by
  intro start s
  have hreached : Reached q f s := reached_foldl (reached_start q f) as
  refine ⟨hreached.file, fun hdone => ?_⟩
  rw [List.foldl_append]
  have hkeeps : ∀ t : Openers, Reached q f t ∧ t.file = s.file →
      ∀ b ∈ bs, Reached q f (step q t b) ∧ (step q t b).file = s.file := by
    rintro t ⟨ht, hfile⟩ b -
    exact ⟨reached_step ht b, (file_step_of_migrated ht (hfile ▸ hdone) b).trans hfile⟩
  exact (Machine.foldl_induct (fun t b hb ht => hkeeps t ht b hb) (⟨hreached, rfl⟩ : Reached q f s ∧ s.file = s.file)).2

/-! ## Tables made by hand

The step of version 27 creates the index on `subscription_events.correlation_id` before it looks whether the column is
there. On a table made by hand without it the index fails, so the probe is never reached. -/

/-- The file has a `subscription_events` table that the program did not make. -/
structure HandRolled (db : Database Value) : Prop where
  table : .table "subscription_events" ∈ db.schema
  column : .column "subscription_events" "correlation_id" ∉ db.schema
  index : .index "idx_subscription_events_correlation" ∉ db.schema

theorem steps_eq (q : Sqlite) : ∃ last, steps q = (steps q).take 25 ++ [(27, subscriptionEventsStep), (28, last)] := ⟨_, rfl⟩

theorem notMem_adds (hs : s ∈ ((steps q).take 25).flatMap Prod.snd) :
    .column "subscription_events" "correlation_id" ∉ s.adds ∧ .index "idx_subscription_events_correlation" ∉ s.adds := by
  have hnames : (((steps q).take 25).flatMap Prod.snd).map Stmt.names =
      (((steps default).take 25).flatMap Prod.snd).map Stmt.names := rfl
  have h : ∀ s ∈ (((steps default).take 25).flatMap Prod.snd).map Stmt.names,
      .column "subscription_events" "correlation_id" ∉ s.adds ∧ .index "idx_subscription_events_correlation" ∉ s.adds := by
    decide
  have hs' := h s.names (hnames ▸ List.mem_map_of_mem hs)
  rwa [Stmt.adds_names] at hs'

theorem handRolled_run {script : List (Stmt Value)} {db db' : Database Value} (h : HandRolled db)
    (hadds : ∀ s ∈ script, .column "subscription_events" "correlation_id" ∉ s.adds ∧
      .index "idx_subscription_events_correlation" ∉ s.adds) (hrun : run script db = some db') : HandRolled db' := by
  have hnew : ∀ x ∈ db'.schema, x ∈ db.schema ∨ ∃ s ∈ script, x ∈ s.adds := fun x hx =>
    (Finset.mem_union.mp (run_schema_subset hrun hx)).imp_right fun hx => List.mem_flatMap.mp (List.mem_toFinset.mp hx)
  refine ⟨schema_subset_run hrun h.table, fun hx => ?_, fun hx => ?_⟩
  · obtain hx | ⟨s, hs, hx⟩ := hnew _ hx
    · exact h.column hx
    · exact (hadds s hs).1 hx
  · obtain hx | ⟨s, hs, hx⟩ := hnew _ hx
    · exact h.index hx
    · exact (hadds s hs).2 hx

theorem exec_correlation_index (h : HandRolled db) :
    Stmt.exec (.createIndex "idx_subscription_events_correlation" "subscription_events" ["correlation_id"]) db = none := by
  cases hexec : Stmt.exec (.createIndex "idx_subscription_events_correlation" "subscription_events" ["correlation_id"]) db with
  | none => rfl
  | some db' =>
    obtain ⟨⟨x, hx, hmem⟩, -⟩ | ⟨-, hneeds, -⟩ := Stmt.exec_cases hexec
    · cases hx
      exact absurd hmem h.index
    · exact absurd (hneeds _ (List.mem_cons_of_mem _ List.mem_cons_self)) h.column

theorem run_subscriptionEventsStep (h : HandRolled db) : run subscriptionEventsStep db = none := by
  have hcreate : Stmt.exec (.createTable "subscription_events" ["id", "subscription_id", "correlation_id", "event_type",
      "payload", "delivered_at", "delivery_status"]) db = some db := Stmt.exec_of_guard rfl h.table
  rw [subscriptionEventsStep, run, hcreate, Option.bind_some, run, exec_correlation_index h]
  rfl

/-- No opener ever migrates such a file: the step of version 27 fails, and the version stays below it. -/
theorem migrate_handRolled (h : HandRolled f.db) (hv : f.version < 27) : migrate q f = none := by
  obtain ⟨last, hsteps⟩ := steps_eq q
  set before := (((steps q).take 25).filter (f.version < ·.1)).flatMap Prod.snd with hbefore
  have hscript : script q f.version = before ++ (subscriptionEventsStep ++ last) := by
    let after (p : ℤ × List (Stmt Value)) : Bool := f.version < p.1
    have hcut : script q f.version =
        (((steps q).take 25 ++ [(27, subscriptionEventsStep), (28, last)]).filter after).flatMap Prod.snd :=
      congrArg (fun l => (l.filter after).flatMap Prod.snd) hsteps
    rw [hcut, List.filter_append, List.flatMap_append, List.filter_cons, if_pos (decide_eq_true hv), List.filter_cons,
      if_pos (decide_eq_true (hv.trans (show (27 : ℤ) < 28 by decide))), List.filter_nil, List.flatMap_cons,
        List.flatMap_cons, List.flatMap_nil,
      List.append_nil]
  rw [migrate, migrateFrom, if_neg (not_le.mpr (hv.trans (by decide))), Option.map_eq_none_iff, hscript, run_append]
  cases hrun : run before f.db with
  | none => rfl
  | some mid =>
    have hmid : HandRolled mid := by
      refine handRolled_run h (fun s hs => notMem_adds (q := q) ?_) hrun
      obtain ⟨p, hp, hs⟩ := List.mem_flatMap.mp hs
      exact List.mem_flatMap.mpr ⟨p, (List.mem_filter.mp hp).1, hs⟩
    rw [Option.bind_some, run_append, run_subscriptionEventsStep hmid]
    rfl

/-- However many openers try, and in whatever order, the file stays as it was made. -/
theorem handRolled_stays (h : HandRolled f.db) (hv : f.version < 27) (as : List Act) :
    migrate q f = none ∧ (as.foldl (step q) { file := f, read := [], txn := none }).file = f := by
  have hnone : migrate q f = none := migrate_handRolled h hv
  refine ⟨hnone, (reached_foldl (reached_start q f) as).file.resolve_right fun hdone => ?_⟩
  rw [hnone] at hdone
  cases hdone

/-- A file of version 26 with a table of that name made by hand. -/
def handMadeFile : File where
  db := (run (schemaScript ++ [.createTable "subscription_events" ["id", "payload"]]) empty).getD empty
  versions := [26]

theorem handRolled_stays_handMade : migrate default handMadeFile = none ∧
    ([.read, .lock 0, .exec, .crash].foldl (step default) { file := handMadeFile, read := [], txn := none }).file =
      handMadeFile :=
  handRolled_stays ⟨by decide +kernel, by decide +kernel, by decide +kernel⟩ (by decide) _

end AiMemory.Migrations
