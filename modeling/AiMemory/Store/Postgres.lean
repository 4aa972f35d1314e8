import AiMemory.Store.Sqlite

/-!
# The Postgres adapter

`store`, `get`, `update` and `list` of `store/postgres.rs` on the table `memories` of `store/postgres_schema.sql`. Times
are kept as `TIMESTAMPTZ`, in microseconds, tags and metadata as `JSONB`. What the driver and the server do with values
is a parameter, and so is whether the server carries a statement out.

`PgDb` has the primary key and the unique index on `(title, namespace)`, as the table of SQLite has.
-/

namespace AiMemory

open Relational

/-- What the server may say to a statement: a value that is no `JSONB`, a `NULL` for the metadata, a taken key, or a
failure of its own. -/
inductive PgError where
  | jsonb
  | notNull
  | unique (constraint : String)
  | outage (text : String)
  deriving DecidableEq

/-- chrono, with what `sqlx` and the server make of times and of JSON values. -/
structure Postgres extends Chrono where
  /-- A time that is printed reads back as itself, if its text is a timestamp at all. -/
  reads_back : ∀ t t', parseFromRfc3339 (toRfc3339 t) = some t' → t' = t
  /-- The microseconds that are kept of a time. -/
  micros : ℤ → ℤ
  micros_whole : ∀ t, micros (1000 * t) = t
  /-- The value that is read back, if it is taken. -/
  jsonb : Json → Option Json
  /-- Strings are, up to the character that text columns do not take. -/
  jsonb_strings : ∀ ss : List String, jsonb (.arr (ss.map Json.str)) =
    if ss.any fun s => s.toList.contains (Char.ofNat 0) then none else some (.arr (ss.map Json.str))
  parseError : String → String
  describe : PgError → String

/-- A row of `memories`. -/
structure PgRow where
  id : String
  tier : Tier
  ns : String
  title : String
  content : String
  tags : Json
  priority : ℤ
  confidence : ℚ
  source : String
  accessCount : ℤ
  createdAt : ℤ
  updatedAt : ℤ
  lastAccessedAt : Option ℤ
  expiresAt : Option ℤ
  metadata : Json
  deriving DecidableEq

/-- The columns of `memories_title_ns_uidx`. -/
def PgRow.key (r : PgRow) : String × String := (r.title, r.ns)

/-- The table `memories`. -/
abbrev PgDb := Indexed (fun r : PgRow => r.id) PgRow.key

def tierRank : Tier → ℤ
  | .short => 0
  | .mid => 1
  | .long => 2

/-! ## `JSONB` -/

namespace Json

/-- `j ? k`: a top-level key or array element. -/
def hasKey (j : Json) (k : String) : Bool :=
  match j with
  | .obj fs => (getField k fs).isSome
  | .arr items => items.any fun item => item.asStr = some k
  | .str s => s = k
  | _ => false

/-- `jsonb_set(j, '{k}', v)`: `NULL` for a `NULL`, an error where there is no key to set. -/
def jsonbSet (j : Json) (k : String) (v : Option Json) : Except PgError (Option Json) :=
  match v, j with
  | none, _ => .ok none
  | some v, .obj fs => .ok (some (.obj (setField k v fs)))
  | some _, _ => .error .jsonb

end Json

/-- The `metadata` column of the upsert, and of an update with metadata. It is `NOT NULL`. -/
def mergeMetadata (stored excluded : Json) : Except PgError Json :=
  if stored.hasKey "agent_id" then do
    let merged ← excluded.jsonbSet "agent_id" (stored.get "agent_id")
    merged.elim (.error .notNull) .ok
  else .ok excluded

/-- `serde_json::to_value` of the tags. -/
def tagsJson (tags : List String) : Json := .arr (tags.map Json.str)

/-- `serde_json::from_value(tags).unwrap_or_default()`. -/
def tagsOf : Json → List String
  | .arr items => (items.mapM Json.asStr).getD []
  | _ => []

@[simp] theorem tagsOf_tagsJson (tags : List String) : tagsOf (tagsJson tags) = tags := by
  have h : (tags.map Json.str).mapM Json.asStr = some tags := by
    induction tags with
    | nil => rfl
    | cons s ss ih => simp [ih, Json.asStr]
  simp [tagsOf, tagsJson, h]

namespace PostgresStore

variable (P : Postgres)

def toStoreErr (what : String) (e : PgError) : StoreError :=
  let detail := P.describe e
  .backendUnavailable "postgres" s!"{what}: {detail}"

/-- `parse_rfc3339_opt`, in microseconds. -/
def parseRfc3339Opt (s : Option String) : Option ℤ := (s.bind P.parseFromRfc3339).map P.micros

def parseRfc3339Required (s : String) : Except StoreError ℤ :=
  match P.parseFromRfc3339 s with
  | some t => .ok t
  | none =>
    let e := P.parseError s
    .error (.integrityFailed s!"invalid rfc3339 timestamp {s}: {e}")

/-- A value that is bound to a `JSONB`. -/
def bindJson (j : Json) : Except PgError Json := ((P.jsonb j).map Except.ok).getD (.error .jsonb)

def rowToMemory (r : PgRow) : Memory where
  id := r.id
  tier := r.tier
  ns := r.ns
  title := r.title
  content := r.content
  tags := tagsOf r.tags
  priority := r.priority
  confidence := r.confidence
  source := r.source
  accessCount := r.accessCount
  createdAt := P.toRfc3339 (1000 * r.createdAt)
  updatedAt := P.toRfc3339 (1000 * r.updatedAt)
  lastAccessedAt := r.lastAccessedAt.map fun t => P.toRfc3339 (1000 * t)
  expiresAt := r.expiresAt.map fun t => P.toRfc3339 (1000 * t)
  metadata := r.metadata

/-! ## `store` -/

/-- The row that `VALUES` makes of a memory. -/
def valuesRow (memory : Memory) (createdAt updatedAt : ℤ) (tags metadata : Json) : PgRow where
  id := memory.id
  tier := memory.tier
  ns := memory.ns
  title := memory.title
  content := memory.content
  tags := tags
  priority := memory.priority
  confidence := memory.confidence
  source := memory.source
  accessCount := memory.accessCount
  createdAt := P.micros createdAt
  updatedAt := P.micros updatedAt
  lastAccessedAt := parseRfc3339Opt P memory.lastAccessedAt
  expiresAt := parseRfc3339Opt P memory.expiresAt
  metadata := metadata

/-- The row that is bound to the statement; its conflict rules call it `EXCLUDED`. -/
def excludedRow (memory : Memory) : Except StoreError PgRow := do
  let createdAt ← parseRfc3339Required P memory.createdAt
  let updatedAt ← parseRfc3339Required P memory.updatedAt
  let tags ← (bindJson P (tagsJson memory.tags)).mapError (toStoreErr P "insert memory")
  let metadata ← (bindJson P memory.metadata).mapError (toStoreErr P "insert memory")
  .ok (valuesRow P memory createdAt updatedAt tags metadata)

/-- `ON CONFLICT (title, namespace) DO UPDATE SET ..`, given the metadata. -/
def conflictRow (excluded : PgRow) (metadata : Json) (stored : PgRow) : PgRow :=
  { stored with
    content := excluded.content
    tier := if tierRank stored.tier ≤ tierRank excluded.tier then excluded.tier else stored.tier
    tags := excluded.tags
    priority := excluded.priority
    confidence := excluded.confidence
    updatedAt := excluded.updatedAt
    metadata := metadata }

/-- `INSERT INTO memories .. ON CONFLICT (title, namespace) DO UPDATE SET .. RETURNING id`. -/
def upsert (pg : PgDb) (excluded : PgRow) : Except PgError (PgDb × String) :=
  match pg.findBy excluded.key with
  | some stored => do
    let metadata ← mergeMetadata stored.metadata excluded.metadata
    let f (r : PgRow) : PgRow := if r.id = stored.id then conflictRow excluded metadata r else r
    .ok (pg.map f (by intro r; unfold f; split_ifs <;> rfl) (by intro r; unfold f; split_ifs <;> rfl), stored.id)
  | none => ((pg.insertNew? excluded).map fun t => Except.ok (t, excluded.id)).getD (.error (.unique "memories_pkey"))

/-- `store`, whose statement may meet an `outage` of the server. -/
def store (pg : PgDb) (memory : Memory) (outage : Option String) : Except StoreError (PgDb × String) := do
  let excluded ← excludedRow P memory
  (outage.elim (upsert pg excluded) fun text => .error (.outage text)).mapError (toStoreErr P "insert memory")

/-! ## `get`, `update` and `list` -/

/-- `SET ..` of the update, given the metadata. -/
def patchRow (patch : UpdatePatch) (tags : Option Json) (metadata : Json) (now : ℤ) (r : PgRow) : PgRow :=
  { r with
    title := patch.title.getD r.title
    content := patch.content.getD r.content
    tier := patch.tier.elim r.tier fun tier => if tierRank r.tier ≤ tierRank tier then tier else r.tier
    ns := patch.ns.getD r.ns
    tags := tags.getD r.tags
    priority := patch.priority.getD r.priority
    confidence := patch.confidence.getD r.confidence
    metadata := metadata
    updatedAt := now }

theorem patchRow_id (id : String) (patch : UpdatePatch) (tags : Option Json) (metadata : Json) (now : ℤ) (r : PgRow) :
    (if r.id = id then patchRow patch tags metadata now r else r).id = r.id := by split_ifs <;> rfl

/-- The rows after the update, if no two of them have one title and namespace. -/
def patchWhere (pg : PgDb) (id : String) (patch : UpdatePatch) (tags : Option Json) (metadata : Json) (now : ℤ) :
    Option PgDb :=
  pg.map? (fun r => if r.id = id then patchRow patch tags metadata now r else r) (patchRow_id id patch tags metadata now)

/-- `UPDATE memories SET .. WHERE id = $1`, if there is such a row. -/
def updateWhere (pg : PgDb) (id : String) (patch : UpdatePatch) (tags metadata : Option Json) (now : ℤ) :
    Except PgError (Option PgDb) :=
  match pg.find id with
  | none => .ok none
  | some r => do
    let merged ← metadata.elim (.ok r.metadata) (mergeMetadata r.metadata)
    ((patchWhere pg id patch tags merged now).map fun t => Except.ok (some t)).getD
      (.error (.unique "memories_title_ns_uidx"))

/-- A parameter that may be `NULL`. -/
def bindOptional (j : Option Json) : Except PgError (Option Json) :=
  j.elim (.ok none) fun j => (bindJson P j).map some

/-- `update`, at the server's time `now`. -/
def update (pg : PgDb) (id : String) (patch : UpdatePatch) (now : ℤ) (outage : Option String) :
    Except StoreError PgDb := do
  let tags ← (bindOptional P (patch.tags.map tagsJson)).mapError (toStoreErr P "update")
  let metadata ← (bindOptional P patch.metadata).mapError (toStoreErr P "update")
  let updated ← (outage.elim (updateWhere pg id patch tags metadata now) fun text =>
    .error (.outage text)).mapError (toStoreErr P "update")
  updated.elim (.error (.notFound id)) .ok

/-- The `WHERE` clause of `list`. -/
def listFilters (filter : Filter) (now : ℤ) (r : PgRow) : Bool :=
  filter.ns.all (r.ns = ·) && filter.tier.all (r.tier = ·) && r.expiresAt.all (now < ·) &&
    filter.since.all (P.micros · ≤ r.createdAt) && filter.until'.all (r.createdAt ≤ P.micros ·)

/-- `ORDER BY priority DESC, updated_at DESC`. -/
def listBefore (a b : PgRow) : Bool := b.priority < a.priority ∨ b.priority = a.priority ∧ b.updatedAt ≤ a.updatedAt

/-- The limit of `list`. -/
def listLimit (filter : Filter) : ℕ := min (max filter.limit 1) 1000

/-- `list`, at the server's time `now`. -/
def list (pg : PgDb) (filter : Filter) (now : ℤ) (outage : Option String) : Except StoreError (List Memory) :=
  match outage with
  | some text => .error (toStoreErr P "list" (.outage text))
  | none =>
    .ok ((((pg.rows.filter (listFilters P filter now)).mergeSort listBefore).take (listLimit filter)).map (rowToMemory P))

/-! ## What a call can do -/

variable {P} {pg pg' : PgDb} {memory : Memory} {outage : Option String} {id : String} {excluded row : PgRow}

theorem excludedRow_eq_ok : excludedRow P memory = .ok row ↔ ∃ createdAt updatedAt tags metadata,
    P.parseFromRfc3339 memory.createdAt = some createdAt ∧ P.parseFromRfc3339 memory.updatedAt = some updatedAt ∧
      P.jsonb (tagsJson memory.tags) = some tags ∧ P.jsonb memory.metadata = some metadata ∧
      row = valuesRow P memory createdAt updatedAt tags metadata := by
  unfold excludedRow parseRfc3339Required bindJson
  cases P.parseFromRfc3339 memory.createdAt <;> cases P.parseFromRfc3339 memory.updatedAt <;>
    cases P.jsonb (tagsJson memory.tags) <;> cases P.jsonb memory.metadata <;>
    simp [bind, Except.bind, Except.mapError, eq_comm]

/-- An upsert merges into the row of its title and namespace, or appends a row under a free id. -/
theorem upsert_eq_ok (h : upsert pg excluded = .ok (pg', id)) :
    (∃ stored metadata, pg.findBy excluded.key = some stored ∧ id = stored.id ∧
      mergeMetadata stored.metadata excluded.metadata = .ok metadata ∧
      pg'.rows = pg.rows.map fun r => if r.id = stored.id then conflictRow excluded metadata r else r) ∨
    (pg.findBy excluded.key = none ∧ id = excluded.id ∧ pg.insertNew? excluded = some pg') := by
  unfold upsert at h
  cases hs : pg.findBy excluded.key with
  | some stored =>
    simp only [hs] at h
    cases hm : mergeMetadata stored.metadata excluded.metadata with
    | error e =>
      rw [hm] at h
      cases h
    | ok metadata =>
      rw [hm] at h
      cases h
      exact Or.inl ⟨stored, metadata, rfl, rfl, hm, rfl⟩
  | none =>
    simp only [hs] at h
    cases ht : pg.insertNew? excluded with
    | none =>
      rw [ht] at h
      cases h
    | some t =>
      rw [ht] at h
      cases h
      exact Or.inr ⟨rfl, rfl, rfl⟩

theorem upsert_of_stored {stored : PgRow} {metadata : Json} (hs : pg.findBy excluded.key = some stored)
    (hm : mergeMetadata stored.metadata excluded.metadata = .ok metadata) :
    ∃ pg', upsert pg excluded = .ok (pg', stored.id) ∧
      pg'.rows = pg.rows.map fun r => if r.id = stored.id then conflictRow excluded metadata r else r := by
  unfold upsert
  simp only [hs, hm]
  exact ⟨_, rfl, rfl⟩

theorem upsert_of_new {t : PgDb} (hs : pg.findBy excluded.key = none) (ht : pg.insertNew? excluded = some t) :
    upsert pg excluded = .ok (t, excluded.id) := by
  unfold upsert
  simp only [hs, ht, Option.map_some, Option.getD_some]

theorem store_eq_ok : store P pg memory outage = .ok (pg', id) ↔
    outage = none ∧ ∃ excluded, excludedRow P memory = .ok excluded ∧ upsert pg excluded = .ok (pg', id) := by
  unfold store
  cases excludedRow P memory with
  | error e => simp [bind, Except.bind]
  | ok excluded =>
    cases outage with
    | some text => simp [bind, Except.bind, Except.mapError]
    | none =>
      cases hu : upsert pg excluded <;> simp [bind, Except.bind, Except.mapError, hu]

variable {patch : UpdatePatch} {now : ℤ}

/-- An update goes through if its values are taken, there is such a row, and no other has its new title and namespace. -/
theorem update_eq_ok : update P pg id patch now outage = .ok pg' ↔
    outage = none ∧ ∃ tags metadata r merged, bindOptional P (patch.tags.map tagsJson) = .ok tags ∧
      bindOptional P patch.metadata = .ok metadata ∧ pg.find id = some r ∧
      metadata.elim (.ok r.metadata) (mergeMetadata r.metadata) = .ok merged ∧
      patchWhere pg id patch tags merged now = some pg' := by
  unfold update
  cases bindOptional P (patch.tags.map tagsJson) with
  | error e => simp [bind, Except.bind, Except.mapError]
  | ok tags =>
  cases bindOptional P patch.metadata with
  | error e => simp [bind, Except.bind, Except.mapError]
  | ok metadata =>
  cases outage with
  | some text => simp [bind, Except.bind, Except.mapError]
  | none =>
  simp only [bind, Except.bind, Except.mapError, Option.elim_none, updateWhere]
  cases hr : pg.find id with
  | none => simp
  | some r =>
  cases hm : metadata.elim (.ok r.metadata) (mergeMetadata r.metadata) with
  | error e => simp [hm]
  | ok merged =>
  cases ht : patchWhere pg id patch tags merged now <;> simp [hm, ht]

end PostgresStore

end AiMemory
