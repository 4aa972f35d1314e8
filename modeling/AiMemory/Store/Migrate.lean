import AiMemory.Store.Postgres

/-!
# Migration

`migrate.rs`: one `list` of the source, one `store` for each memory of it. Both are calls of the trait, so source and
destination may be either adapter.

`Columns` is what a row holds for a reader who cares about times and not about their spelling. On it, a write is an
upsert by id (`upserts`), a run of writes is known row by row, and so is a second run.
-/

namespace AiMemory

open Relational

namespace Migrate

/-- `dyn MemoryStore`: one of the two adapters. -/
inductive Backend where
  | sqlite (db : Db)
  | postgres (pg : PgDb)

/-- The clocks of a migration, and the failures of the server. -/
structure Surroundings where
  sqliteNow : String
  postgresNow : ℤ
  listOutage : Option String
  storeOutage : Memory → Option String

variable (P : Postgres) (env : Surroundings)

namespace Backend

def list : Backend → Filter → Except StoreError (List Memory)
  | .sqlite db, filter => SqliteStore.list P.toChrono db filter env.sqliteNow
  | .postgres pg, filter => PostgresStore.list P pg filter env.postgresNow env.listOutage

def store : Backend → Memory → Except StoreError (Backend × String)
  | .sqlite db, mem => (SqliteStore.store db mem).map fun res => (.sqlite res.1, res.2)
  | .postgres pg, mem => (PostgresStore.store P pg mem (env.storeOutage mem)).map fun res => (.postgres res.1, res.2)

def isPostgres : Backend → Bool
  | .sqlite _ => false
  | .postgres _ => true

end Backend

/-! ## `migrate` -/

structure MigrationReport where
  fromUrl : String := ""
  toUrl : String := ""
  memoriesRead : ℕ := 0
  memoriesWritten : ℕ := 0
  batches : ℕ := 0
  errors : List String := []
  dryRun : Bool := false

def maxRows : ℕ := 1000000

/-- The body of the loop, on the ids seen so far, the report and the destination. -/
def copyOne (dryRun : Bool) (acc : List String × MigrationReport × Backend) (mem : Memory) :
    List String × MigrationReport × Backend :=
  let (seen, report, dst) := acc
  if mem.id ∈ seen then acc
  else
    let report := { report with memoriesRead := report.memoriesRead + 1 }
    if dryRun then (mem.id :: seen, report, dst)
    else
      match dst.store P env mem with
      | .ok (dst, _) => (mem.id :: seen, { report with memoriesWritten := report.memoriesWritten + 1 }, dst)
      | .error e =>
        let id := mem.id
        let e := e.toText
        (mem.id :: seen, { report with errors := report.errors ++ [s!"write {id} failed: {e}"] }, dst)

/-- The filter of the one `list`. -/
def pageFilter (namespaceFilter : Option String) : Filter := { ns := namespaceFilter, limit := maxRows }

def migrate (src dst : Backend) (_batchSize : ℕ) (namespaceFilter : Option String) (dryRun : Bool) :
    MigrationReport × Backend :=
  let report : MigrationReport := { dryRun := dryRun }
  match src.list P env (pageFilter namespaceFilter) with
  | .error e =>
    let e := e.toText
    ({ report with errors := [s!"source list failed: {e}"] }, dst)
  | .ok page =>
    if maxRows ≤ page.length then
      ({ report with errors := [s!"source has >= {maxRows} memories; single-call migrate cap reached. Use the streaming migrate tool (v0.7+) instead of silently dropping rows."] }, dst)
    else (page.foldl (copyOne P env dryRun) ([], { report with batches := 1 }, dst)).2

/-! ## What a row holds -/

def expiryOf (c : Chrono) (s : Option String) : Option (String ⊕ ℤ) :=
  s.map fun s => ((c.parseFromRfc3339 s).map Sum.inr).getD (Sum.inl s)

/-- The columns that a migration is to keep. -/
structure Columns where
  id : String
  tier : Tier
  ns : String
  title : String
  content : String
  tags : List String
  priority : ℤ
  confidence : ℚ
  source : String
  expiresAt : Option (String ⊕ ℤ)
  metadata : Json
  deriving DecidableEq

def Columns.ofMemory (c : Chrono) (m : Memory) : Columns :=
  ⟨m.id, m.tier, m.ns, m.title, m.content, m.tags, m.priority, m.confidence, m.source, expiryOf c m.expiresAt, m.metadata⟩

def Columns.ofRow (r : PgRow) : Columns :=
  ⟨r.id, r.tier, r.ns, r.title, r.content, tagsOf r.tags, r.priority, r.confidence, r.source,
    r.expiresAt.map fun t => Sum.inr (1000 * t), r.metadata⟩

namespace Backend

def columns : Backend → String → Option Columns
  | .sqlite db, id => (db.get id).map fun r => Columns.ofMemory P.toChrono r.toMemory
  | .postgres pg, id => (pg.find id).map Columns.ofRow

def memories : Backend → List Memory
  | .sqlite db => db.live
  | .postgres pg => pg.rows.map (PostgresStore.rowToMemory P)

def selected (ns : Option String) : Backend → List Memory
  | .sqlite db => db.live.filter fun m => ns.all (m.ns = ·) && m.expiresAt.all (env.sqliteNow < ·)
  | .postgres pg =>
    (pg.rows.filter fun r => ns.all (r.ns = ·) && r.expiresAt.all (env.postgresNow < ·)).map (PostgresStore.rowToMemory P)

/-- How many memories one `list` may return. -/
def pageLimit : Backend → ℕ
  | .sqlite _ => maxRows
  | .postgres _ => 1000

/-- There is no row. -/
def Empty : Backend → Prop
  | .sqlite db => db.memories.rows = []
  | .postgres pg => pg.rows = []

end Backend

/-! ## The source -/

section Source

variable {P env} {src dst : Backend} {ns : Option String} {page : List Memory} {a b : Memory}

/-- A page of the source is a part of the selected memories, and all of them if the limit allows it. -/
theorem list_eq_ok (h : src.list P env (pageFilter ns) = .ok page) :
    ∃ sorted : List Memory, sorted.Perm (src.selected P env ns) ∧ page = sorted.take src.pageLimit := by
  cases src with
  | sqlite db =>
    have hfilter : Db.listFilters
        { ns := ns, tier := none, limit := maxRows, offset := 0, minPriority := none, since := none, until' := none,
          tagsFilter := none, agentId := none } env.sqliteNow =
        fun m => ns.all (m.ns = ·) && m.expiresAt.all (env.sqliteNow < ·) := by
      funext m
      simp [Db.listFilters]
    refine ⟨(db.live.filter fun m => ns.all (m.ns = ·) && m.expiresAt.all (env.sqliteNow < ·)).mergeSort Db.listBefore,
      List.mergeSort_perm _ _, ?_⟩
    rw [← hfilter]
    exact (Except.ok.inj h).symm
  | postgres pg =>
    have hfilter : PostgresStore.listFilters P (pageFilter ns) env.postgresNow =
        fun r => ns.all (r.ns = ·) && r.expiresAt.all (env.postgresNow < ·) := by
      funext r
      simp [PostgresStore.listFilters, pageFilter]
    have hlist : PostgresStore.list P pg (pageFilter ns) env.postgresNow env.listOutage = .ok page := h
    clear h
    unfold PostgresStore.list at hlist
    cases hout : env.listOutage with
    | some text =>
      rw [hout] at hlist
      cases hlist
    | none =>
      rw [hout, hfilter] at hlist
      refine ⟨((pg.rows.filter fun r => ns.all (r.ns = ·) && r.expiresAt.all (env.postgresNow < ·)).mergeSort
        PostgresStore.listBefore).map (PostgresStore.rowToMemory P), (List.mergeSort_perm _ _).map _, ?_⟩
      rw [← List.map_take]
      exact (Except.ok.inj hlist).symm

theorem selected_sublist : (src.selected P env ns).Sublist (src.memories P) := by
  cases src with
  | sqlite db => exact List.filter_sublist
  | postgres pg => exact List.filter_sublist.map _

theorem nodup_memories : ((src.memories P).map fun m => m.id).Nodup := by
  cases src with
  | sqlite db =>
    unfold Backend.memories Db.live
    rw [List.map_map]
    exact db.memories.nodup
  | postgres pg =>
    unfold Backend.memories
    rw [List.map_map]
    exact pg.nodup

theorem compatible_memories (ha : a ∈ src.memories P) (hb : b ∈ src.memories P) : a.id = b.id ↔ a.key = b.key := by
  cases src with
  | sqlite db =>
    obtain ⟨r, hr, rfl⟩ := List.mem_map.mp ha
    obtain ⟨r', hr', rfl⟩ := List.mem_map.mp hb
    exact ⟨fun h => by rw [Indexed.eq_of_pk hr hr' h], fun h => by rw [Indexed.eq_of_uk hr hr' h]⟩
  | postgres pg =>
    obtain ⟨r, hr, rfl⟩ := List.mem_map.mp ha
    obtain ⟨r', hr', rfl⟩ := List.mem_map.mp hb
    exact ⟨fun h => by rw [Indexed.eq_of_pk hr hr' h], fun h => by rw [Indexed.eq_of_uk hr hr' h]⟩

/-- What one `list` of the source gives: selected memories, each once. -/
structure Pages (P : Postgres) (env : Surroundings) (src : Backend) (ns : Option String) (page : List Memory) : Prop where
  selected : ∀ m ∈ page, m ∈ src.selected P env ns
  nodup : (page.map fun m => m.id).Nodup
  length : page.length = min src.pageLimit (src.selected P env ns).length
  all : (src.selected P env ns).length ≤ src.pageLimit → ∀ m ∈ src.selected P env ns, m ∈ page

theorem pages_of_list (h : src.list P env (pageFilter ns) = .ok page) : Pages P env src ns page := by
  obtain ⟨sorted, hperm, rfl⟩ := list_eq_ok h
  refine ⟨fun m hm => hperm.subset (List.mem_of_mem_take hm), ?_, ?_, fun hlen m hm => ?_⟩
  · have hnodup : (sorted.map fun m => m.id).Nodup :=
      (hperm.map _).nodup_iff.mpr (nodup_memories.sublist (selected_sublist.map _))
    exact hnodup.sublist ((List.take_sublist _ _).map _)
  · rw [List.length_take, hperm.length_eq]
  · rw [List.take_of_length_le (hperm.length_eq ▸ hlen)]
    exact hperm.symm.subset hm

theorem Pages.mem_memories (h : Pages P env src ns page) (ha : a ∈ page) : a ∈ src.memories P :=
  selected_sublist.subset (h.selected a ha)

theorem Pages.length_le (h : Pages P env src ns page) (hall : ∀ m ∈ src.selected P env ns, m ∈ page) :
    (src.selected P env ns).length ≤ src.pageLimit := by
  have hnodup : (src.selected P env ns).Nodup :=
    List.Nodup.of_map _ (nodup_memories.sublist (selected_sublist.map _))
  have hle := (hnodup.subperm hall).length_le
  rw [h.length] at hle
  exact hle.trans (min_le_left _ _)

end Source

/-! ## The loop -/

section Copy

variable {P env} {src dst : Backend} {ns : Option String} {page : List Memory}

def put (P : Postgres) (env : Surroundings) (dst : Backend) (mem : Memory) : Backend :=
  settled dst ((dst.store P env mem).map Prod.fst)

theorem store_isPostgres {mem : Memory} {res : Backend × String} (h : dst.store P env mem = .ok res) :
    res.1.isPostgres = dst.isPostgres := by
  cases dst with
  | sqlite db =>
    have hmap : (SqliteStore.store db mem).map (fun res => (Backend.sqlite res.1, res.2)) = .ok res := h
    cases hstore : SqliteStore.store db mem with
    | error e =>
      rw [hstore] at hmap
      cases hmap
    | ok stored =>
      rw [hstore] at hmap
      cases hmap
      rfl
  | postgres pg =>
    have hmap : (PostgresStore.store P pg mem (env.storeOutage mem)).map (fun res => (Backend.postgres res.1, res.2)) =
      .ok res := h
    cases hstore : PostgresStore.store P pg mem (env.storeOutage mem) with
    | error e =>
      rw [hstore] at hmap
      cases hmap
    | ok stored =>
      rw [hstore] at hmap
      cases hmap
      rfl

/-- A store of the same adapter takes the memory. -/
def Accepted (P : Postgres) (env : Surroundings) (postgres : Bool) (mem : Memory) : Prop :=
  ∃ (s : Backend) (res : Backend × String), s.isPostgres = postgres ∧ s.store P env mem = .ok res

/-- The loop writes each memory of the page, and no error means that each write went through. -/
theorem copy_eq (seen : List String) (report : MigrationReport) (dst : Backend)
    (hnodup : (page.map fun m => m.id).Nodup) (hseen : ∀ m ∈ page, m.id ∉ seen) :
    (page.foldl (copyOne P env false) (seen, report, dst)).2.2 = page.foldl (put P env) dst ∧
      ((page.foldl (copyOne P env false) (seen, report, dst)).2.1.errors = [] →
        report.errors = [] ∧ ∀ m ∈ page, Accepted P env dst.isPostgres m) := by
  induction page generalizing seen report dst with
  | nil => exact ⟨rfl, fun h => ⟨h, fun m hm => by cases hm⟩⟩
  | cons mem page ih =>
    rw [List.map_cons, List.nodup_cons] at hnodup
    have hnew : mem.id ∉ seen := hseen mem List.mem_cons_self
    have hrest : ∀ m ∈ page, m.id ∉ mem.id :: seen := by
      intro m hm hid
      rcases List.mem_cons.mp hid with hid | hid
      · exact hnodup.1 (hid ▸ List.mem_map_of_mem hm)
      · exact hseen m (List.mem_cons_of_mem _ hm) hid
    rw [List.foldl_cons, List.foldl_cons]
    cases hstore : dst.store P env mem with
    | ok res =>
      have hstep : copyOne P env false (seen, report, dst) mem =
          (mem.id :: seen, { report with
            memoriesRead := report.memoriesRead + 1
            memoriesWritten := report.memoriesWritten + 1 }, res.1) := by
        simp [copyOne, hnew, hstore]
      have hput : put P env dst mem = res.1 := by
        unfold put
        rw [hstore]
        rfl
      rw [hstep, hput]
      obtain ⟨hbackend, herrors⟩ := ih (mem.id :: seen) _ res.1 hnodup.2 hrest
      refine ⟨hbackend, fun h => ?_⟩
      obtain ⟨hreport, hpage⟩ := herrors h
      rw [store_isPostgres hstore] at hpage
      exact ⟨hreport, List.forall_mem_cons.mpr ⟨⟨dst, res, rfl, hstore⟩, hpage⟩⟩
    | error e =>
      have hput : put P env dst mem = dst := by
        unfold put
        rw [hstore]
        rfl
      obtain ⟨errors, hstep⟩ : ∃ error, copyOne P env false (seen, report, dst) mem =
          (mem.id :: seen, { report with
            memoriesRead := report.memoriesRead + 1
            errors := report.errors ++ [error] }, dst) := by
        simp [copyOne, hnew, hstore]
      rw [hstep, hput]
      obtain ⟨hbackend, herrors⟩ := ih (mem.id :: seen) _ dst hnodup.2 hrest
      refine ⟨hbackend, fun h => ?_⟩
      exact absurd (herrors h).1 (by simp)

theorem migrate_eq (dst : Backend) (batchSize : ℕ) (hlist : src.list P env (pageFilter ns) = .ok page)
    (hmax : page.length < maxRows) :
    (migrate P env src dst batchSize ns false).2 = page.foldl (put P env) dst ∧
      ((migrate P env src dst batchSize ns false).1.errors = [] → ∀ m ∈ page, Accepted P env dst.isPostgres m) := by
  unfold migrate
  simp only [hlist, if_neg (not_le.mpr hmax)]
  obtain ⟨hbackend, herrors⟩ := copy_eq [] { dryRun := false, batches := 1 } dst (pages_of_list hlist).nodup
    (fun _ _ => List.not_mem_nil)
  exact ⟨hbackend, fun h => (herrors h).2⟩

theorem migrate_cases (P : Postgres) (env : Surroundings) (src dst : Backend) (batchSize : ℕ) (ns : Option String) :
    ((migrate P env src dst batchSize ns false).2 = dst ∧ (migrate P env src dst batchSize ns false).1.errors ≠ []) ∨
    ∃ page, src.list P env (pageFilter ns) = .ok page ∧ page.length < maxRows := by
  cases hlist : src.list P env (pageFilter ns) with
  | error e =>
    unfold migrate
    simp only [hlist]
    exact Or.inl ⟨trivial, List.cons_ne_nil _ _⟩
  | ok page =>
    by_cases hmax : maxRows ≤ page.length
    · unfold migrate
      simp only [hlist, if_pos hmax]
      exact Or.inl ⟨trivial, List.cons_ne_nil _ _⟩
    · exact Or.inr ⟨page, rfl, not_le.mp hmax⟩

end Copy

end Migrate

end AiMemory
