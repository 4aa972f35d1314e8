import AiMemory.Cli.Preview
import AiMemory.Lib.Upserts
import AiMemory.Store.Migrate

/-!
# What a migration leaves

A write of either adapter, seen through `Columns`, is an upsert by id as long as no row has only the id or only the title
and namespace of the memory. The rows of a destination that starts empty all come from one source, where both are unique,
so this is never left.
-/

namespace AiMemory

open Relational PostgresStore

namespace Migrate

variable {P : Postgres} {env : Surroundings} {c : Chrono} {src dst : Backend} {mem m : Memory}

/-! ## Upserts on columns -/

def mergedSqlite (c : Chrono) (mem : Memory) (stored : Columns) : Columns :=
  { stored with
    content := mem.content
    tags := mem.tags
    priority := max stored.priority mem.priority
    confidence := max stored.confidence mem.confidence
    source := mem.source
    tier := mergeTier stored.tier mem.tier
    expiresAt :=
      if mem.tier = .long ∨ stored.tier = .long then none else (expiryOf c mem.expiresAt).or stored.expiresAt
    metadata := keepAgentId stored.metadata mem.metadata }

/-- The conflict rules of Postgres. If they fail on the metadata, nothing is written. -/
def mergedPostgres (excluded : PgRow) (stored : Columns) : Columns :=
  match mergeMetadata stored.metadata excluded.metadata with
  | .ok metadata =>
    { stored with
      content := excluded.content
      tier := if tierRank stored.tier ≤ tierRank excluded.tier then excluded.tier else stored.tier
      tags := tagsOf excluded.tags
      priority := excluded.priority
      confidence := excluded.confidence
      metadata := metadata }
  | .error _ => stored

def bound (P : Postgres) (env : Surroundings) (mem : Memory) : Option PgRow :=
  match excludedRow P mem, env.storeOutage mem with
  | .ok excluded, none => some excluded
  | _, _ => none

/-- The row of the id of `mem` after a write, given the row before. -/
def after (P : Postgres) (env : Surroundings) (postgres : Bool) (mem : Memory) (stored : Option Columns) :
    Option Columns :=
  match postgres with
  | true => (bound P env mem).elim stored fun row => some (stored.elim (Columns.ofRow row) (mergedPostgres row))
  | false => some (stored.elim (Columns.ofMemory P.toChrono mem) (mergedSqlite P.toChrono mem))

theorem ofMemory_upsertRow (r : MemoryRow) : Columns.ofMemory c (upsertRow r mem).toMemory =
    mergedSqlite c mem (Columns.ofMemory c r.toMemory) := by
  have hexpiry : expiryOf c (mergeExpiresAt r mem) =
      if mem.tier = .long ∨ r.tier = .long then none else (expiryOf c mem.expiresAt).or (expiryOf c r.expiresAt) := by
    unfold mergeExpiresAt
    split_ifs
    · rfl
    · unfold expiryOf
      cases mem.expiresAt <;> rfl
  unfold Columns.ofMemory mergedSqlite
  simp only [upsertRow, hexpiry]

def conflicted (excluded stored : PgRow) : PgRow :=
  match mergeMetadata stored.metadata excluded.metadata with
  | .ok metadata => conflictRow excluded metadata stored
  | .error _ => stored

theorem ofRow_conflicted (excluded stored : PgRow) :
    Columns.ofRow (conflicted excluded stored) = mergedPostgres excluded (Columns.ofRow stored) := by
  unfold conflicted mergedPostgres Columns.ofRow
  cases mergeMetadata stored.metadata excluded.metadata <;> rfl

/-! ## One write -/

/-- There is a row with this id, title and namespace. -/
def Backend.Holds : Backend → String → String × String → Prop
  | .sqlite db, id, key => ∃ r ∈ db.memories, r.id = id ∧ r.key = key
  | .postgres pg, id, key => ∃ r ∈ pg, r.id = id ∧ r.key = key

/-- No row has only the id of the memory, or only its title and namespace. -/
def Aligned (postgres : Bool) (s : Backend) (mem : Memory) : Prop :=
  s.isPostgres = postgres ∧ ∀ id key, s.Holds id key → (id = mem.id ↔ key = mem.key)

section Sqlite

variable {db : Db}

theorem put_sqlite : put P env (.sqlite db) mem = .sqlite (settled db ((SqliteStore.store db mem).map Prod.fst)) := by
  show settled (Backend.sqlite db)
    (((SqliteStore.store db mem).map fun res => (Backend.sqlite res.1, res.2)).map Prod.fst) = _
  cases SqliteStore.store db mem <;> rfl

theorem getKey_eq_get (h : Aligned false (.sqlite db) mem) : db.getKey mem.key = db.get mem.id :=
  Indexed.findBy_eq_find fun r hr => h.2 r.id r.key ⟨r, hr, rfl, rfl⟩

theorem get_store (h : Aligned false (.sqlite db) mem) (id : String) :
    (settled db ((SqliteStore.store db mem).map Prod.fst)).get id =
      if id = mem.id then some ((db.get id).elim mem.toRow (upsertRow · mem)) else db.get id := by
  have hkey := getKey_eq_get h
  cases hs : db.getKey mem.key with
  | some stored =>
    have hget : db.get mem.id = some stored := hkey.symm.trans hs
    rw [SqliteStore.store_of_stored hs, (Db.get_eq_some.mp hget).2]
    show (db.updateRow mem.id (upsertRow · mem) (fun _ => rfl) (fun _ => rfl)).get id = _
    refine (Db.get_updateRow id).trans ?_
    split_ifs with hi
    · rw [hi, hget]
      rfl
    · rw [Option.map_id']
  | none =>
    have hfree : db.get mem.id = none := hkey.symm.trans hs
    obtain ⟨t, ht, hstore⟩ := SqliteStore.store_of_free hs hfree
    rw [hstore]
    refine (Indexed.find_insertNew? ht id).trans ?_
    show (db.get id).or (if mem.id = id then some mem.toRow else none) = _
    by_cases hi : id = mem.id
    · rw [if_pos hi.symm, if_pos hi, hi, hfree]
      rfl
    · rw [if_neg fun e => hi e.symm, if_neg hi, Option.or_none]

theorem columns_put_sqlite (h : Aligned false (.sqlite db) mem) (id : String) :
    (put P env (.sqlite db) mem).columns P id =
      if id = mem.id then after P env false mem ((Backend.sqlite db).columns P id)
      else (Backend.sqlite db).columns P id := by
  rw [put_sqlite]
  show ((settled db ((SqliteStore.store db mem).map Prod.fst)).get id).map _ =
    if id = mem.id then after P env false mem ((db.get id).map _) else (db.get id).map _
  rw [get_store h]
  split_ifs
  · cases db.get id with
    | none => rfl
    | some r => exact congrArg some (ofMemory_upsertRow r)
  · rfl

theorem holds_put_sqlite {id : String} {key : String × String} (h : (put P env (.sqlite db) mem).Holds id key) :
    (Backend.sqlite db).Holds id key ∨ id = mem.id ∧ key = mem.key := by
  rw [put_sqlite] at h
  cases hins : db.insert mem with
  | error e =>
    unfold SqliteStore.store at h
    rw [hins] at h
    exact Or.inl h
  | ok res =>
    unfold SqliteStore.store at h
    rw [hins] at h
    obtain ⟨r, hr, rfl, rfl⟩ := h
    rcases Db.mem_insertOnConflict hins hr with hold | ⟨r', hr', -, rfl⟩ | rfl
    · exact Or.inl ⟨r, hold, rfl, rfl⟩
    · exact Or.inl ⟨r', hr', rfl, rfl⟩
    · exact Or.inr ⟨rfl, rfl⟩

end Sqlite

section Pg

variable {pg : PgDb} {row : PgRow}

theorem bound_eq_some : bound P env mem = some row ↔
    excludedRow P mem = .ok row ∧ env.storeOutage mem = none := by
  unfold bound
  cases excludedRow P mem <;> cases env.storeOutage mem <;> simp

theorem bound_id (h : bound P env mem = some row) : row.id = mem.id ∧ row.key = mem.key := by
  obtain ⟨_, _, _, _, -, -, -, -, rfl⟩ := excludedRow_eq_ok.mp (bound_eq_some.mp h).1
  exact ⟨rfl, rfl⟩

theorem settled_store : settled pg ((store P pg mem (env.storeOutage mem)).map Prod.fst) =
    (bound P env mem).elim pg fun row => settled pg ((upsert pg row).map Prod.fst) := by
  unfold store bound
  cases excludedRow P mem with
  | error e => rfl
  | ok row =>
    cases env.storeOutage mem with
    | some text => rfl
    | none =>
      show settled pg (((upsert pg row).mapError _).map Prod.fst) =
        settled pg ((upsert pg row).map Prod.fst)
      cases upsert pg row <;> rfl

theorem put_postgres : put P env (.postgres pg) mem =
    .postgres ((bound P env mem).elim pg fun row => settled pg ((upsert pg row).map Prod.fst)) := by
  rw [← settled_store]
  show settled (Backend.postgres pg)
    (((store P pg mem (env.storeOutage mem)).map fun res => (Backend.postgres res.1, res.2)).map
      Prod.fst) = _
  cases store P pg mem (env.storeOutage mem) <;> rfl

/-- The row of the memory is the merged one, or the new one. -/
theorem find_upsert (hkey : pg.findBy row.key = pg.find row.id) (id : String) :
    (settled pg ((upsert pg row).map Prod.fst)).find id =
      if id = row.id then some ((pg.find id).elim row (conflicted row)) else pg.find id := by
  cases hs : pg.findBy row.key with
  | some stored =>
    have hget : pg.find row.id = some stored := hkey.symm.trans hs
    have hid : stored.id = row.id := (Indexed.find_eq_some.mp hget).2
    cases hm : mergeMetadata stored.metadata row.metadata with
    | ok metadata =>
      obtain ⟨pg', hupsert, hrows⟩ := upsert_of_stored hs hm
      have hmap : pg'.find id = (pg.find id).map fun r =>
          if r.id = stored.id then conflictRow row metadata r else r := by
        unfold Indexed.find
        rw [hrows]
        exact lookup_map fun r => by split_ifs <;> rfl
      rw [hupsert]
      show pg'.find id = _
      rw [hmap, hid]
      split_ifs with hi
      · rw [hi, hget]
        simp [conflicted, hm, hid]
      · cases hr : pg.find id with
        | none => rfl
        | some r =>
          have hne : r.id ≠ row.id := (Indexed.find_eq_some.mp hr).2 ▸ hi
          rw [Option.map_some, if_neg hne]
    | error e =>
      have hupsert : upsert pg row = .error e := by
        unfold upsert
        simp only [hs, hm]
        rfl
      rw [hupsert]
      show pg.find id = _
      split_ifs with hi
      · rw [hi, hget]
        simp [conflicted, hm]
      · rfl
  | none =>
    have hfree : pg.find row.id = none := hkey.symm.trans hs
    obtain ⟨t, ht⟩ := Option.isSome_iff_exists.mp (Indexed.insertNew?_isSome.mpr ⟨hfree, hs⟩)
    rw [upsert_of_new hs ht]
    show t.find id = _
    rw [Indexed.find_insertNew? ht]
    by_cases hi : id = row.id
    · rw [if_pos hi.symm, if_pos hi, hi, hfree]
      rfl
    · rw [if_neg fun e => hi e.symm, if_neg hi, Option.or_none]

theorem columns_put_postgres (h : Aligned true (.postgres pg) mem) (id : String) :
    (put P env (.postgres pg) mem).columns P id =
      if id = mem.id then after P env true mem ((Backend.postgres pg).columns P id)
      else (Backend.postgres pg).columns P id := by
  rw [put_postgres]
  cases hrow : bound P env mem with
  | none =>
    unfold after
    rw [hrow]
    exact (ite_self (c := id = mem.id) _).symm
  | some row =>
    obtain ⟨hid, hkey⟩ := bound_id hrow
    have hfind : pg.findBy row.key = pg.find row.id := by
      rw [hid, hkey]
      exact Indexed.findBy_eq_find fun r hr => h.2 r.id r.key ⟨r, hr, rfl, rfl⟩
    show ((settled pg ((upsert pg row).map Prod.fst)).find id).map Columns.ofRow =
      if id = mem.id then after P env true mem ((pg.find id).map Columns.ofRow) else (pg.find id).map Columns.ofRow
    rw [find_upsert hfind, hid]
    split_ifs
    · unfold after
      rw [hrow]
      cases pg.find id with
      | none => rfl
      | some r => exact congrArg some (ofRow_conflicted row r)
    · rfl

theorem holds_put_postgres {id : String} {key : String × String}
    (h : (put P env (.postgres pg) mem).Holds id key) :
    (Backend.postgres pg).Holds id key ∨ id = mem.id ∧ key = mem.key := by
  rw [put_postgres] at h
  cases hrow : bound P env mem with
  | none =>
    rw [hrow] at h
    exact Or.inl h
  | some row =>
    rw [hrow] at h
    obtain ⟨r, hr, rfl, rfl⟩ := h
    cases hupsert : upsert pg row with
    | error e =>
      rw [Option.elim_some, hupsert] at hr
      exact Or.inl ⟨r, hr, rfl, rfl⟩
    | ok res =>
      have hres : r ∈ res.1.rows := by
        rw [Option.elim_some, hupsert] at hr
        exact hr
      rcases upsert_eq_ok hupsert with ⟨stored, metadata, -, -, -, hrows⟩ | ⟨-, -, ht⟩
      · rw [hrows] at hres
        obtain ⟨r', hr', rfl⟩ := List.mem_map.mp hres
        refine Or.inl ⟨r', hr', ?_, ?_⟩
        · split_ifs <;> rfl
        · split_ifs <;> rfl
      · rcases (Indexed.mem_insertNew? ht).mp hres with hold | rfl
        · exact Or.inl ⟨r, hold, rfl, rfl⟩
        · exact Or.inr (bound_id hrow)

end Pg

theorem put_isPostgres (s : Backend) : (put P env s mem).isPostgres = s.isPostgres := by
  cases s with
  | sqlite db => rw [put_sqlite]; rfl
  | postgres pg => rw [put_postgres]; rfl

theorem columns_put {postgres : Bool} {s : Backend} (h : Aligned postgres s mem) (id : String) :
    (put P env s mem).columns P id =
      if id = mem.id then after P env postgres mem (s.columns P id) else s.columns P id := by
  obtain rfl := h.1
  cases s with
  | sqlite db => exact columns_put_sqlite h id
  | postgres pg => exact columns_put_postgres h id

theorem holds_put {s : Backend} {id : String} {key : String × String} (h : (put P env s mem).Holds id key) :
    s.Holds id key ∨ id = mem.id ∧ key = mem.key := by
  cases s with
  | sqlite db => exact holds_put_sqlite h
  | postgres pg => exact holds_put_postgres h

theorem aligned_put {postgres : Bool} {s : Backend} (h : Aligned postgres s m)
    (hcompat : m.id = mem.id ↔ m.key = mem.key) : Aligned postgres (put P env s mem) m := by
  refine ⟨(put_isPostgres s).trans h.1, fun id key hholds => ?_⟩
  rcases holds_put hholds with hold | ⟨rfl, rfl⟩
  · exact h.2 id key hold
  · exact ⟨fun e => (hcompat.mp e.symm).symm, fun e => (hcompat.mpr e.symm).symm⟩

def upserts (P : Postgres) (env : Surroundings) (postgres : Bool) :
    Upserts Memory String (String × String) Backend Columns where
  id m := m.id
  key m := m.key
  find := Backend.columns P
  put := put P env
  after := after P env postgres
  Aligned := Aligned postgres
  find_put h id := columns_put h id
  aligned_put h hcompat := aligned_put h hcompat

end Migrate

end AiMemory
