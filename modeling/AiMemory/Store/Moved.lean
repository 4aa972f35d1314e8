import AiMemory.Store.Migrated
import AiMemory.Store.Parity

/-!
# What a migration moves

A migration without errors has written every memory of the one page. `moved_iff` says when that is every live memory, each
with all its columns, and when the second run leaves them alone.

1. Source and destination hold a memory as they read it. `columns_source` and `after_none` compare both with the memory
   itself; an expiry that is no timestamp is the one thing they may both get wrong, and they do so in different ways.
2. A second write finds its own row. `after_self` says when it leaves it.
-/

namespace AiMemory

open Relational PostgresStore Parity

namespace Migrate

variable {P : Postgres} {env env' : Surroundings} {src dst : Backend} {ns : Option String} {page : List Memory}
  {batchSize : ℕ} {postgres : Bool} {m : Memory}

/-! ## One memory -/

/-- The expiry, if there is one, reads as a time. -/
def Legible (c : Chrono) (m : Memory) : Prop := ∀ s, m.expiresAt = some s → (c.parseFromRfc3339 s).isSome

/-- The adapter holds the memory as it is: Postgres keeps whole microseconds, and such metadata as the server takes. -/
def Kept (P : Postgres) (postgres : Bool) (m : Memory) : Prop :=
  postgres → (∀ s, m.expiresAt = some s → ∃ t, P.parseFromRfc3339 s = some t ∧ 1000 ∣ t) ∧
    P.jsonb m.metadata = some m.metadata

/-- A second write leaves the row: SQLite clears the expiry of the tier `long`, and writes an `agent_id` as SQL hands
it back. -/
def Rewritable (postgres : Bool) (m : Memory) : Prop :=
  ¬postgres → (m.tier = .long → m.expiresAt = none) ∧ m.metadata.StableAt "agent_id"

theorem not_legible_iff {c : Chrono} :
    ¬Legible c m ↔ ∃ s, m.expiresAt = some s ∧ c.parseFromRfc3339 s = none := by
  unfold Legible
  simp [Option.isSome_iff_ne_none]

theorem dvd_of_micros {t : ℤ} (h : 1000 * P.micros t = t) : 1000 ∣ t := ⟨P.micros t, h.symm⟩

theorem micros_of_dvd {t : ℤ} (h : 1000 ∣ t) : 1000 * P.micros t = t := by
  obtain ⟨n, rfl⟩ := h
  rw [P.micros_whole]

theorem ofMemory_rowToMemory (r : PgRow) :
    Columns.ofMemory P.toChrono (rowToMemory P r) = Columns.ofRow r ↔
      Legible P.toChrono (rowToMemory P r) := by
  unfold Columns.ofMemory Columns.ofRow Legible rowToMemory expiryOf
  cases r.expiresAt with
  | none => simp
  | some t =>
    cases hparse : P.parseFromRfc3339 (P.toRfc3339 (1000 * t)) with
    | none => simp [hparse]
    | some t' => simp [hparse, P.reads_back _ _ hparse]

/-- The source holds a memory as it is, unless it is Postgres and its expiry does not read. -/
theorem columns_source (hm : m ∈ src.memories P) : ∃ c, src.columns P m.id = some c ∧
    (c = Columns.ofMemory P.toChrono m ↔ (src.isPostgres → Legible P.toChrono m)) ∧
      (src.isPostgres → ¬Legible P.toChrono m → ∃ t, c.expiresAt = some (.inr t)) := by
  cases src with
  | sqlite db =>
    obtain ⟨r, hr, rfl⟩ := List.mem_map.mp hm
    refine ⟨Columns.ofMemory P.toChrono r.toMemory, ?_, iff_of_true rfl nofun, nofun⟩
    show (db.get r.id).map _ = _
    rw [Db.get_of_mem hr]
    rfl
  | postgres pg =>
    obtain ⟨r, hr, rfl⟩ := List.mem_map.mp hm
    refine ⟨Columns.ofRow r, ?_, ?_, fun _ hl => ?_⟩
    · show (pg.find r.id).map _ = _
      rw [Indexed.find_of_mem hr]
      rfl
    · rw [eq_comm, ofMemory_rowToMemory]
      exact ⟨fun h _ => h, fun h => h rfl⟩
    · obtain ⟨s, hs, -⟩ := not_legible_iff.mp hl
      obtain ⟨t, ht, -⟩ := Option.map_eq_some_iff.mp hs
      exact ⟨1000 * t, by simp [Columns.ofRow, ht]⟩

theorem ofRow_excludedRow {row : PgRow} (h : excludedRow P m = .ok row) :
    Columns.ofRow row = Columns.ofMemory P.toChrono m ↔ Kept P true m := by
  obtain ⟨createdAt, updatedAt, tags, metadata, -, -, htags, hmetadata, rfl⟩ := excludedRow_eq_ok.mp h
  have hkept : tags = tagsJson m.tags := by
    have hlaw := P.jsonb_strings m.tags
    rw [show P.jsonb (.arr (m.tags.map Json.str)) = some tags from htags] at hlaw
    split_ifs at hlaw
    exact Option.some.inj hlaw
  have hexpiry : (parseRfc3339Opt P m.expiresAt).map (fun t => (Sum.inr (1000 * t) : String ⊕ ℤ)) =
      expiryOf P.toChrono m.expiresAt ↔
        ∀ s, m.expiresAt = some s → ∃ t, P.parseFromRfc3339 s = some t ∧ 1000 ∣ t := by
    unfold parseRfc3339Opt expiryOf
    cases m.expiresAt with
    | none => simp
    | some s =>
      cases hparse : P.parseFromRfc3339 s with
      | none => simp [hparse]
      | some t =>
        simp only [Option.bind_some, Option.map_some, hparse, Option.getD_some, Option.some.injEq, Sum.inr.injEq,
          forall_eq', exists_eq_left']
        exact ⟨dvd_of_micros, micros_of_dvd⟩
  subst hkept
  unfold Columns.ofRow Columns.ofMemory valuesRow Kept
  simp only [tagsOf_tagsJson, Columns.mk.injEq, hexpiry, hmetadata, Option.some.injEq, true_and, forall_const]

theorem bound_of_accepted (h : Accepted P env true m) : ∃ row, bound P env m = some row := by
  obtain ⟨s, res, hs, hstore⟩ := h
  cases s with
  | sqlite db => cases hs
  | postgres pg =>
    have hmap : (store P pg m (env.storeOutage m)).map (fun res => (Backend.postgres res.1, res.2)) =
      .ok res := hstore
    cases hpg : store P pg m (env.storeOutage m) with
    | error e =>
      rw [hpg] at hmap
      cases hmap
    | ok stored =>
      obtain ⟨houtage, row, hrow, -⟩ := store_eq_ok.mp hpg
      exact ⟨row, bound_eq_some.mpr ⟨hrow, houtage⟩⟩

/-- An accepted memory is in the destination as it is, unless that is Postgres and does not keep it. -/
theorem after_none (h : Accepted P env postgres m) : ∃ c, after P env postgres m none = some c ∧
    (c = Columns.ofMemory P.toChrono m ↔ Kept P postgres m) ∧
      (¬Legible P.toChrono m → ∀ t, c.expiresAt ≠ some (.inr t)) := by
  cases postgres with
  | false =>
    refine ⟨Columns.ofMemory P.toChrono m, rfl, iff_of_true rfl nofun, fun hl t ht => ?_⟩
    obtain ⟨s, hs, hparse⟩ := not_legible_iff.mp hl
    simp [Columns.ofMemory, expiryOf, hs, hparse] at ht
  | true =>
    obtain ⟨row, hrow⟩ := bound_of_accepted h
    have hexcluded := (bound_eq_some.mp hrow).1
    refine ⟨Columns.ofRow row, ?_, ofRow_excludedRow hexcluded, fun hl t ht => ?_⟩
    · unfold after
      rw [hrow]
      rfl
    · obtain ⟨s, hs, hparse⟩ := not_legible_iff.mp hl
      obtain ⟨_, _, _, _, -, -, -, -, rfl⟩ := excludedRow_eq_ok.mp hexcluded
      simp [Columns.ofRow, valuesRow, parseRfc3339Opt, hs, hparse] at ht

theorem fresh_eq_iff {c c' : Columns} (hm : m ∈ src.memories P) (h : Accepted P env postgres m)
    (hc : src.columns P m.id = some c) (hc' : after P env postgres m none = some c') :
    c' = c ↔ (src.isPostgres → Legible P.toChrono m) ∧ Kept P postgres m := by
  obtain ⟨_, hsource, hsame, hillegible⟩ := columns_source hm
  cases hc.symm.trans hsource
  obtain ⟨_, hfresh, hkept, hdiffer⟩ := after_none h
  cases hc'.symm.trans hfresh
  rw [← hsame, ← hkept]
  constructor
  · intro he
    have hlegible : src.isPostgres → Legible P.toChrono m := by
      intro hpg
      by_contra hl
      obtain ⟨t, ht⟩ := hillegible hpg hl
      exact hdiffer hl t (he ▸ ht)
    have hmem := hsame.mpr hlegible
    exact ⟨hmem, he.trans hmem⟩
  · rintro ⟨hmem, hmem'⟩
    rw [hmem, hmem']

/-! ## The second write -/

theorem mergeMetadata_self {metadata merged : Json} (h : mergeMetadata metadata metadata = .ok merged) :
    merged = metadata := by
  unfold mergeMetadata at h
  split_ifs at h with hkey
  · cases metadata with
    | obj fs =>
      obtain ⟨v, hv⟩ := Option.isSome_iff_exists.mp hkey
      have hset : (Json.obj fs).jsonbSet "agent_id" ((Json.obj fs).get "agent_id") = .ok (some (.obj fs)) := by
        show (Json.obj fs).jsonbSet "agent_id" (Json.getField "agent_id" fs) = _
        rw [hv]
        show Except.ok (some (Json.obj (Json.setField "agent_id" v fs))) = _
        rw [Json.setField_self hv]
      rw [hset] at h
      cases h
      rfl
    | _ => cases h
  · cases h
    rfl

theorem mergedPostgres_self (row : PgRow) : mergedPostgres row (Columns.ofRow row) = Columns.ofRow row := by
  unfold mergedPostgres Columns.ofRow
  cases hm : mergeMetadata row.metadata row.metadata with
  | ok metadata => simp [mergeMetadata_self hm]
  | error e => rfl

theorem mergedSqlite_self {c : Chrono} : mergedSqlite c m (Columns.ofMemory c m) = Columns.ofMemory c m ↔
    (m.tier = .long → m.expiresAt = none) ∧ m.metadata.StableAt "agent_id" := by
  unfold mergedSqlite Columns.ofMemory
  simp only [Columns.mk.injEq, max_self, mergeTier_eq_max, Convergence.keepAgentId_self_iff, true_and]
  refine and_congr ?_ Iff.rfl
  by_cases hlong : m.tier = .long
  · rw [if_pos (Or.inl hlong), eq_comm]
    exact Option.map_eq_none_iff.trans ⟨fun h _ => h, fun h => h hlong⟩
  · rw [if_neg (by tauto), Option.or_self]
    exact iff_of_true rfl fun h => absurd h hlong

theorem after_self {c : Columns} (hc : after P env postgres m none = some c) :
    after P env' postgres m (some c) = some c ↔ Rewritable postgres m := by
  cases postgres with
  | false =>
    obtain rfl : Columns.ofMemory P.toChrono m = c := Option.some.inj hc
    show some (mergedSqlite P.toChrono m _) = _ ↔ _
    rw [Option.some.injEq, mergedSqlite_self]
    exact ⟨fun h _ => h, fun h => h Bool.false_ne_true⟩
  | true =>
    refine iff_of_true ?_ fun h => absurd rfl h
    unfold after at hc ⊢
    cases hrow : bound P env m with
    | none => 
      rw [hrow] at hc
      cases hc
    | some row =>
      rw [hrow] at hc
      obtain rfl : Columns.ofRow row = c := Option.some.inj hc
      cases hrow' : bound P env' m with
      | none => rfl
      | some row' =>
        have hsame : row' = row :=
          Except.ok.inj ((bound_eq_some.mp hrow').1.symm.trans (bound_eq_some.mp hrow).1)
        rw [hsame]
        exact congrArg some (mergedPostgres_self row)

/-! ## A run -/

section Run

variable {s : Backend}

theorem aligned_empty (h : s.Empty) : Aligned s.isPostgres s m := by
  refine ⟨rfl, fun id key hholds => ?_⟩
  cases s with
  | sqlite db =>
    obtain ⟨r, hr, -⟩ := hholds
    have hr' : r ∈ db.memories.rows := hr
    rw [show db.memories.rows = [] from h] at hr'
    cases hr'
  | postgres pg =>
    obtain ⟨r, hr, -⟩ := hholds
    have hr' : r ∈ pg.rows := hr
    rw [show pg.rows = [] from h] at hr'
    cases hr'

theorem columns_empty (h : s.Empty) (id : String) : s.columns P id = none := by
  cases s with
  | sqlite db =>
    have hnone : db.get id = none := Indexed.find_eq_none.mpr fun r hr => by
      rw [Indexed.mem_def, show db.memories.rows = [] from h] at hr
      cases hr
    exact Option.map_eq_none_iff.mpr hnone
  | postgres pg =>
    have hnone : pg.find id = none := Indexed.find_eq_none.mpr fun r hr => by
      rw [Indexed.mem_def, show pg.rows = [] from h] at hr
      cases hr
    exact Option.map_eq_none_iff.mpr hnone

variable (hpage : Pages P env src ns page) (hs : ∀ m ∈ src.memories P, Aligned postgres s m)

include hpage hs

theorem aligned_run (hm : m ∈ src.memories P) : Aligned postgres (page.foldl (put P env) s) m :=
  (upserts P env postgres).aligned_foldl (hs m hm) fun _ ha => compatible_memories hm (hpage.mem_memories ha)

theorem columns_run_of_mem (hm : m ∈ page) : (page.foldl (put P env) s).columns P m.id =
    after P env postgres m (s.columns P m.id) :=
  (upserts P env postgres).find_foldl_of_mem hpage.nodup (fun a ha => hs a (hpage.mem_memories ha))
    (fun _ ha _ hb => compatible_memories (hpage.mem_memories ha) (hpage.mem_memories hb)) hm

theorem columns_run_of_notMem (hm : m ∈ src.memories P) (hnot : m ∉ page) :
    (page.foldl (put P env) s).columns P m.id = s.columns P m.id := by
  refine (upserts P env postgres).find_foldl_of_notMem hpage.nodup (fun a ha => hs a (hpage.mem_memories ha))
    (fun _ ha _ hb => compatible_memories (hpage.mem_memories ha) (hpage.mem_memories hb)) fun a ha hid => hnot ?_
  rw [List.inj_on_of_nodup_map nodup_memories hm (hpage.mem_memories ha) hid.symm]
  exact ha

omit hpage in
theorem columns_migrate (hm : m ∈ src.memories P) :
    (migrate P env src s batchSize ns false).2.columns P m.id = s.columns P m.id ∨
      (migrate P env src s batchSize ns false).2.columns P m.id = after P env postgres m (s.columns P m.id) := by
  rcases migrate_cases P env src s batchSize ns with ⟨hsame, -⟩ | ⟨page, hlist, hmax⟩
  · exact Or.inl (by rw [hsame])
  · rw [(migrate_eq s batchSize hlist hmax).1]
    by_cases hmem : m ∈ page
    · exact Or.inr (columns_run_of_mem (pages_of_list hlist) hs hmem)
    · exact Or.inl (columns_run_of_notMem (pages_of_list hlist) hs hm hmem)

end Run

/-- The page has all selected memories, unless Postgres cuts it off. -/
theorem Pages.all_iff (h : Pages P env src ns page) (hmax : page.length < maxRows) :
    (∀ m ∈ src.selected P env ns, m ∈ page) ↔ (src.isPostgres → (src.selected P env ns).length ≤ 1000) := by
  constructor
  · intro hall hpg
    have hle := h.length_le hall
    cases src with
    | sqlite db => cases hpg
    | postgres pg => exact hle
  · intro hlen
    refine h.all ?_
    cases src with
    | sqlite db =>
      have hmin := h.length
      rw [show (Backend.sqlite db).pageLimit = maxRows from rfl] at hmin ⊢
      omega
    | postgres pg => exact hlen rfl

/-- The destination holds the memory, with the columns of the source. -/
def Moved (P : Postgres) (src dst : Backend) (m : Memory) : Prop :=
  ∃ c, src.columns P m.id = some c ∧ dst.columns P m.id = some c

section Page

variable (hpage : Pages P env src ns page) (hempty : dst.Empty) (hm : m ∈ page)
  (haccepted : Accepted P env dst.isPostgres m)

include hpage hempty hm

theorem columns_first : (page.foldl (put P env) dst).columns P m.id = after P env dst.isPostgres m none := by
  rw [columns_run_of_mem hpage (fun m _ => aligned_empty hempty) hm, columns_empty hempty]

include haccepted

theorem moved_iff_of_mem : Moved P src (page.foldl (put P env) dst) m ↔
    (src.isPostgres → Legible P.toChrono m) ∧ Kept P dst.isPostgres m := by
  obtain ⟨c, hsource, -⟩ := columns_source (hpage.mem_memories hm)
  obtain ⟨c', hfresh, -⟩ := after_none haccepted
  rw [← fresh_eq_iff (hpage.mem_memories hm) haccepted hsource hfresh]
  unfold Moved
  rw [columns_first hpage hempty hm, hsource, hfresh]
  simp

theorem again_iff_of_mem (hlist : src.list P env (pageFilter ns) = .ok page) (hmax : page.length < maxRows) :
    (∀ env' : Surroundings, (migrate P env' src (page.foldl (put P env) dst) batchSize ns false).2.columns P m.id =
      (page.foldl (put P env) dst).columns P m.id) ↔ Rewritable dst.isPostgres m := by
  have haligned : ∀ m ∈ src.memories P, Aligned dst.isPostgres (page.foldl (put P env) dst) m := fun _ hm =>
    aligned_run hpage (fun _ _ => aligned_empty hempty) hm
  obtain ⟨c, hfresh, -⟩ := after_none haccepted
  have hc := (columns_first hpage hempty hm).trans hfresh
  constructor
  · intro hagain
    have hsecond := hagain env
    rw [(migrate_eq _ batchSize hlist hmax).1, columns_run_of_mem hpage haligned hm, hc] at hsecond
    exact (after_self hfresh).mp hsecond
  · intro hrewritable env'
    rcases columns_migrate haligned (hpage.mem_memories hm) with hsame | hwritten
    · exact hsame
    · rw [hwritten, hc]
      exact (after_self hfresh).mpr hrewritable

end Page

section Lost

variable {s : Backend}

theorem store_sqlite_isOk (h : Aligned false s m) : ∃ res, s.store P env m = .ok res := by
  cases s with
  | postgres pg => cases h.1
  | sqlite db =>
    obtain ⟨res, hres⟩ : ∃ res, SqliteStore.store db m = .ok res := by
      cases hs : db.getKey m.key with
      | some stored => exact ⟨_, SqliteStore.store_of_stored hs⟩
      | none =>
        have hfree : db.get m.id = none := (getKey_eq_get h).symm.trans hs
        obtain ⟨t, -, hstore⟩ := SqliteStore.store_of_free hs hfree
        exact ⟨_, hstore⟩
    refine ⟨(.sqlite res.1, res.2), ?_⟩
    show (SqliteStore.store db m).map _ = _
    rw [hres]
    rfl

theorem copy_errors (seen : List String) (report : MigrationReport) (hs : ∀ m ∈ page, Aligned false s m)
    (hcompat : ∀ a ∈ page, ∀ b ∈ page, a.id = b.id ↔ a.key = b.key) :
    (page.foldl (copyOne P env false) (seen, report, s)).2.1.errors = report.errors := by
  induction page generalizing seen report s with
  | nil => rfl
  | cons mem page ih =>
    have hcompat' : ∀ a ∈ page, ∀ b ∈ page, a.id = b.id ↔ a.key = b.key := fun a ha b hb =>
      hcompat a (List.mem_cons_of_mem _ ha) b (List.mem_cons_of_mem _ hb)
    rw [List.foldl_cons]
    by_cases hseen : mem.id ∈ seen
    · rw [show copyOne P env false (seen, report, s) mem = (seen, report, s) from if_pos hseen]
      exact ih seen report (fun m hm => hs m (List.mem_cons_of_mem _ hm)) hcompat'
    · obtain ⟨res, hres⟩ : ∃ res, s.store P env mem = .ok res := store_sqlite_isOk (hs mem List.mem_cons_self)
      have hstep : copyOne P env false (seen, report, s) mem =
          (mem.id :: seen, { report with
            memoriesRead := report.memoriesRead + 1
            memoriesWritten := report.memoriesWritten + 1 }, res.1) := by
        simp [copyOne, hseen, hres]
      have hput : put P env s mem = res.1 := by
        unfold put
        rw [hres]
        rfl
      rw [hstep]
      refine ih (mem.id :: seen) _ (fun m hm => ?_) hcompat'
      rw [← hput]
      exact aligned_put (hs m (List.mem_cons_of_mem _ hm)) (hcompat m (List.mem_cons_of_mem _ hm) mem List.mem_cons_self)

/-- From a Postgres source with more than 1000 selected memories, a migration into an empty SQLite loses some and reports
no error. -/
theorem silent_loss (pg : PgDb) (db : Db) (hlist : env.listOutage = none) (hempty : (Backend.sqlite db).Empty)
    (hmany : 1000 < ((Backend.postgres pg).selected P env ns).length) :
    (migrate P env (.postgres pg) (.sqlite db) batchSize ns false).1.errors = [] ∧
      ∃ m ∈ (Backend.postgres pg).selected P env ns,
        (migrate P env (.postgres pg) (.sqlite db) batchSize ns false).2.columns P m.id = none := by
  obtain ⟨page, hpg⟩ : ∃ page, (Backend.postgres pg).list P env (pageFilter ns) = .ok page := by
    show ∃ page, list P pg (pageFilter ns) env.postgresNow env.listOutage = .ok page
    rw [hlist]
    exact ⟨_, rfl⟩
  have hpage := pages_of_list hpg
  have haligned : ∀ m ∈ (Backend.postgres pg).memories P, Aligned false (.sqlite db) m := fun m _ => aligned_empty hempty
  have hlen : page.length = 1000 := hpage.length.trans (min_eq_left hmany.le)
  have hmax : page.length < maxRows := hlen ▸ (by decide)
  constructor
  · unfold migrate
    simp only [hpg, if_neg (not_le.mpr hmax)]
    exact copy_errors [] _ (fun m hm => haligned m (hpage.mem_memories hm))
      fun a ha b hb => compatible_memories (hpage.mem_memories ha) (hpage.mem_memories hb)
  · by_contra hall
    push Not at hall
    refine absurd (hpage.length_le fun m hm => ?_) (not_le.mpr hmany)
    by_contra hnot
    refine hall m hm ?_
    rw [(migrate_eq _ batchSize hpg hmax).1, columns_run_of_notMem hpage haligned (selected_sublist.subset hm) hnot]
    exact columns_empty hempty m.id

end Lost

/-! ## Two sources -/

def calm : Surroundings := ⟨"2026-01-01T08:00:00+00:00", 1767254400000000, none, fun _ => none⟩

def onePlan : Backend := .sqlite { Db.empty with
  memories := ⟨⟨[(plan "m1" 3).toRow], List.nodup_singleton _⟩, List.nodup_singleton _⟩ }

theorem repr_injective : Function.Injective Nat.repr := by
  intro i j h
  have hdigits := congrArg (fun s : String => Nat.ofDigitChars 10 s.toList 0) h
  simpa using hdigits

def numbered (i : ℕ) : PgRow :=
  { id := i.repr, tier := .mid, ns := "work", title := i.repr, content := "ship it", tags := .arr [], priority := 5,
    confidence := 1, source := "api", accessCount := 0, createdAt := 1767254400000000, updatedAt := 1767254400000000,
    lastAccessedAt := none, expiresAt := none, metadata := .obj [] }

/-- Postgres with `n` memories. -/
def crowd (n : ℕ) : PgDb where
  rows := (List.range n).map numbered
  nodup := by
    rw [List.map_map]
    exact List.nodup_range.map repr_injective
  uniq := by
    rw [List.map_map]
    exact List.nodup_range.map fun i j h => repr_injective (congrArg Prod.fst h)

theorem length_crowd (n : ℕ) : ((Backend.postgres (crowd n)).selected newYear calm none).length = n := by
  have hall : (crowd n).rows.filter (fun r =>
      (none : Option String).all (r.ns = ·) && r.expiresAt.all (calm.postgresNow < ·)) = (crowd n).rows := by
    refine List.filter_eq_self.mpr fun r hr => ?_
    obtain ⟨i, -, rfl⟩ := List.mem_map.mp hr
    rfl
  show (((crowd n).rows.filter _).map _).length = n
  rw [hall, List.length_map]
  show ((List.range n).map numbered).length = n
  rw [List.length_map, List.length_range]

end Migrate

end AiMemory
