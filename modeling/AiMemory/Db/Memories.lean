import AiMemory.Db.Schema

/-!
# Writing memories

The statements of `db.rs` on the table `memories`: the two upserts `insert` and `insert_if_newer`,
`update`, `touch` and `delete`. A function that reads the clock takes the readings as arguments.

Both upserts are `INSERT .. ON CONFLICT(title, namespace) DO UPDATE`. SQLite resolves the conflict on
`(title, namespace)` before it looks at any other index, so an existing row of that title and
namespace absorbs the write, and a taken id makes the statement fail only when there is none
(`insertOnConflict_cases`).
-/

namespace AiMemory

open Relational

/-! ## Columns of a merged row -/

/-- The `tier` column of both upserts. -/
def mergeTier (stored excluded : Tier) : Tier :=
  if excluded = .long then .long
  else if stored = .long then .long
  else if excluded = .mid then .mid
  else stored

theorem mergeTier_eq_max (stored excluded : Tier) : mergeTier stored excluded = max stored excluded := by
  cases stored <;> cases excluded <;> decide

/-- The `expires_at` column of both upserts. -/
def mergeExpiresAt (stored : MemoryRow) (excluded : Memory) : Option String :=
  if excluded.tier = .long ∨ stored.tier = .long then none
  else excluded.expiresAt.or stored.expiresAt

/-- `metadata.agent_id` as SQL sees it. -/
def agentId (metadata : Json) : Option Json := metadata.extract "agent_id"

/-- Carries the stored `agent_id` into `metadata`. -/
def keepAgentId (stored metadata : Json) : Json :=
  match agentId stored with
  | some a => metadata.set "agent_id" a
  | none => metadata

/-- The row `insert` leaves on a conflict. -/
def upsertRow (stored : MemoryRow) (mem : Memory) : MemoryRow :=
  { stored with
    content := mem.content
    tags := mem.tags
    priority := max stored.priority mem.priority
    confidence := max stored.confidence mem.confidence
    source := mem.source
    tier := mergeTier stored.tier mem.tier
    updatedAt := mem.updatedAt
    expiresAt := mergeExpiresAt stored mem
    metadata := keepAgentId stored.metadata mem.metadata }

/-- The incoming row wins: newer, or as new with the greater id. -/
def Supersedes (stored : MemoryRow) (mem : Memory) : Prop :=
  stored.updatedAt < mem.updatedAt ∨ mem.updatedAt = stored.updatedAt ∧ stored.id < mem.id

instance (stored : MemoryRow) (mem : Memory) : Decidable (Supersedes stored mem) :=
  inferInstanceAs (Decidable (_ ∨ _))

/-- The row `insert_if_newer` leaves on a conflict. -/
def mergeNewer (stored : MemoryRow) (mem : Memory) : MemoryRow :=
  { stored with
    content := if Supersedes stored mem then mem.content else stored.content
    tags := if Supersedes stored mem then mem.tags else stored.tags
    priority := max stored.priority mem.priority
    confidence := max stored.confidence mem.confidence
    source := if Supersedes stored mem then mem.source else stored.source
    tier := mergeTier stored.tier mem.tier
    updatedAt := max stored.updatedAt mem.updatedAt
    accessCount := max stored.accessCount mem.accessCount
    expiresAt := mergeExpiresAt stored mem
    metadata := keepAgentId stored.metadata
      (if Supersedes stored mem then mem.metadata else stored.metadata) }

namespace Db

/-! ## The upserts -/

/-- `INSERT INTO memories .. ON CONFLICT(title, namespace) DO UPDATE SET .. RETURNING id`. -/
def insertOnConflict (db : Db) (mem : Memory) (merge : MemoryRow → MemoryRow)
    (hid : ∀ r, (merge r).id = r.id) (hkey : ∀ r, (merge r).key = r.key) : Except String (Db × String) :=
  match db.getKey mem.key with
  | some stored => .ok (db.updateRow stored.id merge hid hkey, stored.id)
  | none =>
    match db.memories.insertNew? mem.toRow with
    | some t => .ok ({ db with memories := t }, mem.id)
    | none => .error "UNIQUE constraint failed: memories.id"

def insert (db : Db) (mem : Memory) : Except String (Db × String) :=
  db.insertOnConflict mem (upsertRow · mem) (fun _ => rfl) (fun _ => rfl)

def insertIfNewer (db : Db) (mem : Memory) : Except String (Db × String) :=
  db.insertOnConflict mem (mergeNewer · mem) (fun _ => rfl) (fun _ => rfl)

section OnConflict

variable {db db' : Db} {mem : Memory} {merge : MemoryRow → MemoryRow} {hid : ∀ r, (merge r).id = r.id}
  {hkey : ∀ r, (merge r).key = r.key} {id : String}

/-- What an upsert can do: merge into the row of its title and namespace, or append a row under a
free id. -/
theorem insertOnConflict_cases (h : db.insertOnConflict mem merge hid hkey = .ok (db', id)) :
    (∃ stored, db.getKey mem.key = some stored ∧ id = stored.id ∧
      db' = db.updateRow stored.id merge hid hkey) ∨
    (db.getKey mem.key = none ∧ db.get mem.id = none ∧ id = mem.id ∧
      ∃ t, db.memories.insertNew? mem.toRow = some t ∧ db' = { db with memories := t }) := by
  unfold insertOnConflict at h
  cases hk : db.getKey mem.key with
  | some stored =>
    rw [hk] at h
    simp only [Except.ok.injEq, Prod.mk.injEq] at h
    exact Or.inl ⟨stored, rfl, h.2.symm, h.1.symm⟩
  | none =>
    rw [hk] at h
    cases ht : db.memories.insertNew? mem.toRow with
    | none => rw [ht] at h; cases h
    | some t =>
      rw [ht] at h
      simp only [Except.ok.injEq, Prod.mk.injEq] at h
      have hfree := Indexed.insertNew?_isSome.mp (by rw [ht]; rfl)
      exact Or.inr ⟨rfl, hfree.1, h.2.symm, t, rfl, h.1.symm⟩

theorem insertOnConflict_error_iff :
    (∃ e, db.insertOnConflict mem merge hid hkey = .error e) ↔
      db.getKey mem.key = none ∧ db.get mem.id ≠ none := by
  unfold insertOnConflict
  cases hk : db.getKey mem.key with
  | some stored => simp
  | none =>
    cases ht : db.memories.insertNew? mem.toRow with
    | none =>
      refine iff_of_true ⟨_, rfl⟩ ⟨rfl, fun hnone => ?_⟩
      have := (Indexed.insertNew?_isSome (t := db.memories) (r := mem.toRow)).mpr ⟨hnone, hk⟩
      rw [ht] at this
      cases this
    | some t =>
      have hfree := (Indexed.insertNew?_isSome.mp (by rw [ht]; rfl)).1
      exact iff_of_false (by rintro ⟨e, he⟩; cases he) fun hc => hc.2 hfree

theorem getKey_insertOnConflict (h : db.insertOnConflict mem merge hid hkey = .ok (db', id)) :
    db'.getKey mem.key = some (((db.getKey mem.key).map merge).getD mem.toRow) := by
  obtain ⟨stored, hs, -, rfl⟩ | ⟨hs, -, -, t, ht, rfl⟩ := insertOnConflict_cases h
  · rw [getKey_updateRow, hs]
    simp
  · rw [hs]
    show t.findBy mem.key = _
    rw [Indexed.findBy_insertNew? ht]
    show (db.getKey mem.key).or _ = _
    rw [hs]
    simp [Memory.key]

theorem getKey_insertOnConflict_of_ne (h : db.insertOnConflict mem merge hid hkey = .ok (db', id))
    {k : String × String} (hk : k ≠ mem.key) : db'.getKey k = db.getKey k := by
  obtain ⟨stored, hs, -, rfl⟩ | ⟨hs, -, -, t, ht, rfl⟩ := insertOnConflict_cases h
  · rw [getKey_updateRow]
    cases hr : db.getKey k with
    | none => rfl
    | some r =>
      rw [getKey_eq_some] at hs hr
      have hne : r.id ≠ stored.id := fun e =>
        hk (by rw [← hr.2, ← hs.2, Indexed.eq_of_pk hr.1 hs.1 e])
      rw [Option.map_some, if_neg hne]
  · show t.findBy k = _
    rw [Indexed.findBy_insertNew? ht, if_neg (fun e => hk e.symm)]
    exact Option.or_none

theorem mem_insertOnConflict (h : db.insertOnConflict mem merge hid hkey = .ok (db', id)) {x : MemoryRow}
    (hx : x ∈ db'.memories) : x ∈ db.memories ∨ (∃ r ∈ db.memories, r.key = mem.key ∧ x = merge r) ∨
      x = mem.toRow := by
  obtain ⟨stored, hs, -, rfl⟩ | ⟨hs, -, -, t, ht, rfl⟩ := insertOnConflict_cases h
  · obtain ⟨r, hr, rfl⟩ := mem_updateRow.mp hx
    split_ifs with e
    · rw [getKey_eq_some] at hs
      have := Indexed.eq_of_pk hr hs.1 e
      exact Or.inr (Or.inl ⟨r, hr, this ▸ hs.2, rfl⟩)
    · exact Or.inl hr
  · exact ((Indexed.mem_insertNew? ht).mp hx).imp (fun h => h) Or.inr

theorem liveOn_insertOnConflict (h : db.insertOnConflict mem merge hid hkey = .ok (db', id)) : db.LiveOn db' := by
  intro r hr
  obtain ⟨stored, -, -, rfl⟩ | ⟨-, -, -, t, ht, rfl⟩ := insertOnConflict_cases h
  · refine ⟨_, mem_updateRow.mpr ⟨r, hr, rfl⟩, ?_, ?_⟩
    · split_ifs
      · exact hid r
      · rfl
    · split_ifs
      · exact hkey r
      · rfl
  · exact ⟨r, (Indexed.mem_insertNew? ht).mpr (Or.inl hr), rfl, rfl⟩

/-- An upsert takes no id but its own, and that under a new title and namespace only. -/
theorem get_insertOnConflict_eq_none (h : db.insertOnConflict mem merge hid hkey = .ok (db', id)) {i : String}
    (hget : db.get i = none) (hne : db.getKey mem.key = none → mem.id ≠ i) : db'.get i = none := by
  obtain ⟨stored, -, -, rfl⟩ | ⟨hnew, -, -, t, ht, rfl⟩ := insertOnConflict_cases h
  · rw [get_updateRow, hget]
    rfl
  · show t.find i = none
    rw [Indexed.find_insertNew? ht, show db.memories.find i = none from hget]
    exact if_neg (hne hnew)

theorem insertOnConflict_isOk (hget : db.get mem.id = none) :
    ∃ db' id, db.insertOnConflict mem merge hid hkey = .ok (db', id) := by
  cases hi : db.insertOnConflict mem merge hid hkey with
  | ok res => exact ⟨res.1, res.2, rfl⟩
  | error e => exact absurd hget (insertOnConflict_error_iff.mp ⟨e, hi⟩).2

theorem get_insertOnConflict_self (h : db.insertOnConflict mem merge hid hkey = .ok (db', id)) :
    ∃ r, db'.get id = some r := by
  obtain ⟨stored, hs, rfl, rfl⟩ | ⟨-, -, rfl, t, ht, rfl⟩ := insertOnConflict_cases h
  · obtain ⟨hmem, -⟩ := getKey_eq_some.mp hs
    exact ⟨merge stored, get_eq_some.mpr ⟨mem_updateRow.mpr ⟨stored, hmem, if_pos rfl⟩, hid stored⟩⟩
  · exact ⟨mem.toRow, get_eq_some.mpr ⟨(Indexed.mem_insertNew? ht).mpr (Or.inr rfl), rfl⟩⟩

/-- An upsert writes the table `memories` only. -/
theorem insertOnConflict_frame (h : db.insertOnConflict mem merge hid hkey = .ok (db', id)) :
    db' = { db with memories := db'.memories } := by
  obtain ⟨stored, -, -, rfl⟩ | ⟨-, -, -, t, -, rfl⟩ := insertOnConflict_cases h <;> rfl

theorem insert_isOk (hget : db.get mem.id = none) : ∃ db' id, db.insert mem = .ok (db', id) :=
  insertOnConflict_isOk hget

end OnConflict

/-! ## Rows at least as new -/

/-- A row has the title and namespace of `m` and is at least as new. -/
def Covers (db : Db) (m : Memory) : Prop := ∃ r, db.getKey m.key = some r ∧ m.updatedAt ≤ r.updatedAt

instance (db : Db) (m : Memory) : Decidable (db.Covers m) :=
  decidable_of_iff ((db.getKey m.key).any fun r => m.updatedAt ≤ r.updatedAt)
    (by simp [Covers, Option.any_eq_true])

def live (db : Db) : List Memory := db.memories.rows.map fun r => r.toMemory

theorem mem_live {db : Db} {m : Memory} : m ∈ db.live ↔ ∃ r ∈ db.memories, r.toMemory = m := List.mem_map

theorem map_getKey (db : Db) (k : String × String) :
    (db.getKey k).map (fun r => r.toMemory) = db.live.find? fun m => m.key = k := by
  unfold live
  rw [List.find?_map]
  rfl

theorem map_get (db : Db) (id : String) :
    (db.get id).map (fun r => r.toMemory) = db.live.find? fun m => m.id = id := by
  unfold live
  rw [List.find?_map]
  rfl

variable {db db' : Db}

theorem get_eq_none_iff_of_live (h : db'.live = db.live) {id : String} :
    db'.get id = none ↔ db.get id = none := by
  rw [← Option.map_eq_none_iff (f := fun r : MemoryRow => r.toMemory), map_get, h, ← map_get,
    Option.map_eq_none_iff]

theorem getKey_of_live (h : db'.live = db.live) {k : String × String} {r : MemoryRow}
    (hr : db.getKey k = some r) : ∃ r', db'.getKey k = some r' ∧ r'.toMemory = r.toMemory := by
  have hmap := map_getKey db' k
  rw [h, ← map_getKey, hr] at hmap
  exact Option.map_eq_some_iff.mp hmap

theorem eq_of_mem_live {db : Db} {x y : Memory} (hx : x ∈ db.live) (hy : y ∈ db.live) (hk : x.key = y.key) :
    x = y := by
  obtain ⟨r, hr, rfl⟩ := mem_live.mp hx
  obtain ⟨r', hr', rfl⟩ := mem_live.mp hy
  rw [Indexed.eq_of_uk hr hr' hk]

theorem covers_iff_live {db : Db} {m : Memory} :
    db.Covers m ↔ ∃ x ∈ db.live, x.key = m.key ∧ m.updatedAt ≤ x.updatedAt := by
  constructor
  · rintro ⟨r, hr, hle⟩
    obtain ⟨hmem, hkey⟩ := getKey_eq_some.mp hr
    exact ⟨r.toMemory, mem_live.mpr ⟨r, hmem, rfl⟩, hkey, hle⟩
  · rintro ⟨x, hx, hkey, hle⟩
    obtain ⟨r, hr, rfl⟩ := mem_live.mp hx
    exact ⟨r, getKey_eq_some.mpr ⟨hr, hkey⟩, hle⟩

/-- What was written by `insert_if_newer` is covered. -/
theorem covers_insertIfNewer {mem : Memory} {id : String}
    (h : db.insertIfNewer mem = .ok (db', id)) : db'.Covers mem := by
  refine ⟨_, getKey_insertOnConflict h, ?_⟩
  cases db.getKey mem.key with
  | none => exact le_rfl
  | some r => exact le_max_right _ _

theorem Covers.insertIfNewer {mem m : Memory} {id : String} (hc : db.Covers m)
    (h : db.insertIfNewer mem = .ok (db', id)) : db'.Covers m := by
  obtain ⟨r, hr, hle⟩ := hc
  by_cases hk : m.key = mem.key
  · rw [hk] at hr
    refine ⟨_, (congrArg db'.getKey hk).trans (getKey_insertOnConflict h), ?_⟩
    rw [hr]
    exact hle.trans (le_max_left _ _)
  · exact ⟨r, (getKey_insertOnConflict_of_ne h hk).trans hr, hle⟩

/-! ## `update` -/

end Db

/-- `UpdateMemory`: the columns a caller asks `update` to change. -/
structure UpdateMemory where
  title : Option String := none
  content : Option String := none
  tier : Option Tier := none
  ns : Option String := none
  tags : Option (List String) := none
  priority : Option ℤ := none
  confidence : Option ℚ := none
  expiresAt : Option String := none
  metadata : Option Json := none

def effectiveTier (requested : Option Tier) (existing : Tier) : Tier :=
  match requested with
  | some requested =>
    match existing, requested with
    | .long, _ => .long
    | .mid, .short => .mid
    | _, requested => requested
  | none => existing

/-- The expiry after an update: the empty string and `null` clear it. -/
def effectiveExpiresAt (requested existing : Option String) : Option String :=
  match requested with
  | some v => if v = "" ∨ v = "null" then none else some v
  | none => existing

/-- The row `update` writes. -/
def applyUpdate (u : UpdateMemory) (now : String) (existing : MemoryRow) : MemoryRow :=
  { existing with
    tier := effectiveTier u.tier existing.tier
    ns := u.ns.getD existing.ns
    title := u.title.getD existing.title
    content := u.content.getD existing.content
    tags := u.tags.getD existing.tags
    priority := u.priority.getD existing.priority
    confidence := u.confidence.getD existing.confidence
    updatedAt := now
    expiresAt := effectiveExpiresAt u.expiresAt existing.expiresAt
    metadata := u.metadata.getD existing.metadata }

namespace Db

/-- `update`: whether the row was found, and whether its title or content changed. -/
def update (db : Db) (id : String) (u : UpdateMemory) (now : String) : Except String (Db × Bool × Bool) :=
  match db.get id with
  | none => .ok (db, false, false)
  | some existing =>
    let new := applyUpdate u now existing
    match db.memories.map? (fun r => if r.id = id then applyUpdate u now r else r)
        (by intro r; split_ifs <;> rfl) with
    | some t => .ok ({ db with memories := t }, true,
        decide (new.title ≠ existing.title ∨ new.content ≠ existing.content))
    | none =>
      match db.memories.rows.find? fun r => r.key = new.key ∧ r.id ≠ id with
      | some other =>
        let title := new.title
        let ns := new.ns
        let otherId := other.id
        .error s!"title '{title}' already exists in namespace '{ns}' (memory {otherId})"
      | none => .error "update failed with constraint violation"

variable {u : UpdateMemory}

theorem update_cases {db db' : Db} {id now : String} {found changed : Bool}
    (h : db.update id u now = .ok (db', found, changed)) :
    (db.get id = none ∧ found = false ∧ db' = db) ∨
    (∃ existing, db.get id = some existing ∧ found = true ∧ db' = { db with memories := db'.memories } ∧
      db'.memories.rows = db.memories.rows.map fun r => if r.id = id then applyUpdate u now r else r) := by
  unfold update at h
  cases hg : db.get id with
  | none =>
    rw [hg] at h
    simp only [Except.ok.injEq, Prod.mk.injEq] at h
    exact Or.inl ⟨rfl, h.2.1.symm, h.1.symm⟩
  | some existing =>
    rw [hg] at h
    simp only at h
    split at h
    · rename_i t ht
      simp only [Except.ok.injEq, Prod.mk.injEq] at h
      obtain ⟨rfl, rfl, -⟩ := h
      exact Or.inr ⟨existing, rfl, rfl, rfl, Indexed.map?_rows ht⟩
    · split at h <;> cases h

theorem get_update {db db' : Db} {id now : String} {changed : Bool}
    (h : db.update id u now = .ok (db', true, changed)) (i : String) :
    db'.get i = (db.get i).map fun r => if i = id then applyUpdate u now r else r := by
  rcases update_cases h with ⟨-, hc, -⟩ | ⟨-, -, -, -, hrows⟩
  · cases hc
  · unfold get Indexed.find
    rw [hrows, lookup_map (by intro r; split_ifs <;> rfl)]
    refine Option.map_congr fun r hr => ?_
    rw [lookup_key hr]

/-- Another row has the title and namespace that an update of `existing` asks for. -/
def Collides (db : Db) (existing : MemoryRow) (u : UpdateMemory) : Prop :=
  ∃ r ∈ db.memories, r.id ≠ existing.id ∧ r.key = (u.title.getD existing.title, u.ns.getD existing.ns)

theorem nodup_map_of_unique {α β : Type*} {l : List α} {f g : α → β} (hf : (l.map f).Nodup)
    (h : ∀ x ∈ l, ∀ y ∈ l, g x = g y → f x = f y) : (l.map g).Nodup := by
  rw [List.Nodup, List.pairwise_map] at hf ⊢
  exact hf.imp_of_mem fun hx hy hne e => hne (h _ hx _ hy e)

/-- An update of a live row succeeds exactly when no other row has the title and namespace asked for. -/
theorem update_isOk_iff {db : Db} {id : String} (now : String) {existing : MemoryRow}
    (hg : db.get id = some existing) :
    (∃ db' changed, db.update id u now = .ok (db', true, changed)) ↔ ¬db.Collides existing u := by
  obtain ⟨hmem, rfl⟩ := get_eq_some.mp hg
  constructor
  · rintro ⟨db', changed, h⟩ ⟨r, hr, hne, hkey⟩
    obtain ⟨hc, -, -⟩ | ⟨e, he, -, -, hrows⟩ := update_cases h
    · rw [hg] at hc
      cases hc
    · -- both `r` and the updated row would be filed under one title and namespace
      have hr' : r ∈ db'.memories := by
        rw [Indexed.mem_def, hrows, List.mem_map]
        exact ⟨r, hr, if_neg hne⟩
      have he' : applyUpdate u now existing ∈ db'.memories := by
        rw [Indexed.mem_def, hrows, List.mem_map]
        exact ⟨existing, hmem, if_pos rfl⟩
      have : r = applyUpdate u now existing := Indexed.eq_of_uk hr' he' hkey
      exact hne (this ▸ rfl)
  · intro hfree
    have hnodup : ((db.memories.rows.map fun r =>
        if r.id = existing.id then applyUpdate u now r else r).map fun r => r.key).Nodup := by
      rw [List.map_map]
      refine nodup_map_of_unique db.memories.uniq fun x hx y hy e => ?_
      simp only [Function.comp] at e
      have hnew : ∀ z ∈ db.memories.rows, z.id ≠ existing.id →
          z.key ≠ (applyUpdate u now existing).key := fun z hz hne hk => hfree ⟨z, hz, hne, hk⟩
      by_cases hxe : x.id = existing.id <;> by_cases hye : y.id = existing.id
      · rw [Indexed.eq_of_pk hx hmem hxe, Indexed.eq_of_pk hy hmem hye]
      · rw [if_pos hxe, if_neg hye, Indexed.eq_of_pk hx hmem hxe] at e
        exact absurd e.symm (hnew y hy hye)
      · rw [if_neg hxe, if_pos hye, Indexed.eq_of_pk hy hmem hye] at e
        exact absurd e (hnew x hx hxe)
      · rwa [if_neg hxe, if_neg hye] at e
    unfold update
    rw [hg]
    simp only [Indexed.map?, dif_pos hnodup]
    exact ⟨_, _, rfl⟩

/-! ## `touch` and `delete` -/

/-- The clock readings of `touch`: now, and now plus each extension. -/
structure TouchTimes where
  now : String
  shortExpires : String
  midExpires : String

/-- The first statement of `touch`. -/
def bumpRow (t : TouchTimes) (r : MemoryRow) : MemoryRow :=
  { r with
    accessCount := min (r.accessCount + 1) 1000000
    lastAccessedAt := some t.now
    expiresAt :=
      if r.tier = .long then r.expiresAt
      else if r.tier = .short ∧ r.expiresAt.isSome then some t.shortExpires
      else if r.tier = .mid ∧ r.expiresAt.isSome then some t.midExpires
      else r.expiresAt }

/-- The second statement of `touch`: auto-promotion. -/
def promoteRow (now : String) (r : MemoryRow) : MemoryRow :=
  if r.tier = .mid ∧ promotionThreshold ≤ r.accessCount then
    { r with tier := .long, expiresAt := none, updatedAt := now }
  else r

/-- The third statement of `touch`. -/
def reinforceRow (r : MemoryRow) : MemoryRow :=
  if 0 < r.accessCount ∧ r.accessCount % 10 = 0 ∧ r.priority < 10 then
    { r with priority := min (r.priority + 1) 10 }
  else r

/-- The three statements of `touch` on the row, in their transaction. -/
def touchRow (t : TouchTimes) (r : MemoryRow) : MemoryRow := reinforceRow (promoteRow t.now (bumpRow t r))

theorem touchRow_id (t : TouchTimes) (r : MemoryRow) : (touchRow t r).id = r.id := by
  unfold touchRow reinforceRow promoteRow bumpRow
  split_ifs <;> rfl

theorem touchRow_key (t : TouchTimes) (r : MemoryRow) : (touchRow t r).key = r.key := by
  unfold touchRow reinforceRow promoteRow bumpRow
  split_ifs <;> rfl

def touch (db : Db) (id : String) (t : TouchTimes) : Db :=
  db.updateRow id (touchRow t) (touchRow_id t) (touchRow_key t)

theorem mem_touch {db : Db} {id : String} {t : TouchTimes} {x : MemoryRow} :
    x ∈ (db.touch id t).memories ↔ ∃ r ∈ db.memories, (if r.id = id then touchRow t r else r) = x :=
  List.mem_map

/-- `DELETE FROM namespace_meta WHERE standard_id = id`. -/
def dropStandard (db : Db) (id : String) : Db :=
  { db with namespaceMeta := db.namespaceMeta.filter fun e => e.standardId ≠ id }

/-- `delete`: whether a memory was removed. -/
def delete (db : Db) (id : String) : Db × Bool :=
  ((db.dropStandard id).deleteMemories fun r => r.id ≠ id, (db.get id).isSome)

/-! ## Embeddings -/

/-- `namespace_embedding_dim`: SQLite may answer from any row that has one. -/
def namespaceEmbeddingDim (db : Db) (ns : String) : Option ℕ :=
  ((db.memories.rows.find? fun r => r.ns = ns ∧ r.embeddingDim.isSome).bind fun r => r.embeddingDim).bind
    fun d => if 0 ≤ d then some d.toNat else none

/-- `UPDATE memories SET embedding = ?, embedding_dim = ? WHERE id = ?`. -/
def writeEmbedding (db : Db) (id : String) (blob : List UInt8) (dim : Option ℤ) : Db :=
  db.updateRow id (fun r => { r with embedding := some blob, embeddingDim := dim })
    (fun _ => rfl) (fun _ => rfl)

/-- `set_embedding` of a vector with `dim` components, encoded as `blob`. -/
def setEmbedding (db : Db) (id : String) (blob : List UInt8) (dim : ℕ) : Except String Db :=
  if dim = 0 then .ok (db.writeEmbedding id blob none)
  else
    match (db.get id).map fun r => r.ns with
    | none => .ok (db.writeEmbedding id blob (some dim))
    | some ns =>
      match db.namespaceEmbeddingDim ns with
      | none => .ok (db.writeEmbedding id blob (some dim))
      | some established =>
        if established ≠ dim then
          .error s!"embedding dim mismatch in namespace '{ns}': established {established}-dim, refused {dim}-dim write"
        else .ok (db.writeEmbedding id blob (some dim))

/-- A successful `set_embedding` writes the two embedding columns of the row. -/
theorem setEmbedding_eq_ok {db db' : Db} {id : String} {blob : List UInt8} {dim : ℕ}
    (h : db.setEmbedding id blob dim = .ok db') : ∃ d, db' = db.writeEmbedding id blob d := by
  unfold setEmbedding at h
  split_ifs at h
  · cases h
    exact ⟨_, rfl⟩
  · split at h
    · cases h
      exact ⟨_, rfl⟩
    · split at h
      · cases h
        exact ⟨_, rfl⟩
      · split_ifs at h
        cases h
        exact ⟨_, rfl⟩

theorem live_writeEmbedding (db : Db) (id : String) (blob : List UInt8) (dim : Option ℤ) :
    (db.writeEmbedding id blob dim).live = db.live := by
  unfold live writeEmbedding updateRow Indexed.map
  rw [List.map_map]
  refine List.map_congr_left fun r _ => ?_
  rw [Function.comp]
  split_ifs <;> rfl

end Db

end AiMemory
