import Mathlib.Data.List.Nodup
import Mathlib.Data.List.Perm.Basic
import Mathlib.Tactic

/-!
# Tables with a unique key

A table is a list of rows in insertion order whose keys are pairwise different, the way a SQL
table with a unique index is scanned. `lookup` reads the row of a key, and the statements a program
runs against one table are `insertNew?` (a plain `INSERT`), `modify` (an `UPDATE` that keeps the
key), `filter` (a `DELETE`, by the rows kept), `upsert` (`INSERT .. ON CONFLICT DO UPDATE`) and
`replace` (`INSERT OR REPLACE`).

Each statement has one equation that says what `lookup` finds after it.
-/

namespace Relational

variable {ρ κ : Type*}

/-! ## Reading a list of rows by key -/

section Lookup

variable [DecidableEq κ] (key : ρ → κ)

/-- The first row with key `k`. -/
def lookup (k : κ) (rows : List ρ) : Option ρ := rows.find? fun r => key r = k

variable {key} {k : κ} {rows : List ρ} {r : ρ}

@[simp] theorem lookup_nil : lookup key k [] = none := rfl

theorem lookup_cons : lookup key k (r :: rows) = if key r = k then some r else lookup key k rows := by
  unfold lookup
  by_cases h : key r = k <;> simp [h]

theorem lookup_key (h : lookup key k rows = some r) : key r = k := by
  simpa using List.find?_some h

theorem lookup_mem (h : lookup key k rows = some r) : r ∈ rows := List.mem_of_find?_eq_some h

theorem lookup_eq_none : lookup key k rows = none ↔ ∀ x ∈ rows, key x ≠ k := by
  unfold lookup; simp

theorem lookup_isSome : (lookup key k rows).isSome ↔ ∃ x ∈ rows, key x = k := by
  unfold lookup; simp

theorem lookup_of_mem (hn : (rows.map key).Nodup) (h : r ∈ rows) : lookup key (key r) rows = some r := by
  induction rows with
  | nil => cases h
  | cons x rows ih =>
    rw [List.map_cons, List.nodup_cons] at hn
    rw [lookup_cons]
    rcases List.mem_cons.mp h with rfl | h
    · rw [if_pos rfl]
    · have hne : key x ≠ key r := fun e => hn.1 (e ▸ List.mem_map_of_mem h)
      rw [if_neg hne, ih hn.2 h]

theorem lookup_eq_some (hn : (rows.map key).Nodup) :
    lookup key k rows = some r ↔ r ∈ rows ∧ key r = k := by
  constructor
  · exact fun h => ⟨lookup_mem h, lookup_key h⟩
  · rintro ⟨h, rfl⟩
    exact lookup_of_mem hn h

theorem lookup_append : lookup key k (rows ++ [r]) =
    (lookup key k rows).or (if key r = k then some r else none) := by
  unfold lookup
  by_cases h : key r = k <;> simp [h]

/-- An update that keeps every key is seen through `lookup`. -/
theorem lookup_map {f : ρ → ρ} (hf : ∀ x, key (f x) = key x) :
    lookup key k (rows.map f) = (lookup key k rows).map f := by
  induction rows with
  | nil => rfl
  | cons x rows ih =>
    rw [List.map_cons, lookup_cons, lookup_cons, hf, ih]
    split_ifs <;> rfl

theorem lookup_filter (hn : (rows.map key).Nodup) (p : ρ → Bool) :
    lookup key k (rows.filter p) = (lookup key k rows).filter p := by
  have hn' : ((rows.filter p).map key).Nodup := hn.sublist (List.filter_sublist.map key)
  ext r
  rw [lookup_eq_some hn', Option.filter_eq_some_iff, lookup_eq_some hn, List.mem_filter]
  tauto

end Lookup

theorem nodup_append_singleton {key : ρ → κ} {rows : List ρ} {r : ρ} (hn : (rows.map key).Nodup)
    (h : ∀ x ∈ rows, key x ≠ key r) : ((rows ++ [r]).map key).Nodup := by
  rw [List.map_append, List.map_singleton, List.nodup_append]
  refine ⟨hn, List.nodup_singleton _, ?_⟩
  intro a ha b hb
  rw [List.mem_singleton] at hb
  obtain ⟨x, hx, rfl⟩ := List.mem_map.mp ha
  exact hb ▸ h x hx

/-! ## Tables -/

/-- Rows with pairwise different keys. -/
@[ext] structure Table (key : ρ → κ) where
  rows : List ρ
  nodup : (rows.map key).Nodup

namespace Table

variable {key : ρ → κ}

def empty : Table key := ⟨[], List.nodup_nil⟩

instance : Inhabited (Table key) := ⟨empty⟩

instance : Membership ρ (Table key) := ⟨fun t r => r ∈ t.rows⟩

theorem mem_def {t : Table key} {r : ρ} : r ∈ t ↔ r ∈ t.rows := Iff.rfl

/-- `DELETE`, given by the rows that stay. -/
def filter (t : Table key) (p : ρ → Bool) : Table key :=
  ⟨t.rows.filter p, t.nodup.sublist (List.filter_sublist.map key)⟩

@[simp] theorem filter_rows (t : Table key) (p : ρ → Bool) : (t.filter p).rows = t.rows.filter p := rfl

@[simp] theorem mem_filter {t : Table key} {p : ρ → Bool} {r : ρ} : r ∈ t.filter p ↔ r ∈ t ∧ p r :=
  List.mem_filter

/-- An `UPDATE` of every row by a function that keeps the key. -/
def map (t : Table key) (f : ρ → ρ) (hf : ∀ r, key (f r) = key r) : Table key where
  rows := t.rows.map f
  nodup := by rw [List.map_map, show key ∘ f = key from funext hf]; exact t.nodup

variable {f : ρ → ρ}

@[simp] theorem mem_map {t : Table key} {hf : ∀ r, key (f r) = key r} {r : ρ} :
    r ∈ t.map f hf ↔ ∃ x ∈ t, f x = r := List.mem_map

variable [DecidableEq κ]

/-- The row of key `k`. -/
def find (t : Table key) (k : κ) : Option ρ := lookup key k t.rows

/-- Replaces the row of key `k` by its image under `f`, filed under the same key. -/
def modify (t : Table key) (k : κ) (f : ρ → ρ) (hf : ∀ r, key (f r) = key r) : Table key where
  rows := t.rows.map fun r => if key r = k then f r else r
  nodup := by
    rw [List.map_map, show key ∘ (fun r => if key r = k then f r else r) = key by
      funext r; simp only [Function.comp]; split_ifs <;> simp [hf]]
    exact t.nodup

def insertNew? (t : Table key) (r : ρ) : Option (Table key) :=
  if h : ∀ x ∈ t.rows, key x ≠ key r then
    some ⟨t.rows ++ [r], nodup_append_singleton t.nodup h⟩
  else none

/-- `INSERT .. ON CONFLICT DO UPDATE`: appends `r`, or applies `f` to the row that has its key. -/
def upsert (t : Table key) (r : ρ) (f : ρ → ρ) (hf : ∀ x, key (f x) = key x) : Table key :=
  (t.insertNew? r).getD (t.modify (key r) f hf)

/-- `INSERT OR REPLACE`: drops the row that has the key of `r`, then appends `r`. -/
def replace (t : Table key) (r : ρ) : Table key where
  rows := (t.rows.filter fun x => key x ≠ key r) ++ [r]
  nodup := nodup_append_singleton (t.filter fun x => key x ≠ key r).nodup
    (by intro x hx; simpa using (List.mem_filter.mp hx).2)

variable {t : Table key} {k : κ} {r x : ρ}

theorem find_eq_some : t.find k = some r ↔ r ∈ t ∧ key r = k := lookup_eq_some t.nodup

theorem find_key (h : t.find k = some r) : key r = k := lookup_key h

theorem find_mem (h : t.find k = some r) : r ∈ t := lookup_mem h

theorem find_eq_none : t.find k = none ↔ ∀ x ∈ t, key x ≠ k := lookup_eq_none

theorem find_of_mem (h : r ∈ t) : t.find (key r) = some r := lookup_of_mem t.nodup h

theorem eq_of_key {y : ρ} (hx : x ∈ t) (hy : y ∈ t) (h : key x = key y) : x = y :=
  Option.some.inj ((find_of_mem hx).symm.trans ((congrArg t.find h).trans (find_of_mem hy)))

@[simp] theorem find_empty : (empty : Table key).find k = none := rfl

@[simp] theorem find_filter (p : ρ → Bool) : (t.filter p).find k = (t.find k).filter p :=
  lookup_filter t.nodup p

theorem find_modify (hf : ∀ r, key (f r) = key r) (k' : κ) :
    (t.modify k f hf).find k' = (t.find k').map fun r => if k' = k then f r else r := by
  unfold find modify
  rw [lookup_map (by intro x; split_ifs <;> simp [hf])]
  cases h : lookup key k' t.rows with
  | none => rfl
  | some r => simp only [Option.map_some, lookup_key h]

theorem mem_modify (hf : ∀ r, key (f r) = key r) {x : ρ} :
    x ∈ t.modify k f hf ↔ ∃ r ∈ t, (if key r = k then f r else r) = x := List.mem_map

theorem mem_insertNew? {t' : Table key} (h : t.insertNew? r = some t') : x ∈ t' ↔ x ∈ t ∨ x = r := by
  unfold insertNew? at h
  split_ifs at h
  cases h
  exact List.mem_append.trans (or_congr_right List.mem_singleton)

theorem insertNew?_eq_none : t.insertNew? r = none ↔ (t.find (key r)).isSome := by
  rw [← Option.ne_none_iff_isSome, ne_eq, find_eq_none]
  unfold insertNew?
  by_cases h : ∀ x ∈ t.rows, key x ≠ key r
  · rw [dif_pos h]
    exact ⟨fun e => (by cases e), fun e => absurd h e⟩
  · rw [dif_neg h]
    exact ⟨fun _ => h, fun _ => rfl⟩

theorem insertNew?_rows {t' : Table key} (h : t.insertNew? r = some t') : t'.rows = t.rows ++ [r] := by
  unfold insertNew? at h
  split_ifs at h
  cases h
  rfl

theorem find_insertNew? {t' : Table key} (h : t.insertNew? r = some t') (k : κ) :
    t'.find k = (t.find k).or (if key r = k then some r else none) := by
  unfold find
  rw [insertNew?_rows h, lookup_append]

theorem find_replace (k : κ) : (t.replace r).find k = if k = key r then some r else t.find k := by
  have hfilter : lookup key k (t.rows.filter fun x => key x ≠ key r) =
      (t.find k).filter fun x => key x ≠ key r := lookup_filter t.nodup _
  show lookup key k ((t.rows.filter fun x => key x ≠ key r) ++ [r]) = _
  rw [lookup_append, hfilter]
  cases h : t.find k with
  | none =>
    simp only [eq_comm (a := k)]
    rfl
  | some y =>
    rw [Option.filter_some, find_key h]
    by_cases hk : k = key r
    · simp [hk]
    · simp [hk]

theorem find_foldl_replace {rs : List ρ} (hn : (rs.map key).Nodup) (k : κ) :
    (rs.foldl replace t).find k = (lookup key k rs).or (t.find k) := by
  induction rs generalizing t with
  | nil => rfl
  | cons r rs ih =>
    rw [List.map_cons, List.nodup_cons] at hn
    rw [List.foldl_cons, ih hn.2, find_replace, lookup_cons]
    by_cases hk : key r = k
    · subst hk
      have hnone : lookup key (key r) rs = none := by
        rw [lookup_eq_none]
        intro x hx e
        exact hn.1 (e ▸ List.mem_map_of_mem hx)
      simp [hnone]
    · rw [if_neg (fun e => hk e.symm), if_neg hk]

theorem find_upsert (hf : ∀ r, key (f r) = key r) (k : κ) :
    (t.upsert r f hf).find k =
      if k = key r then some (((t.find k).map f).getD r) else t.find k := by
  unfold upsert
  cases h : t.insertNew? r with
  | none =>
    obtain ⟨x, hx⟩ := Option.isSome_iff_exists.mp (insertNew?_eq_none.mp h)
    rw [Option.getD_none, find_modify]
    split_ifs with e
    · subst e; simp [hx]
    · simp
  | some t' =>
    have hnone : t.find (key r) = none := by
      by_contra hc
      rw [insertNew?_eq_none.mpr (Option.ne_none_iff_isSome.mp hc)] at h
      cases h
    rw [Option.getD_some, find_insertNew? h]
    split_ifs with e e' e'
    · subst e; simp [hnone]
    · exact absurd e.symm e'
    · exact absurd e'.symm e
    · simp

end Table

/-! ## Tables with a second unique index -/

/-- Rows with a primary key `pk` and a second unique index `uk`. -/
structure Indexed {ν : Type*} (pk : ρ → κ) (uk : ρ → ν) extends Table pk where
  uniq : (rows.map uk).Nodup

namespace Indexed

variable {ν : Type*} {pk : ρ → κ} {uk : ρ → ν}

@[ext] theorem ext {t t' : Indexed pk uk} (h : t.rows = t'.rows) : t = t' := by
  obtain ⟨⟨rows, _⟩, _⟩ := t
  subst h
  rfl

def empty : Indexed pk uk := ⟨Table.empty, List.nodup_nil⟩

instance : Inhabited (Indexed pk uk) := ⟨empty⟩

instance : Membership ρ (Indexed pk uk) := ⟨fun t r => r ∈ t.rows⟩

variable {t : Indexed pk uk}

theorem mem_def {r : ρ} : r ∈ t ↔ r ∈ t.rows := Iff.rfl

@[simp] theorem not_mem_empty (r : ρ) : r ∉ (empty : Indexed pk uk) := List.not_mem_nil

/-- `DELETE`, given by the rows that stay. -/
def filter (t : Indexed pk uk) (p : ρ → Bool) : Indexed pk uk :=
  ⟨t.toTable.filter p, t.uniq.sublist (List.filter_sublist.map uk)⟩

@[simp] theorem mem_filter {p : ρ → Bool} {r : ρ} :
    r ∈ t.filter p ↔ r ∈ t ∧ p r := List.mem_filter

/-- An `UPDATE` of every row by a function that keeps both keys. -/
def map (t : Indexed pk uk) (f : ρ → ρ) (hpk : ∀ r, pk (f r) = pk r) (huk : ∀ r, uk (f r) = uk r) :
    Indexed pk uk where
  rows := t.rows.map f
  nodup := by rw [List.map_map, show pk ∘ f = pk from funext hpk]; exact t.nodup
  uniq := by rw [List.map_map, show uk ∘ f = uk from funext huk]; exact t.uniq

@[simp] theorem mem_map {f : ρ → ρ} {hpk : ∀ r, pk (f r) = pk r}
    {huk : ∀ r, uk (f r) = uk r} {r : ρ} : r ∈ t.map f hpk huk ↔ ∃ x ∈ t, f x = r := List.mem_map

/-- An `UPDATE` by a function that keeps the primary key, or failure on a unique violation. -/
def map? [DecidableEq ν] (t : Indexed pk uk) (f : ρ → ρ) (hpk : ∀ r, pk (f r) = pk r) :
    Option (Indexed pk uk) :=
  if h : ((t.rows.map f).map uk).Nodup then
    some ⟨⟨t.rows.map f, by
      rw [List.map_map, show pk ∘ f = pk from funext hpk]; exact t.nodup⟩, h⟩
  else none

theorem map?_rows [DecidableEq ν] {t t' : Indexed pk uk} {f : ρ → ρ} {hpk : ∀ r, pk (f r) = pk r}
    (h : t.map? f hpk = some t') : t'.rows = t.rows.map f := by
  unfold map? at h
  split_ifs at h
  cases h
  rfl

theorem map?_congr [DecidableEq ν] {f g : ρ → ρ} {hf : ∀ r, pk (f r) = pk r}
    {hg : ∀ r, pk (g r) = pk r} (h : ∀ r ∈ t, f r = g r) : t.map? f hf = t.map? g hg := by
  have hrows : t.rows.map f = t.rows.map g := List.map_congr_left h
  unfold map?
  simp only [hrows]

section Primary

variable [DecidableEq κ] {t : Indexed pk uk} {k : κ} {r : ρ}

/-- The row of primary key `k`. -/
def find (t : Indexed pk uk) (k : κ) : Option ρ := lookup pk k t.rows

theorem find_eq_some : t.find k = some r ↔ r ∈ t ∧ pk r = k := lookup_eq_some t.nodup

theorem find_eq_none : t.find k = none ↔ ∀ x ∈ t, pk x ≠ k := lookup_eq_none

theorem find_of_mem (h : r ∈ t) : t.find (pk r) = some r := lookup_of_mem t.nodup h

theorem eq_of_pk {x y : ρ} (hx : x ∈ t) (hy : y ∈ t) (h : pk x = pk y) : x = y := by
  have := find_of_mem hx
  rw [h, find_of_mem hy] at this
  exact (Option.some.inj this).symm

@[simp] theorem find_filter (p : ρ → Bool) : (t.filter p).find k = (t.find k).filter p :=
  lookup_filter t.nodup p

@[simp] theorem find_map {f : ρ → ρ} (hpk : ∀ r, pk (f r) = pk r) (huk : ∀ r, uk (f r) = uk r) :
    (t.map f hpk huk).find k = (t.find k).map f := lookup_map hpk

end Primary

section Unique

variable [DecidableEq ν] {t : Indexed pk uk} {u : ν} {r : ρ}

/-- The row that holds `u` in the unique index. -/
def findBy (t : Indexed pk uk) (u : ν) : Option ρ := lookup uk u t.rows

theorem findBy_eq_some : t.findBy u = some r ↔ r ∈ t ∧ uk r = u := lookup_eq_some t.uniq

theorem findBy_eq_none : t.findBy u = none ↔ ∀ x ∈ t, uk x ≠ u := lookup_eq_none

theorem findBy_of_mem (h : r ∈ t) : t.findBy (uk r) = some r := lookup_of_mem t.uniq h

theorem eq_of_uk {x y : ρ} (hx : x ∈ t) (hy : y ∈ t) (h : uk x = uk y) : x = y := by
  have := findBy_of_mem hx
  rw [h, findBy_of_mem hy] at this
  exact (Option.some.inj this).symm

@[simp] theorem findBy_filter (p : ρ → Bool) : (t.filter p).findBy u = (t.findBy u).filter p :=
  lookup_filter t.uniq p

@[simp] theorem findBy_map {f : ρ → ρ} (hpk : ∀ r, pk (f r) = pk r) (huk : ∀ r, uk (f r) = uk r) :
    (t.map f hpk huk).findBy u = (t.findBy u).map f := lookup_map huk

end Unique

variable [DecidableEq ν] {t t' : Indexed pk uk} {k : κ} {u : ν} {r : ρ}

theorem ext_findBy (hkeys : t.rows.map uk = t'.rows.map uk) (h : ∀ u, t.findBy u = t'.findBy u) : t = t' := by
  have hsome : ∀ t : Indexed pk uk, t.rows.map some = (t.rows.map uk).map t.findBy := by
    intro t
    rw [List.map_map]
    exact List.map_congr_left fun r hr => (findBy_of_mem hr).symm
  have hrows : t.rows.map some = t'.rows.map some := by
    rw [hsome t, hsome t', hkeys]
    exact List.map_congr_left fun u _ => h u
  exact ext ((Option.some_injective ρ).list_map hrows)

variable [DecidableEq κ]

def insertNew? (t : Indexed pk uk) (r : ρ) : Option (Indexed pk uk) :=
  if h : (∀ x ∈ t.rows, pk x ≠ pk r) ∧ ∀ x ∈ t.rows, uk x ≠ uk r then
    some ⟨⟨t.rows ++ [r], nodup_append_singleton t.nodup h.1⟩, nodup_append_singleton t.uniq h.2⟩
  else none

theorem findBy_eq_find (h : ∀ x ∈ t, pk x = k ↔ uk x = u) : t.findBy u = t.find k := by
  ext x
  rw [findBy_eq_some, find_eq_some]
  exact and_congr_right fun hx => (h x hx).symm

theorem find_map? {f : ρ → ρ} {hpk : ∀ r, pk (f r) = pk r} (h : t.map? f hpk = some t') (k : κ) :
    t'.find k = (t.find k).map f := by
  unfold find
  rw [map?_rows h, lookup_map hpk]

theorem insertNew?_rows (h : t.insertNew? r = some t') : t'.rows = t.rows ++ [r] := by
  unfold insertNew? at h
  split_ifs at h
  cases h
  rfl

theorem insertNew?_isSome : (t.insertNew? r).isSome ↔ t.find (pk r) = none ∧ t.findBy (uk r) = none := by
  rw [find_eq_none, findBy_eq_none]
  unfold insertNew?
  by_cases h : (∀ x ∈ t.rows, pk x ≠ pk r) ∧ ∀ x ∈ t.rows, uk x ≠ uk r
  · rw [dif_pos h]
    exact ⟨fun _ => h, fun _ => rfl⟩
  · rw [dif_neg h]
    exact ⟨fun e => absurd e (by simp), fun e => absurd e h⟩

theorem mem_insertNew? {x : ρ} (h : t.insertNew? r = some t') : x ∈ t' ↔ x ∈ t ∨ x = r := by
  rw [mem_def, insertNew?_rows h]
  simp [mem_def]

theorem find_insertNew? (h : t.insertNew? r = some t') (k : κ) :
    t'.find k = (t.find k).or (if pk r = k then some r else none) := by
  unfold find
  rw [insertNew?_rows h, lookup_append]

theorem findBy_insertNew? (h : t.insertNew? r = some t') (u : ν) :
    t'.findBy u = (t.findBy u).or (if uk r = u then some r else none) := by
  unfold findBy
  rw [insertNew?_rows h, lookup_append]

end Indexed

end Relational
