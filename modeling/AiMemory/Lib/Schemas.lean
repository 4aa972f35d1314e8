import Mathlib.Data.Finset.Basic
import Mathlib.Data.Finset.Image
import Mathlib.Data.List.Forall2
import Mathlib.Tactic

/-!
# Schema scripts

A database as a schema script sees it: the tables, columns and indexes it has, and the rows of its tables. A
script is a list of statements of four kinds: a table created if it does not exist, a column added if a probe does
not find it, an index created if it does not exist, and a column of a table computed anew (`UPDATE`).

1. A statement adds to the schema and takes nothing away; what it looks for is there afterwards.
2. A script succeeds if every statement finds what it needs among what came before it.
3. Rows keep every value but those an update fills.
4. A script whose updates keep off each other's columns changes nothing when it is run again, whole or in part.
-/

namespace Ddl

variable {α : Type*}

/-- What a statement can ask for: a table, a column of a table, an index. -/
inductive Item where
  | table (name : String)
  | column (table name : String)
  | index (name : String)
  deriving DecidableEq

/-- A row, by column. -/
abbrev Row (α : Type*) := String → α

/-- The rows of every table. -/
abbrev Rows (α : Type*) := String → List (Row α)

/-- A database: no rows and no columns without a table. -/
@[ext (iff := false)]
structure Database (α : Type*) where
  schema : Finset Item
  rows : Rows α
  rows_eq_nil : ∀ {t}, .table t ∉ schema → rows t = []
  table_mem : ∀ {t c}, .column t c ∈ schema → .table t ∈ schema

/-! ## Rows that agree -/

/-- Two rows of `t` have the same values in the columns of `cols`. -/
def Row.Agrees (cols : List (String × String)) (t : String) (r r' : Row α) : Prop :=
  ∀ c, (t, c) ∈ cols → r' c = r c

/-- Two databases have as many rows in each table, with the same values in the columns of `cols`. -/
def Rows.Agrees (cols : List (String × String)) (rows rows' : Rows α) : Prop :=
  ∀ t, List.Forall₂ (Row.Agrees cols t) (rows t) (rows' t)

/-! ## Statements -/

/-- `UPDATE table SET column = …`: the new value of the column from the rows of the database, the row and the old
value, where `none` is an SQL error and a row the `WHERE` clause leaves out gets its old value. The value is read
off the columns of `reads`, the column itself is not one of them, and a value once computed stays. -/
structure Update (α : Type*) where
  table : String
  column : String
  reads : List (String × String)
  value : Rows α → Row α → α → Option α
  notMem_reads : (table, column) ∉ reads
  value_congr : ∀ {rows rows' : Rows α} {r r' : Row α} (v : α),
    rows.Agrees reads rows' → r.Agrees reads table r' → value rows' r' v = value rows r v
  value_value : ∀ {rows : Rows α} {r : Row α} {v w : α}, value rows r v = some w → value rows r w = some w

inductive Stmt (α : Type*) where
  /-- `CREATE TABLE IF NOT EXISTS`. -/
  | createTable (table : String) (columns : List String)
  /-- The probe for a column and `ALTER TABLE … ADD COLUMN`; a generated column has no stored value. -/
  | addColumn (table column : String) (stored : Option α)
  /-- `CREATE INDEX IF NOT EXISTS`. -/
  | createIndex (index table : String) (columns : List String)
  | update (u : Update α)

namespace Update

def row (u : Update α) (rows : Rows α) (r : Row α) : Option (Row α) :=
  (u.value rows r (r u.column)).map (Function.update r u.column)

def touches (u : Update α) : List (String × String) := (u.table, u.column) :: u.reads

end Update

namespace Stmt

def needs : Stmt α → List Item
  | .createTable _ _ => []
  | .addColumn t _ _ => [.table t]
  | .createIndex _ t cols => .table t :: cols.map (.column t)
  | .update u => .table u.table :: u.touches.map (fun p => .column p.1 p.2)

def guard : Stmt α → Option Item
  | .createTable t _ => some (.table t)
  | .addColumn t c _ => some (.column t c)
  | .createIndex i _ _ => some (.index i)
  | .update _ => none

/-- What the statement adds where it does not find what it looks for. -/
def adds : Stmt α → List Item
  | .createTable t cols => .table t :: cols.map (.column t)
  | .addColumn t c _ => [.column t c]
  | .createIndex i _ _ => [.index i]
  | .update _ => []

def newRows (s : Stmt α) (rows : Rows α) : Option (Rows α) :=
  match s with
  | .addColumn t c (some d) => some (Function.update rows t ((rows t).map fun r => Function.update r c d))
  | .update u => ((rows u.table).mapM (u.row rows)).map (Function.update rows u.table)
  | .createTable _ _ | .addColumn _ _ none | .createIndex _ _ _ => some rows

/-- The columns an update reads or writes, and the one it writes. -/
def touched : Stmt α → List (String × String)
  | .update u => u.touches
  | _ => []

def written : Stmt α → List (String × String)
  | .update u => [(u.table, u.column)]
  | _ => []

/-- The later statement does not write what the earlier one reads or writes. -/
def Apart (s s' : Stmt α) : Prop := ∀ p ∈ s'.written, p ∉ s.touched

instance (s s' : Stmt α) : Decidable (s.Apart s') := inferInstanceAs (Decidable (∀ p ∈ s'.written, p ∉ s.touched))

variable {s : Stmt α} {rows rows' : Rows α} {schema : Finset Item} {t c : String}

theorem newRows_nil (h : s.newRows rows = some rows') (ht : rows t = []) : rows' t = [] := by
  cases s with
  | createTable => cases h; exact ht
  | createIndex => cases h; exact ht
  | addColumn u c d =>
    cases d with
    | none => cases h; exact ht
    | some d =>
      cases h
      rcases eq_or_ne t u with rfl | hne
      · rw [Function.update_self, ht, List.map_nil]
      · rw [Function.update_of_ne hne, ht]
  | update u =>
    obtain ⟨new, hnew, rfl⟩ := Option.map_eq_some_iff.mp h
    rcases eq_or_ne t u.table with rfl | hne
    · rw [ht, List.mapM_nil] at hnew
      cases hnew
      exact Function.update_self ..
    · rw [Function.update_of_ne hne, ht]

theorem table_mem_adds (hneeds : ∀ x ∈ s.needs, x ∈ schema) (h : .column t c ∈ s.adds) :
    .table t ∈ schema ∪ s.adds.toFinset := by
  cases s with
  | createTable u cols =>
    obtain h | h := List.mem_cons.mp h
    · cases h
    · obtain ⟨_, _, h⟩ := List.mem_map.mp h
      cases h
      exact Finset.mem_union_right _ (List.mem_toFinset.mpr List.mem_cons_self)
  | addColumn u d stored =>
    cases List.mem_singleton.mp h
    exact Finset.mem_union_left _ (hneeds _ List.mem_cons_self)
  | createIndex i u cols => cases List.mem_singleton.mp h
  | update u => cases h

/-- Executes the statement: `none` is an SQL error. -/
def exec (s : Stmt α) (db : Database α) : Option (Database α) :=
  if ∃ x ∈ s.guard, x ∈ db.schema then some db
  else if hneeds : ∀ x ∈ s.needs, x ∈ db.schema then
    match hrows : s.newRows db.rows with
    | none => none
    | some rows => some {
        schema := db.schema ∪ s.adds.toFinset
        rows := rows
        rows_eq_nil := fun ht => newRows_nil hrows (db.rows_eq_nil fun h => ht (Finset.mem_union_left _ h))
        table_mem := fun h => (Finset.mem_union.mp h).elim (fun h => Finset.mem_union_left _ (db.table_mem h))
          fun h => table_mem_adds hneeds (List.mem_toFinset.mp h) }
  else none

theorem exec_cases {db db' : Database α} (h : s.exec db = some db') :
    (∃ x ∈ s.guard, x ∈ db.schema) ∧ db' = db ∨
      (∀ x ∈ s.guard, x ∉ db.schema) ∧ (∀ x ∈ s.needs, x ∈ db.schema) ∧
        db'.schema = db.schema ∪ s.adds.toFinset ∧ s.newRows db.rows = some db'.rows := by
  unfold exec at h
  split_ifs at h with hguard hneeds
  · cases h
    exact .inl ⟨hguard, rfl⟩
  · split at h
    · cases h
    · next rows hrows =>
      cases h
      exact .inr ⟨fun x hx hmem => hguard ⟨x, hx, hmem⟩, hneeds, rfl, hrows⟩

theorem exec_of_guard {db : Database α} {x : Item} (hx : x ∈ s.guard) (h : x ∈ db.schema) : s.exec db = some db :=
  if_pos ⟨x, hx, h⟩

theorem exists_exec {db : Database α} (hneeds : ∀ x ∈ s.needs, x ∈ db.schema)
    (hrows : ∃ rows, s.newRows db.rows = some rows) : ∃ db', s.exec db = some db' := by
  obtain ⟨rows, hrows⟩ := hrows
  unfold exec
  split_ifs with hguard
  · exact ⟨db, rfl⟩
  · split
    · next hnone => rw [hnone] at hrows; cases hrows
    · exact ⟨_, rfl⟩

end Stmt

def run : List (Stmt α) → Database α → Option (Database α)
  | [], db => some db
  | s :: script, db => (s.exec db).bind (run script)

variable {s : Stmt α} {script : List (Stmt α)} {db db' : Database α} {births : String → List String}

theorem run_cons (h : run (s :: script) db = some db') : ∃ mid, s.exec db = some mid ∧ run script mid = some db' :=
  Option.bind_eq_some_iff.mp h

theorem run_append (script' : List (Stmt α)) : run (script ++ script') db = (run script db).bind (run script') := by
  induction script generalizing db with
  | nil => rfl
  | cons s script ih =>
    show (s.exec db).bind (run (script ++ script')) = ((s.exec db).bind (run script)).bind (run script')
    cases s.exec db with
    | none => rfl
    | some mid => exact ih

/-! ## The schema grows -/

theorem Stmt.schema_subset_exec (h : s.exec db = some db') : db.schema ⊆ db'.schema := by
  obtain ⟨-, rfl⟩ | ⟨-, -, hschema, -⟩ := Stmt.exec_cases h
  · exact Finset.Subset.refl _
  · rw [hschema]; exact Finset.subset_union_left

theorem Stmt.exec_schema_subset (h : s.exec db = some db') : db'.schema ⊆ db.schema ∪ s.adds.toFinset := by
  obtain ⟨-, rfl⟩ | ⟨-, -, hschema, -⟩ := Stmt.exec_cases h
  · exact Finset.subset_union_left
  · rw [hschema]

variable {x : Item}

theorem Stmt.guard_mem_adds (hx : x ∈ s.guard) : x ∈ s.adds := by
  cases s <;> cases hx <;> exact List.mem_cons_self

theorem Stmt.guard_mem_exec (h : s.exec db = some db') (hx : x ∈ s.guard) : x ∈ db'.schema := by
  obtain ⟨⟨y, hy, hmem⟩, rfl⟩ | ⟨-, -, hschema, -⟩ := Stmt.exec_cases h
  · cases Option.mem_unique hx hy
    exact hmem
  · rw [hschema]
    exact Finset.mem_union_right _ (List.mem_toFinset.mpr (Stmt.guard_mem_adds hx))

theorem schema_subset_run (h : run script db = some db') : db.schema ⊆ db'.schema := by
  induction script generalizing db with
  | nil => cases h; exact Finset.Subset.refl _
  | cons s script ih =>
    obtain ⟨mid, hmid, h⟩ := run_cons h
    exact (Stmt.schema_subset_exec hmid).trans (ih h)

theorem run_schema_subset (h : run script db = some db') :
    db'.schema ⊆ db.schema ∪ (script.flatMap Stmt.adds).toFinset := by
  induction script generalizing db with
  | nil => cases h; exact Finset.subset_union_left
  | cons s script ih =>
    obtain ⟨mid, hmid, h⟩ := run_cons h
    intro x hx
    have hrest := ih h hx
    have hfirst : x ∈ mid.schema → x ∈ db.schema ∪ s.adds.toFinset := fun hx => Stmt.exec_schema_subset hmid hx
    simp only [Finset.mem_union, List.mem_toFinset, List.flatMap_cons, List.mem_append] at hrest hfirst ⊢
    tauto

theorem guard_mem_run (h : run script db = some db') (hs : s ∈ script) (hx : x ∈ s.guard) :
    x ∈ db'.schema := by
  induction script generalizing db with
  | nil => cases hs
  | cons s' script ih =>
    obtain ⟨mid, hmid, hrest⟩ := run_cons h
    obtain rfl | hs := List.mem_cons.mp hs
    · have hmem : x ∈ mid.schema := Stmt.guard_mem_exec hmid hx
      exact schema_subset_run hrest hmem
    · exact ih hrest hs

/-! ## Tables are born whole -/

/-- Every table there is has the columns it is born with. -/
def Whole (births : String → List String) (schema : Finset Item) : Prop :=
  ∀ t, .table t ∈ schema → ∀ c ∈ births t, .column t c ∈ schema

/-- A table the statement creates has the columns of its birth. -/
def Stmt.Bears (births : String → List String) : Stmt α → Prop
  | .createTable t cols => ∀ c ∈ births t, c ∈ cols
  | _ => True

instance (births : String → List String) (s : Stmt α) : Decidable (s.Bears births) := by
  cases s <;> unfold Stmt.Bears <;> infer_instance

theorem Stmt.whole_exec (hs : s.Bears births) (hwhole : Whole births db.schema) (h : s.exec db = some db') :
    Whole births db'.schema := by
  obtain ⟨-, rfl⟩ | ⟨-, -, hschema, -⟩ := Stmt.exec_cases h
  · exact hwhole
  · rw [hschema]
    intro t ht c hc
    obtain ht | ht := Finset.mem_union.mp ht
    · exact Finset.mem_union_left _ (hwhole t ht c hc)
    · refine Finset.mem_union_right _ (List.mem_toFinset.mpr ?_)
      rw [List.mem_toFinset] at ht
      cases s with
      | createTable u cols =>
        obtain ht | ht := List.mem_cons.mp ht
        · cases ht
          exact List.mem_cons_of_mem _ (List.mem_map_of_mem (hs c hc))
        · obtain ⟨_, _, ht⟩ := List.mem_map.mp ht
          cases ht
      | addColumn => cases List.mem_singleton.mp ht
      | createIndex => cases List.mem_singleton.mp ht
      | update => cases ht

theorem whole_run (hscript : ∀ s ∈ script, s.Bears births) (hwhole : Whole births db.schema)
    (h : run script db = some db') : Whole births db'.schema := by
  induction script generalizing db with
  | nil => cases h; exact hwhole
  | cons s script ih =>
    obtain ⟨mid, hmid, h⟩ := run_cons h
    exact ih (fun s hs => hscript s (List.mem_cons_of_mem _ hs))
      (Stmt.whole_exec (hscript s List.mem_cons_self) hwhole hmid) h

/-- What is surely there after the statement: what it looks for and, of a table, the columns of its birth. -/
def Stmt.provides (births : String → List String) : Stmt α → List Item
  | .createTable t _ => .table t :: (births t).map (.column t)
  | s => s.guard.toList

theorem Stmt.mem_of_provides (hguard : ∀ x ∈ s.guard, x ∈ db.schema) (hwhole : Whole births db.schema)
    (hx : x ∈ s.provides births) : x ∈ db.schema := by
  cases s with
  | createTable t cols =>
    have ht := hguard _ rfl
    obtain rfl | hx := List.mem_cons.mp hx
    · exact ht
    · obtain ⟨c, hc, rfl⟩ := List.mem_map.mp hx
      exact hwhole t ht c hc
  | _ => exact hguard x (Option.mem_toList.mp hx)

theorem provides_mem_run (hscript : ∀ s ∈ script, s.Bears births) (hwhole : Whole births db.schema)
    (h : run script db = some db') (hs : s ∈ script) (hx : x ∈ s.provides births) : x ∈ db'.schema :=
  Stmt.mem_of_provides (fun _ => guard_mem_run h hs) (whole_run hscript hwhole h) hx

/-! ## A script that succeeds -/

/-- Every statement of the script finds what it needs among what was there and what came before it. -/
def Supplied (births : String → List String) : List Item → List (Stmt α) → Prop
  | _, [] => True
  | given, s :: script => (∀ x ∈ s.needs, x ∈ given) ∧ Supplied births (given ++ s.provides births) script

instance decidableSupplied (births : String → List String) : ∀ (given : List Item) (script : List (Stmt α)),
    Decidable (Supplied births given script)
  | _, [] => .isTrue trivial
  | given, s :: script =>
    have := decidableSupplied births (given ++ s.provides births) script
    inferInstanceAs (Decidable ((∀ x ∈ s.needs, x ∈ given) ∧ Supplied births (given ++ s.provides births) script))

variable {given : List Item}

theorem supplied_append {script' : List (Stmt α)}
    (h : Supplied births given (script ++ script')) :
    Supplied births (given ++ script.flatMap (Stmt.provides births)) script' := by
  induction script generalizing given with
  | nil => simpa using h
  | cons s script ih =>
    rw [List.flatMap_cons, ← List.append_assoc]
    exact ih h.2

theorem exists_run {P : Database α → Prop} (hscript : ∀ s ∈ script, s.Bears births)
    (hrows : ∀ s ∈ script, ∀ db, P db → (∀ x ∈ s.needs, x ∈ db.schema) → ∃ rows, s.newRows db.rows = some rows)
    (hexec : ∀ s ∈ script, ∀ db db', P db → s.exec db = some db' → P db')
    (hsupplied : Supplied births given script) (hgiven : ∀ x ∈ given, x ∈ db.schema)
    (hwhole : Whole births db.schema) (hP : P db) : ∃ db', run script db = some db' := by
  induction script generalizing db given with
  | nil => exact ⟨db, rfl⟩
  | cons s script ih =>
    obtain ⟨hneeds, hsupplied⟩ := hsupplied
    have hs := List.mem_cons_self (a := s) (l := script)
    have hthere : ∀ x ∈ s.needs, x ∈ db.schema := fun x hx => hgiven x (hneeds x hx)
    obtain ⟨mid, hmid⟩ := Stmt.exists_exec hthere (hrows s hs db hP hthere)
    have hwholeMid := Stmt.whole_exec (hscript s hs) hwhole hmid
    have hgivenMid : ∀ x ∈ given ++ s.provides births, x ∈ mid.schema := by
      intro x hx
      obtain hx | hx := List.mem_append.mp hx
      · exact Stmt.schema_subset_exec hmid (hgiven x hx)
      · exact Stmt.mem_of_provides (fun _ => Stmt.guard_mem_exec hmid) hwholeMid hx
    obtain ⟨db', hdb'⟩ := ih (fun s hs => hscript s (List.mem_cons_of_mem _ hs))
      (fun s hs => hrows s (List.mem_cons_of_mem _ hs)) (fun s hs => hexec s (List.mem_cons_of_mem _ hs)) hsupplied
      hgivenMid hwholeMid (hexec s hs db mid hP hmid)
    exact ⟨db', by rw [run, hmid]; exact hdb'⟩

/-! ## Names alone

What a script needs, adds and touches is a matter of names: it can be decided on the script without its values. -/

def Stmt.names : Stmt α → Stmt Unit
  | .createTable t cols => .createTable t cols
  | .addColumn t c d => .addColumn t c (d.map fun _ => ())
  | .createIndex i t cols => .createIndex i t cols
  | .update u => .update {
      table := u.table
      column := u.column
      reads := u.reads
      value := fun _ _ _ => some ()
      notMem_reads := u.notMem_reads
      value_congr := fun _ _ _ => rfl
      value_value := fun _ => rfl }

namespace Stmt

theorem needs_names (s : Stmt α) : s.names.needs = s.needs := by cases s <;> rfl

theorem adds_names (s : Stmt α) : s.names.adds = s.adds := by cases s <;> rfl

theorem provides_names (s : Stmt α) : s.names.provides births = s.provides births := by cases s <;> rfl

theorem bears_names (s : Stmt α) : s.names.Bears births ↔ s.Bears births := by cases s <;> rfl

theorem written_names (s : Stmt α) : s.names.written = s.written := by cases s <;> rfl

theorem apart_names (s s' : Stmt α) : s.names.Apart s'.names ↔ s.Apart s' := by cases s <;> cases s' <;> rfl

end Stmt

theorem supplied_names : Supplied births given (script.map Stmt.names) ↔
    Supplied births given script := by
  induction script generalizing given with
  | nil => rfl
  | cons s script ih =>
    rw [List.map_cons, Supplied, Supplied, Stmt.needs_names, Stmt.provides_names, ih]

theorem apart_map_names : (script.map Stmt.names).Pairwise Stmt.Apart ↔ script.Pairwise Stmt.Apart := by
  rw [List.pairwise_map]
  exact List.Pairwise.iff fun _ _ => Stmt.apart_names _ _

/-! ## What rows keep -/

theorem forall₂_self {β : Type*} {R : β → β → Prop} {l : List β} (h : ∀ x ∈ l, R x x) : List.Forall₂ R l l :=
  List.forall₂_same.mpr h

/-- A column that is there keeps its values, but for those an update fills: `Fill t c v w` says that `w` may take the
place of `v` in column `c` of table `t`. -/
def Kept (Fill : String → String → α → α → Prop) (db db' : Database α) : Prop :=
  ∀ t, List.Forall₂ (fun r r' => ∀ c, .column t c ∈ db.schema → r' c = r c ∨ Fill t c (r c) (r' c)) (db.rows t) (db'.rows t)

variable {Fill : String → String → α → α → Prop}

/-- The statement writes nothing but what `Fill` allows. -/
def Stmt.Fills (Fill : String → String → α → α → Prop) : Stmt α → Prop
  | .update u => ∀ rows r v w, u.value rows r v = some w → w = v ∨ Fill u.table u.column v w
  | _ => True

theorem kept_refl (db : Database α) : Kept Fill db db := fun _ => forall₂_self fun _ _ _ _ => .inl rfl

theorem Kept.trans {mid : Database α} (hFill : ∀ t c u v w, Fill t c u v → Fill t c v w → Fill t c u w)
    (hsub : db.schema ⊆ mid.schema) (h : Kept Fill db mid) (h' : Kept Fill mid db') : Kept Fill db db' := by
  intro t
  have key : ∀ {l₁ l₂ l₃ : List (Row α)},
      List.Forall₂ (fun r r' => ∀ c, .column t c ∈ db.schema → r' c = r c ∨ Fill t c (r c) (r' c)) l₁ l₂ →
      List.Forall₂ (fun r r' => ∀ c, .column t c ∈ mid.schema → r' c = r c ∨ Fill t c (r c) (r' c)) l₂ l₃ →
      List.Forall₂ (fun r r' => ∀ c, .column t c ∈ db.schema → r' c = r c ∨ Fill t c (r c) (r' c)) l₁ l₃ := by
    intro l₁ l₂ l₃ h₁ h₂
    induction h₁ generalizing l₃ with
    | nil => cases h₂; exact .nil
    | cons hr _ ih =>
      obtain _ | ⟨hr', hrest⟩ := h₂
      refine .cons (fun c hc => ?_) (ih hrest)
      obtain he | hf := hr c hc
      · rw [← he]; exact hr' c (hsub hc)
      · obtain he' | hf' := hr' c (hsub hc)
        · rw [he']; exact .inr hf
        · exact .inr (hFill _ _ _ _ _ hf hf')
  exact key (h t) (h' t)

theorem forall₂_map_update {R : Row α → Row α → Prop} {l : List (Row α)} {f : Row α → Row α} (h : ∀ r ∈ l, R r (f r)) :
    List.Forall₂ R l (l.map f) := by
  rw [List.forall₂_map_right_iff]
  exact forall₂_self h

theorem forall₂_mapM {R : Row α → Row α → Prop} {f : Row α → Option (Row α)} {l l' : List (Row α)}
    (h : ∀ r r', f r = some r' → R r r') (hmap : l.mapM f = some l') : List.Forall₂ R l l' := by
  induction l generalizing l' with
  | nil => cases hmap; exact .nil
  | cons r l ih =>
    rw [List.mapM_cons] at hmap
    obtain ⟨r', hr, hmap⟩ := Option.bind_eq_some_iff.mp hmap
    obtain ⟨rest, hrest, hmap⟩ := Option.bind_eq_some_iff.mp hmap
    cases hmap
    exact .cons (h r r' hr) (ih hrest)

/-- What a statement that does something does to the values of a column that was there before it. -/
theorem Stmt.newRows_column {rows rows' : Rows α} {P : String → String → α → α → Prop} (hrefl : ∀ t c v, P t c v v)
    (hupdate : ∀ u, s = .update u → ∀ rows r v w, u.value rows r v = some w → P u.table u.column v w)
    {K : String → String → Prop} (hcols : ∀ t c d, s = .addColumn t c d → ¬K t c) (h : s.newRows rows = some rows')
    (t : String) : List.Forall₂ (fun r r' => ∀ c, K t c → P t c (r c) (r' c)) (rows t) (rows' t) := by
  have hsame : List.Forall₂ (fun r r' => ∀ c, K t c → P t c (r c) (r' c)) (rows t) (rows t) :=
    forall₂_self fun _ _ _ _ => hrefl _ _ _
  cases s with
  | createTable => cases h; exact hsame
  | createIndex => cases h; exact hsame
  | addColumn u c d =>
    cases d with
    | none => cases h; exact hsame
    | some d =>
      cases h
      rcases eq_or_ne t u with rfl | hne
      · rw [Function.update_self]
        refine forall₂_map_update fun r _ c' hc' => ?_
        rcases eq_or_ne c' c with rfl | hcne
        · exact absurd hc' (hcols _ _ _ rfl)
        · rw [Function.update_of_ne hcne]; exact hrefl _ _ _
      · rw [Function.update_of_ne hne]; exact hsame
  | update u =>
    obtain ⟨new, hnew, rfl⟩ := Option.map_eq_some_iff.mp h
    rcases eq_or_ne t u.table with rfl | hne
    · rw [Function.update_self]
      refine forall₂_mapM (fun r r' hr c _ => ?_) hnew
      obtain ⟨w, hw, rfl⟩ := Option.map_eq_some_iff.mp hr
      rcases eq_or_ne c u.column with rfl | hcne
      · rw [Function.update_self]; exact hupdate u rfl _ _ _ _ hw
      · rw [Function.update_of_ne hcne]; exact hrefl _ _ _
    · rw [Function.update_of_ne hne]; exact hsame

/-- A column that was there is not the one an `ALTER TABLE` adds. -/
theorem Stmt.notMem_of_addColumn {t c : String} {d : Option α} (hguard : ∀ x ∈ s.guard, x ∉ db.schema)
    (hs : s = .addColumn t c d) : .column t c ∉ db.schema :=
  hguard _ (by rw [hs]; rfl)

theorem Stmt.kept_exec (hfills : s.Fills Fill) (h : s.exec db = some db') : Kept Fill db db' := by
  obtain ⟨-, rfl⟩ | ⟨hguard, -, -, hrows⟩ := Stmt.exec_cases h
  · exact kept_refl _
  · refine Stmt.newRows_column (P := fun t c v w => w = v ∨ Fill t c v w) (fun _ _ _ => .inl rfl) ?_
      (K := fun t c => .column t c ∈ db.schema) (fun _ _ _ => Stmt.notMem_of_addColumn hguard) hrows
    rintro u rfl
    exact hfills

theorem kept_run (hFill : ∀ t c u v w, Fill t c u v → Fill t c v w → Fill t c u w) (hfills : ∀ s ∈ script, s.Fills Fill)
    (h : run script db = some db') : Kept Fill db db' := by
  induction script generalizing db with
  | nil => cases h; exact kept_refl _
  | cons s script ih =>
    obtain ⟨mid, hmid, h⟩ := run_cons h
    exact Kept.trans hFill (Stmt.schema_subset_exec hmid) (Stmt.kept_exec (hfills s List.mem_cons_self) hmid)
      (ih (fun s hs => hfills s (List.mem_cons_of_mem _ hs)) h)

/-- Every value of the column, if it is there, is one of `Q`. -/
def Database.AllIn (Q : α → Prop) (t c : String) (db : Database α) : Prop :=
  .column t c ∈ db.schema → ∀ r ∈ db.rows t, Q (r c)

theorem Stmt.allIn_exec {Q : α → Prop} {t c : String} (hborn : ∀ d, s = .addColumn t c d → ∃ v ∈ d, Q v)
    (hupdate : ∀ u, s = .update u → u.table = t → u.column = c → ∀ rows r v w, u.value rows r v = some w → Q v → Q w)
    (hall : db.AllIn Q t c) (h : s.exec db = some db') : db'.AllIn Q t c := by
  obtain ⟨-, rfl⟩ | ⟨hguard, -, hschema, hrows⟩ := Stmt.exec_cases h
  · exact hall
  · intro hmem r' hr'
    rw [hschema, Finset.mem_union, List.mem_toFinset] at hmem
    by_cases hold : .column t c ∈ db.schema
    · have hnew := Stmt.newRows_column (P := fun t' c' v w => t' = t → c' = c → Q v → Q w) (fun _ _ _ _ _ hv => hv)
        (fun u hu rows r v w hw ht hc => hupdate u hu ht hc rows r v w hw)
        (K := fun t c => .column t c ∈ db.schema) (fun _ _ _ => Stmt.notMem_of_addColumn hguard) hrows t
      obtain ⟨i, hi, rfl⟩ := List.getElem_of_mem hr'
      have hlen := hnew.length_eq
      exact List.forall₂_iff_get.mp hnew |>.2 i (by omega) hi c hold rfl rfl (hall hold _ (List.getElem_mem _))
    · have hadds := hmem.resolve_left hold
      cases s with
      | createTable u cols =>
        obtain hadds | hadds := List.mem_cons.mp hadds
        · cases hadds
        · obtain ⟨_, _, he⟩ := List.mem_map.mp hadds
          cases he
          rw [← Option.some.inj hrows, db.rows_eq_nil (hguard _ rfl)] at hr'
          cases hr'
      | addColumn u d stored =>
        cases List.mem_singleton.mp hadds
        obtain ⟨v, hv, hQ⟩ := hborn stored rfl
        cases hv
        rw [← Option.some.inj hrows, Function.update_self] at hr'
        obtain ⟨r, -, rfl⟩ := List.mem_map.mp hr'
        rw [Function.update_self]
        exact hQ
      | createIndex => cases List.mem_singleton.mp hadds
      | update => cases hadds

/-! ## A script run again -/

theorem Stmt.agrees_exec {cols : List (String × String)} (hcols : ∀ p ∈ cols, .column p.1 p.2 ∈ db.schema)
    (hapart : ∀ p ∈ s.written, p ∉ cols) (h : s.exec db = some db') : db.rows.Agrees cols db'.rows := by
  obtain ⟨-, rfl⟩ | ⟨hguard, -, -, hrows⟩ := Stmt.exec_cases h
  · exact fun _ => forall₂_self fun _ _ _ _ => rfl
  · refine Stmt.newRows_column (P := fun t c v w => (t, c) ∈ cols → w = v) (fun _ _ _ _ => rfl) ?_
      (K := fun t c => (t, c) ∈ cols) ?_ hrows |> fun h t => (h t).imp fun r r' hr c hc => hr c hc hc
    · rintro u rfl _ _ _ _ _ hmem
      exact absurd hmem (hapart _ List.mem_cons_self)
    · exact fun t c d hs hmem => Stmt.notMem_of_addColumn hguard hs (hcols _ hmem)

theorem mapM_eq_self_iff {f : Row α → Option (Row α)} {l : List (Row α)} : l.mapM f = some l ↔ ∀ r ∈ l, f r = some r := by
  induction l with
  | nil => exact iff_of_true rfl (List.forall_mem_nil _)
  | cons r l ih =>
    rw [List.mapM_cons, List.forall_mem_cons, ← ih]
    constructor
    · intro h
      obtain ⟨r', hr, h⟩ := Option.bind_eq_some_iff.mp h
      obtain ⟨rest, hrest, h⟩ := Option.bind_eq_some_iff.mp h
      cases h
      exact ⟨hr, hrest⟩
    · rintro ⟨hr, hrest⟩
      rw [hr, hrest]
      rfl

/-- An update that succeeds leaves every row of its table as it stands. -/
def Update.Settled (u : Update α) (rows : Rows α) : Prop :=
  ∀ r ∈ rows u.table, u.value rows r (r u.column) = some (r u.column)

namespace Update

variable {u : Update α} {rows rows' : Rows α}

theorem row_eq_self_iff {r : Row α} : u.row rows r = some r ↔ u.value rows r (r u.column) = some (r u.column) := by
  rw [row, Option.map_eq_some_iff]
  constructor
  · rintro ⟨w, hw, he⟩
    have hcol := congrFun he u.column
    rw [Function.update_self] at hcol
    rw [hw, hcol]
  · exact fun h => ⟨_, h, Function.update_eq_self _ _⟩

theorem newRows_eq_self_iff : Stmt.newRows (.update u) rows = some rows ↔ u.Settled rows := by
  have hstep : Stmt.newRows (.update u) rows = some rows ↔ (rows u.table).mapM (u.row rows) = some (rows u.table) := by
    unfold Stmt.newRows
    rw [Option.map_eq_some_iff]
    constructor
    · rintro ⟨new, hnew, he⟩
      have htable := congrFun he u.table
      rw [Function.update_self] at htable
      rw [hnew, htable]
    · exact fun h => ⟨_, h, Function.update_eq_self _ _⟩
  rw [hstep, mapM_eq_self_iff]
  exact forall₂_congr fun r _ => row_eq_self_iff

theorem settled_of_newRows (h : Stmt.newRows (.update u) rows = some rows') : u.Settled rows' := by
  obtain ⟨new, hnew, rfl⟩ := Option.map_eq_some_iff.mp h
  have hagrees : rows.Agrees u.reads (Function.update rows u.table new) := by
    refine Stmt.newRows_column (s := .update u) (P := fun t c v w => (t, c) ∈ u.reads → w = v) (fun _ _ _ _ => rfl) ?_
      (K := fun t c => (t, c) ∈ u.reads) (fun _ _ _ hs => by cases hs) h |> fun h t => (h t).imp fun r r' hr c hc =>
        hr c hc hc
    rintro u' hu _ _ _ _ _ hmem
    cases hu
    exact absurd hmem u.notMem_reads
  intro r hr
  rw [Function.update_self] at hr
  have hall : List.Forall₂ (fun _ r' => u.value (Function.update rows u.table new) r' (r' u.column) = some (r' u.column))
      (rows u.table) new := by
    refine forall₂_mapM (fun r r' hr => ?_) hnew
    obtain ⟨w, hw, rfl⟩ := Option.map_eq_some_iff.mp hr
    rw [Function.update_self, u.value_congr w hagrees (r := r)]
    · exact u.value_value hw
    · intro c hc
      refine Function.update_of_ne ?_ _ _
      rintro rfl
      exact u.notMem_reads hc
  obtain ⟨i, hi, rfl⟩ := List.getElem_of_mem hr
  have hlen := hall.length_eq
  exact List.forall₂_iff_get.mp hall |>.2 i (by omega) hi

theorem Settled.of_agrees (h : u.Settled rows) (hagrees : rows.Agrees u.touches rows') : u.Settled rows' := by
  have hreads : rows.Agrees u.reads rows' := fun t => (hagrees t).imp fun r r' hr c hc => hr c (List.mem_cons_of_mem _ hc)
  intro r' hr'
  obtain ⟨i, hi, rfl⟩ := List.getElem_of_mem hr'
  have hlen := (hagrees u.table).length_eq
  have hrow := List.forall₂_iff_get.mp (hagrees u.table) |>.2 i (by omega) hi
  have hold := h _ (List.getElem_mem (show i < (rows u.table).length by omega))
  simp only [List.get_eq_getElem] at hrow
  rw [hrow u.column List.mem_cons_self, u.value_congr _ hreads fun c hc => hrow c (List.mem_cons_of_mem _ hc)]
  exact hold

end Update

/-- The statement does nothing. -/
def Stmt.Settled (s : Stmt α) (db : Database α) : Prop := s.exec db = some db

namespace Stmt

theorem settled_of_guard (h : s.Settled db) {x : Item} (hx : x ∈ s.guard) : x ∈ db.schema := guard_mem_exec h hx

theorem settled_update_iff {u : Update α} :
    (Stmt.update u).Settled db ↔ (∀ x ∈ (Stmt.update u).needs, x ∈ db.schema) ∧ u.Settled db.rows := by
  constructor
  · intro h
    obtain ⟨⟨x, hx, -⟩, -⟩ | ⟨-, hneeds, -, hrows⟩ := exec_cases h
    · cases hx
    · exact ⟨hneeds, Update.newRows_eq_self_iff.mp hrows⟩
  · rintro ⟨hneeds, hsettled⟩
    have hrows := Update.newRows_eq_self_iff.mpr hsettled
    obtain ⟨db', hdb'⟩ := exists_exec hneeds ⟨_, hrows⟩
    obtain ⟨⟨x, hx, -⟩, -⟩ | ⟨-, -, hschema, hrows'⟩ := exec_cases hdb'
    · cases hx
    · rw [hrows] at hrows'
      refine hdb'.trans (congrArg some (Database.ext ?_ (Option.some.inj hrows').symm))
      rw [hschema]
      exact Finset.union_empty _

theorem settled_of_exec (h : s.exec db = some db') : s.Settled db' := by
  cases s with
  | update u =>
    obtain ⟨⟨x, hx, -⟩, -⟩ | ⟨-, hneeds, -, hrows⟩ := exec_cases h
    · cases hx
    · exact settled_update_iff.mpr ⟨fun x hx => schema_subset_exec h (hneeds x hx), Update.settled_of_newRows hrows⟩
  | createTable => exact exec_of_guard rfl (guard_mem_exec h rfl)
  | addColumn => exact exec_of_guard rfl (guard_mem_exec h rfl)
  | createIndex => exact exec_of_guard rfl (guard_mem_exec h rfl)

/-- And it stays so after a statement that keeps off its columns. -/
theorem Settled.exec {s' : Stmt α} (h : s.Settled db) (hapart : s.Apart s') (hexec : s'.exec db = some db') :
    s.Settled db' := by
  have hsub := schema_subset_exec hexec
  cases s with
  | update u =>
    obtain ⟨hneeds, hsettled⟩ := settled_update_iff.mp h
    refine settled_update_iff.mpr ⟨fun x hx => hsub (hneeds x hx),
      hsettled.of_agrees (agrees_exec (fun p hp => ?_) hapart hexec)⟩
    exact hneeds _ (List.mem_cons_of_mem _ (List.mem_map_of_mem hp))
  | createTable => exact exec_of_guard rfl (hsub (settled_of_guard h rfl))
  | addColumn => exact exec_of_guard rfl (hsub (settled_of_guard h rfl))
  | createIndex => exact exec_of_guard rfl (hsub (settled_of_guard h rfl))

end Stmt

theorem Stmt.Settled.run (h : s.Settled db) (hapart : ∀ s' ∈ script, s.Apart s') (hrun : run script db = some db') :
    s.Settled db' := by
  induction script generalizing db with
  | nil => cases hrun; exact h
  | cons s' script ih =>
    obtain ⟨mid, hmid, hrun⟩ := run_cons hrun
    exact ih (h.exec (hapart s' List.mem_cons_self) hmid) (fun s' hs' => hapart s' (List.mem_cons_of_mem _ hs')) hrun

theorem settled_run (hapart : script.Pairwise Stmt.Apart) (h : run script db = some db') :
    ∀ s ∈ script, s.Settled db' := by
  induction script generalizing db with
  | nil => exact List.forall_mem_nil _
  | cons s script ih =>
    obtain ⟨hfirst, hapart⟩ := List.pairwise_cons.mp hapart
    obtain ⟨mid, hmid, h⟩ := run_cons h
    exact List.forall_mem_cons.mpr ⟨(Stmt.settled_of_exec hmid).run hfirst h, ih hapart h⟩

theorem run_eq_self (h : ∀ s ∈ script, s.Settled db) : run script db = some db := by
  induction script with
  | nil => rfl
  | cons s script ih =>
    obtain ⟨hs, hscript⟩ := List.forall_mem_cons.mp h
    rw [run, show s.exec db = some db from hs]
    exact ih hscript

theorem run_again {script' : List (Stmt α)} (hapart : script.Pairwise Stmt.Apart) (h : run script db = some db')
    (hsub : ∀ s ∈ script', s ∈ script) : run script' db' = some db' :=
  run_eq_self fun s hs => settled_run hapart h s (hsub s hs)

end Ddl
