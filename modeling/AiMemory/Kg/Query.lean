import AiMemory.Db.Schema
import AiMemory.Lib.Recursion
import Mathlib.Data.Prod.Lex

/-!
# The knowledge graph query

`kg_query` follows links outwards from a memory with one recursive query. The conditions on a link are put together at
run time: each value that goes in is bound, and the text of the condition names it by its number, so the anchor and the
recursive member can carry the same conditions. `KgSql` is the statement with what is bound to it. SQLite prepares no statement
with a number above its limit.

Rows of the recursive table stand in the order SQLite takes them from its queue. `path` is the JSON array of the ids so
far. What SQL leaves open in the order of the result is settled by the order of the recursive table.
-/

namespace AiMemory

open Relational

structure KgQueryNode where
  targetId : String
  relation : String
  validFrom : Option String
  validUntil : Option String
  observedBy : Option String
  title : String
  targetNamespace : String
  depth : ℕ
  path : String
  deriving DecidableEq

namespace Kg

def kgQueryDefaultLimit : ℕ := 200

def kgQueryMaxLimit : ℕ := 1000

def kgQueryMaxSupportedDepth : ℕ := 5

/-! ## Bound values -/

/-- A value bound to a statement. -/
inductive Bind where
  | text (s : String)
  | int (n : ℕ)
  deriving DecidableEq

/-- The text bound to `?ph`. The first value is `?1`. -/
def textAt (binds : List Bind) (ph : ℕ) : Option String :=
  match binds[ph - 1]? with
  | some (.text s) => some s
  | _ => none

/-- The integer bound to `?ph`. -/
def intAt (binds : List Bind) (ph : ℕ) : Option ℕ :=
  match binds[ph - 1]? with
  | some (.int n) => some n
  | _ => none

/-- A condition of `hop_filter` on the row `ml`, with the numbers of what it reads. -/
inductive HopCond where
  /-- `ml.valid_from IS NOT NULL AND ml.valid_from <= ?` -/
  | validFrom (ph : ℕ)
  /-- `(ml.valid_until IS NULL OR ml.valid_until > ?)` -/
  | validUntil (ph : ℕ)
  /-- `ml.observed_by IN (?, ..)` -/
  | observedBy (phs : List ℕ)
  deriving DecidableEq

def HopCond.holds (binds : List Bind) (ml : LinkRow) : HopCond → Bool
  | .validFrom ph => ml.validFrom.any fun start => (textAt binds ph).any (start ≤ ·)
  | .validUntil ph => ml.validUntil.all fun stop => (textAt binds ph).any (· < stop)
  | .observedBy phs => ml.observedBy.any fun agent => phs.any fun ph => textAt binds ph = some agent

/-- The part of `hop_filter` for `valid_at`, after what was bound before. -/
def pushValidAt (binds : List Bind) : Option String → List Bind × List HopCond
  | none => (binds, [])
  | some t => (binds ++ [.text t, .text t], [.validFrom (binds.length + 1), .validUntil (binds.length + 2)])

def pushAgents (binds : List Bind) : List String → List Bind × List ℕ
  | [] => (binds, [])
  | a :: agents =>
    let rest := pushAgents (binds ++ [.text a]) agents
    (rest.1, (binds.length + 1) :: rest.2)

/-- The part of `hop_filter` for `allowed_agents`. -/
def pushAllowedAgents (binds : List Bind) : Option (List String) → List Bind × List HopCond
  | none => (binds, [])
  | some agents => ((pushAgents binds agents).1, [.observedBy (pushAgents binds agents).2])

/-- The statement, with the values bound to it and the numbers of the last three. -/
structure KgSql where
  binds : List Bind
  hopFilter : List HopCond
  sourcePh : ℕ
  maxDepthPh : ℕ
  limitPh : ℕ

/-- What `kg_query` prepares. -/
def prepare (sourceId : String) (maxDepth : ℕ) (validAt : Option String) (allowedAgents : Option (List String))
    (cap : ℕ) : KgSql :=
  let temporal := pushValidAt [] validAt
  let agents := pushAllowedAgents temporal.1 allowedAgents
  { binds := agents.1 ++ [.text sourceId, .int maxDepth, .int cap]
    hopFilter := temporal.2 ++ agents.2
    sourcePh := agents.1.length + 1
    maxDepthPh := agents.1.length + 2
    limitPh := agents.1.length + 3 }

/-! ## The statement -/

/-- A row of the recursive table `traversal`. -/
structure Traversal where
  targetId : String
  relation : String
  validFrom : Option String
  validUntil : Option String
  observedBy : Option String
  linkCreatedAt : String
  depth : ℕ
  path : List String
  deriving DecidableEq

/-- The columns of a row that ends with the link `ml`. -/
def row (ml : LinkRow) (depth : ℕ) (path : List String) : Traversal where
  targetId := ml.targetId
  relation := ml.relation
  validFrom := ml.validFrom
  validUntil := ml.validUntil
  observedBy := ml.observedBy
  linkCreatedAt := ml.createdAt
  depth := depth
  path := path

namespace KgSql

variable (sql : KgSql)

/-- `hop_filter` on the row `ml`. -/
def passes (ml : LinkRow) : Bool := sql.hopFilter.all (·.holds sql.binds ml)

def anchor (db : Db) : List Traversal :=
  (db.links.rows.filter fun ml => textAt sql.binds sql.sourcePh = some ml.sourceId ∧ sql.passes ml).map fun ml =>
    row ml 1 [ml.sourceId, ml.targetId]

/-- The recursive member, on one row `t` of the queue. -/
def extend (db : Db) (t : Traversal) : List Traversal :=
  (db.links.rows.filter fun ml =>
      ml.sourceId = t.targetId ∧ ((intAt sql.binds sql.maxDepthPh).any (t.depth < ·) ∧
        ml.targetId ∉ t.path ∧ sql.passes ml)).map fun ml =>
    row ml (t.depth + 1) (t.path ++ [ml.targetId])

end KgSql

/-- `ORDER BY t.depth, COALESCE(t.valid_from, t.link_created_at), t.link_created_at`. -/
def Traversal.sortKey (t : Traversal) : ℕ ×ₗ String ×ₗ String :=
  toLex (t.depth, toLex (t.validFrom.getD t.linkCreatedAt, t.linkCreatedAt))

/-- `JOIN memories m ON m.id = t.target_id`. -/
def joinTarget (db : Db) (t : Traversal) : Option (Traversal × MemoryRow) := (db.get t.targetId).map fun m => (t, m)

def toNode (t : Traversal) (m : MemoryRow) : KgQueryNode where
  targetId := t.targetId
  relation := t.relation
  validFrom := t.validFrom
  validUntil := t.validUntil
  observedBy := t.observedBy
  title := m.title
  targetNamespace := m.ns
  depth := t.depth
  path := "->".intercalate t.path

/-- The outer `SELECT`. -/
def select (sql : KgSql) (db : Db) (traversal : List Traversal) : List KgQueryNode :=
  let sorted := (traversal.filterMap (joinTarget db)).mergeSort fun a b => a.1.sortKey ≤ b.1.sortKey
  (sorted.take ((intAt sql.binds sql.limitPh).getD 0)).map fun x => toNode x.1 x.2

def cap (limit : Option ℕ) : ℕ := min (max (limit.getD kgQueryDefaultLimit) 1) kgQueryMaxLimit

/-- `SQLITE_LIMIT_VARIABLE_NUMBER`, the highest number of a bound value. -/
def sqliteVariableLimit : ℕ := 32766

/-- `kg_query`. The query may take `fuel` rows from its queue. -/
def kgQuery (db : Db) (sourceId : String) (maxDepth : ℕ) (validAt : Option String)
    (allowedAgents : Option (List String)) (limit : Option ℕ) (fuel : ℕ) : Option (Except String (List KgQueryNode)) :=
  if maxDepth = 0 then some (.error "max_depth must be >= 1")
  else if kgQueryMaxSupportedDepth < maxDepth then
    some (.error s!"max_depth={maxDepth} exceeds supported depth={kgQueryMaxSupportedDepth}")
  else if allowedAgents = some [] then some (.ok [])
  else
    let sql := prepare sourceId maxDepth validAt allowedAgents (cap limit)
    if sqliteVariableLimit < sql.binds.length then
      some (.error s!"variable number must be between ?1 and ?{sqliteVariableLimit}")
    else (Recursion.run (sql.extend db) fuel (sql.anchor db)).map fun traversal => .ok (select sql db traversal)

/-! ## What the placeholders read -/

section Placeholders

variable {binds rest : List Bind} {agents : List String} {o : String}

@[simp] theorem textAt_append_succ {s : String} : textAt (binds ++ .text s :: rest) (binds.length + 1) = some s := by
  simp [textAt]

theorem pushAgents_fst : (pushAgents binds agents).1 = binds ++ agents.map Bind.text := by
  induction agents generalizing binds with
  | nil => exact (List.append_nil _).symm
  | cons a agents ih =>
    rw [pushAgents, ih, List.append_assoc]
    rfl

/-- The placeholders of the agents read the agents, whatever is bound later. -/
theorem any_pushAgents : ((pushAgents binds agents).2.any fun ph =>
    textAt (binds ++ agents.map Bind.text ++ rest) ph = some o) = decide (o ∈ agents) := by
  induction agents generalizing binds with
  | nil => simp [pushAgents]
  | cons a agents ih =>
    have hbinds : binds ++ (a :: agents).map Bind.text ++ rest =
        binds ++ [.text a] ++ agents.map Bind.text ++ rest := by simp
    have hhead : textAt (binds ++ [.text a] ++ agents.map Bind.text ++ rest) (binds.length + 1) = some a := by
      rw [← hbinds, List.append_assoc]
      exact textAt_append_succ
    rw [pushAgents, List.any_cons, hbinds, hhead, ih]
    simp [eq_comm]

end Placeholders

/-- The link holds at the asked time, and an allowed agent observed it. -/
structure Passes (validAt : Option String) (allowedAgents : Option (List String)) (l : LinkRow) : Prop where
  started : ∀ t ∈ validAt, ∃ start ∈ l.validFrom, start ≤ t
  standing : ∀ t ∈ validAt, ∀ stop ∈ l.validUntil, t < stop
  trusted : ∀ agents ∈ allowedAgents, ∃ agent ∈ l.observedBy, agent ∈ agents

section Prepare

variable {sourceId : String} {maxDepth cap : ℕ} {validAt : Option String} {allowedAgents : Option (List String)}
  {rest : List Bind} {l : LinkRow}

/-- The condition for `valid_at` means what it should, whatever is bound later. -/
theorem all_pushValidAt (validAt : Option String) (rest : List Bind) (l : LinkRow) :
    ((pushValidAt [] validAt).2.all (·.holds ((pushValidAt [] validAt).1 ++ rest) l)) = true ↔
      ∀ t ∈ validAt, (∃ start ∈ l.validFrom, start ≤ t) ∧ ∀ stop ∈ l.validUntil, t < stop := by
  cases validAt with
  | none => simp [pushValidAt]
  | some t =>
    have hfirst : textAt (.text t :: .text t :: rest) 1 = some t := rfl
    have hsecond : textAt (.text t :: .text t :: rest) 2 = some t := rfl
    simp [pushValidAt, HopCond.holds, hfirst, hsecond, Option.any_eq_true, Option.all_eq_true]

/-- The condition for `allowed_agents` means what it should, after and before anything else that is bound. -/
theorem all_pushAllowedAgents {binds : List Bind} : ((pushAllowedAgents binds allowedAgents).2.all
      (·.holds ((pushAllowedAgents binds allowedAgents).1 ++ rest) l)) = true ↔
    ∀ agents ∈ allowedAgents, ∃ agent ∈ l.observedBy, agent ∈ agents := by
  cases allowedAgents with
  | none => simp [pushAllowedAgents]
  | some agents =>
    simp only [pushAllowedAgents, List.all_cons, List.all_nil, Bool.and_true, HopCond.holds, pushAgents_fst,
      any_pushAgents]
    simp [Option.any_eq_true]

theorem passes_prepare : (prepare sourceId maxDepth validAt allowedAgents cap).passes l = true ↔
    Passes validAt allowedAgents l := by
  obtain ⟨more, hmore⟩ : ∃ more, (pushAllowedAgents (pushValidAt [] validAt).1 allowedAgents).1 =
      (pushValidAt [] validAt).1 ++ more := by
    cases allowedAgents with
    | none => exact ⟨[], (List.append_nil _).symm⟩
    | some agents => exact ⟨_, pushAgents_fst⟩
  have htemporal := all_pushValidAt validAt (more ++ [.text sourceId, .int maxDepth, .int cap]) l
  rw [← List.append_assoc, ← hmore] at htemporal
  unfold KgSql.passes prepare
  rw [List.all_append, Bool.and_eq_true, htemporal, all_pushAllowedAgents]
  constructor
  · rintro ⟨htime, hagents⟩
    exact ⟨fun t ht => (htime t ht).1, fun t ht => (htime t ht).2, hagents⟩
  · rintro ⟨hstart, hstop, hagents⟩
    exact ⟨fun t ht => ⟨hstart t ht, hstop t ht⟩, hagents⟩

theorem textAt_sourcePh : textAt (prepare sourceId maxDepth validAt allowedAgents cap).binds
    (prepare sourceId maxDepth validAt allowedAgents cap).sourcePh = some sourceId := textAt_append_succ

theorem intAt_maxDepthPh : intAt (prepare sourceId maxDepth validAt allowedAgents cap).binds
    (prepare sourceId maxDepth validAt allowedAgents cap).maxDepthPh = some maxDepth := by
  simp [prepare, intAt]

theorem length_binds : (prepare sourceId maxDepth validAt allowedAgents cap).binds.length =
    (allowedAgents.getD []).length + (if validAt.isSome then 2 else 0) + 3 := by
  cases validAt <;> cases allowedAgents <;> simp [prepare, pushValidAt, pushAllowedAgents, pushAgents_fst]

theorem intAt_limitPh : intAt (prepare sourceId maxDepth validAt allowedAgents cap).binds
    (prepare sourceId maxDepth validAt allowedAgents cap).limitPh = some cap := by
  simp [prepare, intAt]

end Prepare

end Kg

end AiMemory
