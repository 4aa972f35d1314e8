import Mathlib.Data.Rat.Defs
import Mathlib.Algebra.Order.Field.Rat
import AiMemory.Model.Json

/-!
# The data model

The structures of `models.rs` that cross function boundaries: a memory, a link between two memories,
a pending governance action with its decision, and a namespace standard. Timestamps are RFC 3339
strings, compared as strings by both Rust and SQLite. `confidence` is a finite `f64`, kept as the
rational number it denotes; `priority` and `access_count` are integers.
-/

namespace AiMemory

inductive Tier where
  | short
  | mid
  | long
  deriving DecidableEq, Inhabited, Repr

namespace Tier

def asStr : Tier → String
  | short => "short"
  | mid => "mid"
  | long => "long"

def fromStr (s : String) : Option Tier :=
  if s = "short" then some short
  else if s = "mid" then some mid
  else if s = "long" then some long
  else none

/-- `Short = 0, Mid = 1, Long = 2`. -/
def rank : Tier → ℕ
  | short => 0
  | mid => 1
  | long => 2

theorem rank_injective : Function.Injective rank := by
  intro a b h
  cases a <;> cases b <;> first | rfl | (exfalso; revert h; decide)

instance : LinearOrder Tier := LinearOrder.lift' rank rank_injective

end Tier

structure Memory where
  id : String
  tier : Tier
  ns : String
  title : String
  content : String
  tags : List String
  priority : ℤ
  confidence : ℚ
  source : String
  accessCount : ℤ
  createdAt : String
  updatedAt : String
  lastAccessedAt : Option String
  expiresAt : Option String
  metadata : Json
  deriving DecidableEq

/-- The columns of the unique index `idx_memories_title_ns`. -/
def Memory.key (m : Memory) : String × String := (m.title, m.ns)

structure MemoryLink where
  sourceId : String
  targetId : String
  relation : String
  createdAt : String
  signature : Option (List UInt8)
  observedBy : Option String
  validFrom : Option String
  validUntil : Option String
  deriving DecidableEq

inductive GovernedAction where
  | store
  | delete
  | promote
  deriving DecidableEq, Repr

def GovernedAction.asStr : GovernedAction → String
  | store => "store"
  | delete => "delete"
  | promote => "promote"

/-- `Approval`: one vote on a consensus-gated action. -/
structure Approval where
  agentId : String
  approvedAt : String
  deriving DecidableEq

structure PendingAction where
  id : String
  actionType : String
  memoryId : Option String
  ns : String
  payload : Json
  requestedBy : String
  requestedAt : String
  status : String
  decidedBy : Option String
  decidedAt : Option String
  approvals : List Approval
  deriving DecidableEq

structure PendingDecision where
  id : String
  approved : Bool
  decider : String
  deriving DecidableEq

inductive PermissionsMode where
  | enforce
  | advisory
  | off
  deriving DecidableEq, Repr

structure NamespaceMetaEntry where
  ns : String
  standardId : String
  parentNamespace : Option String
  updatedAt : String
  deriving DecidableEq

/-! ## Hierarchical namespaces -/

/-- `namespace_parent`: what stands before the last `/`. -/
def namespaceParent (ns : String) : Option String :=
  match ns.toList.reverse.dropWhile (· ≠ '/') with
  | [] => none
  | _ :: rest => some (String.ofList rest.reverse)

/-- The loop of `namespace_ancestors`; each parent is shorter, so `fuel` the length is enough. -/
def namespaceAncestorsFrom : ℕ → String → List String
  | 0, _ => []
  | fuel + 1, current =>
    current :: match namespaceParent current with
      | some p => if p = "" then [] else namespaceAncestorsFrom fuel p
      | none => []

/-- `namespace_ancestors`: most specific first, the namespace itself included. -/
def namespaceAncestors (ns : String) : List String :=
  if ns = "" then [] else namespaceAncestorsFrom ns.length ns

example : namespaceAncestors "alphaone/engineering/platform" =
    ["alphaone/engineering/platform", "alphaone/engineering", "alphaone"] := by decide

def namespaceDepth (ns : String) : ℕ :=
  if ns = "" then 0 else ((ns.toList.splitOn '/').filter (· ≠ [])).length

def maxNamespaceDepth : ℕ := 8

def maxContentSize : ℕ := 65536

def promotionThreshold : ℤ := 5

end AiMemory
