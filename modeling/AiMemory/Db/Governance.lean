import AiMemory.Db.Memories

/-!
# Namespace standards and governance policies

A namespace points to a standard memory through `namespace_meta`; the standard's
`metadata.governance` is the policy of the namespace. `resolve_governance_policy` walks the chain of a
namespace from the leaf up and takes the first policy it finds.

`GovernancePolicy.fromValue` is the derived `Deserialize`: an object or an array of the fields in
order, and an enum as its tag or as an object with one field.
-/

namespace AiMemory

open Relational

/-! ## Policies -/

inductive GovernanceLevel where
  | any
  | registered
  | owner
  | approve
  deriving DecidableEq, Repr

inductive ApproverType where
  | human
  | agent (agentId : String)
  | consensus (quorum : ℕ)
  deriving DecidableEq, Repr

structure GovernancePolicy where
  write : GovernanceLevel
  promote : GovernanceLevel
  delete : GovernanceLevel
  approver : ApproverType
  inherit : Bool
  deriving DecidableEq, Repr

/-- The variant an externally tagged enum names, with its content. -/
def enumTag : Json → Option (String × Option Json)
  | .str tag => some (tag, none)
  | .obj [(tag, v)] => some (tag, some v)
  | _ => none

def GovernanceLevel.fromValue (j : Json) : Option GovernanceLevel := do
  let (tag, content) ← enumTag j
  if content = none ∨ content = some .null then
    match tag with
    | "any" => some .any
    | "registered" => some .registered
    | "owner" => some .owner
    | "approve" => some .approve
    | _ => none
  else none

def ApproverType.fromValue (j : Json) : Option ApproverType :=
  match enumTag j with
  | some ("human", none) => some .human
  | some ("human", some .null) => some .human
  | some ("agent", some (.str a)) => some (.agent a)
  | some ("consensus", some (.int n)) =>
    if 0 ≤ n ∧ n < 2 ^ 32 then some (.consensus n.toNat) else none
  | _ => none

/-- A field with its default: absent takes the default, present must parse. -/
def fieldOr {α : Type} (default : α) (parse : Json → Option α) : Option Json → Option α
  | none => some default
  | some j => parse j

def boolFromValue : Json → Option Bool
  | .bool b => some b
  | _ => none

/-- The policy whose fields `get` reads. -/
def GovernancePolicy.ofFields (write promote delete approver inherit : Option Json) :
    Option GovernancePolicy := do
  return {
    write := ← GovernanceLevel.fromValue (← write)
    promote := ← fieldOr .any GovernanceLevel.fromValue promote
    delete := ← fieldOr .owner GovernanceLevel.fromValue delete
    approver := ← fieldOr .human ApproverType.fromValue approver
    inherit := ← fieldOr true boolFromValue inherit }

def GovernancePolicy.fromValue : Json → Option GovernancePolicy
  | .obj fs => ofFields (Json.getField "write" fs) (Json.getField "promote" fs)
      (Json.getField "delete" fs) (Json.getField "approver" fs) (Json.getField "inherit" fs)
  | .arr items =>
    if 5 < items.length then none
    else ofFields items[0]? items[1]? items[2]? items[3]? items[4]?
  | _ => none

/-- `GovernancePolicy::from_metadata`, with a policy that does not parse as none. -/
def GovernancePolicy.fromMetadata (metadata : Json) : Option GovernancePolicy :=
  match metadata.get "governance" with
  | none => none
  | some .null => none
  | some gov => fromValue gov

example : (GovernancePolicy.fromMetadata (.obj [("governance", .obj [
    ("approver", .obj [("consensus", .int 3)]), ("write", .str "approve")])])).map (·.approver) =
    some (.consensus 3) := by decide

namespace Db

/-! ## Standards -/

def getNamespaceStandard (db : Db) (ns : String) : Option String :=
  (db.namespaceMeta.find ns).map fun e => e.standardId

def getNamespaceParent (db : Db) (ns : String) : Option String :=
  (db.namespaceMeta.find ns).bind fun e => e.parentNamespace

/-- The prefixes of `ns` that end before a `-`, longest first; the loop stops at an empty one. -/
def dashPrefixes (ns : List Char) : List (List Char) :=
  ((ns.reverse.tails.filterMap fun t =>
    match t with
    | '-' :: rest => some rest.reverse
    | _ => none).takeWhile (· ≠ []))

/-- `auto_detect_parent`: the longest such prefix that has a standard. -/
def autoDetectParent (db : Db) (ns : String) : Option String :=
  ((dashPrefixes ns.toList).map String.ofList).find? fun c => (db.getNamespaceStandard c).isSome

def setNamespaceStandard (db : Db) (ns standardId : String) (parent : Option String) (now : String) :
    Except String Db :=
  if (db.get standardId).isNone then .error s!"memory not found: {standardId}"
  else if parent = some ns then .error "namespace cannot be its own parent"
  else
    let resolvedParent := parent.or (db.autoDetectParent ns)
    .ok { db with
      namespaceMeta := db.namespaceMeta.upsert ⟨ns, standardId, resolvedParent, now⟩
        (fun e => { e with standardId, updatedAt := now, parentNamespace := resolvedParent })
        (fun _ => rfl) }

/-- `clear_namespace_standard`: whether a standard was cleared. -/
def clearNamespaceStandard (db : Db) (ns : String) : Db × Bool :=
  ({ db with namespaceMeta := db.namespaceMeta.filter fun e => e.ns ≠ ns },
    (db.namespaceMeta.find ns).isSome)

theorem clearNamespaceStandard_eq_self {db : Db} {ns : String}
    (h : (db.clearNamespaceStandard ns).2 = false) :
    (db.clearNamespaceStandard ns).1 = db := by
  have hnone : db.namespaceMeta.find ns = none := Option.isSome_eq_false_iff.mp h |> Option.isNone_iff_eq_none.mp
  have hrows : (db.namespaceMeta.rows.filter fun e => e.ns ≠ ns) = db.namespaceMeta.rows := by
    rw [List.filter_eq_self]
    intro e he
    simpa using Table.find_eq_none.mp hnone e he
  have htable : (db.clearNamespaceStandard ns).1.namespaceMeta = db.namespaceMeta := Table.ext hrows
  show { db with namespaceMeta := (db.clearNamespaceStandard ns).1.namespaceMeta } = db
  rw [htable]

/-! ## Resolution -/

/-- The explicit parents above `current`, nearest first, at most `fuel` of them and none twice. -/
def explicitAbove (db : Db) (hierarchy : List String) : ℕ → String → List String → List String
  | 0, _, above => above
  | fuel + 1, current, above =>
    match db.getNamespaceParent current with
    | some p =>
      if p ≠ "*" ∧ p ∉ above ∧ p ∉ hierarchy then db.explicitAbove hierarchy fuel p (above ++ [p])
      else above
    | none => above

/-- `build_namespace_chain`: the global standard first, the namespace itself last. -/
def buildNamespaceChain (db : Db) (ns : String) : List String :=
  if ns = "*" then ["*"]
  else
    let hierarchy := (namespaceAncestors ns).reverse
    let above :=
      match hierarchy with
      | root :: _ => (db.explicitAbove hierarchy 8 root []).reverse
      | [] => []
    hierarchy.foldl (fun chain entry => if entry ∈ chain then chain else chain ++ [entry])
      ("*" :: above)

def readNamespacePolicy (db : Db) (ns : String) : Option GovernancePolicy := do
  let standardId ← db.getNamespaceStandard ns
  let mem ← db.get standardId
  GovernancePolicy.fromMetadata mem.metadata

/-- `resolve_governance_policy`: the most specific policy of the chain. -/
def resolveGovernancePolicy (db : Db) (ns : String) : Option GovernancePolicy :=
  (db.buildNamespaceChain ns).reverse.findSome? db.readNamespacePolicy

theorem approver_lt {j : Json} {quorum : ℕ} (h : ApproverType.fromValue j = some (.consensus quorum)) :
    quorum < 2 ^ 32 := by
  unfold ApproverType.fromValue at h
  split at h
  · cases h
  · cases h
  · cases h
  · split_ifs at h with hn
    cases h
    omega
  · cases h

/-- A quorum is a `u32`. -/
theorem quorum_lt {db : Db} {ns : String} {quorum : ℕ}
    (h : (db.resolveGovernancePolicy ns).map (·.approver) = some (.consensus quorum)) : quorum < 2 ^ 32 := by
  obtain ⟨policy, hpolicy, happrover⟩ := Option.map_eq_some_iff.mp h
  obtain ⟨level, -, hread⟩ := List.exists_of_findSome?_eq_some hpolicy
  have hfields : ∀ w p d a i, GovernancePolicy.ofFields w p d a i = some policy → quorum < 2 ^ 32 := by
    intro w p d a i hof
    unfold GovernancePolicy.ofFields at hof
    simp only [bind, Option.bind_eq_some_iff, pure] at hof
    obtain ⟨-, -, write, -, promote, -, delete, -, approver, ha, inherit, -, hof⟩ := hof
    cases hof
    unfold fieldOr at ha
    split at ha
    · cases ha
      cases happrover
    · rw [show approver = .consensus quorum from happrover] at ha
      exact approver_lt ha
  unfold readNamespacePolicy GovernancePolicy.fromMetadata GovernancePolicy.fromValue at hread
  simp only [bind, Option.bind_eq_some_iff] at hread
  obtain ⟨-, -, mem, -, hmeta⟩ := hread
  split at hmeta
  · cases hmeta
  · cases hmeta
  · split at hmeta
    · exact hfields _ _ _ _ _ hmeta
    · split_ifs at hmeta
      exact hfields _ _ _ _ _ hmeta
    · cases hmeta

def agentsNamespace : String := "_agents"

def isRegisteredAgent (db : Db) (agentId : String) : Bool :=
  (db.getKey (s!"agent:{agentId}", agentsNamespace)).isSome

end Db

end AiMemory
