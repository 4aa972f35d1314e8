import AiMemory.Identity.Sign

/-!
# Signed links

`create_link_signed`, `invalidate_link` and `get_link_for_verify` of `db.rs`, with what `memory_verify` rebuilds from a
row. Ed25519 is a parameter; `verify` refuses a signature that is not 64 bytes long.

`create_link` is `create_link_signed` without a key pair (`createLink_eq`).
-/

namespace AiMemory

open Relational

namespace Identity

/-- `ed25519_dalek`: signing with a private key, and the check with a public one. -/
structure Ed25519 where
  sign : List UInt8 → List UInt8 → List UInt8
  verify : List UInt8 → List UInt8 → List UInt8 → Bool

/-- A signature is of one message. -/
def Ed25519.Sound (ed : Ed25519) : Prop :=
  ∀ key m m' sig, ed.verify key m sig = true → ed.verify key m' sig = true → m = m'

structure AgentKeypair where
  agentId : String
  publicKey : List UInt8
  privateKey : Option (List UInt8)
  deriving DecidableEq

def AgentKeypair.canSign (kp : AgentKeypair) : Bool := kp.privateKey.isSome

def sign (ed : Ed25519) (kp : AgentKeypair) (link : SignableLink) : Except String (List UInt8) :=
  match kp.privateKey with
  | none => .error s!"AgentKeypair for {kp.agentId} has no private key — cannot sign"
  | some key => .ok (ed.sign key (canonicalCbor link))

def signatureLen : ℕ := 64

def verify (ed : Ed25519) (key : List UInt8) (link : SignableLink) (sig : List UInt8) : Bool :=
  sig.length = signatureLen ∧ ed.verify key (canonicalCbor link) sig

end Identity

open Identity

namespace Db

/-- What `create_link_signed` signs. -/
def outboundLink (sourceId targetId relation now agentId : String) : SignableLink :=
  ⟨sourceId, targetId, relation, some agentId, some now, none⟩

/-- The columns `signature`, `attest_level` and `observed_by` of a new link. -/
def signedColumns (ed : Ed25519) (sourceId targetId relation now : String) (keypair : Option AgentKeypair) :
    Except String (Option (List UInt8) × String × Option String) :=
  match keypair with
  | some kp =>
    if kp.canSign then
      (Identity.sign ed kp (outboundLink sourceId targetId relation now kp.agentId)).map fun sig =>
        (some sig, "self_signed", some kp.agentId)
    else .ok (none, "unsigned", none)
  | none => .ok (none, "unsigned", none)

/-- The row `create_link_signed` inserts. -/
def outboundRow (sourceId targetId relation now : String)
    (columns : Option (List UInt8) × String × Option String) : LinkRow where
  sourceId := sourceId
  targetId := targetId
  relation := relation
  createdAt := now
  validFrom := some now
  validUntil := none
  signature := columns.1
  attestLevel := some columns.2.1
  observedBy := columns.2.2

/-- `create_link_signed`, with the level it returns. -/
def createLinkSigned (db : Db) (ed : Ed25519) (sourceId targetId relation now : String)
    (keypair : Option AgentKeypair) : Except String (Db × String) :=
  match db.checkEnds sourceId targetId with
  | .error e => .error e
  | .ok () =>
    (signedColumns ed sourceId targetId relation now keypair).map fun columns =>
      (db.insertLink (outboundRow sourceId targetId relation now columns), columns.2.1)

def deleteLink (db : Db) (sourceId targetId : String) : Db × Bool :=
  ({ db with links := db.links.filter fun l => !(l.sourceId = sourceId ∧ l.targetId = targetId) },
    db.links.rows.any fun l => l.sourceId = sourceId ∧ l.targetId = targetId)

/-- The update of `invalidate_link`. A signed row loses its signature. -/
def supersede (stamp : String) (l : LinkRow) : LinkRow :=
  if l.signature.isSome then { l with validUntil := some stamp, signature := none, attestLevel := some "unsigned" }
  else { l with validUntil := some stamp }

theorem supersede_key (stamp : String) (l : LinkRow) : (supersede stamp l).key = l.key := by
  unfold supersede
  split_ifs <;> rfl

structure InvalidateResult where
  validUntil : String
  previousValidUntil : Option String
  deriving DecidableEq

/-- What goes to `signed_events` when a signature is cleared: who signed, the bytes whose hash is kept, and the
signature. -/
structure Invalidated where
  agentId : String
  payload : List UInt8
  signature : List UInt8
  deriving DecidableEq

/-- `invalidate_link`, with the event it appends. -/
def invalidateLink (db : Db) (sourceId targetId relation : String) (validUntil : Option String) (now : String) :
    Option (Db × InvalidateResult × Option Invalidated) :=
  let stamp := validUntil.getD now
  (db.links.find (sourceId, targetId, relation)).map fun l =>
    ({ db with links := db.links.modify (sourceId, targetId, relation) (supersede stamp) (supersede_key stamp) },
      ⟨stamp, l.validUntil⟩,
      l.signature.map fun sig =>
        ⟨l.observedBy.getD "unknown",
          canonicalCbor ⟨sourceId, targetId, relation, l.observedBy, l.validFrom, some stamp⟩, sig⟩)

structure LinkVerifyRecord where
  sourceId : String
  targetId : String
  relation : String
  signature : Option (List UInt8)
  observedBy : Option String
  validFrom : Option String
  validUntil : Option String
  attestLevel : Option String
  deriving DecidableEq

/-- The columns `get_link_for_verify` selects. -/
def toRecord (l : LinkRow) : LinkVerifyRecord :=
  ⟨l.sourceId, l.targetId, l.relation, l.signature, l.observedBy, l.validFrom, l.validUntil, l.attestLevel⟩

def getLinkForVerify (db : Db) (sourceId targetId relation : String) : Option LinkVerifyRecord :=
  (db.links.find (sourceId, targetId, relation)).map toRecord

/-- The link `memory_verify` rebuilds. -/
def LinkVerifyRecord.signable (r : LinkVerifyRecord) : SignableLink :=
  ⟨r.sourceId, r.targetId, r.relation, r.observedBy, r.validFrom, r.validUntil⟩

variable {db db' : Db} {ed : Ed25519} {s t rel now level : String} {keypair : Option AgentKeypair} {l row : LinkRow}

theorem mem_insertLink : l ∈ (db.insertLink row).links ↔ l ∈ db.links ∨ l = row ∧ db.links.find row.key = none := by
  unfold insertLink
  cases hins : db.links.insertNew? row with
  | none =>
    have hold : db.links.find row.key ≠ none := Option.ne_none_iff_isSome.mpr (Table.insertNew?_eq_none.mp hins)
    simp [hold]
  | some links =>
    have hnew : db.links.find row.key = none := by
      rw [← Option.not_isSome_iff_eq_none]
      intro hsome
      rw [Table.insertNew?_eq_none.mpr hsome] at hins
      cases hins
    simp only [Option.getD_some, Table.mem_insertNew? hins, hnew, and_true]

theorem find_insertLink : (db.insertLink row).links.find row.key = some ((db.links.find row.key).getD row) := by
  unfold insertLink
  cases hins : db.links.insertNew? row with
  | none =>
    obtain ⟨old, hold⟩ := Option.isSome_iff_exists.mp (Table.insertNew?_eq_none.mp hins)
    simp [hold]
  | some links =>
    rw [Option.getD_some, Table.find_insertNew? hins, if_pos rfl]
    cases db.links.find row.key <;> rfl

theorem createLinkSigned_eq_ok : db.createLinkSigned ed s t rel now keypair = .ok (db', level) ↔
    db.checkEnds s t = .ok () ∧ ∃ columns, signedColumns ed s t rel now keypair = .ok columns ∧
      db' = db.insertLink (outboundRow s t rel now columns) ∧ level = columns.2.1 := by
  unfold createLinkSigned
  cases db.checkEnds s t with
  | error e => simp
  | ok u => cases signedColumns ed s t rel now keypair <;> simp [Except.map, eq_comm]

theorem signedColumns_cases {columns : Option (List UInt8) × String × Option String}
    (h : signedColumns ed s t rel now keypair = .ok columns) :
    columns = (none, "unsigned", none) ∨ ∃ kp ∈ keypair, ∃ key ∈ kp.privateKey,
      columns = (some (ed.sign key (canonicalCbor (outboundLink s t rel now kp.agentId))), "self_signed",
        some kp.agentId) := by
  cases keypair with
  | none => exact Or.inl (Except.ok.inj h).symm
  | some kp =>
    unfold signedColumns at h
    cases hkey : kp.privateKey with
    | none =>
      simp only [AgentKeypair.canSign, hkey, Option.isSome_none, Bool.false_eq_true, if_false] at h
      exact Or.inl (Except.ok.inj h).symm
    | some key =>
      simp only [AgentKeypair.canSign, Identity.sign, hkey, Option.isSome_some, if_true, Except.map] at h
      exact Or.inr ⟨kp, rfl, key, hkey, (Except.ok.inj h).symm⟩

/-- `create_link` has no key pair. -/
theorem createLink_eq : db.createLink s t rel now = (db.createLinkSigned ed s t rel now none).map Prod.fst := by
  unfold createLink createLinkSigned
  cases db.checkEnds s t <;> rfl

theorem createLinkInbound_eq_ok {link : MemoryLink} : db.createLinkInbound link level now = .ok db' ↔
    db.checkEnds link.sourceId link.targetId = .ok () ∧ db' = db.insertLink (inboundRow link level now) := by
  unfold createLinkInbound
  cases db.checkEnds link.sourceId link.targetId <;> simp [eq_comm]

theorem getLinkForVerify_eq_some {r : LinkVerifyRecord} :
    db.getLinkForVerify s t rel = some r ↔ ∃ l ∈ db.links, l.key = (s, t, rel) ∧ toRecord l = r := by
  unfold getLinkForVerify
  simp only [Option.map_eq_some_iff, Table.find_eq_some, and_assoc]

end Db

end AiMemory
