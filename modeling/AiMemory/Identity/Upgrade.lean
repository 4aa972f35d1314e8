import AiMemory.Identity.Recheck
import AiMemory.Sync.Settled

/-!
# The first copy of a link

Copies of one link reach a receiver, some before and some after the key of their observer is enrolled. `INSERT OR
IGNORE` keeps the first copy that is not rejected (`find_deliver`), so a later copy with a good signature upgrades
nothing, and `create_link_signed` returns the level it would have written, whatever row is there.

What is asked of the two holds exactly when the first copy is the good one, and when the row that is there has the level
of the key pair (`upgrade_iff`).
-/

namespace AiMemory

open Relational

namespace Identity

/-- The identity of a link: source, target and relation. -/
abbrev LinkKey := String × String × String

/-- A copy of a link on the wire, with the keys enrolled when it arrives. -/
structure Delivery where
  keys : String → Option (List UInt8)
  createdAt : String
  signature : Option (List UInt8)
  observedBy : Option String
  validFrom : Option String
  validUntil : Option String
  tick : Tick

def Delivery.host (d : Delivery) (h : Host) : Host := { h with lookupPeerPublicKey := d.keys }

/-- The copy of the link `k`. -/
def Delivery.link (d : Delivery) (k : LinkKey) : MemoryLink where
  sourceId := k.1
  targetId := k.2.1
  relation := k.2.2
  createdAt := d.createdAt
  signature := d.signature
  observedBy := d.observedBy
  validFrom := d.validFrom
  validUntil := d.validUntil

section Deliver

variable (h : Host) (k : LinkKey)

/-- One delivery through `sync_push`. -/
def deliver (db : Db) (d : Delivery) : Db := Push.onLink (d.host h) d.tick db (d.link k)

/-- The level `sync_push` chooses, none for a rejected signature. -/
def level (d : Delivery) : Option String := Push.attestLevel (d.host h) (d.link k)

/-- The signature of the copy verified. -/
def Verified (d : Delivery) : Prop := level h k d = some "peer_attested"

def rowOf (d : Delivery) : Option LinkRow := (level h k d).map fun l => Db.inboundRow (d.link k) l d.tick.now

/-- The link is valid, and its memories are there. -/
def Fileable (db : Db) : Prop := Accepts (Validate.validateLink k.1 k.2.1 k.2.2) ∧ db.checkEnds k.1 k.2.1 = .ok ()

instance (db : Db) : Decidable (Fileable k db) := by
  unfold Fileable
  infer_instance

/-- The row shows the signature of a verified copy. -/
def Shows (ds : List Delivery) (row : LinkRow) : Prop :=
  row.attestLevel = some "peer_attested" ∧ ∃ d ∈ ds, Verified h k d ∧ row.signature = d.signature

/-- The first property: if a copy's signature verified, the row ends up with it. -/
def Upgrades (db : Db) (ds : List Delivery) : Prop :=
  (∃ d ∈ ds, Verified h k d) → ∃ row ∈ (ds.foldl (deliver h k) db).links.find k, Shows h k ds row

instance (d : Delivery) : Decidable (Verified h k d) := by
  unfold Verified
  infer_instance

instance (ds : List Delivery) (row : LinkRow) : Decidable (Shows h k ds row) := by
  unfold Shows
  infer_instance

instance (db : Db) (ds : List Delivery) : Decidable (Upgrades h k db ds) := by
  unfold Upgrades
  infer_instance

/-- Its condition: no signature verified, or the first copy has one that did. The first copy is the row that is there
or, for a link that can be filed, the first delivery that is not rejected. -/
def FirstIsVerified (db : Db) (ds : List Delivery) : Prop :=
  (∀ d ∈ ds, ¬Verified h k d) ∨
    match db.links.find k with
    | some row => Shows h k ds row
    | none => Fileable k db ∧ ∀ d ∈ ds.find? fun d => (level h k d).isSome, Verified h k d

end Deliver

def pairLevel (keypair : Option AgentKeypair) : String := if keypair.any (·.canSign) then "self_signed" else "unsigned"

/-- The second property: the level `create_link_signed` returns is that of the row then stored. -/
def Truthful (ed : Ed25519) (db : Db) (k : LinkKey) (now : String) (keypair : Option AgentKeypair) : Prop :=
  ∀ db' l, db.createLinkSigned ed k.1 k.2.1 k.2.2 now keypair = .ok (db', l) →
    ∃ row ∈ db'.links.find k, row.attestLevel = some l

/-- Its condition: the call fails, or a row that is there has the level of the key pair. -/
def SameLevel (db : Db) (k : LinkKey) (keypair : Option AgentKeypair) : Prop :=
  db.checkEnds k.1 k.2.1 = .ok () → ∀ row ∈ db.links.find k, row.attestLevel = some (pairLevel keypair)

variable {h : Host} {k : LinkKey} {db : Db} {d : Delivery} {ds : List Delivery}

/-! ## What is filed -/

theorem fileable_deliver : Fileable k (deliver h k db d) ↔ Fileable k db := by
  unfold deliver
  rw [Push.onLink_frame]
  rfl

theorem find_deliver : (deliver h k db d).links.find k =
    (db.links.find k).or (if Fileable k db then rowOf h k d else none) := by
  unfold deliver Push.onLink
  by_cases hvalid : Accepts (Validate.validateLink k.1 k.2.1 k.2.2)
  · have hfile : Fileable k db ↔ db.checkEnds k.1 k.2.1 = .ok () := and_iff_right hvalid
    rw [if_pos (show Accepts (Validate.validateLink (d.link k).sourceId (d.link k).targetId (d.link k).relation) from
      hvalid), if_congr hfile rfl rfl]
    unfold rowOf level
    cases Push.attestLevel (d.host h) (d.link k) with
    | none => simp
    | some l =>
      dsimp only [Option.map_some]
      cases hc : db.createLinkInbound (d.link k) l d.tick.now with
      | error e =>
        have hends : db.checkEnds k.1 k.2.1 ≠ .ok () := by
          intro hends
          rw [Db.createLinkInbound_eq_ok.mpr ⟨hends, rfl⟩] at hc
          cases hc
        simp [hends]
      | ok db' =>
        obtain ⟨hends, rfl⟩ := Db.createLinkInbound_eq_ok.mp hc
        have hends' : db.checkEnds k.1 k.2.1 = .ok () := hends
        have hfind : (db.insertLink (Db.inboundRow (d.link k) l d.tick.now)).links.find k =
            some ((db.links.find k).getD (Db.inboundRow (d.link k) l d.tick.now)) := Db.find_insertLink
        rw [hfind, if_pos hends']
        cases db.links.find k <;> rfl
  · rw [if_neg (show ¬Accepts (Validate.validateLink (d.link k).sourceId (d.link k).targetId (d.link k).relation) from
      hvalid), if_neg fun hc : Fileable k db => hvalid hc.1, Option.or_none]

/-- After any deliveries the row is the one before, or of the first copy that is not rejected. -/
theorem find_deliveries : (ds.foldl (deliver h k) db).links.find k = (db.links.find k).or
    (if Fileable k db then (ds.find? fun d => (level h k d).isSome).bind (rowOf h k) else none) := by
  induction ds generalizing db with
  | nil => simp
  | cons d ds ih =>
    rw [List.foldl_cons, ih, find_deliver, if_congr fileable_deliver rfl rfl, Option.or_assoc, List.find?_cons]
    split_ifs
    · unfold rowOf
      cases hlevel : level h k d <;> simp [hlevel]
    · rfl

/-! ## The two properties -/

/-- What is asked of the deliveries holds exactly if the first copy is a verified one. -/
theorem upgrades_iff : Upgrades h k db ds ↔ FirstIsVerified h k db ds := by
  unfold Upgrades FirstIsVerified
  rw [find_deliveries]
  by_cases hsome : ∃ d ∈ ds, Verified h k d
  · have hnone : ¬∀ d ∈ ds, ¬Verified h k d := fun hc => let ⟨d, hd, hv⟩ := hsome; hc d hd hv
    rw [imp_iff_right hsome, or_iff_right hnone]
    cases db.links.find k with
    | some row => simp
    | none =>
      simp only [Option.none_or]
      by_cases hfile : Fileable k db
      · rw [if_pos hfile, and_iff_right hfile]
        cases hfirst : ds.find? fun d => (level h k d).isSome with
        | none =>
          obtain ⟨d, hd, hv⟩ := hsome
          have hskip := List.find?_eq_none.mp hfirst d hd
          rw [show level h k d = some "peer_attested" from hv] at hskip
          exact absurd rfl hskip
        | some d =>
          have hd := List.mem_of_find?_eq_some hfirst
          obtain ⟨l, hl⟩ := Option.isSome_iff_exists.mp
            (List.find?_some (p := fun d => (level h k d).isSome) hfirst)
          have hrow : rowOf h k d = some (Db.inboundRow (d.link k) l d.tick.now) := by rw [rowOf, hl]; rfl
          simp only [Option.bind_some, hrow, Option.mem_def, Option.some.injEq, exists_eq_left', forall_eq']
          constructor
          · exact fun hshows => hl.trans hshows.1
          · exact fun hv => ⟨hl.symm.trans hv, d, hd, hv, rfl⟩
      · rw [if_neg hfile]
        simp [hfile]
  · have hnone : ∀ d ∈ ds, ¬Verified h k d := fun d hd hv => hsome ⟨d, hd, hv⟩
    exact iff_of_true (fun hc => absurd hc hsome) (Or.inl hnone)

variable {keypair : Option AgentKeypair}

theorem pairLevel_eq {ed : Ed25519} {s t rel now : String}
    {columns : Option (List UInt8) × String × Option String}
    (hc : Db.signedColumns ed s t rel now keypair = .ok columns) : columns.2.1 = pairLevel keypair := by
  unfold Db.signedColumns at hc
  cases keypair with
  | none => exact Except.ok.inj hc ▸ rfl
  | some kp =>
    cases hkey : kp.privateKey <;>
      simp [AgentKeypair.canSign, Identity.sign, hkey, Except.map, pairLevel] at hc ⊢ <;> rw [← hc]

theorem signedColumns_isOk {ed : Ed25519} {s t rel now : String} :
    ∃ columns, Db.signedColumns ed s t rel now keypair = .ok columns := by
  cases keypair with
  | none => exact ⟨_, rfl⟩
  | some kp =>
    unfold Db.signedColumns
    cases hkey : kp.privateKey <;> simp [AgentKeypair.canSign, Identity.sign, hkey, Except.map]

theorem truthful_iff {ed : Ed25519} {now : String} :
    Truthful ed db k now keypair ↔ SameLevel db k keypair := by
  have hok : ∃ columns, Db.signedColumns ed k.1 k.2.1 k.2.2 now keypair = .ok columns := signedColumns_isOk
  obtain ⟨columns, hcolumns⟩ := hok
  unfold Truthful SameLevel
  have hfind : (db.insertLink (Db.outboundRow k.1 k.2.1 k.2.2 now columns)).links.find k =
      some ((db.links.find k).getD (Db.outboundRow k.1 k.2.1 k.2.2 now columns)) := Db.find_insertLink
  have hlevel : columns.2.1 = pairLevel keypair := pairLevel_eq hcolumns
  constructor
  · intro htrue hends row hrow
    obtain ⟨stored, hstored, hsame⟩ := htrue _ _ (Db.createLinkSigned_eq_ok.mpr ⟨hends, columns, hcolumns, rfl, rfl⟩)
    rw [hfind, show db.links.find k = some row from hrow] at hstored
    cases hstored
    rwa [← hlevel]
  · intro hsame db' l hc
    obtain ⟨hends, columns', hcolumns', rfl, rfl⟩ := Db.createLinkSigned_eq_ok.mp hc
    rw [hcolumns] at hcolumns'
    cases hcolumns'
    refine ⟨_, hfind, ?_⟩
    cases hold : db.links.find k with
    | none => rfl
    | some row => exact (hsame hends row hold).trans (congrArg some hlevel.symm)

/-- For every receiver and every list of deliveries of a link, and for every call of `create_link_signed`. -/
theorem upgrade_iff (h : Host) (ed : Ed25519) (db : Db) (k : LinkKey) (ds : List Delivery) (now : String)
    (keypair : Option AgentKeypair) :
    (Upgrades h k db ds ↔ FirstIsVerified h k db ds) ∧ (Truthful ed db k now keypair ↔ SameLevel db k keypair) :=
  ⟨upgrades_iff, truthful_iff⟩

/-- A link `alice` has signed, on the wire. -/
def aliceCopy (keys : String → Option (List UInt8)) : Delivery where
  keys := keys
  createdAt := "2026-05-05T00:00:00+00:00"
  signature := some (List.replicate signatureLen 7)
  observedBy := some "alice"
  validFrom := some "2026-05-05T00:00:00+00:00"
  validUntil := none
  tick := tickAt "2026-05-06T00:00:00+00:00"

/-- The link comes before the key of `alice` is enrolled, and again after it. -/
def sentAgain : List Delivery := [aliceCopy fun _ => none, aliceCopy (aliceHost datedEd).lookupPeerPublicKey]

/-- The row stays unsigned; so it does when `alice` links the memories on this node, and is told the opposite. -/
theorem sentAgain_unsigned :
    ¬Upgrades (aliceHost datedEd) ("a", "b", "related_to") twoMemories sentAgain ∧
      ¬Truthful datedEd (sentAgain.foldl (deliver (aliceHost datedEd) ("a", "b", "related_to")) twoMemories)
        ("a", "b", "related_to") "2026-05-07T00:00:00+00:00" (some ⟨"alice", [1], some [2]⟩) := by
  refine ⟨by decide, fun h => ?_⟩
  obtain ⟨row, hrow, hlevel⟩ := h _ _ rfl
  cases hrow
  revert hlevel
  decide

end Identity

end AiMemory
