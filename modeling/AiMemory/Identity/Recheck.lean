import AiMemory.Db.Chain
import AiMemory.Identity.Links
import AiMemory.Sync.Records

/-!
# Attestations that can be checked again

A row that says `self_signed` or `peer_attested` is to carry a signature that verifies over the link rebuilt from its
columns. `create_link_signed` writes the columns it has signed, `invalidate_link` takes the signature and the level
away together, and a deletion takes rows. But `create_link_inbound` fills in `valid_from` after the signature was
checked without it.

So the rows of a run can be checked again exactly when no verified link without `valid_from` is filed
(`rechecked_iff_meets`).
-/

namespace AiMemory

open Relational Machine Cbor

namespace Identity

open Db (LinkVerifyRecord toRecord)

/-- The row claims a signature. -/
def Attested (r : LinkVerifyRecord) : Prop := r.attestLevel = some "self_signed" ∨ r.attestLevel = some "peer_attested"

/-- The signature of the row verifies with the key of its observer, over the link rebuilt from the row. -/
def Verifies (h : Host) (r : LinkVerifyRecord) : Prop :=
  ∃ sig ∈ r.signature, ∃ agentId ∈ r.observedBy, ∃ key ∈ h.lookupPeerPublicKey agentId, h.verify key r.signable sig = true

/-- The property: each row that claims a signature can be checked again. -/
def Rechecked (h : Host) (db : Db) : Prop :=
  ∀ sourceId targetId relation, ∀ r ∈ db.getLinkForVerify sourceId targetId relation, Attested r → Verifies h r

instance (r : LinkVerifyRecord) : Decidable (Attested r) := by
  unfold Attested
  infer_instance

instance (h : Host) (r : LinkVerifyRecord) : Decidable (Verifies h r) := by
  unfold Verifies
  infer_instance

/-- What happens to links: the link writers, the inbound links of `sync_push` one by one, and the deletions that take
links with them. -/
inductive Op where
  | insert (mem : Memory)
  | createLink (sourceId targetId relation now : String)
  | createLinkSigned (sourceId targetId relation now : String) (keypair : Option AgentKeypair)
  | syncPush (link : MemoryLink) (t : Tick)
  | createLinkInbound (link : MemoryLink) (attestLevel now : String)
  | invalidateLink (sourceId targetId relation : String) (validUntil : Option String) (now : String)
  | deleteLink (sourceId targetId : String)
  | delete (id : String)
  | deleteMemories (keep : MemoryRow → Bool)

section Step

variable (h : Host) (ed : Ed25519)

def step (db : Db) : Op → Db
  | .insert mem => ((db.insert mem).map Prod.fst).toOption.getD db
  | .createLink s t rel now => (db.createLink s t rel now).toOption.getD db
  | .createLinkSigned s t rel now keypair => ((db.createLinkSigned ed s t rel now keypair).map Prod.fst).toOption.getD db
  | .syncPush link t => Push.onLink h t db link
  | .createLinkInbound link level now => (db.createLinkInbound link level now).toOption.getD db
  | .invalidateLink s t rel validUntil now => ((db.invalidateLink s t rel validUntil now).map Prod.fst).getD db
  | .deleteLink s t => (db.deleteLink s t).1
  | .delete id => (db.delete id).1
  | .deleteMemories keep => db.deleteMemories keep

/-- Ed25519 verifies what it signs with the pair of an agent whose key is on file, and a caller of `create_link_inbound`
has chosen the level as `sync_push` does. -/
def Legal (_ : Db) : Op → Prop
  | .createLinkSigned s t rel now keypair => ∀ kp ∈ keypair, ∀ key ∈ kp.privateKey,
      h.lookupPeerPublicKey kp.agentId = some kp.publicKey ∧
        verify ed kp.publicKey (Db.outboundLink s t rel now kp.agentId)
          (ed.sign key (canonicalCbor (Db.outboundLink s t rel now kp.agentId))) = true
  | .createLinkInbound link level _ => Push.attestLevel h link = some level
  | _ => True

/-- A verified link that would be filed has its `valid_from`. -/
def Dated (db : Db) (link : MemoryLink) : Prop :=
  Push.attestLevel h link = some "peer_attested" → db.checkEnds link.sourceId link.targetId = .ok () →
    db.links.find (link.sourceId, link.targetId, link.relation) = none → link.validFrom.isSome

/-- The condition of a step. -/
def StepOk (db : Db) : Op → Prop
  | .syncPush link _ => Accepts (Validate.validateLink link.sourceId link.targetId link.relation) → Dated h db link
  | .createLinkInbound link _ _ => Dated h db link
  | _ => True

instance (db : Db) (link : MemoryLink) : Decidable (Dated h db link) := by
  unfold Dated
  infer_instance

instance (db : Db) (o : Op) : Decidable (Legal h ed db o) := by
  cases o <;> unfold Legal <;> infer_instance

instance (db : Db) (o : Op) : Decidable (StepOk h db o) := by
  cases o <;> unfold StepOk <;> infer_instance

end Step

variable {h : Host} {ed : Ed25519} {db db' : Db} {row : LinkRow} {link : MemoryLink} {level now : String} {o : Op}

/-! ## Rows -/

theorem rechecked_iff : Rechecked h db ↔ ∀ l ∈ db.links, Attested (toRecord l) → Verifies h (toRecord l) := by
  unfold Rechecked
  constructor
  · exact fun hr l hl => hr _ _ _ (toRecord l) (Db.getLinkForVerify_eq_some.mpr ⟨l, hl, rfl, rfl⟩)
  · intro hall s t rel r hr
    obtain ⟨l, hl, -, rfl⟩ := Db.getLinkForVerify_eq_some.mp hr
    exact hall l hl

theorem Rechecked.mono (hr : Rechecked h db) (hsub : ∀ l ∈ db'.links, l ∈ db.links) : Rechecked h db' :=
  rechecked_iff.mpr fun l hl => rechecked_iff.mp hr l (hsub l hl)

theorem rechecked_insertLink (hr : Rechecked h db) : Rechecked h (db.insertLink row) ↔
    (db.links.find row.key = none → Attested (toRecord row) → Verifies h (toRecord row)) := by
  rw [rechecked_iff] at hr ⊢
  constructor
  · exact fun hall hnew => hall row (Db.mem_insertLink.mpr (Or.inr ⟨rfl, hnew⟩))
  · intro hrow l hl
    rcases Db.mem_insertLink.mp hl with hl | ⟨rfl, hnew⟩
    · exact hr l hl
    · exact hrow hnew

/-! ## The link writers -/

theorem not_attested_unsigned {r : LinkVerifyRecord} (hr : r.attestLevel = some "unsigned") : ¬Attested r := by
  rw [Attested, hr]
  decide

theorem Rechecked.createLinkSigned (hr : Rechecked h db) (hverify : h.verify = verify ed) {s t rel : String}
    {keypair : Option AgentKeypair} (hlegal : Legal h ed db (.createLinkSigned s t rel now keypair))
    (hc : db.createLinkSigned ed s t rel now keypair = .ok (db', level)) : Rechecked h db' := by
  obtain ⟨-, columns, hcolumns, rfl, -⟩ := Db.createLinkSigned_eq_ok.mp hc
  refine (rechecked_insertLink hr).mpr fun _ hattested => ?_
  obtain rfl | ⟨kp, hkp, key, hkey, rfl⟩ := Db.signedColumns_cases hcolumns
  · exact absurd hattested (not_attested_unsigned rfl)
  · obtain ⟨hlookup, hsig⟩ := hlegal kp hkp key hkey
    refine ⟨_, rfl, kp.agentId, rfl, kp.publicKey, hlookup, ?_⟩
    rw [hverify]
    exact hsig

theorem attestLevel_cases (hlevel : Push.attestLevel h link = some level) : level = "unsigned" ∨
    level = "peer_attested" ∧ ∃ sig ∈ link.signature, ∃ agentId ∈ link.observedBy,
      ∃ key ∈ h.lookupPeerPublicKey agentId, h.verify key
        ⟨link.sourceId, link.targetId, link.relation, some agentId, link.validFrom, link.validUntil⟩ sig = true := by
  unfold Push.attestLevel at hlevel
  split at hlevel
  · rename_i sig agentId hsig hobs
    cases hkey : h.lookupPeerPublicKey agentId with
    | none =>
      rw [hkey] at hlevel
      exact Or.inl (Option.some.inj hlevel).symm
    | some key =>
      simp only [hkey] at hlevel
      split_ifs at hlevel with hok
      · exact Or.inr ⟨(Option.some.inj hlevel).symm, sig, hsig, agentId, hobs, key, hkey, hok⟩
  · exact Or.inl (Option.some.inj hlevel).symm

/-- A filed link with `valid_from` can be checked again as it was checked. -/
theorem verifies_inboundRow (hlevel : Push.attestLevel h link = some "peer_attested") (hfrom : link.validFrom.isSome) :
    Verifies h (toRecord (Db.inboundRow link "peer_attested" now)) := by
  obtain hun | ⟨-, sig, hsig, agentId, hobs, key, hkey, hok⟩ := attestLevel_cases hlevel
  · exact absurd hun (by decide)
  · obtain ⟨start, hstart⟩ := Option.isSome_iff_exists.mp hfrom
    refine ⟨sig, hsig, agentId, hobs, key, hkey, ?_⟩
    have hobs' : link.observedBy = some agentId := hobs
    rw [hstart] at hok
    show h.verify key ⟨link.sourceId, link.targetId, link.relation, link.observedBy, some (link.validFrom.getD now),
      link.validUntil⟩ sig = true
    rwa [hobs', hstart]

/-- The bytes tell a link without `valid_from` from one with it. -/
theorem canonicalCbor_undated {a : SignableLink} (ha : a.validFrom = none) :
    canonicalCbor a ≠ canonicalCbor { a with validFrom := some now } := by
  intro heq
  have hentries : ∀ x : SignableLink, canonicalCbor x =
      head 5 6 ++ (encode (.text "dst_id") ++ (encode (.text x.dstId) ++
        (encode (.text "observed_by") ++ (encode (textOrNull x.observedBy) ++
          (encode (.text "relation") ++ (encode (.text x.relation) ++
            (encode (.text "src_id") ++ (encode (.text x.srcId) ++
              (encode (.text "valid_from") ++ (encode (textOrNull x.validFrom) ++
                (encode (.text "valid_until") ++ encode (textOrNull x.validUntil)))))))))))) := by
    intro x
    simp only [canonicalCbor, encodeMap, entries, signedMap_eq, List.map_cons, List.map_nil, encodeEntries,
      List.flatMap_cons, List.flatMap_nil, List.append_assoc, List.append_nil, List.length_cons, List.length_nil]
  rw [hentries, hentries] at heq
  simp only [List.append_cancel_left_eq, ha, textOrNull] at heq
  exact encode_null_ne heq

/-- A filed link without `valid_from` cannot be checked again. -/
theorem not_verifies_inboundRow (hverify : h.verify = verify ed) (hsound : ed.Sound)
    (hlevel : Push.attestLevel h link = some "peer_attested") (hfrom : link.validFrom = none) :
    ¬Verifies h (toRecord (Db.inboundRow link "peer_attested" now)) := by
  obtain hun | ⟨-, sig, hsig, agentId, hobs, key, hkey, hok⟩ := attestLevel_cases hlevel
  · exact absurd hun (by decide)
  · rintro ⟨sig', hsig', agentId', hobs', key', hkey', hagain⟩
    obtain rfl : sig = sig' := Option.mem_unique hsig hsig'
    obtain rfl : agentId = agentId' := Option.mem_unique hobs hobs'
    obtain rfl : key = key' := Option.mem_unique hkey hkey'
    have hrow : (toRecord (Db.inboundRow link "peer_attested" now)).signable =
        ⟨link.sourceId, link.targetId, link.relation, some agentId, some now, link.validUntil⟩ := by
      have hobs₀ : link.observedBy = some agentId := hobs
      simp [LinkVerifyRecord.signable, toRecord, Db.inboundRow, hobs₀, hfrom]
    rw [hverify, hrow] at hagain
    rw [hverify, hfrom] at hok
    simp only [verify, Bool.decide_and, Bool.and_eq_true, Bool.decide_eq_true] at hok hagain
    exact canonicalCbor_undated rfl (hsound key _ _ sig hok.2 hagain.2)

/-- A link that is filed with the level `sync_push` gives it: its row can be checked again exactly if it is dated. -/
theorem rechecked_createLinkInbound (hverify : h.verify = verify ed) (hsound : ed.Sound) (hr : Rechecked h db)
    (hlevel : Push.attestLevel h link = some level) :
    Rechecked h ((db.createLinkInbound link level now).toOption.getD db) ↔ Dated h db link := by
  unfold Dated
  cases hc : db.createLinkInbound link level now with
  | error e =>
    have hends : db.checkEnds link.sourceId link.targetId ≠ .ok () := by
      intro hends
      rw [Db.createLinkInbound_eq_ok.mpr ⟨hends, rfl⟩] at hc
      cases hc
    exact iff_of_true hr fun _ h => absurd h hends
  | ok db' =>
    obtain ⟨hends, rfl⟩ := Db.createLinkInbound_eq_ok.mp hc
    refine (rechecked_insertLink hr).trans ?_
    rw [hlevel, imp_iff_right hends]
    obtain rfl | ⟨rfl, -⟩ := attestLevel_cases hlevel
    · exact iff_of_true (fun _ hc => absurd hc (not_attested_unsigned rfl)) fun hc => absurd hc (by decide)
    · have hattested : Attested (toRecord (Db.inboundRow link "peer_attested" now)) := Or.inr rfl
      rw [imp_iff_right rfl]
      refine forall_congr' fun _ => ?_
      rw [imp_iff_right hattested]
      cases hfrom : link.validFrom with
      | none => exact iff_of_false (not_verifies_inboundRow hverify hsound hlevel hfrom) Bool.false_ne_true
      | some start => exact iff_of_true (verifies_inboundRow hlevel (by rw [hfrom]; rfl)) rfl

theorem rechecked_syncPush (hverify : h.verify = verify ed) (hsound : ed.Sound) (hr : Rechecked h db) {t : Tick} :
    Rechecked h (Push.onLink h t db link) ↔ StepOk h db (.syncPush link t) := by
  unfold Push.onLink StepOk
  dsimp only
  split_ifs with hvalid
  · rw [imp_iff_right hvalid]
    cases hlevel : Push.attestLevel h link with
    | none => exact iff_of_true hr fun hc => by rw [hlevel] at hc; cases hc
    | some level =>
      have hcreate : Rechecked h ((db.createLinkInbound link level t.now).toOption.getD db) ↔ Dated h db link :=
        rechecked_createLinkInbound hverify hsound hr hlevel
      rw [← hcreate]
      dsimp only
      cases db.createLinkInbound link level t.now <;> rfl
  · exact iff_of_true hr fun hc => absurd hc hvalid

theorem Rechecked.invalidateLink (hr : Rechecked h db) {s t rel : String} {validUntil : Option String}
    {res : Db × Db.InvalidateResult × Option Db.Invalidated}
    (hi : db.invalidateLink s t rel validUntil now = some res) : Rechecked h res.1 := by
  unfold Db.invalidateLink at hi
  obtain ⟨old, -, rfl⟩ := Option.map_eq_some_iff.mp hi
  rw [rechecked_iff] at hr ⊢
  intro l hl hattested
  obtain ⟨x, hx, rfl⟩ := (Table.mem_modify (Db.supersede_key _)).mp hl
  by_cases hkey : x.key = (s, t, rel)
  · rw [if_pos hkey] at hattested ⊢
    unfold Db.supersede at hattested ⊢
    split_ifs at hattested ⊢ with hsig
    · exact absurd hattested (not_attested_unsigned rfl)
    · -- A row without a signature claims none.
      obtain ⟨sig, hsome, -⟩ := hr x hx hattested
      rw [show x.signature = some sig from hsome] at hsig
      exact absurd rfl hsig
  · rw [if_neg hkey] at hattested ⊢
    exact hr x hx hattested

/-! ## Runs -/

/-- The steps that file no inbound link. -/
theorem rechecked_step (hverify : h.verify = verify ed) (hsound : ed.Sound) (hr : Rechecked h db)
    (hlegal : Legal h ed db o) : Rechecked h (step h ed db o) ↔ StepOk h db o := by
  cases o with
  | insert mem =>
    refine iff_of_true ?_ trivial
    dsimp only [step]
    cases hi : db.insert mem with
    | error e => exact hr
    | ok res =>
      have hframe := Db.insertOnConflict_frame hi
      exact hr.mono fun l hl => by
        have hl' : l ∈ res.1.links := hl
        rwa [hframe] at hl'
  | createLink s t rel now =>
    refine iff_of_true ?_ trivial
    dsimp only [step]
    have heq : db.createLink s t rel now = (db.createLinkSigned ed s t rel now none).map Prod.fst := Db.createLink_eq
    rw [heq]
    cases hc : db.createLinkSigned ed s t rel now none with
    | error e => exact hr
    | ok res => exact hr.createLinkSigned hverify (fun kp hkp => by cases hkp) hc
  | createLinkSigned s t rel now keypair =>
    refine iff_of_true ?_ trivial
    dsimp only [step]
    cases hc : db.createLinkSigned ed s t rel now keypair with
    | error e => exact hr
    | ok res => exact hr.createLinkSigned hverify hlegal hc
  | syncPush link t => exact rechecked_syncPush hverify hsound hr
  | createLinkInbound link level now => exact rechecked_createLinkInbound hverify hsound hr hlegal
  | invalidateLink s t rel validUntil now =>
    refine iff_of_true ?_ trivial
    dsimp only [step]
    cases hi : db.invalidateLink s t rel validUntil now with
    | none => exact hr
    | some res => exact hr.invalidateLink hi
  | deleteLink s t => exact iff_of_true (hr.mono fun l hl => (Table.mem_filter.mp hl).1) trivial
  | delete id => exact iff_of_true (hr.mono fun l hl => (Table.mem_filter.mp hl).1) trivial
  | deleteMemories keep => exact iff_of_true (hr.mono fun l hl => (Table.mem_filter.mp hl).1) trivial

/-- From rows that can be checked again, every state of a run has such rows exactly when no verified link without
`valid_from` is filed. -/
theorem rechecked_iff_meets (hverify : h.verify = verify ed) (hsound : ed.Sound) (hr : Rechecked h db) {ops : List Op}
    (hlegal : Meets (step h ed) (Legal h ed) db ops) :
    (∀ s ∈ states (step h ed) db ops, Rechecked h s) ↔ Meets (step h ed) (StepOk h) db ops :=
  forall_states_iff_meets_of_legal (fun _ _ hs hl hok => (rechecked_step hverify hsound hs hl).mpr hok)
    (fun _ _ hs hl hbad hs' => hbad ((rechecked_step hverify hsound hs hl).mp hs')) hr hlegal

/-! ## Two runs -/

/-- Ed25519 where one link has been signed, with the key of `alice`. -/
def signedOnce (link : SignableLink) : Ed25519 where
  sign := fun _ _ => List.replicate signatureLen 7
  verify := fun key m sig => key = [1] ∧ m = canonicalCbor link ∧ sig = List.replicate signatureLen 7

theorem sound_signedOnce (link : SignableLink) : (signedOnce link).Sound := by
  intro key m m' sig hm hm'
  simp only [signedOnce, decide_eq_true_eq] at hm hm'
  exact hm.2.1.trans hm'.2.1.symm

/-- A host with the key of `alice` on file. -/
def aliceHost (ed : Ed25519) : Host :=
  { plainHost [] (fun _ => false) with
    lookupPeerPublicKey := fun agentId => if agentId = "alice" then some [1] else none
    verify := verify ed }

def twoMemories : Db :=
  { Db.empty with
    memories := ⟨⟨[(Db.standardMemory "a" "home" (.obj [])).toRow, (Db.standardMemory "b" "work" (.obj [])).toRow],
      by decide⟩, by decide⟩ }

theorem rechecked_twoMemories {h : Host} : Rechecked h twoMemories :=
  rechecked_iff.mpr fun _ hl => absurd hl List.not_mem_nil

/-- A link `alice` has signed. -/
def signedLink (validFrom : Option String) : MemoryLink where
  sourceId := "a"
  targetId := "b"
  relation := "related_to"
  createdAt := "2026-05-05T00:00:00+00:00"
  signature := some (List.replicate signatureLen 7)
  observedBy := some "alice"
  validFrom := validFrom
  validUntil := none

def datedEd : Ed25519 := signedOnce (Db.outboundLink "a" "b" "related_to" "2026-05-05T00:00:00+00:00" "alice")

def undatedEd : Ed25519 := signedOnce ⟨"a", "b", "related_to", some "alice", none, none⟩

/-- Signed here, superseded, deleted, and filed again from a peer. -/
def signedHere : List Op :=
  [.createLinkSigned "a" "b" "related_to" "2026-05-05T00:00:00+00:00" (some ⟨"alice", [1], some [2]⟩),
    .invalidateLink "a" "b" "related_to" none "2026-05-05T12:00:00+00:00",
    .deleteLink "a" "b",
    .syncPush (signedLink (some "2026-05-05T00:00:00+00:00")) (tickAt "2026-05-06T00:00:00+00:00")]

theorem rechecked_signedHere :
    Meets (step (aliceHost datedEd) datedEd) (StepOk (aliceHost datedEd)) twoMemories signedHere ∧
      ∀ s ∈ states (step (aliceHost datedEd) datedEd) twoMemories signedHere, Rechecked (aliceHost datedEd) s := by
  have hok : Meets (step (aliceHost datedEd) datedEd) (StepOk (aliceHost datedEd)) twoMemories signedHere := by
    decide
  exact ⟨hok, (rechecked_iff_meets rfl (sound_signedOnce _) rechecked_twoMemories (by decide)).mpr hok⟩

/-- A link a peer has signed without `valid_from`. -/
def undatedPush : List Op := [.syncPush (signedLink none) (tickAt "2026-05-06T00:00:00+00:00")]

theorem undated_unverifiable :
    undatedEd.Sound ∧ Rechecked (aliceHost undatedEd) twoMemories ∧
      Meets (step (aliceHost undatedEd) undatedEd) (Legal (aliceHost undatedEd) undatedEd) twoMemories undatedPush ∧
        ¬∀ s ∈ states (step (aliceHost undatedEd) undatedEd) twoMemories undatedPush,
          Rechecked (aliceHost undatedEd) s := by
  refine ⟨sound_signedOnce _, rechecked_twoMemories, by decide, fun h => ?_⟩
  have hfiled : ∃ r ∈ (undatedPush.foldl (step (aliceHost undatedEd) undatedEd) twoMemories).getLinkForVerify
      "a" "b" "related_to", Attested r ∧ ¬Verifies (aliceHost undatedEd) r := by
    decide
  obtain ⟨r, hr, hattested, hbad⟩ := hfiled
  exact hbad (h _ foldl_mem_states "a" "b" "related_to" r hr hattested)

end Identity

end AiMemory
