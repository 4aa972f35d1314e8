import AiMemory.Identity.Recheck
import AiMemory.Lib.Marks
import AiMemory.Mcp.Approvals

/-!
# Link ids

`memory_verify` names a link by one text, `source--relation-->target`, and `parse_link_id` takes it apart at the first marks. A
memory id may hold the marks, though, since `validate_id` looks at length and control characters alone. A link id is read back as
the link it was written for exactly when the source holds no `--` and does not end in a hyphen (`linkIds_read_back`).
-/

namespace AiMemory

open Identity Marks Validate

namespace Mcp

open Db (LinkVerifyRecord)

def linkId (sourceId relation targetId : String) : String := sourceId ++ "--" ++ relation ++ "-->" ++ targetId

def parseLinkId (s : String) : Option (String × String × String) :=
  match splitOnce "-->".toList s.toList with
  | none => none
  | some (left, target) =>
    match splitOnce "--".toList left with
    | none => none
    | some (source, relation) =>
      if source = [] ∨ target = [] ∨ relation = [] then none
      else some (String.ofList source, String.ofList target, String.ofList relation)

/-- `AttestLevel::from_str`, with the level of a column that holds none. -/
def storedAttest (r : LinkVerifyRecord) : String :=
  match r.attestLevel with
  | some "self_signed" => "self_signed"
  | some "peer_attested" => "peer_attested"
  | _ => "unsigned"

/-- Whether the signature verifies again, and the level that goes out. -/
def reattest (h : Host) (r : LinkVerifyRecord) : Bool × String :=
  match r.signature, r.observedBy with
  | some sig, some observedBy =>
    match h.lookupPeerPublicKey observedBy with
    | some pubkey =>
      if h.verify pubkey r.signable sig then (true, if storedAttest r = "unsigned" then "peer_attested" else storedAttest r)
      else (false, "unsigned")
    | none => (false, storedAttest r)
  | _, _ => (false, "unsigned")

def verifyLink (h : Host) (db : Db) (sourceId targetId relation : String) : Except String Json :=
  match validateLink sourceId targetId relation with
  | .error e => .error e
  | .ok () =>
    match db.getLinkForVerify sourceId targetId relation with
    | none => .error s!"link not found: ({sourceId}, {relation}, {targetId})"
    | some record =>
      let (verified, attestOut) := reattest h record
      let claimed := fun column : Option String => if verified then column.elim Json.null .str else .null
      .ok (.obj [("attest_level", .str attestOut), ("signature_verified", .bool verified),
        ("signed_at", claimed record.validFrom), ("signed_by", claimed record.observedBy)])

def handleVerify (h : Host) (db : Db) (params : Json) : Except String Json :=
  match strParam params "link_id" with
  | some lid =>
    match parseLinkId lid with
    | none => .error s!"link_id '{lid}' is not in the expected form 'source_id--relation-->target_id'"
    | some (sourceId, targetId, relation) => verifyLink h db sourceId targetId relation
  | none =>
    match strParam params "source_id" with
    | none => .error "link_id or source_id+target_id is required"
    | some sourceId =>
      match strParam params "target_id" with
      | none => .error "link_id or source_id+target_id is required"
      | some targetId => verifyLink h db sourceId targetId ((strParam params "relation").getD "related_to")

variable {s t rel : String}

theorem parseLinkId_eq_some {text : String} : parseLinkId text = some (s, t, rel) ↔
    ∃ left, splitOnce "-->".toList text.toList = some (left, t.toList) ∧
      splitOnce "--".toList left = some (s.toList, rel.toList) ∧ s ≠ "" ∧ t ≠ "" ∧ rel ≠ "" := by
  have hlist : ∀ (l : List Char) (x : String), String.ofList l = x ↔ l = x.toList := fun l x =>
    ⟨fun h => by rw [← h, String.toList_ofList], fun h => by rw [h, String.ofList_toList]⟩
  have hempty : ∀ x : String, x.toList = [] ↔ x = "" := fun x => String.toList_eq_nil_iff
  unfold parseLinkId
  cases harrow : splitOnce "-->".toList text.toList with
  | none => simp
  | some parts =>
    obtain ⟨left, target⟩ := parts
    cases hdash : splitOnce "--".toList left with
    | none =>
      simp only [hdash]
      refine iff_of_false (by simp) ?_
      rintro ⟨left', heq, hsplit, -⟩
      obtain ⟨rfl, -⟩ := Prod.mk.inj (Option.some.inj heq)
      rw [hdash] at hsplit
      cases hsplit
    | some parts' =>
      obtain ⟨source, relation⟩ := parts'
      simp only [hdash]
      split_ifs with hnil
      · refine iff_of_false (by simp) ?_
        rintro ⟨left', heq, hsplit, hs, ht, hrel⟩
        obtain ⟨rfl, rfl⟩ := Prod.mk.inj (Option.some.inj heq)
        rw [hdash] at hsplit
        obtain ⟨rfl, rfl⟩ := Prod.mk.inj (Option.some.inj hsplit)
        simp only [hempty] at hnil
        exact hnil.elim hs (fun h => h.elim ht hrel)
      · simp only [not_or] at hnil
        simp only [Option.some.injEq, Prod.mk.injEq, hlist]
        constructor
        · rintro ⟨rfl, rfl, rfl⟩
          exact ⟨left, ⟨rfl, rfl⟩, by rw [hdash], (hempty s).not.mp hnil.1, (hempty t).not.mp hnil.2.1, (hempty rel).not.mp hnil.2.2⟩
        · rintro ⟨left', ⟨rfl, rfl⟩, hsplit, -⟩
          rw [hdash] at hsplit
          obtain ⟨rfl, rfl⟩ := Prod.mk.inj (Option.some.inj hsplit)
          exact ⟨rfl, rfl, rfl⟩

theorem toList_linkId : (linkId s rel t).toList = (s.toList ++ ("--".toList ++ rel.toList)) ++ ("-->".toList ++ t.toList) := by
  simp only [linkId, String.toList_append, List.append_assoc]

theorem linkId_of_parse {text : String} (h : parseLinkId text = some (s, t, rel)) : linkId s rel t = text := by
  obtain ⟨left, harrow, hdash, -⟩ := parseLinkId_eq_some.mp h
  rw [← String.toList_inj, toList_linkId, ← (splitOnce_eq_some.mp hdash).1, ← (splitOnce_eq_some.mp harrow).1]

theorem relation_plain (h : Accepts (validateRelation rel)) : '-' ∉ rel.toList ∧ ∃ c r, rel.toList = c :: r ∧ c ≠ '>' := by
  unfold validateRelation at h
  simp only [accepts_bind, accepts_bailIf, Bool.not_eq_false', List.contains_iff_mem] at h
  have hrel := h.2.2
  simp only [validRelations, List.mem_cons, List.not_mem_nil, or_false] at hrel
  rcases hrel with rfl | rfl | rfl | rfl <;> exact ⟨by decide, _, _, rfl, by decide⟩

theorem ne_empty_of_validateId {id : String} (h : Accepts (validateId id)) : id ≠ "" := by
  rintro rfl
  revert h
  decide

theorem absent_arrow (hrel : Accepts (validateRelation rel)) (hs : ¬"--".toList <:+: s.toList ++ ['-']) (rest : List Char) :
    Absent "-->".toList (s.toList ++ ("--".toList ++ rel.toList)) rest := by
  obtain ⟨hdash, c, r, hcons, hc⟩ := relation_plain hrel
  rw [absent_append, absent_append]
  refine ⟨absent_pair hs, ?_, absent_of_ne (c := '-') (s := ['-', '>']) fun d hd heq => hdash (heq ▸ hd)⟩
  have hcdash : c ≠ '-' := fun heq => hdash (by rw [hcons, heq]; exact List.mem_cons_self)
  rw [hcons, show "--".toList = ['-', '-'] from rfl, absent_cons, absent_cons]
  refine ⟨fun h => ?_, fun h => ?_, absent_nil⟩
  · obtain ⟨u, hu⟩ := h
    exact hc (List.cons.inj (List.cons.inj (List.cons.inj hu).2).2).1.symm
  · obtain ⟨u, hu⟩ := h
    exact hcdash (List.cons.inj (List.cons.inj hu).2).1.symm

theorem parse_linkId_iff (hs : s ≠ "") (ht : t ≠ "") (hrel : Accepts (validateRelation rel)) :
    parseLinkId (linkId s rel t) = some (s, t, rel) ↔ ¬"--".toList <:+: s.toList ++ ['-'] := by
  have hrelempty : rel ≠ "" := by
    obtain ⟨-, c, r, hcons, -⟩ := relation_plain hrel
    rintro rfl
    cases hcons
  rw [parseLinkId_eq_some]
  constructor
  · rintro ⟨left, -, hdash, -⟩
    exact absent_pair_iff.mp (splitOnce_eq_some.mp hdash).2
  · intro hplain
    refine ⟨s.toList ++ ("--".toList ++ rel.toList), ?_, ?_, hs, ht, hrelempty⟩
    · exact splitOnce_eq_some.mpr ⟨toList_linkId, absent_arrow hrel hplain _⟩
    · exact splitOnce_eq_some.mpr ⟨rfl, absent_pair hplain⟩

/-- Joining what was read gives the text; and the id of a link is read back, and reported on, as the link exactly when its source
has no double hyphen and none at its end. -/
theorem linkIds_read_back {s t rel : String} (hs : Accepts (validateId s)) (ht : Accepts (validateId t))
    (hrel : Accepts (validateRelation rel)) :
    (∀ text s' t' rel', parseLinkId text = some (s', t', rel') → linkId s' rel' t' = text) ∧
      ((parseLinkId (linkId s rel t) = some (s, t, rel) ∧ ∀ h db params, strParam params "link_id" = some (linkId s rel t) →
        handleVerify h db params = verifyLink h db s t rel) ↔ ¬"--".toList <:+: s.toList ++ ['-']) := by
  refine ⟨fun text s' t' rel' => linkId_of_parse, ?_⟩
  rw [← parse_linkId_iff (ne_empty_of_validateId hs) (ne_empty_of_validateId ht) hrel]
  refine ⟨fun h => h.1, fun h => ⟨h, fun host db params hparams => ?_⟩⟩
  unfold handleVerify
  simp only [hparams, h]

theorem linkIds_read_back_uuid : parseLinkId (linkId "3f-2a" "related_to" "b--c") = some ("3f-2a", "b--c", "related_to") :=
  ((linkIds_read_back (by decide) (by decide) (by decide)).2.mpr (by decide)).1

/-- The link from `a--b` is read as another one, of a relation that there is not. -/
theorem hyphens_misread : Accepts (validateId "a--b") ∧ Accepts (validateId "c") ∧
    parseLinkId (linkId "a--b" "related_to" "c") = some ("a", "c", "b--related_to") ∧
    parseLinkId (linkId "a--related_to-->b" "supersedes" "c") = some ("a", "b--supersedes-->c", "related_to") := by
  decide

end Mcp

end AiMemory
