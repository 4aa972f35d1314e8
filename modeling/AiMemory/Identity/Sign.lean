import AiMemory.Lib.Cbor
import AiMemory.Sync.Push

/-!
# Signing links

`identity/sign.rs` and the check of `identity/verify.rs`. The six signed fields go through a `BTreeMap`, so their keys
are encoded in the order of the plain strings, with `observed_by` before `relation`. The bytes determine the link
(`canonicalCbor_inj`), but RFC 8949 puts the longer key behind the shorter one: the keys of no link stand in its order
(`signedBytes`).
-/

namespace AiMemory

open Cbor

namespace Identity

def insert {α : Type*} (k : String) (v : α) : List (String × α) → List (String × α)
  | [] => [(k, v)]
  | e :: m => if k < e.1 then (k, v) :: e :: m else if k = e.1 then (k, v) :: m else e :: insert k v m

def textOrNull : Option String → Item
  | some s => .text s
  | none => .null

/-- The map of `canonical_cbor`, in iteration order. -/
def signedMap (link : SignableLink) : List (String × Item) :=
  let map := insert "src_id" (.text link.srcId) []
  let map := insert "dst_id" (.text link.dstId) map
  let map := insert "relation" (.text link.relation) map
  let map := insert "observed_by" (textOrNull link.observedBy) map
  let map := insert "valid_from" (textOrNull link.validFrom) map
  insert "valid_until" (textOrNull link.validUntil) map

/-- The entries of the `ciborium::Value::Map`. -/
def entries (link : SignableLink) : List (Item × Item) :=
  (signedMap link).map fun e => (.text e.1, e.2)

def canonicalCbor (link : SignableLink) : List UInt8 := encodeMap (entries link)

/-- Each text is as short as a `usize` can count. -/
structure Fits (link : SignableLink) : Prop where
  srcId : (bytes link.srcId).length < 2 ^ 64
  dstId : (bytes link.dstId).length < 2 ^ 64
  relation : (bytes link.relation).length < 2 ^ 64
  observedBy : ∀ s ∈ link.observedBy, (bytes s).length < 2 ^ 64
  validFrom : ∀ s ∈ link.validFrom, (bytes s).length < 2 ^ 64
  validUntil : ∀ s ∈ link.validUntil, (bytes s).length < 2 ^ 64

variable {a b link : SignableLink} {s t : Option String}

theorem signedMap_eq : signedMap link =
    [("dst_id", .text link.dstId), ("observed_by", textOrNull link.observedBy), ("relation", .text link.relation),
      ("src_id", .text link.srcId), ("valid_from", textOrNull link.validFrom),
      ("valid_until", textOrNull link.validUntil)] := by
  simp only [signedMap, insert, String.reduceLT, String.reduceEq, if_true, if_false]

theorem textOrNull_inj (h : textOrNull s = textOrNull t) : s = t := by
  cases s <;> cases t <;> simp_all [textOrNull]

theorem fits_textOrNull : (textOrNull s).Fits ↔ ∀ x ∈ s, (bytes x).length < 2 ^ 64 := by
  cases s <;> simp [textOrNull, Item.Fits]

theorem Fits.entries (h : Fits link) : ∀ e ∈ entries link, e.1.Fits ∧ e.2.Fits := by
  have hkeys : ∀ k ∈ ["dst_id", "observed_by", "relation", "src_id", "valid_from", "valid_until"],
      (Item.text k).Fits := by
    decide +kernel
  simp only [List.forall_mem_cons] at hkeys
  obtain ⟨hdst, hobs, hrel, hsrc, hfrom, huntil, -⟩ := hkeys
  rw [Identity.entries, signedMap_eq]
  simp only [List.map_cons, List.map_nil, List.forall_mem_cons]
  exact ⟨⟨hdst, h.dstId⟩, ⟨hobs, fits_textOrNull.mpr h.observedBy⟩, ⟨hrel, h.relation⟩, ⟨hsrc, h.srcId⟩,
    ⟨hfrom, fits_textOrNull.mpr h.validFrom⟩, ⟨huntil, fits_textOrNull.mpr h.validUntil⟩,
    fun _ he => absurd he List.not_mem_nil⟩

theorem canonicalCbor_inj (ha : Fits a) (hb : Fits b) (h : canonicalCbor a = canonicalCbor b) : a = b := by
  have hlen : ∀ link, (entries link).length = 6 := fun link => by rw [entries, signedMap_eq]; rfl
  have hentries := encodeMap_inj ha.entries hb.entries (by rw [hlen]; norm_num) (by rw [hlen]; norm_num) h
  simp only [entries, signedMap_eq, List.map_cons, List.map_nil, List.cons.injEq, Prod.mk.injEq, true_and,
    Item.text.injEq, and_true] at hentries
  obtain ⟨hdst, hobs, hrel, hsrc, hfrom, huntil⟩ := hentries
  cases a
  cases b
  simp only [SignableLink.mk.injEq]
  exact ⟨hsrc, hdst, hrel, textOrNull_inj hobs, textOrNull_inj hfrom, textOrNull_inj huntil⟩

theorem deterministic_congr : Deterministic (entries a) ↔ Deterministic (entries b) := by
  unfold Deterministic entries
  simp only [signedMap_eq, List.map_cons, List.map_nil]

/-- Equal bytes are of equal links, and the keys are in the order of RFC 8949 for none. -/
theorem signedBytes (link : SignableLink) :
    (∀ other : SignableLink, Fits link → Fits other → canonicalCbor link = canonicalCbor other → link = other) ∧
      ¬Deterministic (entries link) := by
  refine ⟨fun _ => canonicalCbor_inj, fun h => ?_⟩
  have hplain : Deterministic (entries ⟨"", "", "", none, none, none⟩) := deterministic_congr.mp h
  revert hplain
  decide +kernel

/-- A link as `create_link_signed` signs it. -/
def aliceLink : SignableLink :=
  ⟨"src-001", "dst-002", "related_to", some "alice", some "2026-05-05T00:00:00+00:00", none⟩

theorem aliceLink_out_of_order : ¬Deterministic (entries aliceLink) := by decide +kernel

end Identity

end AiMemory
