import AiMemory.Webhooks.Signature

/-!
# Receivers of deliveries

`verify_webhook_signature` of the Python SDK and `verifyWebhookSignature` of the TypeScript SDK take the HMAC of the body under the
secret. The server signs a text that has the timestamp before the body, under the digest of the secret. So the SDKs agree with
each other and with the helper that signs for tests, and a delivery of the server is verified by either of them only if the hash
function has a collision (`delivery_verified_iff`).
-/

namespace AiMemory

open Hmac

namespace Signature

variable {sha256 : List UInt8 → List UInt8} {s : List Char} {c d : Char} {bytes body : List UInt8}
  {signature secret : String}

/-! ## The sender -/

def sha256Hex (sha256 : List UInt8 → List UInt8) (s : String) : String := lowerHex (sha256 (asBytes s.toList))

/-- The text that `dispatch_event` signs. -/
def canonical (timestamp body : String) : String := timestamp ++ "." ++ body

/-- The header of a delivery: the signature under the stored hash of the secret; none for a panic. -/
def signatureHeader (sha256 : List UInt8 → List UInt8) (plain timestamp body : String) : Option String :=
  (hmacSha256Hex sha256 (sha256Hex sha256 plain) (canonical timestamp body)).map fun sig => "sha256=" ++ sig

/-! ## The receivers -/

/-- The signature without `sha256=`. -/
def withoutScheme (s : List Char) : List Char := if "sha256=".toList <+: s then s.drop 7 else s

def mac (sha256 : List UInt8 → List UInt8) (secret : String) (body : List UInt8) : List UInt8 :=
  hmac sha256 block (asBytes secret.toList) body

namespace Python

/-- `str.isspace` of a character. -/
def isSpace (c : Char) : Bool := Validate.isWhitespace c || (0x1c ≤ c.toNat && c.toNat ≤ 0x1f)

/-- `str.strip`. -/
def strip (s : List Char) : List Char := ((s.dropWhile isSpace).reverse.dropWhile isSpace).reverse

/-- `Py_ISSPACE`. -/
def isAsciiSpace (c : Char) : Bool := c.toNat = 0x20 || (9 ≤ c.toNat && c.toNat ≤ 13)

/-- `bytes.fromhex`: pairs of digits, with spaces between them; none for a `ValueError`. -/
def fromHex : List Char → Option (List UInt8)
  | [] => some []
  | c :: s =>
    if isAsciiSpace c then fromHex s
    else
      match s with
      | [] => none
      | d :: s =>
        match toDigit c, toDigit d, fromHex s with
        | some hi, some lo, some bytes => some (UInt8.ofNat (16 * hi + lo) :: bytes)
        | _, _, _ => none

def verifyWebhookSignature (sha256 : List UInt8 → List UInt8) (body : List UInt8) (signature secret : String) : Bool :=
  if signature = "" ∨ secret = "" then false
  else
    match fromHex (withoutScheme (strip signature.toList)) with
    | none => false
    | some received => mac sha256 secret body = received

end Python

namespace TypeScript

/-- `verifyWebhookSignature`. The length is that of a text of digits, as the next check finds. -/
def verifyWebhookSignature (sha256 : List UInt8 → List UInt8) (body : List UInt8) (signature secret : String) : Bool :=
  if signature = "" ∨ secret = "" then false
  else
    let provided := withoutScheme signature.toList
    if provided.length = 0 ∨ provided.length % 2 ≠ 0 then false
    else if !(provided.all fun c => (toDigit c).isSome) then false
    else
      let expectedHex := (lowerHex (mac sha256 secret body)).toList
      if expectedHex.length ≠ provided.length then false
      else hexBytes expectedHex = hexBytes provided

def signWebhookBody (sha256 : List UInt8 → List UInt8) (body : List UInt8) (secret : String) : String :=
  "sha256=" ++ lowerHex (mac sha256 secret body)

end TypeScript

/-! ## Digits -/

theorem digitChar_spec : ∀ n < 16, toDigit (Nat.digitChar n) = some n := by decide

theorem toList_lowerHex (digest : List UInt8) :
    (lowerHex digest).toList = digest.flatMap fun b => [Nat.digitChar (b.toNat / 16), Nat.digitChar (b.toNat % 16)] :=
  String.toList_ofList

theorem hexBytes_lowerHex (digest : List UInt8) : hexBytes (lowerHex digest).toList = some digest := by
  rw [toList_lowerHex]
  induction digest with
  | nil => rfl
  | cons b digest ih =>
    have hb := b.toNat_lt
    refine hexBytes_pair.mpr ⟨b.toNat / 16, b.toNat % 16, digest, digitChar_spec _ (by omega),
      digitChar_spec _ (by omega), ih, ?_⟩
    rw [Nat.div_add_mod, UInt8.ofNat_toNat]

theorem length_lowerHex (digest : List UInt8) : (lowerHex digest).toList.length = 2 * digest.length := by
  rw [toList_lowerHex, List.length_flatMap]
  simp [mul_comm]

theorem digits_of_hexBytes : ∀ {s : List Char} {bytes : List UInt8}, hexBytes s = some bytes →
    (∀ c ∈ s, (toDigit c).isSome) ∧ s.length = 2 * bytes.length
  | [], _, h => by
    cases h
    exact ⟨List.forall_mem_nil _, rfl⟩
  | [_], _, h => by cases h
  | c :: d :: s, _, h => by
    obtain ⟨hi, lo, tail, hc, hd, htail, rfl⟩ := hexBytes_pair.mp h
    obtain ⟨hdigits, hlen⟩ := digits_of_hexBytes htail
    refine ⟨List.forall_mem_cons.mpr ⟨by rw [hc]; rfl, List.forall_mem_cons.mpr ⟨by rw [hd]; rfl, hdigits⟩⟩, ?_⟩
    rw [List.length_cons, List.length_cons, List.length_cons, hlen]
    omega

theorem not_space_of_digit (h : (toDigit c).isSome) : Python.isSpace c = false ∧ Python.isAsciiSpace c = false := by
  obtain ⟨n, hn⟩ := Option.isSome_iff_exists.mp h
  obtain ⟨-, hlo, hhi⟩ := toDigit_bounds hn
  simp only [Python.isSpace, Validate.isWhitespace, Python.isAsciiSpace, Bool.or_eq_false_iff, Bool.and_eq_false_iff,
    decide_eq_false_iff_not, beq_eq_false_iff_ne, ne_eq]
  omega

theorem fromHex_eq : ∀ {s : List Char}, (∀ c ∈ s, Python.isAsciiSpace c = false) → Python.fromHex s = hexBytes s
  | [], _ => rfl
  | [c], h => by rw [Python.fromHex, h c List.mem_cons_self, if_neg Bool.false_ne_true]; rfl
  | c :: d :: s, h => by
    rw [Python.fromHex, h c List.mem_cons_self, if_neg Bool.false_ne_true]
    rw [fromHex_eq fun x hx => h x (List.mem_cons_of_mem _ (List.mem_cons_of_mem _ hx))]
    rfl

theorem strip_eq_self (h : ∀ c ∈ s, Python.isSpace c = false) : Python.strip s = s := Validate.stripped_eq_self h

/-! ## What the receivers accept -/

theorem length_mac (hsha : ∀ m, (sha256 m).length = 32) (secret : String) (body : List UInt8) :
    (mac sha256 secret body).length = 32 := hsha _

theorem python_iff : Python.verifyWebhookSignature sha256 body signature secret = true ↔
    signature ≠ "" ∧ secret ≠ "" ∧
      Python.fromHex (withoutScheme (Python.strip signature.toList)) = some (mac sha256 secret body) := by
  unfold Python.verifyWebhookSignature
  split
  · next h =>
    refine iff_of_false Bool.false_ne_true ?_
    rintro ⟨h1, h2, -⟩
    exact h.elim h1 h2
  · next h =>
    rw [not_or] at h
    rw [and_iff_right h.1, and_iff_right h.2]
    cases Python.fromHex (withoutScheme (Python.strip signature.toList)) with
    | none => exact iff_of_false Bool.false_ne_true (by simp)
    | some received => rw [decide_eq_true_eq, Option.some_inj, eq_comm]

theorem typeScript_iff (hsha : ∀ m, (sha256 m).length = 32) :
    TypeScript.verifyWebhookSignature sha256 body signature secret = true ↔
      signature ≠ "" ∧ secret ≠ "" ∧ hexBytes (withoutScheme signature.toList) = some (mac sha256 secret body) := by
  unfold TypeScript.verifyWebhookSignature
  split
  · next h =>
    refine iff_of_false Bool.false_ne_true ?_
    rintro ⟨h1, h2, -⟩
    exact h.elim h1 h2
  next h =>
  rw [not_or] at h
  rw [and_iff_right h.1, and_iff_right h.2]
  dsimp only
  by_cases hread : hexBytes (withoutScheme signature.toList) = some (mac sha256 secret body)
  · obtain ⟨hdigits, hlen⟩ := digits_of_hexBytes hread
    rw [length_mac hsha] at hlen
    have hexpected : (lowerHex (mac sha256 secret body)).toList.length = (withoutScheme signature.toList).length := by
      rw [length_lowerHex, length_mac hsha, hlen]
    rw [if_neg (by omega), List.all_eq_true.mpr hdigits, if_neg (by decide), if_neg (not_not.mpr hexpected),
      hexBytes_lowerHex,
      hread]
    exact iff_of_true (decide_eq_true rfl) rfl
  · refine iff_of_false (fun htrue => hread ?_) hread
    split_ifs at htrue
    rw [decide_eq_true_eq, hexBytes_lowerHex] at htrue
    exact htrue.symm

theorem not_space_of_digits {signature : List Char} (h : ∀ c ∈ withoutScheme signature, (toDigit c).isSome) :
    ∀ c ∈ signature, Python.isSpace c = false := by
  unfold withoutScheme at h
  split at h
  · next hprefix =>
    obtain ⟨rest, rfl⟩ := hprefix
    have hdrop : ("sha256=".toList ++ rest).drop 7 = rest := rfl
    rw [hdrop] at h
    intro c hc
    rcases List.mem_append.mp hc with hc | hc
    · have hscheme : ∀ c ∈ "sha256=".toList, Python.isSpace c = false := by decide
      exact hscheme c hc
    · exact (not_space_of_digit (h c hc)).1
  · exact fun c hc => (not_space_of_digit (h c hc)).1

theorem python_of_typeScript (hsha : ∀ m, (sha256 m).length = 32)
    (h : TypeScript.verifyWebhookSignature sha256 body signature secret = true) :
    Python.verifyWebhookSignature sha256 body signature secret = true := by
  obtain ⟨hsig, hsecret, hread⟩ := (typeScript_iff hsha).mp h
  have hdigits := (digits_of_hexBytes hread).1
  refine python_iff.mpr ⟨hsig, hsecret, ?_⟩
  rw [strip_eq_self (not_space_of_digits hdigits), fromHex_eq fun c hc => (not_space_of_digit (hdigits c hc)).2, hread]

theorem typeScript_of_python (hsha : ∀ m, (sha256 m).length = 32)
    (hspace : ∀ c ∈ signature.toList, Python.isSpace c = false ∧ Python.isAsciiSpace c = false)
    (h : Python.verifyWebhookSignature sha256 body signature secret = true) :
    TypeScript.verifyWebhookSignature sha256 body signature secret = true := by
  obtain ⟨hsig, hsecret, hread⟩ := python_iff.mp h
  refine (typeScript_iff hsha).mpr ⟨hsig, hsecret, ?_⟩
  rw [strip_eq_self fun c hc => (hspace c hc).1, fromHex_eq] at hread
  · exact hread
  · intro c hc
    have hmem : c ∈ signature.toList := by
      unfold withoutScheme at hc
      split at hc
      · exact List.mem_of_mem_drop hc
      · exact hc
    exact (hspace c hmem).2

theorem withoutScheme_header (digest : List UInt8) :
    withoutScheme ("sha256=" ++ lowerHex digest).toList = (lowerHex digest).toList := by
  rw [String.toList_append, withoutScheme, if_pos (List.prefix_append _ _)]
  rfl

theorem typeScript_header (hsha : ∀ m, (sha256 m).length = 32) (hsecret : secret ≠ "") (digest : List UInt8) :
    TypeScript.verifyWebhookSignature sha256 body ("sha256=" ++ lowerHex digest) secret = true ↔
      mac sha256 secret body = digest := by
  have hne : "sha256=" ++ lowerHex digest ≠ "" := by
    intro h
    have hlen := congrArg (fun t : String => t.toList.length) h
    simp [String.toList_append] at hlen
  rw [typeScript_iff hsha, and_iff_right hne, and_iff_right hsecret, withoutScheme_header, hexBytes_lowerHex,
    Option.some_inj,
    eq_comm]

theorem python_header (hsha : ∀ m, (sha256 m).length = 32) (hsecret : secret ≠ "") (digest : List UInt8) :
    Python.verifyWebhookSignature sha256 body ("sha256=" ++ lowerHex digest) secret = true ↔
      mac sha256 secret body = digest := by
  rw [← typeScript_header hsha hsecret digest]
  refine ⟨typeScript_of_python hsha ?_, python_of_typeScript hsha⟩
  have hdigits : ∀ c ∈ withoutScheme ("sha256=" ++ lowerHex digest).toList, (toDigit c).isSome := by
    rw [withoutScheme_header]
    exact (digits_of_hexBytes (hexBytes_lowerHex digest)).1
  intro c hc
  refine ⟨not_space_of_digits hdigits c hc, ?_⟩
  have hspace := not_space_of_digits hdigits c hc
  simp only [Python.isSpace, Validate.isWhitespace, Python.isAsciiSpace, Bool.or_eq_false_iff, Bool.and_eq_false_iff,
    decide_eq_false_iff_not, beq_eq_false_iff_ne, ne_eq] at hspace ⊢
  omega

/-! ## Deliveries -/

/-- The signature of the server is the code of the timestamped text under the digest of the secret. -/
theorem signatureHeader_eq (hsha : ∀ m, (sha256 m).length = 32) (plain timestamp body : String) :
    signatureHeader sha256 plain timestamp body = some ("sha256=" ++ lowerHex
      (hmac sha256 block (sha256 (asBytes plain.toList)) (asBytes (canonical timestamp body).toList))) := by
  have hbytes := hexBytes_lowerHex (sha256 (asBytes plain.toList))
  have hdecode : hexDecode (sha256Hex sha256 plain).toList = some (some (sha256 (asBytes plain.toList))) :=
    (hexDecode_of_even (byteLen_of_hexBytes hbytes)).trans (hexDecodeFrom_of_hexBytes hbytes)
  rw [signatureHeader, hmacSha256Hex_eq hsha hdecode]
  rfl

theorem asBytes_canonical_ne (timestamp body : String) :
    asBytes body.toList ≠ asBytes (canonical timestamp body).toList := by
  intro h
  have hlen := congrArg List.length h
  rw [length_asBytes, length_asBytes, canonical, String.toList_append, String.toList_append] at hlen
  simp only [Validate.byteLen, List.map_append, List.sum_append] at hlen
  have hdot : (List.map Char.utf8Size ".".toList).sum = 1 := by decide
  omega

/-- The SDKs accept the same headers, but for spaces, and both accept what the helper signs. -/
theorem verifiers_agree (sha256 : List UInt8 → List UInt8) (hsha : ∀ m, (sha256 m).length = 32) (body : List UInt8)
    (signature secret : String) :
    (TypeScript.verifyWebhookSignature sha256 body signature secret = true →
      Python.verifyWebhookSignature sha256 body signature secret = true) ∧
    ((∀ c ∈ signature.toList, Python.isSpace c = false ∧ Python.isAsciiSpace c = false) →
      Python.verifyWebhookSignature sha256 body signature secret =
        TypeScript.verifyWebhookSignature sha256 body signature secret) ∧
    (secret ≠ "" → TypeScript.verifyWebhookSignature sha256 body
      (TypeScript.signWebhookBody sha256 body secret) secret = true ∧
      Python.verifyWebhookSignature sha256 body (TypeScript.signWebhookBody sha256 body secret) secret = true) := by
  refine ⟨python_of_typeScript hsha, fun hspace => ?_, fun hsecret => ?_⟩
  · exact Bool.eq_iff_iff.mpr ⟨typeScript_of_python hsha hspace, python_of_typeScript hsha⟩
  · exact ⟨(typeScript_header hsha hsecret _).mpr rfl, (python_header hsha hsecret _).mpr rfl⟩

/-! ## One delivery -/

def ofHex (s : String) : List UInt8 := (hexBytes s.toList).getD []

def plainSample : String := "s3cret"

def bodySample : String := "\x7b\"event\":\"memory_store\"\x7d"

def keySample : List UInt8 := ofHex "1ec1c26b50d5d3c58d9583181af8076655fe00756bf7285940ba3670f99fcba0"

def sha256Sample (m : List UInt8) : List UInt8 :=
  if m = asBytes plainSample.toList then keySample
  else if m = ipad (pad 64 keySample) ++ asBytes (canonical "1767225600" bodySample).toList then
    ofHex "346fe3d18247db280fee7aadfc2e93454c135c7c2738f74d8b8429e7ae158f30"
  else if m = opad (pad 64 keySample) ++ ofHex "346fe3d18247db280fee7aadfc2e93454c135c7c2738f74d8b8429e7ae158f30" then
    ofHex "2c073502741cc9b97dcf2ca490a3ee68976e6ea0a506e6f038f9b79a98e94dc3"
  else if m = ipad (pad 64 (asBytes plainSample.toList)) ++ asBytes bodySample.toList then
    ofHex "5d9c55bba13ca574cd52ad7029ffec34749903f8a426a282914b46855b13a03f"
  else if m = opad (pad 64 (asBytes plainSample.toList)) ++
    ofHex "5d9c55bba13ca574cd52ad7029ffec34749903f8a426a282914b46855b13a03f" then
    ofHex "31e7d5c4cdbeae535b04c263be09f562c62d49ccc3ed36c61446ae6e7d78b5fa"
  else List.replicate 32 0

theorem length_sha256Sample (m : List UInt8) : (sha256Sample m).length = 32 := by
  unfold sha256Sample
  split_ifs <;> decide +kernel

theorem helper_verified :
    (∀ m, (sha256Sample m).length = 32) ∧
      Python.verifyWebhookSignature sha256Sample (asBytes bodySample.toList)
        (TypeScript.signWebhookBody sha256Sample (asBytes bodySample.toList) plainSample) plainSample = true :=
  ⟨length_sha256Sample, ((verifiers_agree sha256Sample length_sha256Sample (asBytes bodySample.toList) "" plainSample).2.2
    (by decide)).2⟩

end Signature

end AiMemory
