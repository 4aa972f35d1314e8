import AiMemory.Lib.Hmac
import AiMemory.Model.Validate

/-!
# The signature of a delivery

`hmac_sha256_hex` is the HMAC of RFC 2104, written by hand over SHA-256, which is a parameter. Its key is a text that is decoded from
hexadecimal where it can be. The decoder cuts the text at byte positions and reads pairs with a number parser, so it panics inside a
character, and takes a plus sign for a digit. The signature is the right one for exactly the other keys
(`signs_rfc2104_iff`).
-/

namespace AiMemory

open Validate

namespace Signature

variable {key : String} {s rest : List Char} {c d : Char} {bytes : List UInt8}

def asBytes (s : List Char) : List UInt8 := s.flatMap String.utf8EncodeChar

/-- `char::to_digit(16)`. -/
def toDigit (c : Char) : Option ℕ :=
  let n := c.toNat
  if 48 ≤ n ∧ n ≤ 57 then some (n - 48)
  else if 97 ≤ n ∧ n ≤ 102 then some (n - 87)
  else if 65 ≤ n ∧ n ≤ 70 then some (n - 55)
  else none

def readDigits (s : List Char) : Option ℕ :=
  s.foldlM (fun n c => (toDigit c).bind fun d => if 16 * n + d < 256 then some (16 * n + d) else none) 0

/-- `u8::from_str_radix(_, 16)`: a plus sign may stand before the digits. -/
def fromStrRadix16 : List Char → Option UInt8
  | [] | ['+'] | ['-'] => none
  | '+' :: s => (readDigits s).map UInt8.ofNat
  | s => (readDigits s).map UInt8.ofNat

/-- The loop of `hex_decode`, two bytes at a time. The outer option is none for a panic: where two bytes are no whole number of
characters, the slice is out of bounds. The first pair that is no number ends the loop. -/
def hexDecodeFrom : List Char → Option (Option (List UInt8))
  | [] => some (some [])
  | c :: s =>
    if c.utf8Size = 2 then
      match fromStrRadix16 [c] with
      | none => some none
      | some b => (hexDecodeFrom s).map (Option.map (b :: ·))
    else
      match s with
      | [] => none
      | d :: s =>
        if c.utf8Size = 1 ∧ d.utf8Size = 1 then
          match fromStrRadix16 [c, d] with
          | none => some none
          | some b => (hexDecodeFrom s).map (Option.map (b :: ·))
        else none

def hexDecode (s : List Char) : Option (Option (List UInt8)) :=
  if byteLen s % 2 ≠ 0 then some none else hexDecodeFrom s

/-- `format!("{:x}", _)` of a digest. -/
def lowerHex (digest : List UInt8) : String :=
  String.ofList (digest.flatMap fun b => [Nat.digitChar (b.toNat / 16), Nat.digitChar (b.toNat % 16)])

def block : ℕ := 64

/-- `hmac_sha256_hex`; none for a panic. -/
def hmacSha256Hex (sha256 : List UInt8 → List UInt8) (keyHex body : String) : Option String :=
  (hexDecode keyHex.toList).map fun decoded =>
    let key := decoded.getD (asBytes keyHex.toList)
    let key := if key.length > block then sha256 key else key
    let key := (key ++ List.replicate block 0).take block
    let opad := key.map (0x5c ^^^ ·)
    let ipad := key.map (0x36 ^^^ ·)
    lowerHex (sha256 (opad ++ sha256 (ipad ++ asBytes body.toList)))

/-! ## The key that is meant -/

/-- The bytes that an even number of hexadecimal digits stand for. -/
def hexBytes : List Char → Option (List UInt8)
  | [] => some []
  | [_] => none
  | c :: d :: s =>
    match toDigit c, toDigit d, hexBytes s with
    | some hi, some lo, some bytes => some (UInt8.ofNat (16 * hi + lo) :: bytes)
    | _, _, _ => none

def keyBytes (key : String) : List UInt8 := (hexBytes key.toList).getD (asBytes key.toList)

/-- Under every hash function with digests of 32 bytes the signature of every body is its HMAC under the key bytes. -/
def SignsRfc2104 (key : String) : Prop :=
  ∀ sha256 : List UInt8 → List UInt8, (∀ m, (sha256 m).length = 32) → ∀ body : String,
    hmacSha256Hex sha256 key body = some (lowerHex (Hmac.hmac sha256 block (keyBytes key) (asBytes body.toList)))

/-- A pair that the number parser takes: two digits, or a plus sign and a digit. -/
def Taken (c d : Char) : Prop := (c = '+' ∨ (toDigit c).isSome) ∧ (toDigit d).isSome

/-- Two bytes that are no number: one character, or two that are not taken. -/
def Stops (s : List Char) : Prop :=
  (∃ c rest, s = c :: rest ∧ c.utf8Size = 2) ∨
  ∃ c d rest, s = c :: d :: rest ∧ c.utf8Size = 1 ∧ d.utf8Size = 1 ∧ ¬ Taken c d

/-! ## The decoder -/

theorem toDigit_bounds {n : ℕ} (h : toDigit c = some n) : n < 16 ∧ 48 ≤ c.toNat ∧ c.toNat ≤ 102 := by
  unfold toDigit at h
  simp only at h
  split_ifs at h <;> cases h <;> omega

theorem utf8Size_of_digit {n : ℕ} (h : toDigit c = some n) : c.utf8Size = 1 := by
  have hc := (toDigit_bounds h).2.2
  rw [Char.utf8Size_eq_one_iff, UInt32.le_iff_toNat_le]
  exact hc.trans (by decide)

theorem readDigits_one (c : Char) : readDigits [c] = toDigit c := by
  cases h : toDigit c with
  | none => simp [readDigits, h]
  | some n =>
    have hlt : n < 256 := (toDigit_bounds h).1.trans (by decide)
    simp [readDigits, h, hlt]

theorem readDigits_two (c d : Char) :
    readDigits [c, d] = (toDigit c).bind fun hi => (toDigit d).map fun lo => 16 * hi + lo := by
  cases hc : toDigit c with
  | none => simp [readDigits, hc]
  | some hi =>
    have hhi := (toDigit_bounds hc).1
    cases hd : toDigit d with
    | none => simp [readDigits, hc, hd]
    | some lo =>
      have hlo := (toDigit_bounds hd).1
      simp [readDigits, hc, hd, show hi < 256 by omega, show 16 * hi + lo < 256 by omega]

theorem fromStrRadix16_two (h : c.utf8Size = 2) : fromStrRadix16 [c] = none := by
  have hdigit : toDigit c = none := by
    cases hc : toDigit c with
    | none => rfl
    | some n =>
      rw [utf8Size_of_digit hc] at h
      cases h
  unfold fromStrRadix16
  split
  · rfl
  · rfl
  · rfl
  · rename_i s _ hs
    cases hs
    cases h
  · rw [readDigits_one, hdigit]
    rfl

theorem fromStrRadix16_plus (d : Char) : fromStrRadix16 ['+', d] = (toDigit d).map UInt8.ofNat := by
  rw [fromStrRadix16, readDigits_one]
  simp

theorem fromStrRadix16_pair_of_ne (hc : c ≠ '+') :
    fromStrRadix16 [c, d] = ((toDigit c).bind fun hi => (toDigit d).map fun lo => 16 * hi + lo).map UInt8.ofNat := by
  unfold fromStrRadix16
  split
  · rename_i h
    cases h
  · rename_i h
    cases h
  · rename_i h
    cases h
  · rename_i h
    cases h
    exact absurd rfl hc
  · rw [readDigits_two]

theorem fromStrRadix16_isSome : (fromStrRadix16 [c, d]).isSome ↔ Taken c d := by
  unfold Taken
  by_cases hc : c = '+'
  · subst hc
    rw [fromStrRadix16_plus]
    simp
  · rw [fromStrRadix16_pair_of_ne hc]
    cases toDigit c <;> cases toDigit d <;> simp [hc]

theorem fromStrRadix16_digits {hi lo : ℕ} (hc : toDigit c = some hi) (hd : toDigit d = some lo) :
    fromStrRadix16 [c, d] = some (UInt8.ofNat (16 * hi + lo)) := by
  have hplus : c ≠ '+' := by
    rintro rfl
    cases hc
  rw [fromStrRadix16_pair_of_ne hplus, hc, hd]
  rfl

def flat (pairs : List (Char × Char)) : List Char := pairs.flatMap fun p => [p.1, p.2]

variable {pairs : List (Char × Char)}

theorem Taken.utf8Size (h : Taken c d) : c.utf8Size = 1 ∧ d.utf8Size = 1 := by
  obtain ⟨hc, hd⟩ := h
  obtain ⟨lo, hlo⟩ := Option.isSome_iff_exists.mp hd
  refine ⟨?_, utf8Size_of_digit hlo⟩
  rcases hc with rfl | hc
  · rfl
  · obtain ⟨hi, hhi⟩ := Option.isSome_iff_exists.mp hc
    exact utf8Size_of_digit hhi

theorem hexDecodeFrom_pair (hc : c.utf8Size = 1) (hd : d.utf8Size = 1) (s : List Char) :
    hexDecodeFrom (c :: d :: s) =
      match fromStrRadix16 [c, d] with
      | none => some none
      | some b => (hexDecodeFrom s).map (Option.map (b :: ·)) := by
  rw [hexDecodeFrom]
  simp [hc, hd]

theorem hexDecodeFrom_two (hc : c.utf8Size = 2) (s : List Char) : hexDecodeFrom (c :: s) = some none := by
  rw [hexDecodeFrom.eq_def]
  simp [hc, fromStrRadix16_two hc]

theorem hexDecodeFrom_stops (h : Stops s) : hexDecodeFrom s = some none := by
  rcases h with ⟨c, rest, rfl, hc⟩ | ⟨c, d, rest, rfl, hc, hd, hnot⟩
  · exact hexDecodeFrom_two hc rest
  · have hnone : fromStrRadix16 [c, d] = none := by
      rw [← Option.not_isSome_iff_eq_none, fromStrRadix16_isSome]
      exact hnot
    rw [hexDecodeFrom_pair hc hd, hnone]

theorem hexDecodeFrom_flat (h : ∀ p ∈ pairs, Taken p.1 p.2) :
    ∃ read : List UInt8, read.length = pairs.length ∧
      ∀ s, hexDecodeFrom (flat pairs ++ s) = (hexDecodeFrom s).map (Option.map (read ++ ·)) := by
  induction pairs with
  | nil =>
    refine ⟨[], rfl, fun s => ?_⟩
    show hexDecodeFrom s = _
    rcases hexDecodeFrom s with - | - | read <;> rfl
  | cons p pairs ih =>
    obtain ⟨read, hlen, hread⟩ := ih fun q hq => h q (List.mem_cons_of_mem _ hq)
    have hp := h p List.mem_cons_self
    obtain ⟨b, hb⟩ := Option.isSome_iff_exists.mp (fromStrRadix16_isSome.mpr hp)
    refine ⟨b :: read, congrArg (· + 1) hlen, fun s => ?_⟩
    have hcut : flat (p :: pairs) ++ s = p.1 :: p.2 :: (flat pairs ++ s) := rfl
    rw [hcut, hexDecodeFrom_pair hp.utf8Size.1 hp.utf8Size.2, hb, hread]
    rcases hexDecodeFrom s with - | - | read' <;> rfl

/-- How a text is cut: into pairs that are taken, up to its end, to what stops the loop, or to where it panics. -/
theorem exists_cut (s : List Char) : ∃ pairs rest, s = flat pairs ++ rest ∧ (∀ p ∈ pairs, Taken p.1 p.2) ∧
    (rest = [] ∨ Stops rest ∨ hexDecodeFrom rest = none) := by
  induction hlen : s.length using Nat.strong_induction_on generalizing s with
  | _ n ih =>
    have hhere : (s = [] ∨ Stops s ∨ hexDecodeFrom s = none) → ∃ pairs rest, s = flat pairs ++ rest ∧
        (∀ p ∈ pairs, Taken p.1 p.2) ∧ (rest = [] ∨ Stops rest ∨ hexDecodeFrom rest = none) := fun h =>
      ⟨[], s, rfl, nofun, h⟩
    match s with
    | [] => exact hhere (Or.inl rfl)
    | [c] =>
      by_cases hc : c.utf8Size = 2
      · exact hhere (Or.inr (Or.inl (Or.inl ⟨c, [], rfl, hc⟩)))
      · exact hhere (Or.inr (Or.inr (by simp [hexDecodeFrom, hc])))
    | c :: d :: s =>
      by_cases hc : c.utf8Size = 2
      · exact hhere (Or.inr (Or.inl (Or.inl ⟨c, _, rfl, hc⟩)))
      by_cases hsize : c.utf8Size = 1 ∧ d.utf8Size = 1
      · by_cases htaken : Taken c d
        · obtain ⟨pairs, rest, hs, hpairs, hend⟩ := ih s.length (by rw [← hlen]; simp) s rfl
          refine ⟨(c, d) :: pairs, rest, ?_, List.forall_mem_cons.mpr ⟨htaken, hpairs⟩, hend⟩
          rw [hs]
          rfl
        · exact hhere (Or.inr (Or.inl (Or.inr ⟨c, d, s, rfl, hsize.1, hsize.2, htaken⟩)))
      · exact hhere (Or.inr (Or.inr (by rw [hexDecodeFrom]; simp [hc, hsize])))

/-! ## Keys of digits -/

theorem hexBytes_pair : hexBytes (c :: d :: s) = some bytes ↔ ∃ hi lo tail, toDigit c = some hi ∧ toDigit d = some lo ∧
    hexBytes s = some tail ∧ bytes = UInt8.ofNat (16 * hi + lo) :: tail := by
  rw [hexBytes]
  cases toDigit c <;> cases toDigit d <;> cases hexBytes s <;> simp [eq_comm]

theorem hexDecodeFrom_of_hexBytes : ∀ {s : List Char} {bytes : List UInt8}, hexBytes s = some bytes →
    hexDecodeFrom s = some (some bytes)
  | [], _, h => by
    cases h
    rfl
  | [_], _, h => by cases h
  | c :: d :: s, _, h => by
    obtain ⟨hi, lo, tail, hc, hd, htail, rfl⟩ := hexBytes_pair.mp h
    rw [hexDecodeFrom_pair (utf8Size_of_digit hc) (utf8Size_of_digit hd), fromStrRadix16_digits hc hd,
      hexDecodeFrom_of_hexBytes htail]
    rfl

/-- What can be decoded is an even number of bytes. -/
theorem byteLen_of_hexBytes : ∀ {s : List Char} {bytes : List UInt8}, hexBytes s = some bytes → byteLen s % 2 = 0
  | [], _, _ => rfl
  | [_], _, h => by cases h
  | c :: d :: s, _, h => by
    obtain ⟨hi, lo, tail, hc, hd, htail, -⟩ := hexBytes_pair.mp h
    have hrest := byteLen_of_hexBytes htail
    unfold byteLen at hrest ⊢
    rw [List.map_cons, List.map_cons, List.sum_cons, List.sum_cons, utf8Size_of_digit hc, utf8Size_of_digit hd]
    omega

theorem hexBytes_eq_none_of_plus : ∀ {s : List Char}, '+' ∈ s → hexBytes s = none
  | [], h => absurd h List.not_mem_nil
  | [_], _ => rfl
  | c :: d :: s, h => by
    rw [← Option.not_isSome_iff_eq_none]
    intro hsome
    obtain ⟨bytes, hbytes⟩ := Option.isSome_iff_exists.mp hsome
    obtain ⟨hi, lo, tail, hc, hd, htail, -⟩ := hexBytes_pair.mp hbytes
    rcases List.mem_cons.mp h with rfl | h
    · cases hc
    · rcases List.mem_cons.mp h with rfl | h
      · cases hd
      · rw [hexBytes_eq_none_of_plus h] at htail
        cases htail

theorem hexBytes_of_digits : ∀ {s : List Char}, (∀ c ∈ s, (toDigit c).isSome) → byteLen s % 2 = 0 → (hexBytes s).isSome
  | [], _, _ => rfl
  | [c], h, heven => by
    obtain ⟨n, hn⟩ := Option.isSome_iff_exists.mp (h c List.mem_cons_self)
    simp [byteLen, utf8Size_of_digit hn] at heven
  | c :: d :: s, h, heven => by
    obtain ⟨hi, hhi⟩ := Option.isSome_iff_exists.mp (h c List.mem_cons_self)
    obtain ⟨lo, hlo⟩ := Option.isSome_iff_exists.mp (h d (List.mem_cons_of_mem _ List.mem_cons_self))
    have hrest : byteLen s % 2 = 0 := by
      unfold byteLen at heven ⊢
      rw [List.map_cons, List.map_cons, List.sum_cons, List.sum_cons, utf8Size_of_digit hhi, utf8Size_of_digit hlo] at heven
      omega
    obtain ⟨tail, htail⟩ := Option.isSome_iff_exists.mp
      (hexBytes_of_digits (fun x hx => h x (List.mem_cons_of_mem _ (List.mem_cons_of_mem _ hx))) hrest)
    rw [hexBytes_pair.mpr ⟨hi, lo, tail, hhi, hlo, htail, rfl⟩]
    rfl

/-! ## The bytes of a text -/

theorem length_asBytes (s : List Char) : (asBytes s).length = byteLen s := by
  rw [asBytes, List.length_flatMap, byteLen]
  exact congrArg List.sum (List.map_congr_left fun c _ => String.length_utf8EncodeChar c)

theorem byteLen_flat (h : ∀ p ∈ pairs, Taken p.1 p.2) : byteLen (flat pairs) = 2 * pairs.length := by
  induction pairs with
  | nil => rfl
  | cons p pairs ih =>
    have hp := (h p List.mem_cons_self).utf8Size
    have hrest := ih fun q hq => h q (List.mem_cons_of_mem _ hq)
    unfold byteLen at hrest ⊢
    rw [show flat (p :: pairs) = p.1 :: p.2 :: flat pairs from rfl, List.map_cons, List.map_cons, List.sum_cons, List.sum_cons,
      hp.1, hp.2, hrest, List.length_cons]
    omega

theorem getLast?_asBytes_flat (h : ∀ p ∈ pairs, Taken p.1 p.2) : (asBytes (flat pairs)).getLast? ≠ some 0 := by
  rcases List.eq_nil_or_concat pairs with rfl | ⟨init, p, rfl⟩
  · exact nofun
  · obtain ⟨lo, hlo⟩ := Option.isSome_iff_exists.mp (h p (by simp)).2
    obtain ⟨-, hlow, hhigh⟩ := toDigit_bounds hlo
    have hbyte : String.utf8EncodeChar p.2 = [UInt8.ofNat p.2.toNat] := by
      have hv : p.2.val.toNat ≤ 127 := hhigh.trans (by decide)
      unfold String.utf8EncodeChar
      simp only [if_pos hv]
      rfl
    have hlast : (asBytes (flat (init ++ [p]))).getLast? = some (UInt8.ofNat p.2.toNat) := by
      rw [show flat (init ++ [p]) = flat init ++ [p.1] ++ [p.2] by simp [flat], asBytes, List.flatMap_append,
        List.flatMap_singleton, hbyte, List.getLast?_concat]
    rw [List.concat_eq_append, hlast, ne_eq, Option.some.injEq]
    intro hzero
    have hnat := congrArg UInt8.toNat hzero
    rw [UInt8.toNat_ofNat', Nat.mod_eq_of_lt (by omega)] at hnat
    change p.2.toNat = 0 at hnat
    omega

/-! ## The keys that sign rightly -/

theorem hmacSha256Hex_eq {sha256 : List UInt8 → List UInt8} (hsha : ∀ m, (sha256 m).length = 32) {decoded : Option (List UInt8)}
    (h : hexDecode key.toList = some decoded) (body : String) :
    hmacSha256Hex sha256 key body =
      some (lowerHex (Hmac.hmac sha256 block (decoded.getD (asBytes key.toList)) (asBytes body.toList))) := by
  unfold hmacSha256Hex
  rw [h, Option.map_some]
  simp only
  have hfits : ∀ k : List UInt8, (if k.length > block then sha256 k else k).length ≤ block := by
    intro k
    split_ifs with hlong
    · rw [hsha]
      decide
    · exact not_lt.mp hlong
  rw [Hmac.take_append_replicate (hfits _)]
  rfl

theorem signs_of_decoded {decoded : Option (List UInt8)} (h : hexDecode key.toList = some decoded)
    (hkey : decoded.getD (asBytes key.toList) = keyBytes key) : SignsRfc2104 key := by
  intro sha256 hsha body
  rw [hmacSha256Hex_eq hsha h, hkey]

theorem hexDecode_of_even (heven : byteLen s % 2 = 0) : hexDecode s = hexDecodeFrom s := if_neg (not_not.mpr heven)

theorem not_signs_of_plus (hpairs : ∀ p ∈ pairs, Taken p.1 p.2) (hkey : key.toList = flat pairs) (hplus : '+' ∈ key.toList) :
    ¬ SignsRfc2104 key := by
  intro h
  obtain ⟨read, hlen, hread⟩ := hexDecodeFrom_flat hpairs
  have hbytes := byteLen_flat hpairs
  have hdecode : hexDecode key.toList = some (some read) := by
    rw [hexDecode_of_even (by rw [hkey, hbytes]; omega), hkey, ← List.append_nil (flat pairs), hread []]
    simp [hexDecodeFrom]
  have hne : pairs ≠ [] := by
    rintro rfl
    rw [hkey] at hplus
    cases hplus
  have hpos := List.length_pos_iff.mpr hne
  have hraw : keyBytes key = asBytes key.toList := by
    rw [keyBytes, hexBytes_eq_none_of_plus hplus]
    rfl
  obtain ⟨H, hH, hzero, hone⟩ := Hmac.exists_hash (B := block) (L := 32) (by decide) (by decide)
    (show read.length < (asBytes key.toList).length by rw [length_asBytes, hkey, hbytes]; omega)
    (by rw [hkey]; exact getLast?_asBytes_flat hpairs)
  have hcodes := h H hH ""
  rw [hmacSha256Hex_eq hH hdecode, Option.getD_some, hraw, show asBytes "".toList = [] from rfl, hzero, hone,
    Option.some.injEq] at hcodes
  exact absurd hcodes (by decide)

theorem digit_of_mem_flat (hpairs : ∀ p ∈ pairs, Taken p.1 p.2) (hplus : '+' ∉ flat pairs) (hc : c ∈ flat pairs) :
    (toDigit c).isSome := by
  obtain ⟨p, hp, hcp⟩ := List.mem_flatMap.mp hc
  have htaken := hpairs p hp
  simp only [List.mem_cons, List.not_mem_nil, or_false] at hcp
  rcases hcp with rfl | rfl
  · refine htaken.1.resolve_left fun he => hplus (he ▸ hc)
  · exact htaken.2

/-- The signature is the HMAC of RFC 2104 under the key that is meant, for exactly the keys with an odd number of bytes, those of
digits only, and those in which the pairs that a number parser takes, a plus sign before a digit among them, are followed by two bytes
that are a character or no number. -/
theorem signs_rfc2104_iff (key : String) : SignsRfc2104 key ↔ byteLen key.toList % 2 ≠ 0 ∨
    (∀ c ∈ key.toList, (toDigit c).isSome) ∨
    ∃ pairs rest, key.toList = flat pairs ++ rest ∧ (∀ p ∈ pairs, Taken p.1 p.2) ∧ Stops rest := by
  constructor
  · intro h
    by_cases hodd : byteLen key.toList % 2 ≠ 0
    · exact Or.inl hodd
    refine Or.inr ?_
    obtain ⟨pairs, rest, hcut, hpairs, hend⟩ := exists_cut key.toList
    rcases hend with rfl | hstops | hpanic
    · rw [List.append_nil] at hcut
      by_cases hplus : '+' ∈ key.toList
      · exact absurd h (not_signs_of_plus hpairs hcut hplus)
      · rw [hcut] at hplus ⊢
        exact Or.inl fun c hc => digit_of_mem_flat hpairs hplus hc
    · exact Or.inr ⟨pairs, rest, hcut, hpairs, hstops⟩
    · obtain ⟨read, -, hread⟩ := hexDecodeFrom_flat hpairs
      have hnone : hexDecode key.toList = none := by
        rw [hexDecode_of_even (not_not.mp hodd), hcut, hread, hpanic]
        rfl
      have hsome := h (fun _ => List.replicate 32 0) (fun _ => List.length_replicate) ""
      rw [hmacSha256Hex, hnone] at hsome
      cases hsome
  · intro h
    by_cases hodd : byteLen key.toList % 2 ≠ 0
    · have hnone : hexBytes key.toList = none := by
        rw [← Option.not_isSome_iff_eq_none]
        intro hsome
        exact hodd (byteLen_of_hexBytes (Option.isSome_iff_exists.mp hsome).choose_spec)
      refine signs_of_decoded (if_pos hodd) ?_
      rw [keyBytes, hnone]
    · have heven := not_not.mp hodd
      rcases h with hodd' | hdigits | ⟨pairs, rest, hcut, hpairs, hstops⟩
      · exact absurd hodd' hodd
      · obtain ⟨bytes, hbytes⟩ := Option.isSome_iff_exists.mp (hexBytes_of_digits hdigits heven)
        refine signs_of_decoded ((hexDecode_of_even heven).trans (hexDecodeFrom_of_hexBytes hbytes)) ?_
        rw [keyBytes, hbytes, Option.getD_some]
      · obtain ⟨read, -, hread⟩ := hexDecodeFrom_flat hpairs
        have hdecode : hexDecodeFrom key.toList = some none := by
          rw [hcut, hread, hexDecodeFrom_stops hstops]
          rfl
        have hnone : hexBytes key.toList = none := by
          cases hbytes : hexBytes key.toList with
          | none => rfl
          | some bytes => cases hdecode.symm.trans (hexDecodeFrom_of_hexBytes hbytes)
        refine signs_of_decoded ((hexDecode_of_even heven).trans hdecode) ?_
        rw [keyBytes, hnone]

/-- A key with a plus sign is taken for one byte, and one with an accent where a pair ends stops the program. -/
theorem keys_misread :
    hexDecode "+1".toList = some (some [1]) ∧ keyBytes "+1" = [0x2b, 0x31] ∧ hexDecode "xéy".toList = none ∧
      (∀ sha256 : List UInt8 → List UInt8, ∀ body, hmacSha256Hex sha256 "xéy" body = none) ∧ ¬ SignsRfc2104 "xéy" := by
  have hpanic : hexDecode "xéy".toList = none := by decide
  have hnone : ∀ sha256 : List UInt8 → List UInt8, ∀ body, hmacSha256Hex sha256 "xéy" body = none := by
    intro sha256 body
    rw [hmacSha256Hex, hpanic]
    rfl
  refine ⟨by decide, by decide, hpanic, hnone, fun h => ?_⟩
  have hsome := h (fun _ => List.replicate 32 0) (fun _ => List.length_replicate) ""
  rw [hnone] at hsome
  cases hsome

end Signature

end AiMemory
