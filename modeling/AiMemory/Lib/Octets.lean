import Mathlib.Data.List.Basic
import Mathlib.Tactic

/-!
# Bytes as text

Percent-encoding writes every byte that is not plain as an escape of two hexadecimal digits. A lenient decoder leaves what
is no escape as it stands, and still reads back what was encoded (`decode_encode`). A lossy UTF-8 decoder puts a replacement
for what is no character; it reads back the bytes of a text (`lossy_utf8`), and a text of it in which no replacement stands
has the bytes that it was read from (`utf8_lossy`).
-/

namespace Octets

/-! ## Percent-encoding -/

/-- `%`. -/
def percent : UInt8 := 37

def hexValue (b : UInt8) : Option UInt8 :=
  if 48 ≤ b ∧ b ≤ 57 then some (b - 48)
  else if 65 ≤ b ∧ b ≤ 70 then some (b - 55)
  else if 97 ≤ b ∧ b ≤ 102 then some (b - 87)
  else none

def hexDigit (n : UInt8) : UInt8 := if n < 10 then 48 + n else 55 + n

def escape (b : UInt8) : List UInt8 := [percent, hexDigit (b / 16), hexDigit (b % 16)]

def encode (plain : UInt8 → Bool) (bs : List UInt8) : List UInt8 := bs.flatMap fun b => if plain b then [b] else escape b

/-- The decoder: an escape is read, anything else is left as it stands. -/
def decode : List UInt8 → List UInt8
  | [] => []
  | [b] => [b]
  | [b, c] => [b, c]
  | b :: h :: l :: bs =>
    if b = percent then
      match hexValue h, hexValue l with
      | some hi, some lo => (hi * 16 + lo) :: decode bs
      | _, _ => b :: decode (h :: l :: bs)
    else b :: decode (h :: l :: bs)

section Percent

variable {plain : UInt8 → Bool} {b : UInt8} {bs rest : List UInt8}

theorem hexValue_hexDigit : ∀ b : Fin 256, hexValue (hexDigit (UInt8.ofNat b / 16)) = some (UInt8.ofNat b / 16) ∧
    hexValue (hexDigit (UInt8.ofNat b % 16)) = some (UInt8.ofNat b % 16) ∧
    UInt8.ofNat b / 16 * 16 + UInt8.ofNat b % 16 = UInt8.ofNat b := by
  decide +kernel

theorem decode_escape (b : UInt8) (rest : List UInt8) : decode (escape b ++ rest) = b :: decode rest := by
  obtain ⟨hhi, hlo, hsum⟩ := hexValue_hexDigit ⟨b.toNat, b.toNat_lt⟩
  simp only [UInt8.ofNat_toNat] at hhi hlo hsum
  rw [escape, List.cons_append, List.cons_append, List.cons_append, List.nil_append, decode, if_pos rfl, hhi, hlo]
  dsimp only
  rw [hsum]

theorem decode_cons (h : b ≠ percent) : decode (b :: rest) = b :: decode rest := by
  match rest with
  | [] => rfl
  | [c] => rfl
  | c :: d :: rest => rw [decode, if_neg h]

/-- What was encoded is read back, whatever follows. -/
theorem decode_encode_append (hpercent : plain percent = false) :
    decode (encode plain bs ++ rest) = bs ++ decode rest := by
  induction bs with
  | nil => rfl
  | cons b bs ih =>
    rw [encode, List.flatMap_cons, List.append_assoc]
    by_cases hb : plain b = true
    · have hne : b ≠ percent := fun h => by
        rw [h, hpercent] at hb
        exact Bool.false_ne_true hb
      rw [if_pos hb, List.singleton_append, decode_cons hne]
      exact congrArg (b :: ·) ih
    · rw [if_neg hb, decode_escape]
      exact congrArg (b :: ·) ih

theorem decode_encode (hpercent : plain percent = false) : decode (encode plain bs) = bs := by
  have h : decode (encode plain bs ++ []) = bs ++ decode [] := decode_encode_append hpercent
  rwa [List.append_nil, decode, List.append_nil] at h

end Percent

/-! ## Lossy UTF-8 -/

def utf8 (s : List Char) : List UInt8 := s.flatMap String.utf8EncodeChar

/-- The bounds of the second byte of a character of several bytes, given the first. -/
def secondByte (b : UInt8) : Option (UInt8 × UInt8) :=
  if 0xC2 ≤ b ∧ b ≤ 0xDF then some (0x80, 0xBF)
  else if b = 0xE0 then some (0xA0, 0xBF)
  else if b = 0xED then some (0x80, 0x9F)
  else if 0xE1 ≤ b ∧ b ≤ 0xEF then some (0x80, 0xBF)
  else if b = 0xF0 then some (0x90, 0xBF)
  else if 0xF1 ≤ b ∧ b ≤ 0xF3 then some (0x80, 0xBF)
  else if b = 0xF4 then some (0x80, 0x8F)
  else none

/-- How many bytes one replacement stands for: those that begin some character, or one. -/
def spoiled : List UInt8 → ℕ
  | [] => 1
  | b :: bs =>
    match secondByte b, bs with
    | some (lo, hi), c :: bs =>
      if lo ≤ c ∧ c ≤ hi then
        match bs with
        | d :: _ => if 0x80 ≤ d ∧ d ≤ 0xBF then 3 else 2
        | [] => 2
      else 1
    | _, _ => 1

theorem spoiled_pos (bs : List UInt8) : 0 < spoiled bs := by
  unfold spoiled
  repeat' split
  all_goals decide

def replacement : Char := '\uFFFD'

/-- Text of bytes: the characters, and a replacement where there is none. -/
def lossy (bs : List UInt8) : List Char :=
  if bs = [] then []
  else
    match bs.toByteArray.utf8DecodeChar? 0 with
    | some c => c :: lossy (bs.drop c.utf8Size)
    | none => replacement :: lossy (bs.drop (spoiled bs))
termination_by bs.length
decreasing_by
  · have := c.utf8Size_pos
    have := List.length_pos_of_ne_nil ‹_›
    rw [List.length_drop]
    omega
  · have := spoiled_pos bs
    have := List.length_pos_of_ne_nil ‹_›
    rw [List.length_drop]
    omega

section Lossy

variable {c : Char} {bs : List UInt8}

theorem lossy_nil : lossy [] = [] := by
  rw [lossy, if_pos rfl]

theorem utf8_cons (c : Char) (s : List Char) : utf8 (c :: s) = String.utf8EncodeChar c ++ utf8 s := List.flatMap_cons

theorem eq_of_decodeChar (h : bs.toByteArray.utf8DecodeChar? 0 = some c) :
    bs = String.utf8EncodeChar c ++ bs.drop c.utf8Size := by
  obtain ⟨rest, hrest⟩ : ∃ rest, bs = String.utf8EncodeChar c ++ rest := by
    have hdata := congrArg (fun a => a.data.toList) (ByteArray.eq_of_utf8DecodeChar?_eq_some h)
    simp only [ByteArray.data_append, Array.toList_append, List.data_toByteArray, List.toList_toArray] at hdata
    exact ⟨_, hdata⟩
  have hlen : (String.utf8EncodeChar c).length = c.utf8Size := String.length_utf8EncodeChar c
  rw [hrest, ← hlen, List.drop_left]

theorem decodeChar_append (c : Char) (bs : List UInt8) :
    (String.utf8EncodeChar c ++ bs).toByteArray.utf8DecodeChar? 0 = some c := by
  rw [List.toByteArray_append]
  exact ByteArray.utf8DecodeChar?_utf8EncodeChar_append

theorem lossy_utf8 (s : List Char) : lossy (utf8 s) = s := by
  induction s with
  | nil => exact lossy_nil
  | cons c s ih =>
    have hlen : (String.utf8EncodeChar c).length = c.utf8Size := String.length_utf8EncodeChar c
    have hne : String.utf8EncodeChar c ++ utf8 s ≠ [] := by
      intro h
      have hpos := c.utf8Size_pos
      rw [(List.append_eq_nil_iff.mp h).1, List.length_nil] at hlen
      omega
    rw [utf8_cons, lossy, if_neg hne, decodeChar_append]
    dsimp only
    rw [← hlen, List.drop_left, ih]

theorem utf8_lossy (h : replacement ∉ lossy bs) : utf8 (lossy bs) = bs := by
  fun_induction lossy bs with
  | case1 => rfl
  | case2 bs hne c hc ih =>
    rw [utf8_cons, ih fun hm => h (List.mem_cons_of_mem _ hm)]
    exact (eq_of_decodeChar hc).symm
  | case3 bs hne hc ih => exact absurd List.mem_cons_self h

theorem lossy_eq_iff {s : List Char} (h : replacement ∉ s) : lossy bs = s ↔ bs = utf8 s := by
  constructor
  · rintro rfl
    exact (utf8_lossy h).symm
  · rintro rfl
    exact lossy_utf8 s

end Lossy

end Octets
