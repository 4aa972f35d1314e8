import Mathlib.Data.List.Basic
import Mathlib.Tactic

/-!
# HMAC

The construction of RFC 2104 over a hash function `H`, with blocks of `B` bytes and digests of `L`. A key and a shorter one are told
apart by some hash function, unless the longer one ends with a zero byte (`exists_hash`).
-/

namespace Hmac

variable {B L : ℕ} {H : List UInt8 → List UInt8} {key key₁ key₂ text : List UInt8}

/-- A key of at most one block, with zero bytes up to the end of the block. -/
def pad (B : ℕ) (key : List UInt8) : List UInt8 := key ++ List.replicate (B - key.length) 0

def keyBlock (H : List UInt8 → List UInt8) (B : ℕ) (key : List UInt8) : List UInt8 :=
  pad B (if B < key.length then H key else key)

def opad (block : List UInt8) : List UInt8 := block.map (0x5c ^^^ ·)

def ipad (block : List UInt8) : List UInt8 := block.map (0x36 ^^^ ·)

/-- `H(K ⊕ opad, H(K ⊕ ipad, text))`. -/
def hmac (H : List UInt8 → List UInt8) (B : ℕ) (key text : List UInt8) : List UInt8 :=
  H (opad (keyBlock H B key) ++ H (ipad (keyBlock H B key) ++ text))

theorem length_pad (h : key.length ≤ B) : (pad B key).length = B := by
  rw [pad, List.length_append, List.length_replicate]
  omega

theorem take_append_replicate (h : key.length ≤ B) : (key ++ List.replicate B 0).take B = pad B key := by
  rw [pad, List.take_append, List.take_of_length_le h, List.take_replicate, min_eq_left (Nat.sub_le _ _)]

theorem length_keyBlock (hL : ∀ m, (H m).length = L) (hLB : L ≤ B) (key : List UInt8) : (keyBlock H B key).length = B := by
  unfold keyBlock
  split_ifs with hlong
  · exact length_pad (by rw [hL]; exact hLB)
  · exact length_pad (not_lt.mp hlong)

theorem opad_injective : Function.Injective opad :=
  List.map_injective_iff.mpr fun x y h => by
    have hxor := congrArg (0x5c ^^^ ·) h
    simpa [← UInt8.xor_assoc] using hxor

/-! ## Keys that a hash function tells apart -/

/-- A hash function with three digests: one for a long `key`, one for `message`, and zero bytes for everything else. -/
def tell (B L : ℕ) (key message : List UInt8) (a : UInt8) (m : List UInt8) : List UInt8 :=
  if m = key ∧ B < key.length then List.replicate L a
  else if m = message then List.replicate L 1
  else List.replicate L 0

variable {message m : List UInt8} {a : UInt8}

theorem length_tell : (tell B L key message a m).length = L := by
  unfold tell
  split_ifs <;> exact List.length_replicate

theorem getLast?_replicate_zero (hL : 0 < L) (m : List UInt8) : (m ++ List.replicate L 0).getLast? = some 0 := by
  obtain ⟨n, rfl⟩ := Nat.exists_eq_succ_of_ne_zero hL.ne'
  rw [List.replicate_succ', ← List.append_assoc, List.getLast?_concat]

theorem head?_pad (hB : 0 < B) (key : List UInt8) : (pad B key).head? = some (key.headD 0) := by
  cases key with
  | nil =>
    obtain ⟨n, rfl⟩ := Nat.exists_eq_succ_of_ne_zero hB.ne'
    rfl
  | cons x key => rfl

theorem pad_ne (hlen : key₁.length < key₂.length) (hB : key₂.length ≤ B) (hlast : key₂.getLast? ≠ some 0) :
    pad B key₁ ≠ pad B key₂ := by
  intro h
  have hat := congrArg (fun block : List UInt8 => block[key₂.length - 1]?) h
  simp only [pad] at hat
  rw [List.getElem?_append_right (by omega), List.getElem?_append_left (by omega), List.getElem?_replicate,
    if_pos (by omega), ← List.getLast?_eq_getElem?] at hat
  exact hlast hat.symm

/-- With the digest `a` for a long key the blocks of the two keys differ. -/
theorem keyBlock_tell_ne (hL : 0 < L) (hLB : L ≤ B) (hlen : key₁.length < key₂.length) (hlast : key₂.getLast? ≠ some 0)
    (ha : a ≠ 0 ∧ a ≠ 1 ∧ a ≠ key₁.headD 0) :
    keyBlock (tell B L key₂ message a) B key₁ ≠ pad B (if B < key₂.length then List.replicate L a else key₂) := by
  unfold keyBlock
  by_cases hlong : B < key₂.length
  · intro h
    have hne : ¬ (key₁ = key₂ ∧ B < key₂.length) := fun he => hlen.ne (congrArg List.length he.1)
    have hhead := congrArg List.head? h
    obtain ⟨n, rfl⟩ := Nat.exists_eq_succ_of_ne_zero hL.ne'
    rw [head?_pad (by omega), head?_pad (by omega), if_pos hlong, tell, if_neg hne, Option.some.injEq] at hhead
    split_ifs at hhead
    · exact ha.2.1 hhead.symm
    · exact ha.1 hhead.symm
    · exact ha.2.2 hhead.symm
  · rw [if_neg hlong, if_neg (by omega)]
    exact pad_ne hlen (not_lt.mp hlong) hlast

/-- A key and a shorter one, the longer one not ending with a zero byte: some hash function gives them different codes of the empty
text. -/
theorem exists_hash (hL : 0 < L) (hLB : L ≤ B) (hlen : key₁.length < key₂.length) (hlast : key₂.getLast? ≠ some 0) :
    ∃ H : List UInt8 → List UInt8, (∀ m, (H m).length = L) ∧ hmac H B key₁ [] = List.replicate L 0 ∧
      hmac H B key₂ [] = List.replicate L 1 := by
  obtain ⟨a, ha⟩ : ∃ a : UInt8, a ≠ 0 ∧ a ≠ 1 ∧ a ≠ key₁.headD 0 := by
    by_cases htwo : key₁.headD 0 = 2
    · exact ⟨3, by decide, by decide, by rw [htwo]; decide⟩
    · exact ⟨2, by decide, by decide, Ne.symm htwo⟩
  let block := pad B (if B < key₂.length then List.replicate L a else key₂)
  let H := tell B L key₂ (opad block ++ List.replicate L 0) a
  have hH : ∀ m, (H m).length = L := fun m => length_tell
  have hblock : keyBlock H B key₂ = block := by
    show pad B (if B < key₂.length then H key₂ else key₂) = block
    by_cases hlong : B < key₂.length
    · have hself : H key₂ = List.replicate L a := if_pos ⟨rfl, hlong⟩
      rw [if_pos hlong, hself]
      exact congrArg (pad B) (if_pos hlong).symm
    · rw [if_neg hlong]
      exact congrArg (pad B) (if_neg hlong).symm
  have hlen_block : ∀ key, (keyBlock H B key).length = B := length_keyBlock hH hLB
  have hinner : ∀ m : List UInt8, m.length = B → H m = List.replicate L 0 := by
    intro m hm
    have hkey : ¬ (m = key₂ ∧ B < key₂.length) := fun he => (hm.symm.trans (congrArg List.length he.1)).not_lt he.2
    have hmessage : m ≠ opad block ++ List.replicate L 0 := by
      intro he
      have hlen := congrArg List.length he
      rw [hm, ← hblock, List.length_append, opad, List.length_map, hlen_block, List.length_replicate] at hlen
      omega
    exact (if_neg hkey).trans (if_neg hmessage)
  have houter : ∀ b : List UInt8, H (opad b ++ List.replicate L 0) = List.replicate L (if b = block then 1 else 0) := by
    intro b
    have hkey : ¬ (opad b ++ List.replicate L 0 = key₂ ∧ B < key₂.length) := fun he =>
      hlast (he.1 ▸ getLast?_replicate_zero hL _)
    refine (if_neg hkey).trans ?_
    by_cases hb : b = block
    · rw [if_pos hb, hb, if_pos rfl]
    · rw [if_neg hb, if_neg fun he => hb (opad_injective (List.append_cancel_right he))]
  have hcode : ∀ key, hmac H B key [] = List.replicate L (if keyBlock H B key = block then 1 else 0) := by
    intro key
    have hlen : (ipad (keyBlock H B key) ++ []).length = B := by
      rw [List.append_nil, ipad, List.length_map, hlen_block]
    rw [hmac, hinner _ hlen, houter]
  refine ⟨H, hH, ?_, ?_⟩
  · rw [hcode, if_neg (keyBlock_tell_ne hL hLB hlen hlast ha)]
  · rw [hcode, if_pos hblock]

/-! ## Codes that agree -/

/-- Equal codes of two texts are a collision of the hash function, whatever the keys. -/
theorem collision_of_hmac_eq {text₁ text₂ : List UInt8} (hL : ∀ m, (H m).length = L) (hLB : L ≤ B)
    (h : hmac H B key₁ text₁ = hmac H B key₂ text₂) (hne : text₁ ≠ text₂) : ∃ m₁ m₂, m₁ ≠ m₂ ∧ H m₁ = H m₂ := by
  by_cases houter : opad (keyBlock H B key₁) ++ H (ipad (keyBlock H B key₁) ++ text₁) =
      opad (keyBlock H B key₂) ++ H (ipad (keyBlock H B key₂) ++ text₂)
  · have hlen : (opad (keyBlock H B key₁)).length = (opad (keyBlock H B key₂)).length := by
      rw [opad, opad, List.length_map, List.length_map, length_keyBlock hL hLB, length_keyBlock hL hLB]
    obtain ⟨hblock, hinner⟩ := List.append_inj houter hlen
    rw [opad_injective hblock] at hinner
    exact ⟨_, _, fun he => hne (List.append_cancel_left he), hinner⟩
  · exact ⟨_, _, houter, h⟩

end Hmac
