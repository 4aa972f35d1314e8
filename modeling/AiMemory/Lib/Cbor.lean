import Mathlib.Tactic
import Mathlib.Data.String.Basic

/-!
# Definite-length CBOR

The encoding of text strings, null, and maps of these. A head carries the major type and the length in the fewest bytes;
every encoding can be told apart from what follows it (`encode_append_inj`), so a map's bytes determine its entries
(`encodeMap_inj`).

`Deterministic` is the order of keys that RFC 8949 asks for in section 4.2.1: bytewise lexicographic, on the encoded
keys. As a head comes before its text, a shorter key comes before a longer one.
-/

namespace Cbor

/-- The low `w` bytes of a number, the highest of them first. -/
def bigEndian : ℕ → ℕ → List UInt8
  | 0, _ => []
  | w + 1, n => bigEndian w (n / 256) ++ [UInt8.ofNat n]

def ofBigEndian (bs : List UInt8) : ℕ := bs.foldl (fun n b => 256 * n + b.toNat) 0

/-- The head of an item: its major type, and a length in 0, 1, 2, 4 or 8 bytes more. -/
def head (major n : ℕ) : List UInt8 :=
  if n < 24 then [UInt8.ofNat (32 * major + n)]
  else if n < 2 ^ 8 then UInt8.ofNat (32 * major + 24) :: bigEndian 1 n
  else if n < 2 ^ 16 then UInt8.ofNat (32 * major + 25) :: bigEndian 2 n
  else if n < 2 ^ 32 then UInt8.ofNat (32 * major + 26) :: bigEndian 4 n
  else UInt8.ofNat (32 * major + 27) :: bigEndian 8 n

def readHead : List UInt8 → Option (ℕ × ℕ × List UInt8)
  | [] => none
  | b :: bs =>
    let info := b.toNat % 32
    if info < 24 then some (b.toNat / 32, info, bs)
    else if info < 28 then
      let w := 2 ^ (info - 24)
      if w ≤ bs.length then some (b.toNat / 32, ofBigEndian (bs.take w), bs.drop w) else none
    else none

/-- A text string or null. -/
inductive Item where
  | null
  | text (s : String)
  deriving DecidableEq

def bytes (s : String) : List UInt8 := s.toByteArray.data.toList

def encode : Item → List UInt8
  | .null => head 7 22
  | .text s => head 3 (bytes s).length ++ bytes s

def encodeEntries (es : List (Item × Item)) : List UInt8 := es.flatMap fun e => encode e.1 ++ encode e.2

def encodeMap (es : List (Item × Item)) : List UInt8 := head 5 es.length ++ encodeEntries es

/-- The length fits the head of a text. -/
def Item.Fits : Item → Prop
  | .null => True
  | .text s => (bytes s).length < 2 ^ 64

instance : DecidablePred Item.Fits := fun a => by
  cases a <;> unfold Item.Fits <;> infer_instance

/-- The keys stand in the order of their encodings. -/
def Deterministic (es : List (Item × Item)) : Prop := (es.map fun e => encode e.1).Pairwise (· < ·)

instance (es : List (Item × Item)) : Decidable (Deterministic es) := by
  unfold Deterministic
  infer_instance

variable {major major' n n' w : ℕ} {r r' : List UInt8} {a b : Item}

/-! ## Heads -/

@[simp] theorem length_bigEndian : (bigEndian w n).length = w := by
  induction w generalizing n with
  | zero => rfl
  | succ w ih => rw [bigEndian, List.length_append, ih, List.length_singleton]

theorem ofBigEndian_concat (bs : List UInt8) (b : UInt8) : ofBigEndian (bs ++ [b]) = 256 * ofBigEndian bs + b.toNat := by
  simp [ofBigEndian]

theorem ofBigEndian_bigEndian (h : n < 256 ^ w) : ofBigEndian (bigEndian w n) = n := by
  induction w generalizing n with
  | zero =>
    have hn : n = 0 := by simpa using h
    rw [hn]
    rfl
  | succ w ih =>
    have hdiv : n / 256 < 256 ^ w := by
      rw [Nat.div_lt_iff_lt_mul (by norm_num), ← pow_succ]
      exact h
    have hmod : (UInt8.ofNat n).toNat = n % 256 := by simp
    rw [bigEndian, ofBigEndian_concat, ih hdiv, hmod]
    exact Nat.div_add_mod n 256

/-- A head with a length of `w` bytes reads back. -/
theorem readHead_wide {k : ℕ} (hm : major < 8) (hk : k < 4) (hn : n < 256 ^ 2 ^ k) :
    readHead (UInt8.ofNat (32 * major + (24 + k)) :: bigEndian (2 ^ k) n ++ r) = some (major, n, r) := by
  have hbyte : (UInt8.ofNat (32 * major + (24 + k))).toNat = 32 * major + (24 + k) := by
    rw [UInt8.toNat_ofNat_of_lt']
    show 32 * major + (24 + k) < 256
    omega
  have hinfo : (32 * major + (24 + k)) % 32 = 24 + k := by omega
  have hmajor : (32 * major + (24 + k)) / 32 = major := by omega
  have hw : 24 + k - 24 = k := by omega
  rw [List.cons_append, readHead, hbyte, hinfo, hmajor, hw]
  have hlen : (bigEndian (2 ^ k) n).length = 2 ^ k := length_bigEndian
  rw [if_neg (by omega), if_pos (by omega), if_pos (by rw [List.length_append, hlen]; omega),
    List.take_left' hlen, List.drop_left' hlen, ofBigEndian_bigEndian hn]

/-- A head reads back, whatever follows. -/
theorem readHead_head (hm : major < 8) (hn : n < 2 ^ 64) : readHead (head major n ++ r) = some (major, n, r) := by
  unfold head
  split_ifs with h24 h8 h16 h32
  · have hbyte : (UInt8.ofNat (32 * major + n)).toNat = 32 * major + n := by
      rw [UInt8.toNat_ofNat_of_lt']
      show 32 * major + n < 256
      omega
    have hinfo : (32 * major + n) % 32 = n := by omega
    have hmajor : (32 * major + n) / 32 = major := by omega
    rw [List.singleton_append, readHead, hbyte, hinfo, hmajor, if_pos h24]
  · exact readHead_wide (k := 0) hm (by norm_num) (by omega)
  · exact readHead_wide (k := 1) hm (by norm_num) (by omega)
  · exact readHead_wide (k := 2) hm (by norm_num) (by omega)
  · exact readHead_wide (k := 3) hm (by norm_num) (by omega)

theorem head_append_inj (hm : major < 8) (hm' : major' < 8) (hn : n < 2 ^ 64) (hn' : n' < 2 ^ 64)
    (h : head major n ++ r = head major' n' ++ r') : major = major' ∧ n = n' ∧ r = r' := by
  have hread := congrArg readHead h
  rw [readHead_head hm hn, readHead_head hm' hn'] at hread
  simpa using hread

/-- The first byte gives the major type away, whatever the length. -/
theorem major_head (hm : major < 8) : ∃ b bs, head major n = b :: bs ∧ b.toNat / 32 = major := by
  have hbyte : ∀ info < 32, (UInt8.ofNat (32 * major + info)).toNat / 32 = major := by
    intro info hinfo
    rw [UInt8.toNat_ofNat_of_lt' (show 32 * major + info < 256 by omega)]
    omega
  unfold head
  split_ifs with h24
  · exact ⟨_, _, rfl, hbyte n (by omega)⟩
  all_goals exact ⟨_, _, rfl, hbyte _ (by norm_num)⟩

/-! ## Items -/

theorem bytes_inj {s t : String} : bytes s = bytes t ↔ s = t := by
  unfold bytes
  rw [Array.toList_inj, ← ByteArray.ext_iff, String.toByteArray_inj]

theorem encode_null_ne {s : String} : encode .null ++ r ≠ encode (.text s) ++ r' := by
  intro h
  have hnull : ∃ b bs, head 7 22 = b :: bs ∧ b.toNat / 32 = 7 := major_head (by norm_num)
  have htext : ∃ b bs, head 3 (bytes s).length = b :: bs ∧ b.toNat / 32 = 3 := major_head (by norm_num)
  obtain ⟨b, bs, hb, hseven⟩ := hnull
  obtain ⟨c, cs, hc, hthree⟩ := htext
  rw [encode, encode, hb, hc] at h
  obtain ⟨rfl, -⟩ := List.cons.inj h
  omega

/-- Null and text differ in the first byte, so what follows an item does not matter. -/
theorem encode_append_inj (ha : a.Fits) (hb : b.Fits) (h : encode a ++ r = encode b ++ r') : a = b ∧ r = r' := by
  cases a with
  | null =>
    cases b with
    | null => exact ⟨rfl, (head_append_inj (by norm_num) (by norm_num) (by norm_num) (by norm_num) h).2.2⟩
    | text t => exact absurd h encode_null_ne
  | text s =>
    cases b with
    | null => exact absurd h.symm encode_null_ne
    | text t =>
      rw [encode, encode, List.append_assoc, List.append_assoc] at h
      obtain ⟨-, hlen, hrest⟩ := head_append_inj (by norm_num) (by norm_num) ha hb h
      obtain ⟨hbytes, hr⟩ := List.append_inj hrest hlen
      exact ⟨congrArg Item.text (bytes_inj.mp hbytes), hr⟩

/-! ## Maps -/

theorem encodeEntries_inj {es fs : List (Item × Item)} (hlen : es.length = fs.length)
    (hes : ∀ e ∈ es, e.1.Fits ∧ e.2.Fits) (hfs : ∀ e ∈ fs, e.1.Fits ∧ e.2.Fits)
    (h : encodeEntries es = encodeEntries fs) : es = fs := by
  induction es generalizing fs with
  | nil => exact (List.eq_nil_of_length_eq_zero hlen.symm).symm
  | cons e es ih =>
    cases fs with
    | nil => cases hlen
    | cons f fs =>
      simp only [encodeEntries, List.flatMap_cons, List.append_assoc] at h
      obtain ⟨hes₀, hes⟩ := List.forall_mem_cons.mp hes
      obtain ⟨hfs₀, hfs⟩ := List.forall_mem_cons.mp hfs
      obtain ⟨hkey, h⟩ := encode_append_inj hes₀.1 hfs₀.1 h
      obtain ⟨hvalue, h⟩ := encode_append_inj hes₀.2 hfs₀.2 h
      rw [Prod.ext hkey hvalue, ih (Nat.succ_injective hlen) hes hfs h]

theorem encodeMap_inj {es fs : List (Item × Item)} (hes : ∀ e ∈ es, e.1.Fits ∧ e.2.Fits)
    (hfs : ∀ e ∈ fs, e.1.Fits ∧ e.2.Fits) (hesLen : es.length < 2 ^ 64) (hfsLen : fs.length < 2 ^ 64)
    (h : encodeMap es = encodeMap fs) : es = fs := by
  obtain ⟨-, hlen, hentries⟩ := head_append_inj (by norm_num) (by norm_num) hesLen hfsLen h
  exact encodeEntries_inj hlen hes hfs hentries

end Cbor
