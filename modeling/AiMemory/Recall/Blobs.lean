import AiMemory.Db.Widths

/-!
# Embeddings as bytes

A vector of 32-bit patterns comes back bit for bit from its headed blob, and a headed blob has one vector (`blobs_agree`). Blobs
with a header and those of before are told apart by their length modulo four; the decoder, `decoded_dim` and the SQL of
`dim_violations` compute the width each for itself, and agree on every blob that decodes.
-/

namespace AiMemory

open Relational

namespace Recall

/-! ## Bits -/

/-- `f32::to_le_bytes`, on the bit pattern. -/
def toLeBytes (bits : UInt32) : UInt8 × UInt8 × UInt8 × UInt8 :=
  let n := bits.toNat
  (.ofNat n, .ofNat (n / 256), .ofNat (n / 65536), .ofNat (n / 16777216))

def fromLeBytes (a b c d : UInt8) : UInt32 := .ofNat (a.toNat + 256 * b.toNat + 65536 * c.toNat + 16777216 * d.toNat)

theorem fromLeBytes_toLeBytes (bits : UInt32) :
    fromLeBytes (toLeBytes bits).1 (toLeBytes bits).2.1 (toLeBytes bits).2.2.1 (toLeBytes bits).2.2.2 = bits := by
  apply UInt32.toNat_inj.mp
  have hbits := bits.toNat_lt
  simp only [fromLeBytes, toLeBytes, UInt32.toNat_ofNat', UInt8.toNat_ofNat']
  omega

theorem fromLeBytes_inj {a b c d a' b' c' d' : UInt8} (h : fromLeBytes a b c d = fromLeBytes a' b' c' d') :
    a = a' ∧ b = b' ∧ c = c' ∧ d = d' := by
  have hnat := congrArg UInt32.toNat h
  simp only [fromLeBytes, UInt32.toNat_ofNat'] at hnat
  have bound := fun x : UInt8 => x.toNat_lt
  have := bound a
  have := bound b
  have := bound c
  have := bound d
  have := bound a'
  have := bound b'
  have := bound c'
  have := bound d'
  simp only [← UInt8.toNat_inj]
  omega

/-! ## Widths -/

def decodedDim (bytes : List UInt8) : ℕ :=
  if bytes = [] then 0
  else if bytes.length % 4 = 1 then (bytes.length - 1) / 4
  else bytes.length / 4

/-- The width to which `dim_violations` compares the column `embedding_dim`, for a blob of this length. -/
def sqlWidth (length : ℤ) : Option ℤ :=
  if length % 4 = 0 then some (length / 4) else if length % 4 = 1 then some ((length - 1) / 4) else none

section Floats

variable {F : Type} {fromLe : UInt8 → UInt8 → UInt8 → UInt8 → F} {bytes : List UInt8}

theorem length_floats : (floats fromLe bytes).length = bytes.length / 4 := by
  induction bytes using floats.induct with
  | case1 a b c d bytes ih =>
    rw [floats, List.length_cons, ih]
    simp only [List.length_cons]
    omega
  | case2 bytes hshort =>
    have hlen : bytes.length < 4 := by
      match bytes, hshort with
      | [], _ | [_], _ | [_, _], _ | [_, _, _], _ => simp
      | a :: b :: c :: d :: rest, h => exact absurd rfl (h a b c d rest)
    rw [floats, Nat.div_eq_of_lt hlen]
    · rfl
    · exact hshort

end Floats

theorem floats_inj {a b : List UInt8} (ha : a.length % 4 = 0) (hb : b.length % 4 = 0)
    (h : floats fromLeBytes a = floats fromLeBytes b) : a = b := by
  have hlen : a.length = b.length := by
    have := congrArg List.length h
    rw [length_floats, length_floats] at this
    omega
  induction a using floats.induct generalizing b with
  | case1 w x y z a ih =>
    match b, hlen with
    | w' :: x' :: y' :: z' :: b, hlen =>
      rw [floats, floats, List.cons.injEq] at h
      simp only [List.length_cons] at ha hb hlen
      obtain ⟨rfl, rfl, rfl, rfl⟩ := fromLeBytes_inj h.1
      rw [ih (by omega) (by omega) h.2 (by omega)]
  | case2 a hshort =>
    match a, hshort with
    | [], _ => exact (List.length_eq_zero_iff.mp hlen.symm).symm
    | [_], _ | [_, _], _ | [_, _, _], _ => simp at ha
    | w :: x :: y :: z :: rest, h => exact absurd rfl (h w x y z rest)

/-- What decodes, and to which patterns: a blob with the header and whole patterns behind it, or whole patterns. -/
theorem decode_eq_ok {F : Type} {fromLe : UInt8 → UInt8 → UInt8 → UInt8 → F} {bytes : List UInt8} {v : List F} :
    decodeEmbeddingBlob fromLe bytes = .ok v ↔
      bytes.length % 4 = 0 ∧ v = floats fromLe bytes ∨
        ∃ payload, bytes = embeddingHeaderLeF32 :: payload ∧ payload.length % 4 = 0 ∧ v = floats fromLe payload := by
  cases bytes with
  | nil =>
    rw [decodeEmbeddingBlob, Except.ok.injEq, floats]
    · simp [eq_comm]
    · simp
  | cons header payload =>
    have hlen : (header :: payload).length = payload.length + 1 := rfl
    rw [decodeEmbeddingBlob]
    by_cases hone : (header :: payload).length % 4 = 1
    · rw [if_pos hone, or_iff_right fun h => by omega]
      by_cases hheader : header = embeddingHeaderLeF32
      · rw [if_pos hheader, Except.ok.injEq]
        constructor
        · rintro rfl
          exact ⟨payload, by rw [hheader], by omega, rfl⟩
        · rintro ⟨p, hp, -, rfl⟩
          rw [(List.cons.inj hp).2]
      · rw [if_neg hheader]
        refine iff_of_false (fun h => ?_) ?_
        · split_ifs at h
        · rintro ⟨p, hp, -⟩
          exact hheader (List.cons.inj hp).1
    · rw [if_neg hone]
      have hno : ¬∃ p, header :: payload = embeddingHeaderLeF32 :: p ∧ p.length % 4 = 0 ∧ v = floats fromLe p := by
        rintro ⟨p, hp, hmod, -⟩
        rw [(List.cons.inj hp).2] at hlen
        rw [(List.cons.inj hp).2] at hone
        simp only [List.length_cons] at hone
        omega
      rw [or_iff_left hno]
      by_cases hzero : (header :: payload).length % 4 = 0
      · rw [if_pos hzero, Except.ok.injEq, and_iff_right hzero, eq_comm]
      · rw [if_neg hzero]
        exact iff_of_false (fun h => by cases h) fun h => hzero h.1

/-- Vectors of bit patterns come back from their blobs; what decodes is told by length and header; a headed blob is that of its
vector; and every reader finds the same width. -/
theorem blobs_agree :
    (∀ v : List UInt32, decodeEmbeddingBlob fromLeBytes (encodeEmbeddingBlob toLeBytes v) = .ok v) ∧
    (∀ bytes, (∃ v, decodeEmbeddingBlob fromLeBytes bytes = .ok v) ↔
      bytes.length % 4 = 0 ∨ bytes.length % 4 = 1 ∧ bytes.head? = some 0x01) ∧
    (∀ a b : List UInt8, a.length % 4 = 1 → b.length % 4 = 1 → ∀ v, decodeEmbeddingBlob fromLeBytes a = .ok v →
      decodeEmbeddingBlob fromLeBytes b = .ok v → a = b) ∧
    ∀ bytes v, decodeEmbeddingBlob fromLeBytes bytes = .ok v → decodedDim bytes = v.length ∧
      sqlWidth bytes.length = some (v.length : ℤ) ∧ ∀ r : MemoryRow, r.embedding = some bytes →
        (Db.isDimViolation r ↔ 4 ≤ bytes.length ∧ r.embeddingDim ≠ some (v.length : ℤ)) := by
  refine ⟨fun v => ?_, fun bytes => ?_, fun a b ha hb v hva hvb => ?_, fun bytes v hv => ?_⟩
  · rw [decode_encode]
    exact congrArg Except.ok ((List.map_congr_left fun f _ => fromLeBytes_toLeBytes f).trans (List.map_id v))
  · simp only [decode_eq_ok]
    constructor
    · rintro ⟨v, ⟨hmod, -⟩ | ⟨payload, rfl, hmod, -⟩⟩
      · exact Or.inl hmod
      · exact Or.inr ⟨by rw [List.length_cons]; omega, rfl⟩
    · rintro (hmod | ⟨hmod, hhead⟩)
      · exact ⟨_, Or.inl ⟨hmod, rfl⟩⟩
      · obtain ⟨payload, rfl⟩ := List.head?_eq_some_iff.mp hhead
        exact ⟨_, Or.inr ⟨payload, rfl, by rw [List.length_cons] at hmod; omega, rfl⟩⟩
  · obtain ⟨p, rfl, hp, rfl⟩ := (decode_eq_ok.mp hva).resolve_left fun h => by omega
    obtain ⟨q, rfl, hq, heq⟩ := (decode_eq_ok.mp hvb).resolve_left fun h => by omega
    rw [floats_inj hp hq heq]
  · -- the length is that of the vector, with or without the header
    have hlen : bytes.length = 4 * v.length ∨ bytes.length = 4 * v.length + 1 := by
      rcases decode_eq_ok.mp hv with ⟨hmod, rfl⟩ | ⟨payload, rfl, hmod, rfl⟩
      · exact Or.inl (by rw [length_floats]; omega)
      · exact Or.inr (by rw [length_floats, List.length_cons]; omega)
    refine ⟨?_, ?_, fun r hr => ?_⟩
    · unfold decodedDim
      by_cases hnil : bytes = []
      · rw [if_pos hnil]
        rw [hnil, List.length_nil] at hlen
        omega
      · rw [if_neg hnil]
        split_ifs <;> omega
    · unfold sqlWidth
      split_ifs
      · congr 1
        omega
      · congr 1
        omega
      · omega
    · unfold Db.isDimViolation
      rw [hr, Option.any_some]
      cases r.embeddingDim with
      | none => simp
      | some dim =>
        simp only [Option.isNone_some, Option.any_some, Bool.false_or, Bool.and_eq_true, Bool.or_eq_true, decide_eq_true_eq,
          List.mem_cons, List.not_mem_nil, or_false, ne_eq, Option.some.injEq]
        omega

/-- A headed blob, one of before, and none. -/
theorem blobs_agree_two : decodedDim (encodeEmbeddingBlob toLeBytes [1, 0x3F800000]) = 2 ∧
    encodeEmbeddingBlob toLeBytes [1] = [0x01, 1, 0, 0, 0] :=
  ⟨(blobs_agree.2.2.2 _ [1, 0x3F800000] (by decide)).1,
    blobs_agree.2.2.1 _ _ (by decide) (by decide) [1] (by decide) (by decide)⟩

end Recall

end AiMemory
