import AiMemory.Db.Memories

/-!
# Embeddings and their similarity

Floating-point numbers are a linear order with operations of which no law is assumed, so rounding is covered; NaN is
left out. `f32` and `f64` are two such types.

The linear scan compares embeddings by `Embedder::cosine_similarity`, which divides by both norms and takes vectors of
different lengths to have similarity zero. The vector index compares them by `EmbeddingPoint::distance`, one minus the
dot product over the common length.
-/

namespace AiMemory

namespace Recall

/-- The arithmetic of a floating-point type. -/
class Arith (F : Type) extends LinearOrder F, Add F, Sub F, Mul F, Div F where
  /-- The float a numeral or a converted number denotes. -/
  lit : ℚ → F
  sqrt : F → F
  exp : F → F

export Arith (lit)

section Similarity

variable {F : Type} [Arith F]

/-- `iter().zip(..).map(|(x, y)| x * y).sum()`. -/
def dot (a b : List F) : F := (List.zipWith (· * ·) a b).foldl (· + ·) (lit 0)

def cosineSimilarity (a b : List F) : F :=
  if a.length ≠ b.length then lit 0
  else
    let denom := Arith.sqrt (dot a a) * Arith.sqrt (dot b b)
    if denom < lit (1 / 1000000000000) then lit 0 else dot a b / denom

def distance (a b : List F) : F := lit 1 - dot a b

end Similarity

/-! ## The stored form -/

inductive EmbeddingFormatError where
  | bigEndianUnsupported
  | unknownHeader (header : UInt8)
  | malformedLength (length : ℕ)
  deriving DecidableEq

def embeddingHeaderLeF32 : UInt8 := 0x01

def embeddingHeaderBeF32 : UInt8 := 0x02

/-- `encode_embedding_blob`; the bytes of a float are those of `f32::to_le_bytes`. -/
def encodeEmbeddingBlob {F : Type} (toLeBytes : F → UInt8 × UInt8 × UInt8 × UInt8) (embedding : List F) : List UInt8 :=
  embeddingHeaderLeF32 :: embedding.flatMap fun f =>
    let bytes := toLeBytes f
    [bytes.1, bytes.2.1, bytes.2.2.1, bytes.2.2.2]

theorem length_encodeEmbeddingBlob {F : Type} (toLeBytes : F → UInt8 × UInt8 × UInt8 × UInt8) (embedding : List F) :
    (encodeEmbeddingBlob toLeBytes embedding).length = 4 * embedding.length + 1 := by
  have hpayload : ∀ l : List F, (encodeEmbeddingBlob toLeBytes l).tail.length = 4 * l.length := by
    intro l
    induction l with
    | nil => rfl
    | cons f l ih =>
      rw [List.length_cons, Nat.mul_succ, ← ih]
      rfl
  exact congrArg Nat.succ (hpayload embedding)

section Decode

variable {F : Type} (fromLeBytes : UInt8 → UInt8 → UInt8 → UInt8 → F)

/-- `chunks_exact(4)`, each chunk through `f32::from_le_bytes`. -/
def floats : List UInt8 → List F
  | a :: b :: c :: d :: bytes => fromLeBytes a b c d :: floats bytes
  | _ => []

def decodeEmbeddingBlob (bytes : List UInt8) : Except EmbeddingFormatError (List F) :=
  match bytes with
  | [] => .ok []
  | header :: payload =>
    if bytes.length % 4 = 1 then
      if header = embeddingHeaderLeF32 then .ok (floats fromLeBytes payload)
      else if header = embeddingHeaderBeF32 then .error .bigEndianUnsupported
      else .error (.unknownHeader header)
    else if bytes.length % 4 = 0 then .ok (floats fromLeBytes bytes)
    else .error (.malformedLength bytes.length)

/-- `get_embedding`, on the content of the column: an empty blob counts as none. -/
def getEmbedding (embedding : Option (List UInt8)) : Except EmbeddingFormatError (Option (List F)) :=
  match embedding with
  | none | some [] => .ok none
  | some bytes => (decodeEmbeddingBlob fromLeBytes bytes).map some

/-- The embedding the index and the linear scan take from the column: a malformed blob is skipped. -/
def embeddingOf (embedding : Option (List UInt8)) : Option (List F) :=
  match getEmbedding fromLeBytes embedding with
  | .ok emb => emb
  | .error _ => none

def getAllEmbeddings (db : Db) : List (String × List F) :=
  db.memories.rows.filterMap fun r => (embeddingOf fromLeBytes r.embedding).map fun emb => (r.id, emb)

variable {fromLeBytes} {db : Db} {id : String} {emb : List F}

theorem decode_encode (toLeBytes : F → UInt8 × UInt8 × UInt8 × UInt8) (emb : List F) :
    decodeEmbeddingBlob fromLeBytes (encodeEmbeddingBlob toLeBytes emb) = .ok (emb.map fun f =>
      fromLeBytes (toLeBytes f).1 (toLeBytes f).2.1 (toLeBytes f).2.2.1 (toLeBytes f).2.2.2) := by
  have hfloats : floats fromLeBytes (encodeEmbeddingBlob toLeBytes emb).tail = emb.map fun f =>
      fromLeBytes (toLeBytes f).1 (toLeBytes f).2.1 (toLeBytes f).2.2.1 (toLeBytes f).2.2.2 := by
    induction emb with
    | nil => rfl
    | cons f emb ih => exact congrArg (List.cons _) ih
  have hmod : (encodeEmbeddingBlob toLeBytes emb).length % 4 = 1 := by
    rw [length_encodeEmbeddingBlob]
    omega
  rw [encodeEmbeddingBlob] at hmod hfloats ⊢
  rw [decodeEmbeddingBlob]
  simp only [hmod, if_true]
  exact congrArg Except.ok hfloats

/-- A column that decodes is not `NULL`. -/
theorem isSome_of_embeddingOf {embedding : Option (List UInt8)} {emb : List F}
    (h : embeddingOf fromLeBytes embedding = some emb) : embedding.isSome = true := by
  cases embedding with
  | none => cases h
  | some bytes => rfl

theorem mem_getAllEmbeddings : (id, emb) ∈ getAllEmbeddings fromLeBytes db ↔
    ∃ r ∈ db.memories, r.id = id ∧ embeddingOf fromLeBytes r.embedding = some emb := by
  unfold getAllEmbeddings
  simp only [List.mem_filterMap, Option.map_eq_some_iff, Prod.mk.injEq]
  constructor
  · rintro ⟨r, hr, e, he, rfl, rfl⟩
    exact ⟨r, hr, rfl, he⟩
  · rintro ⟨r, hr, rfl, he⟩
    exact ⟨r, hr, emb, he, rfl, rfl⟩

/-- The rows have different ids, and so have their embeddings. -/
theorem nodup_getAllEmbeddings (db : Db) : ((getAllEmbeddings fromLeBytes db).map Prod.fst).Nodup := by
  refine List.Nodup.sublist ?_ db.memories.nodup
  unfold getAllEmbeddings
  induction db.memories.rows with
  | nil => exact List.Sublist.slnil
  | cons r rows ih =>
    rw [List.filterMap_cons]
    cases embeddingOf fromLeBytes r.embedding with
    | none => exact ih.cons _
    | some e => exact ih.cons_cons _

end Decode

end Recall

end AiMemory
