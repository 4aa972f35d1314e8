import AiMemory.Lib.Chunks
import AiMemory.Db.Schema

/-!
# Transcripts

`store`, `fetch`, `purge_expired` and `link_transcript` of `transcripts.rs`. The crates `zstd` and `chrono` are
parameters. An error is shown by its outermost context.

What `store` writes is what it was given; what `fetch` returns of it is decided by the cap of the bounded decoder
(`zstdDecompress_eq`).
-/

namespace AiMemory

open Relational

/-- A row of `memory_transcripts`. -/
structure TranscriptRow where
  id : String
  ns : String
  createdAt : String
  expiresAt : Option String
  compressedSize : ℤ
  originalSize : ℤ
  zstdLevel : ℤ
  contentBlob : List UInt8
  archivedAt : Option String
  deriving DecidableEq

/-- `Transcript`: a stored transcript without its content. -/
structure Transcript where
  id : String
  ns : String
  createdAt : String
  expiresAt : Option String
  compressedSize : ℤ
  originalSize : ℤ
  deriving DecidableEq

/-- `TranscriptLink`: a row of `memory_transcript_links`. -/
structure TranscriptLink where
  memoryId : String
  transcriptId : String
  spanStart : Option ℤ
  spanEnd : Option ℤ
  deriving DecidableEq

/-- The primary key of `memory_transcript_links`. -/
def TranscriptLink.key (l : TranscriptLink) : String × String := (l.memoryId, l.transcriptId)

/-- The database file with the two transcript tables. -/
structure TranscriptDb where
  db : Db
  transcripts : Table (fun r : TranscriptRow => r.id)
  spans : Table TranscriptLink.key

/-- `zstd`: the encoder at a level, and the streaming decoder, which fills a buffer of the given size. -/
structure Zstd (σ : Type) where
  compress : ℤ → List UInt8 → Except String (List UInt8)
  decoder : List UInt8 → Except String σ
  read : ℕ → σ → Except String (List UInt8 × σ)

namespace Transcripts

def zstdLevel : ℤ := 3

def maxDecompressedBytes : ℕ := 16 * 1024 * 1024

/-- The buffer of `zstd_decompress`. -/
def readWindow : ℕ := 64 * 1024

def context {α : Type} (msg : String) : Except String α → Except String α
  | .ok a => .ok a
  | .error _ => .error msg

/-- `i64::try_from` of a length. -/
def lengthAsI64 (n : ℕ) (msg : String) : Except String ℤ := if n < 2 ^ 63 then .ok n else .error msg

/-- The bytes of a `&str`. -/
def asBytes (content : String) : List UInt8 := content.toByteArray.data.toList

def fromUtf8 (bytes : List UInt8) : Option String := String.fromUTF8? ⟨bytes.toArray⟩

def zstdDecompress {σ : Type} (z : Zstd σ) (input : List UInt8) : Except String (List UInt8) :=
  (z.decoder input).bind fun decoder =>
    Chunks.readAll (z.read readWindow) maxDecompressedBytes
      s!"transcript decompression exceeded {maxDecompressedBytes} byte cap (decompression bomb defence)" [] decoder

def store {σ : Type} (z : Zstd σ) (c : Chrono) (s : TranscriptDb) (id ns content : String) (ttl : Option ℤ)
    (now : c.Reading) : Except String (TranscriptDb × Transcript) := do
  let expiresAt := ttl.map fun d => c.toRfc3339 (now.instant + d)
  let originalSize ← lengthAsI64 (asBytes content).length "transcript content length overflows i64"
  let blob ← context "zstd compression failed for transcript content" (z.compress zstdLevel (asBytes content))
  let compressedSize ← lengthAsI64 blob.length "compressed transcript length overflows i64"
  match s.transcripts.insertNew? ⟨id, ns, now.text, expiresAt, compressedSize, originalSize, zstdLevel, blob, none⟩ with
  | some t => .ok ({ s with transcripts := t }, ⟨id, ns, now.text, expiresAt, compressedSize, originalSize⟩)
  | none => .error "INSERT into memory_transcripts failed"

def fetch {σ : Type} (z : Zstd σ) (s : TranscriptDb) (id : String) : Except String (Option String) :=
  match s.transcripts.find id with
  | none => .ok none
  | some r =>
    (context "zstd decompression failed" (zstdDecompress z r.contentBlob)).bind fun bytes =>
      match fromUtf8 bytes with
      | some text => .ok (some text)
      | none => .error "transcript blob did not decode to valid UTF-8"

/-- `DELETE FROM memory_transcripts`, given by the rows that stay, with the cascade on the links. -/
def deleteTranscripts (s : TranscriptDb) (keep : TranscriptRow → Bool) : TranscriptDb :=
  { s with
    transcripts := s.transcripts.filter keep
    spans := s.spans.filter fun l => (s.transcripts.find l.transcriptId).all keep }

/-- `purge_expired`: the number of rows removed. -/
def purgeExpired (s : TranscriptDb) (now : String) : TranscriptDb × ℕ :=
  (deleteTranscripts s fun r => !r.expiresAt.any (· ≤ now), s.transcripts.rows.countP fun r => r.expiresAt.any (· ≤ now))

/-- `link_transcript`. Both ends must be there. -/
def linkTranscript (s : TranscriptDb) (memoryId transcriptId : String) (spanStart spanEnd : Option ℤ) :
    Except String TranscriptDb :=
  if (s.db.get memoryId).isSome ∧ (s.transcripts.find transcriptId).isSome then
    .ok { s with spans := s.spans.replace ⟨memoryId, transcriptId, spanStart, spanEnd⟩ }
  else .error "INSERT into memory_transcript_links failed"

def withDb (s : TranscriptDb) (db : Db) : TranscriptDb :=
  { s with db := db, spans := s.spans.filter fun l => (db.get l.memoryId).isSome }

/-! ## Round trip -/

/-- The decoder gives back what was compressed. -/
def Inverts {σ : Type} (z : Zstd σ) : Prop :=
  ∀ bytes blob, z.compress zstdLevel bytes = .ok blob →
    ∃ decoder, z.decoder blob = .ok decoder ∧ Chunks.Streams (z.read readWindow) decoder bytes

variable {σ : Type} {z : Zstd σ} {c : Chrono} {s s' : TranscriptDb} {id ns content : String} {ttl : Option ℤ}
  {now : c.Reading} {t : Transcript} {r : TranscriptRow} {blob : List UInt8}

theorem length_asBytes : (asBytes content).length = content.utf8ByteSize := rfl

theorem fromUtf8_asBytes : fromUtf8 (asBytes content) = some content := by
  have hbytes : (⟨(asBytes content).toArray⟩ : ByteArray) = content.toByteArray := rfl
  rw [fromUtf8, hbytes, String.fromUTF8?, dif_pos content.isValidUTF8]
  rfl

theorem zstdDecompress_eq {bytes : List UInt8} (hz : Inverts z) (h : z.compress zstdLevel bytes = .ok blob) :
    zstdDecompress z blob = if bytes.length ≤ maxDecompressedBytes then .ok bytes
      else .error s!"transcript decompression exceeded {maxDecompressedBytes} byte cap (decompression bomb defence)" := by
  obtain ⟨decoder, hdecoder, hstream⟩ := hz bytes blob h
  rw [zstdDecompress, hdecoder]
  exact Chunks.readAll_nil hstream

/-- A call of `store` that succeeds has filed one new row with the compressed content. -/
theorem store_eq_ok (h : store z c s id ns content ttl now = .ok (s', t)) : t.id = id ∧
    ∃ r, s.transcripts.insertNew? r = some s'.transcripts ∧ s'.db = s.db ∧ s'.spans = s.spans ∧ r.id = id ∧
      r.archivedAt = none ∧ z.compress zstdLevel (asBytes content) = .ok r.contentBlob := by
  unfold store at h
  cases hsize : lengthAsI64 (asBytes content).length "transcript content length overflows i64" with
  | error e => rw [hsize] at h; cases h
  | ok size =>
    cases hblob : z.compress zstdLevel (asBytes content) with
    | error e => rw [hsize, hblob] at h; cases h
    | ok blob =>
      cases hlen : lengthAsI64 blob.length "compressed transcript length overflows i64" with
      | error e => simp only [hsize, hblob, hlen, context, bind, Except.bind] at h; cases h
      | ok len =>
        simp only [hsize, hblob, hlen, context, bind, Except.bind] at h
        split at h
        · next rows hrows =>
          simp only [Except.ok.injEq, Prod.mk.injEq] at h
          obtain ⟨rfl, rfl⟩ := h
          exact ⟨rfl, _, hrows, rfl, rfl, rfl, rfl, rfl⟩
        · cases h

theorem find_store (h : store z c s id ns content ttl now = .ok (s', t)) :
    ∃ r, s'.transcripts.find t.id = some r ∧ z.compress zstdLevel (asBytes content) = .ok r.contentBlob := by
  obtain ⟨rfl, r, hins, -, -, hid, -, hblob⟩ := store_eq_ok h
  have hmem : r ∈ s'.transcripts := (Table.mem_insertNew? hins).mpr (Or.inr rfl)
  exact ⟨r, hid ▸ Table.find_of_mem hmem, hblob⟩

/-- `store` takes every content that the encoder takes, under a free id. -/
theorem store_isOk (hlen : content.utf8ByteSize < 2 ^ 63) (hblob : z.compress zstdLevel (asBytes content) = .ok blob)
    (hsize : blob.length < 2 ^ 63) (hfree : s.transcripts.find id = none) :
    ∃ s' t, store z c s id ns content ttl now = .ok (s', t) := by
  have hnew (r : TranscriptRow) (hid : r.id = id) : s.transcripts.insertNew? r ≠ none := fun hnone => by
    have hold := Table.insertNew?_eq_none.mp hnone
    rw [hid, hfree] at hold
    cases hold
  rw [← length_asBytes] at hlen
  simp only [store, lengthAsI64, hblob, hlen, hsize, context, if_true, bind, Except.bind]
  split
  · exact ⟨_, _, rfl⟩
  · next hnone => exact absurd hnone (hnew _ rfl)

/-- What `fetch` returns of a compressed content. -/
theorem fetch_eq (hz : Inverts z) (hr : s.transcripts.find id = some r)
    (hblob : z.compress zstdLevel (asBytes content) = .ok r.contentBlob) :
    fetch z s id = if content.utf8ByteSize ≤ maxDecompressedBytes then .ok (some content)
      else .error "zstd decompression failed" := by
  rw [fetch, hr]
  show (context _ (zstdDecompress z r.contentBlob)).bind _ = _
  rw [zstdDecompress_eq hz hblob, length_asBytes]
  by_cases hsize : content.utf8ByteSize ≤ maxDecompressedBytes
  · rw [if_pos hsize, if_pos hsize]
    show (match fromUtf8 (asBytes content) with
      | some text => Except.ok (some text)
      | none => .error "transcript blob did not decode to valid UTF-8") = _
    rw [fromUtf8_asBytes]
  · rw [if_neg hsize, if_neg hsize]
    rfl

end Transcripts

end AiMemory
