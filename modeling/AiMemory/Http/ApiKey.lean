import AiMemory.Lib.Octets

/-!
# The API key

A daemon with a key lets a request through for its path, for its header, or for a pair of its query. The pair is decoded
leniently and lossily and compared byte by byte. What the daemon's own encoders make of a key is read back as the key
wherever it stands in a query, whatever characters the key has, and a key without a replacement character is met by its own
bytes only (`gate_spec`).
-/

namespace AiMemory.ApiKey

open Octets

/-- What `api_key_auth` looks at. The header is there if `to_str` reads it. -/
structure Request where
  path : String
  apiKeyHeader : Option String
  query : Option String

def isUnreserved (b : UInt8) : Bool :=
  (65 ≤ b && b ≤ 90) || (97 ≤ b && b ≤ 122) || (48 ≤ b && b ≤ 57) || b = 45 || b = 95 || b = 46 || b = 126

def asText (bs : List UInt8) : String := String.ofList (bs.map fun b => Char.ofNat b.toNat)

/-- `urlencoding_encode` of the federation. -/
def urlencodingEncode (s : String) : String := asText (encode isUnreserved (utf8 s.toList))

/-- `urlencoding_minimal` of the sync daemon. -/
def urlencodingMinimal (s : String) : String := asText (encode isUnreserved (utf8 s.toList))

def percentDecodeLossy (input : List Char) : String := String.ofList (lossy (decode (utf8 input)))

def constantTimeEq (a b : List UInt8) : Bool :=
  if a.length ≠ b.length then false else (a.zip b).foldl (fun diff p => diff ||| (p.1 ^^^ p.2)) 0 = 0

def pairMatches (expected : String) (pair : List Char) : Bool :=
  (pair.dropPrefix? "api_key=".toList).any fun val =>
    constantTimeEq (utf8 (percentDecodeLossy val).toList) (utf8 expected.toList)

/-- `api_key_auth`: whether the request goes on. -/
def apiKeyAuth (key : Option String) (req : Request) : Bool :=
  match key with
  | none => true
  | some expected =>
    req.path = "/api/v1/health" ||
      req.apiKeyHeader.any (fun val => constantTimeEq (utf8 val.toList) (utf8 expected.toList)) ||
      req.query.any fun query => (query.toList.splitOn '&').any (pairMatches expected)

/-! ## Comparison -/

section Compare

variable {a b : List UInt8} {s s' : String} {val : List Char}

theorem foldl_diff_eq_zero_iff (ps : List (UInt8 × UInt8)) (diff : UInt8) :
    ps.foldl (fun diff p => diff ||| (p.1 ^^^ p.2)) diff = 0 ↔ diff = 0 ∧ ∀ p ∈ ps, p.1 = p.2 := by
  induction ps generalizing diff with
  | nil => simp
  | cons p ps ih => rw [List.foldl_cons, ih, UInt8.or_eq_zero_iff, UInt8.xor_eq_zero_iff, and_assoc, List.forall_mem_cons]

theorem constantTimeEq_iff : constantTimeEq a b = true ↔ a = b := by
  rw [constantTimeEq]
  by_cases hlen : a.length = b.length
  · rw [if_neg (not_not.mpr hlen), decide_eq_true_eq, foldl_diff_eq_zero_iff, and_iff_right rfl]
    constructor
    · intro h
      refine List.ext_getElem hlen fun i hi hi' => ?_
      have hmem : (a[i], b[i]) ∈ a.zip b := by
        rw [← List.getElem_zip (h := by rw [List.length_zip]; omega)]
        exact List.getElem_mem _
      exact h _ hmem
    · rintro rfl p hp
      obtain ⟨i, hi, rfl⟩ := List.getElem_of_mem hp
      rw [List.getElem_zip]
  · rw [if_pos hlen]
    exact iff_of_false Bool.false_ne_true fun h => hlen (congrArg List.length h)

theorem utf8_inj {t t' : List Char} (h : utf8 t = utf8 t') : t = t' := by
  rw [← lossy_utf8 t, h, lossy_utf8]

theorem constantTimeEq_utf8 : constantTimeEq (utf8 s.toList) (utf8 s'.toList) = true ↔ s = s' := by
  rw [constantTimeEq_iff]
  exact ⟨fun h => String.toList_injective (utf8_inj h), fun h => h ▸ rfl⟩

end Compare

/-! ## The encoders -/

theorem utf8EncodeChar_ascii : ∀ b : Fin 128, String.utf8EncodeChar (Char.ofNat b) = [UInt8.ofNat b] := by
  decide

theorem hexDigit_ascii : ∀ n : Fin 16, hexDigit (UInt8.ofNat n) < 128 ∧ hexDigit (UInt8.ofNat n) ≠ 38 := by
  decide

theorem escape_ascii (b : UInt8) : ∀ c ∈ (if isUnreserved b then [b] else escape b), c < 128 ∧ c ≠ 38 := by
  intro c hc
  split_ifs at hc with hb
  · obtain rfl := List.mem_singleton.mp hc
    simp only [isUnreserved, Bool.or_eq_true, Bool.and_eq_true, decide_eq_true_eq, UInt8.le_iff_toNat_le,
      ← UInt8.toNat_inj] at hb
    simp only [UInt8.lt_iff_toNat_lt, ne_eq, ← UInt8.toNat_inj]
    simp only [UInt8.reduceToNat] at hb ⊢
    omega
  · have hdigit (n : UInt8) (hn : n.toNat < 16) : hexDigit n < 128 ∧ hexDigit n ≠ 38 := by
      have h := hexDigit_ascii ⟨n.toNat, hn⟩
      rwa [UInt8.ofNat_toNat] at h
    simp only [escape, List.mem_cons, List.not_mem_nil, or_false] at hc
    rcases hc with rfl | rfl | rfl
    · decide
    · refine hdigit _ ?_
      have hlt := b.toNat_lt
      rw [UInt8.toNat_div]
      simp only [UInt8.reduceToNat]
      omega
    · refine hdigit _ ?_
      exact Nat.mod_lt _ (by decide)

theorem ascii_of_mem_encode {bs : List UInt8} {c : UInt8} (h : c ∈ encode isUnreserved bs) : c < 128 ∧ c ≠ 38 := by
  obtain ⟨b, -, hc⟩ := List.mem_flatMap.mp h
  exact escape_ascii b c hc

theorem utf8_asText {bs : List UInt8} (h : ∀ c ∈ bs, c < 128) : utf8 (asText bs).toList = bs := by
  rw [asText, String.toList_ofList]
  induction bs with
  | nil => rfl
  | cons b bs ih =>
    obtain ⟨hb, hbs⟩ := List.forall_mem_cons.mp h
    have hone := utf8EncodeChar_ascii ⟨b.toNat, UInt8.lt_iff_toNat_lt.mp hb⟩
    simp only [UInt8.ofNat_toNat] at hone
    rw [List.map_cons, utf8_cons, hone, ih hbs]
    rfl

theorem percentDecodeLossy_encode (s : String) : percentDecodeLossy (urlencodingEncode s).toList = s := by
  rw [percentDecodeLossy, urlencodingEncode, utf8_asText fun c hc => (ascii_of_mem_encode hc).1, decode_encode rfl,
    lossy_utf8,
    String.ofList_toList]

theorem ofNat_eq_amp : ∀ b : Fin 128, Char.ofNat b = '&' → UInt8.ofNat b = 38 := by
  decide

theorem not_amp_of_encode (s : String) : '&' ∉ (urlencodingEncode s).toList := by
  rw [urlencodingEncode, asText, String.toList_ofList]
  intro h
  obtain ⟨b, hb, hamp⟩ := List.mem_map.mp h
  obtain ⟨hlt, hne⟩ := ascii_of_mem_encode hb
  have honly := ofNat_eq_amp ⟨b.toNat, UInt8.lt_iff_toNat_lt.mp hlt⟩ hamp
  simp only [UInt8.ofNat_toNat] at honly
  exact hne honly

/-! ## The gate -/

theorem pairMatches_iff {expected : String} {pair : List Char} : pairMatches expected pair = true ↔
    ∃ val, pair = "api_key=".toList ++ val ∧ percentDecodeLossy val = expected := by
  rw [pairMatches, Option.any_eq_true]
  refine exists_congr fun val => and_congr ?_ constantTimeEq_utf8
  rw [List.dropPrefix?_eq_some_iff]
  simp only [beq_iff_eq, exists_eq_right]

/-- What the gate lets through: the health check, the key in the header, or a pair of the query that decodes to the key. Any
key can be given in a query, encoded, and a key without a replacement character is only met by its own bytes. -/
structure Gate (expected : String) : Prop where
  opens : ∀ req : Request, apiKeyAuth (some expected) req = true ↔ req.path = "/api/v1/health" ∨
    req.apiKeyHeader = some expected ∨ ∃ query ∈ req.query, ∃ val, "api_key=".toList ++ val ∈ query.toList.splitOn '&' ∧
      percentDecodeLossy val = expected
  encoded : ∀ encoder ∈ [urlencodingEncode, urlencodingMinimal], ∀ (path : String) (header : Option String)
    (before after : List (List Char)), (∀ pair ∈ before ++ after, '&' ∉ pair) →
    apiKeyAuth (some expected) ⟨path, header, some (String.ofList (List.intercalate ['&']
      (before ++ ("api_key=" ++ encoder expected).toList :: after)))⟩ = true
  ownBytes : replacement ∉ expected.toList →
    ∀ val, percentDecodeLossy val = expected ↔ decode (utf8 val) = utf8 expected.toList

theorem gate_spec (expected : String) : Gate expected := by
  have hopens : ∀ req : Request, apiKeyAuth (some expected) req = true ↔ req.path = "/api/v1/health" ∨
      req.apiKeyHeader = some expected ∨ ∃ query ∈ req.query, ∃ val, "api_key=".toList ++ val ∈ query.toList.splitOn '&' ∧
        percentDecodeLossy val = expected := by
    intro req
    rw [apiKeyAuth, Bool.or_eq_true, Bool.or_eq_true, decide_eq_true_eq, or_assoc]
    refine or_congr_right (or_congr ?_ ?_)
    · rw [Option.any_eq_true]
      simp only [constantTimeEq_utf8]
      constructor
      · rintro ⟨val, hval, rfl⟩
        exact hval
      · exact fun h => ⟨expected, h, rfl⟩
    · rw [Option.any_eq_true]
      refine exists_congr fun query => and_congr_right fun _ => ?_
      rw [List.any_eq_true]
      constructor
      · rintro ⟨pair, hpair, h⟩
        obtain ⟨val, rfl, hval⟩ := pairMatches_iff.mp h
        exact ⟨val, hpair, hval⟩
      · rintro ⟨val, hpair, hval⟩
        exact ⟨_, hpair, pairMatches_iff.mpr ⟨val, rfl, hval⟩⟩
  refine ⟨hopens, fun encoder hencoder path header before after hamp => ?_, fun hrep val => ?_⟩
  · obtain rfl : urlencodingEncode = encoder := by
      obtain rfl | hencoder := List.mem_cons.mp hencoder
      · rfl
      · exact (List.mem_singleton.mp hencoder).symm
    rw [hopens]
    refine .inr (.inr ⟨_, rfl, (urlencodingEncode expected).toList, ?_, percentDecodeLossy_encode expected⟩)
    rw [String.toList_ofList, List.splitOn_intercalate]
    · rw [← String.toList_append]
      exact List.mem_append_right _ List.mem_cons_self
    · intro pair hpair
      obtain hpair | hpair := List.mem_append.mp hpair
      · exact hamp pair (List.mem_append_left _ hpair)
      · obtain rfl | hpair := List.mem_cons.mp hpair
        · rw [String.toList_append]
          exact fun hm => (List.mem_append.mp hm).elim (by decide) (not_amp_of_encode expected)
        · exact hamp pair (List.mem_append_right _ hpair)
    · exact List.append_ne_nil_of_right_ne_nil _ (List.cons_ne_nil _ _)
  · rw [percentDecodeLossy, ← lossy_eq_iff hrep, ← String.toList_inj, String.toList_ofList]

end AiMemory.ApiKey
