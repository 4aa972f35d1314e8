import AiMemory.Curator.Autonomy
import AiMemory.Hooks.Wire
import AiMemory.Lib.Blocks
import AiMemory.Lib.Ranking

/-!
# The transcript extractor

`tools/transcript-extractor/src/main.rs`: the reference hook for `pre_store`. It cuts the content of a transcript into
paragraphs, scores each one by the words it shares with the whole, and puts the best of them into the metadata of its answer.

A paragraph is a piece of the content between line ends, so that its words are words of the content, and the score comes to
twice their number (`scoreParagraph_of_piece`).
-/

namespace AiMemory.Hooks

open Blocks Curator

/-! ## Words -/

/-- `STOP_WORDS`, the same list in both tools. -/
def stopWords : List String :=
  ["the", "a", "an", "and", "or", "but", "if", "then", "is", "are", "was", "were", "be", "been", "being", "have", "has",
    "had", "do", "does", "did", "will", "would", "could", "should", "may", "might", "must", "can", "shall", "to", "of", "in",
    "on", "at", "by", "for", "with", "about", "as", "from", "into", "that", "this", "these", "those", "it", "its",
      "i", "you",
    "he", "she", "we", "they", "them", "his", "her", "our", "their", "my", "your", "me", "us", "him", "what", "which", "who",
    "when", "where", "why", "how", "not", "no", "yes", "so", "up", "down", "out", "over", "under", "again", "further",
    "than", "too", "very", "just", "now"]

/-- `token_bag`, the same function in both tools. -/
def tokenBag (u : Unicode) (text : List Char) : Finset String :=
  (((words (fun c => !u.isAlphanumeric c) text).map fun raw => toAsciiLowercase (String.ofList raw)).filter fun lc =>
    3 ≤ Validate.byteLen lc.toList ∧ lc ∉ stopWords).toFinset

theorem tokenBag_mono {u : Unicode} {text text' : List Char}
    (h : words (fun c => !u.isAlphanumeric c) text ⊆ words (fun c => !u.isAlphanumeric c) text') :
    tokenBag u text ⊆ tokenBag u text' := by
  intro w hw
  simp only [tokenBag, List.mem_toFinset, List.mem_filter, List.mem_map] at hw ⊢
  obtain ⟨⟨raw, hraw, rfl⟩, hkept⟩ := hw
  exact ⟨⟨raw, h hraw, rfl⟩, hkept⟩

/-! ## Scores -/

/-- What `f64` arithmetic makes of an exact result: the order is kept, and a number of few binary digits is exact. -/
structure Binary64 where
  round : ℚ → ℚ
  mono : Monotone round
  exact : ∀ n k : ℕ, n ≤ 2 ^ 53 → k ≤ 1022 → round (n / 2 ^ k) = n / 2 ^ k

namespace Binary64

variable (f : Binary64)

def add (a b : ℚ) : ℚ := f.round (a + b)

def mul (a b : ℚ) : ℚ := f.round (a * b)

def div (a b : ℚ) : ℚ := f.round (a / b)

theorem whole {n : ℕ} (h : n ≤ 2 ^ 53) : f.round n = n := by
  have := f.exact n 0 h (Nat.zero_le _)
  rwa [pow_zero, div_one] at this

end Binary64

/-- `u32::try_from(n).unwrap_or(u32::MAX)`, and where a saturating count of `n` ends. -/
def u32OfUsize (n : ℕ) : ℕ := min n (2 ^ 32 - 1)

def scoreParagraph (f : Binary64) (u : Unicode) (paragraph : List Char) (fullContentBag : Finset String) : ℚ :=
  let bag := tokenBag u paragraph
  if bag = ∅ then 0
  else
    let total : ℚ := u32OfUsize bag.card
    let unique : ℚ := u32OfUsize (bag.filter (· ∈ fullContentBag)).card
    let density := f.div unique total
    f.mul unique (f.add 1 density)

/-- Every word of the paragraph is in the whole content, so that the density is one. -/
theorem scoreParagraph_of_subset {f : Binary64} {u : Unicode} {paragraph : List Char} {full : Finset String}
    (h : tokenBag u paragraph ⊆ full) :
    scoreParagraph f u paragraph full = 2 * u32OfUsize (tokenBag u paragraph).card := by
  unfold scoreParagraph
  have hall : (tokenBag u paragraph).filter (· ∈ full) = tokenBag u paragraph := Finset.filter_true_of_mem fun w hw => h hw
  simp only [hall]
  split
  · next hempty =>
    rw [hempty, Finset.card_empty, u32OfUsize, Nat.zero_min, Nat.cast_zero, mul_zero]
  · next hne =>
    set n := u32OfUsize (tokenBag u paragraph).card with hn
    have hle : n < 2 ^ 32 := by rw [hn, u32OfUsize]; omega
    have hpos : 0 < n := by
      have := Finset.card_pos.mpr (Finset.nonempty_iff_ne_empty.mpr hne)
      rw [hn, u32OfUsize]
      omega
    have hdensity : f.div n n = 1 := by
      rw [Binary64.div, div_self (Nat.cast_ne_zero.mpr hpos.ne')]
      exact_mod_cast f.whole (n := 1) (by norm_num)
    have hsum : f.add 1 1 = 2 := by
      rw [Binary64.add]
      norm_num
      exact_mod_cast f.whole (n := 2) (by norm_num)
    have hproduct : f.mul n 2 = 2 * n := by
      rw [Binary64.mul, mul_comm]
      exact_mod_cast f.whole (n := 2 * n) (by omega)
    rw [hdensity, hsum, hproduct]

/-! ## Paragraphs -/

/-- Lines end with a line feed, blank lines hold spaces and tabs, and offsets count bytes of UTF-8. -/
def lines : Layout Char where
  eol := '\n'
  blank c := c = ' ' || c = '\t'
  size := Char.utf8Size
  blank_eol := by decide
  size_pos := Char.utf8Size_pos

def paragraphsWithSpans (content : List Char) : List (Block Char) :=
  (blocks lines content).filter fun b => 16 ≤ Validate.byteLen (Validate.trim (String.ofList b.text))

theorem mem_blocks_of_mem_paragraphs {content : List Char} {b : Block Char} (h : b ∈ paragraphsWithSpans content) :
    b ∈ blocks lines content := (List.mem_filter.mp h).1

theorem scoreParagraph_of_piece {f : Binary64} {u : Unicode} (hu : u.isAlphanumeric '\n' = false) {content : List Char}
    {b : Block Char} (h : b ∈ paragraphsWithSpans content) :
    scoreParagraph f u b.text (tokenBag u content) = 2 * u32OfUsize (tokenBag u b.text).card := by
  obtain ⟨pre, post, hpiece, -, -⟩ := (laid_blocks (L := lines) content).piece (mem_blocks_of_mem_paragraphs h)
  refine scoreParagraph_of_subset (tokenBag_mono (words_piece ?_ hpiece))
  show (!u.isAlphanumeric '\n') = true
  rw [hu]
  rfl

/-! ## Candidates -/

structure ExtractedMemory where
  title : String
  content : String
  score : ℚ
  spanStart : ℕ
  spanEnd : ℕ

/-- `title_from`. The carriage return that `lines()` takes off a line goes with its white space. -/
def titleFrom (paragraph : List Char) : String :=
  let firstLine := ((paragraph.splitOn '\n').find? fun l => Validate.trim (String.ofList l) ≠ []).elim
    "(extracted)".toList fun l => Validate.trim (String.ofList l)
  if firstLine.length ≤ 80 then String.ofList firstLine else String.ofList (firstLine.take 77 ++ "...".toList)

theorem length_titleFrom (paragraph : List Char) : (titleFrom paragraph).toList.length ≤ 80 := by
  unfold titleFrom
  dsimp only
  split
  · next h => simpa using h
  · next h =>
    rw [not_le] at h
    simp only [String.toList_ofList, List.length_append, List.length_take]
    have : ("...".toList).length = 3 := by decide
    omega

def candidate (scored : ℚ × Block Char) : ExtractedMemory where
  title := titleFrom scored.2.text
  content := String.ofList (Validate.trim (String.ofList scored.2.text))
  score := scored.1
  spanStart := scored.2.start
  spanEnd := scored.2.stop

/-- The comparison `b.0.partial_cmp(&a.0)`: higher scores first. -/
def higherFirst (a b : ℚ × Block Char) : Bool := b.1 ≤ a.1

/-- The paragraphs with their scores, those without a score left out. -/
def scoredParagraphs (f : Binary64) (u : Unicode) (content : List Char) : List (ℚ × Block Char) :=
  ((paragraphsWithSpans content).map fun p => (scoreParagraph f u p.text (tokenBag u content), p)).filter fun s => 0 < s.1

def extractCandidates (f : Binary64) (u : Unicode) (content : String) (topK : ℕ) : List ExtractedMemory :=
  if (paragraphsWithSpans content.toList).length < 2 then []
  else (((scoredParagraphs f u content.toList).mergeSort higherFirst).take topK).map candidate

def defaultTopK : ℕ := 3

/-- `str::parse::<usize>`. -/
def parseUsize (s : String) : Option ℕ :=
  let digits := match s.toList with
    | '+' :: ds => ds
    | ds => ds
  if digits ≠ [] ∧ digits.all Char.isDigit then
    let n := digits.foldl (fun n c => 10 * n + (Char.toNat c - '0'.toNat)) 0
    if n < 2 ^ 64 then some n else none
  else none

/-- `top_k_from_env`, by the value of `EXTRACTOR_TOP_K`. -/
def topKFromEnv (var : Option String) : ℕ := (var.bind parseUsize).elim defaultTopK fun k => max 1 (min k 32)

/-! ## Decisions -/

/-- `{"action": "allow"}`. -/
def allowed : Json := .obj [("action", .str "allow")]

def modified (metadata : Json) : Json := .obj [("action", .str "modify"), ("delta", .obj [("metadata", metadata)])]

/-- The metadata of a payload, as an object, with a key written over it. -/
def metadataWith (payload : Json) (key : String) (value : Json) : Json :=
  match (payload.get "metadata").getD (.obj []) with
  | .obj fields => .obj (Json.setField key value fields)
  | _ => .obj (Json.setField key value [])

namespace Extractor

inductive HookEventTag where
  | preStore
  | preTranscriptStore
  | other
  deriving DecidableEq

/-- How the name of an event is read. -/
def HookEventTag.ofEvent : HookEvent → HookEventTag
  | .preStore => .preStore
  | .preTranscriptStore => .preTranscriptStore
  | _ => .other

def speakerMarkers : List String :=
  ["user:", "assistant:", "system:", "tool:", "human:", "[user]", "[assistant]", "<|user|>", "<|assistant|>"]

def looksLikeTranscript (u : Unicode) (payload : Json) : Bool :=
  let kind := ((payload.get "metadata").bind fun m => m.get "kind").bind Json.asStr
  let ns := (payload.get "namespace").bind Json.asStr
  let content := (payload.get "content").bind Json.asStr
  kind.any (fun k => toAsciiLowercase k = "transcript") ||
    ns.any (fun n => "transcript/".toList <+: (toAsciiLowercase n).toList ∨
      "transcripts/".toList <+: (toAsciiLowercase n).toList) ||
    content.any fun c => speakerMarkers.any fun m => m.toList <:+: (u.toLowercase (String.ofList (c.toList.take 512))).toList

/-- A candidate as JSON; `text` is what `serde_json` prints for a number. -/
def toValue (text : ℚ → String) (c : ExtractedMemory) : Json :=
  .obj [("content", .str c.content), ("score", .float (text c.score)), ("span_end", .int c.spanEnd),
    ("span_start", .int c.spanStart), ("title", .str c.title)]

/-- What the tool was started with. -/
structure Settings where
  binary64 : Binary64
  unicode : Unicode
  text : ℚ → String
  topK : Option String

def candidates (s : Settings) (payload : Json) : List ExtractedMemory :=
  if looksLikeTranscript s.unicode payload then
    match (payload.get "content").bind Json.asStr with
    | some c => if Validate.trim c = [] then [] else extractCandidates s.binary64 s.unicode c (topKFromEnv s.topK)
    | none => []
  else []

def buildDecision (s : Settings) (event : HookEventTag) (payload : Json) : Json :=
  if event = .other then allowed
  else
    match candidates s payload with
    | [] => allowed
    | cs => modified (metadataWith payload "extracted_memories" (.arr (cs.map (toValue s.text))))

end Extractor

/-! ## What is extracted -/

section Extraction

variable {f : Binary64} {u : Unicode} {content : String} {topK : ℕ} {a b : ℚ × Block Char}

theorem pairwise_scored (content : List Char) :
    (scoredParagraphs f u content).Pairwise fun a b => a.2.stop < b.2.start := by
  refine List.Pairwise.filter _ (List.pairwise_map.mpr (List.Pairwise.filter _ ?_))
  exact (laid_blocks (L := lines) content).pairwise

theorem higherFirst_trans (a b c : ℚ × Block Char) (hab : higherFirst a b = true) (hbc : higherFirst b c = true) :
    higherFirst a c = true := by
  simp only [higherFirst, decide_eq_true_eq] at *
  exact hbc.trans hab

theorem higherFirst_total (a b : ℚ × Block Char) : (higherFirst a b || higherFirst b a) = true := by
  simp only [higherFirst, Bool.or_eq_true, decide_eq_true_eq]
  exact le_total _ _

/-- The ranking: higher scores first, and from left to right among equal ones. -/
def Ranked (a b : ℚ × Block Char) : Prop := b.1 < a.1 ∨ a.1 = b.1 ∧ a.2.stop < b.2.start

theorem pairwise_ranked (content : List Char) :
    ((scoredParagraphs f u content).mergeSort higherFirst).Pairwise Ranked := by
  refine List.pairwise_iff_forall_sublist.mpr fun {a b} hsub => ?_
  have hle : b.1 ≤ a.1 := by
    have hsorted := List.pairwise_mergeSort higherFirst_trans higherFirst_total (scoredParagraphs f u content)
    exact of_decide_eq_true (List.pairwise_iff_forall_sublist.mp hsorted hsub)
  refine hle.lt_or_eq.imp id fun heq => ⟨heq.symm, ?_⟩
  -- the sort keeps the order of those with the score of `a`
  have hstable := Ranking.filter_mergeSort (p := fun s : ℚ × Block Char => s.1 = a.1) (l := scoredParagraphs f u content)
    higherFirst_trans higherFirst_total (fun x y hx hy => by
      rw [higherFirst, of_decide_eq_true hx, of_decide_eq_true hy, decide_eq_true_eq])
  have hfiltered := hsub.filter fun s : ℚ × Block Char => s.1 = a.1
  have hboth : [a, b].filter (fun s => s.1 = a.1) = [a, b] := by simp [heq]
  rw [hstable, hboth] at hfiltered
  exact List.pairwise_iff_forall_sublist.mp (pairwise_scored content) (hfiltered.trans List.filter_sublist)

variable {content : List Char}

theorem mem_scoredParagraphs (h : a ∈ scoredParagraphs f u content) :
    a.2 ∈ paragraphsWithSpans content ∧ a.1 = scoreParagraph f u a.2.text (tokenBag u content) ∧ 0 < a.1 := by
  obtain ⟨hmem, hpos⟩ := List.mem_filter.mp h
  obtain ⟨p, hp, rfl⟩ := List.mem_map.mp hmem
  exact ⟨hp, rfl, of_decide_eq_true hpos⟩

def wordCount (u : Unicode) (text : List Char) : ℕ := u32OfUsize (tokenBag u text).card

/-- The candidate `c` stands in `content` at its span, in bytes. -/
structure Stands (u : Unicode) (content : List Char) (c : ExtractedMemory) (pre paragraph post : List Char) : Prop where
  split : content = pre ++ (paragraph ++ post)
  starts : c.spanStart = Validate.byteLen pre
  ends : c.spanEnd = Validate.byteLen (pre ++ paragraph)
  solid : lines.Solid paragraph
  trimmed : c.content.toList = Validate.trim (String.ofList paragraph)
  long : 16 ≤ Validate.byteLen c.content.toList
  titled : c.title.toList.length ≤ 80
  scored : c.score = 2 * wordCount u paragraph

theorem stands_candidate (hu : u.isAlphanumeric '\n' = false) (h : a ∈ scoredParagraphs f u content) :
    ∃ pre post, Stands u content (candidate a) pre a.2.text post := by
  obtain ⟨hmem, hscore, -⟩ := mem_scoredParagraphs h
  have hlaid := laid_blocks (L := lines) content
  obtain ⟨pre, post, ⟨hsplit, -, -⟩, hstart, hstop⟩ := hlaid.piece (mem_blocks_of_mem_paragraphs hmem)
  have hstart : a.2.start = Validate.byteLen pre := hstart.trans (Nat.zero_add _)
  refine ⟨pre, post, hsplit, hstart, ?_, hlaid.solid (mem_blocks_of_mem_paragraphs hmem), String.toList_ofList, ?_,
    length_titleFrom _, ?_⟩
  · show a.2.stop = lines.sizeOf (pre ++ a.2.text)
    rw [hstop, hstart, lines.sizeOf_append]
    rfl
  · have hlong := of_decide_eq_true (List.mem_filter.mp hmem).2
    rw [candidate, String.toList_ofList]
    exact hlong
  · rw [candidate, hscore]
    exact scoreParagraph_of_piece hu hmem

/-- What the extractor takes from a content: at most `topK` paragraphs with the most words, best first. -/
structure Extraction (u : Unicode) (content : List Char) (topK : ℕ) (cs : List ExtractedMemory) : Prop where
  bounded : cs.length ≤ topK
  stands : ∀ c ∈ cs, ∃ pre paragraph post, Stands u content c pre paragraph post
  ranked : cs.Pairwise fun c d => d.score < c.score ∨ c.score = d.score ∧ c.spanEnd < d.spanStart
  apart : cs.Pairwise fun c d => c.spanEnd < d.spanStart ∨ d.spanEnd < c.spanStart
  best : ∀ p ∈ paragraphsWithSpans content, p.start ∈ cs.map ExtractedMemory.spanStart ∨ wordCount u p.text = 0 ∨
    (paragraphsWithSpans content).length < 2 ∨ cs.length = topK ∧ ∀ c ∈ cs, 2 * (wordCount u p.text : ℚ) ≤ c.score

theorem score_pos_iff (hu : u.isAlphanumeric '\n' = false) {p : Block Char}
    (h : p ∈ paragraphsWithSpans content) :
    0 < scoreParagraph f u p.text (tokenBag u content) ↔ wordCount u p.text ≠ 0 := by
  rw [scoreParagraph_of_piece hu h, mul_pos_iff_of_pos_left two_pos, Nat.cast_pos, Nat.pos_iff_ne_zero]
  rfl

/-- A paragraph that is left out has no words, or there were `topK` others, none of which has fewer. -/
theorem best_of_take (hu : u.isAlphanumeric '\n' = false) {p : Block Char}
    (h : p ∈ paragraphsWithSpans content) (hwords : wordCount u p.text ≠ 0)
    (hout : p.start ∉ ((((scoredParagraphs f u content).mergeSort higherFirst).take topK).map candidate).map
      ExtractedMemory.spanStart) :
    (((scoredParagraphs f u content).mergeSort higherFirst).take topK).length = topK ∧
      ∀ a ∈ ((scoredParagraphs f u content).mergeSort higherFirst).take topK, 2 * (wordCount u p.text : ℚ) ≤ a.1 := by
  set sorted := (scoredParagraphs f u content).mergeSort higherFirst with hsorted
  set s : ℚ × Block Char := (scoreParagraph f u p.text (tokenBag u content), p) with hs
  have hmem : s ∈ sorted := by
    rw [hsorted, List.mem_mergeSort]
    exact List.mem_filter.mpr ⟨List.mem_map_of_mem h, decide_eq_true ((score_pos_iff hu h).mpr hwords)⟩
  have hranked := pairwise_ranked (f := f) (u := u) content
  obtain htake | ⟨hlen, hafter⟩ := Ranking.mem_take_or hranked hmem
  · exact absurd (List.mem_map_of_mem (List.mem_map_of_mem htake)) hout
  refine ⟨hlen, fun a ha => ?_⟩
  have hscore : s.1 = 2 * (wordCount u p.text : ℚ) := scoreParagraph_of_piece hu h
  rw [← hscore]
  exact (hafter a ha).elim le_of_lt fun heq => heq.1.ge

/-- What is extracted from any content. -/
theorem extractCandidates_spec (f : Binary64) (u : Unicode) (hu : u.isAlphanumeric '\n' = false) (content : String)
    (topK : ℕ) : Extraction u content.toList topK (extractCandidates f u content topK) := by
  unfold extractCandidates
  split
  · next hfew =>
    exact ⟨Nat.zero_le _, List.forall_mem_nil _, .nil, .nil, fun _ _ => .inr (.inr (.inl hfew))⟩
  · have hranked := (pairwise_ranked (f := f) (u := u) content.toList).sublist (List.take_sublist topK _)
    refine ⟨?_, fun c hc => ?_, List.pairwise_map.mpr hranked, List.pairwise_map.mpr ?_, fun p hp => ?_⟩
    · rw [List.length_map]
      exact List.length_take_le _ _
    · obtain ⟨a, ha, rfl⟩ := List.mem_map.mp hc
      obtain ⟨pre, post, hstands⟩ := stands_candidate hu (List.mem_mergeSort.mp (List.mem_of_mem_take ha))
      exact ⟨pre, _, post, hstands⟩
    · -- two of the sorted list are two of the list before the sort, in one order or the other
      have hapart : ((scoredParagraphs f u content.toList).mergeSort higherFirst).Pairwise fun a b =>
          a.2.stop < b.2.start ∨ b.2.stop < a.2.start := by
        refine (List.mergeSort_perm _ _).symm.pairwise ((pairwise_scored content.toList).imp .inl) fun h => h.symm
      exact hapart.sublist (List.take_sublist topK _)
    · by_cases hin : p.start ∈ ((((scoredParagraphs f u content.toList).mergeSort higherFirst).take topK).map candidate).map
          ExtractedMemory.spanStart
      · exact .inl hin
      by_cases hwords : wordCount u p.text = 0
      · exact .inr (.inl hwords)
      obtain ⟨hlen, hle⟩ := best_of_take (f := f) hu hp hwords hin
      refine .inr (.inr (.inr ⟨(List.length_map _).trans hlen, fun c hc => ?_⟩))
      obtain ⟨a, ha, rfl⟩ := List.mem_map.mp hc
      exact hle a ha

end Extraction

def exactArithmetic : Binary64 where
  round q := q
  mono := monotone_id
  exact _ _ _ _ := rfl

def asciiTables : Unicode where
  isAlphanumeric := Char.isAlphanum
  toLowercase := String.toLower

theorem extractCandidates_spec_dialogue :
    asciiTables.isAlphanumeric '\n' = false ∧
      ((paragraphsWithSpans "user: graph links expire\n \nok\n\nuser: archive keeps rows".toList).map fun b =>
        (b.start, b.stop)) = [(0, 24), (31, 55)] ∧
      Extraction asciiTables "user: graph links expire\n \nok\n\nuser: archive keeps rows".toList 1
        (extractCandidates exactArithmetic asciiTables "user: graph links expire\n \nok\n\nuser: archive keeps rows" 1) :=
  ⟨by decide, by decide +kernel, extractCandidates_spec exactArithmetic asciiTables (by decide) _ 1⟩

end AiMemory.Hooks
