import AiMemory.Db.Archive
import AiMemory.Lib.Delimited
import AiMemory.Lib.Fts

/-!
# Full-text queries

`sanitize_fts_query` puts the words of a text in quotes: those that are no operators, without the special characters, or `_empty_`
when none is left (`sanitize_quoted`). FTS5 reads the query as a run of these phrases, unless the text holds U+0000
(`sanitize_phrases_iff`), which no filter takes away and which ends the query within its quotes.
-/

namespace AiMemory

open Delimited Validate

namespace Queries

variable {words : List (List Char)} {w p : List Char} {input : String}

/-- A word that FTS5 would read as an operator, in letters of either case. -/
def IsOperator (w : List Char) : Prop := String.ofList (w.map Char.toUpper) ∈ ["AND", "OR", "NOT", "NEAR"]

instance (w : List Char) : Decidable (IsOperator w) := inferInstanceAs (Decidable (_ ∈ _))

def specials : List Char := "\"*^\x7b\x7d():|+".toList

def stripSpecials (w : List Char) : List Char := w.filter (· ∉ specials)

def kept (words : List (List Char)) : List (List Char) :=
  ((words.filter (¬ IsOperator ·)).map stripSpecials).filter (· ≠ [])

def phrases (words : List (List Char)) : List (List Char) := if kept words = [] then ["_empty_".toList] else kept words

def joiner (useOr : Bool) : List Char := if useOr then " OR ".toList else " ".toList

def joinerTokens (useOr : Bool) : List Fts.Token := if useOr then [.word "OR".toList] else []

theorem joins_joiner (useOr : Bool) : Fts.Joins (joiner useOr) (joinerTokens useOr) := by
  cases useOr with
  | true => exact Fts.joins_or
  | false => exact Fts.joins_space

/-! ## The phrases -/

theorem kept_clean (hp : p ∈ kept words) (hwords : ∀ w ∈ words, ∀ c ∈ w, isWhitespace c = false) :
    p ≠ [] ∧ ∀ c ∈ p, c ≠ '"' ∧ isWhitespace c = false := by
  rw [kept, List.mem_filter, List.mem_map] at hp
  obtain ⟨⟨w, hw, rfl⟩, hne⟩ := hp
  refine ⟨of_decide_eq_true hne, fun c hc => ?_⟩
  obtain ⟨hcw, hspecial⟩ := List.mem_filter.mp hc
  refine ⟨?_, hwords w (List.mem_of_mem_filter hw) c hcw⟩
  rintro rfl
  exact absurd hspecial (by decide)

theorem phrases_clean (hp : p ∈ phrases words) (hwords : ∀ w ∈ words, ∀ c ∈ w, isWhitespace c = false) :
    p ≠ [] ∧ ∀ c ∈ p, c ≠ '"' ∧ isWhitespace c = false := by
  unfold phrases at hp
  split_ifs at hp
  · rw [List.mem_singleton] at hp
    subst hp
    decide
  · exact kept_clean hp hwords

theorem phrases_ne_nil (words : List (List Char)) : phrases words ≠ [] := by
  unfold phrases
  split_ifs with hnone
  · exact List.cons_ne_nil _ _
  · exact hnone

theorem no_space_of_words {white : Char → Bool} {s : List Char} (h : Words white s words) : ∀ w ∈ words, ∀ c ∈ w, white c = false := by
  induction h with
  | nil => exact fun w hw => absurd hw List.not_mem_nil
  | gap hc h ih => exact ih
  | word hne hw hs h ih => exact List.forall_mem_cons.mpr ⟨hw, ih⟩

theorem toList_quoted (t : List Char) : ("\"" ++ String.ofList t ++ "\"").toList = Fts.quote t := by
  simp [Fts.quote]

theorem sanitizeFtsQuery_eq (input : String) (useOr : Bool) (h : Words isWhitespace (stripInvisible input.toList) words) :
    (sanitizeFtsQuery input useOr).toList = (joiner useOr).intercalate ((phrases words).map Fts.quote) := by
  rw [words_iff] at h
  have hkept : (((stripInvisible input.toList).splitOnP isWhitespace).filter fun t =>
      t ≠ [] ∧ String.ofList (t.map Char.toUpper) ∉ ["AND", "OR", "NOT", "NEAR"]) = words.filter (¬ IsOperator ·) := by
    rw [h, List.filter_filter]
    refine List.filter_congr fun t _ => ?_
    rw [Bool.eq_iff_iff, Bool.and_eq_true, decide_eq_true_iff, decide_eq_true_iff, decide_eq_true_iff, and_comm]
    exact Iff.rfl
  have hjoiner : (if useOr then " OR " else " ").toList = joiner useOr := by
    cases useOr <;> rfl
  unfold sanitizeFtsQuery
  simp only [hkept]
  rw [phrases, show (((words.filter (¬ IsOperator ·)).map fun t => t.filter fun c => c ∉ "\"*^\x7b\x7d():|+".toList).filter
    (· ≠ [])) = kept words from rfl]
  by_cases hnone : kept words = []
  · rw [if_pos hnone, if_pos hnone]
    rfl
  · rw [if_neg hnone, if_neg hnone, String.toList_intercalate, List.map_map, hjoiner]
    exact congrArg _ (List.map_congr_left fun t _ => toList_quoted t)

/-- What a text becomes as a query, with either joiner: a sequence of phrases in quotes, none with a quote or white space in it. -/
theorem sanitize_quoted (input : String) (useOr : Bool) :
    ∃ words, Words isWhitespace (stripInvisible input.toList) words ∧ phrases words ≠ [] ∧
      (∀ p ∈ phrases words, p ≠ [] ∧ ∀ c ∈ p, c ≠ '"' ∧ isWhitespace c = false) ∧
      (sanitizeFtsQuery input useOr).toList = (joiner useOr).intercalate ((phrases words).map Fts.quote) := by
  obtain ⟨words, hwords⟩ := exists_words isWhitespace (stripInvisible input.toList)
  exact ⟨words, hwords, phrases_ne_nil words, fun p hp => phrases_clean hp (no_space_of_words hwords),
    sanitizeFtsQuery_eq input useOr hwords⟩

/-! ## What FTS5 reads -/

theorem nul_not_operator (h : '\x00' ∈ w) : ¬IsOperator w := by
  intro hop
  have hupper : '\x00' ∈ w.map Char.toUpper := List.mem_map.mpr ⟨_, h, rfl⟩
  have hclean : ∀ s ∈ ["AND", "OR", "NOT", "NEAR"], '\x00' ∉ s.toList := by decide
  exact hclean _ hop (by rwa [String.toList_ofList])

/-- U+0000 stays in the phrases of the text it is in: it is no white space, not invisible, not special. -/
theorem nul_mem_phrases_iff (h : Words isWhitespace (stripInvisible input.toList) words) :
    (∃ p ∈ phrases words, '\x00' ∈ p) ↔ '\x00' ∈ input.toList := by
  constructor
  · rintro ⟨p, hp, hnul⟩
    unfold phrases at hp
    split_ifs at hp
    · rw [List.mem_singleton] at hp
      subst hp
      exact absurd hnul (by decide)
    · obtain ⟨w, hw, rfl⟩ := List.mem_map.mp (List.mem_of_mem_filter hp)
      have hmem := (mem_words_iff h (c := '\x00') rfl).mp ⟨w, List.mem_of_mem_filter hw, List.mem_of_mem_filter hnul⟩
      exact List.mem_of_mem_filter hmem
  · intro hnul
    have hstrip : '\x00' ∈ stripInvisible input.toList := List.mem_filter.mpr ⟨hnul, rfl⟩
    obtain ⟨w, hw, hnulw⟩ := (mem_words_iff h (c := '\x00') rfl).mpr hstrip
    have hleft : '\x00' ∈ stripSpecials w := List.mem_filter.mpr ⟨hnulw, by decide⟩
    have hkept : stripSpecials w ∈ kept words := by
      refine List.mem_filter.mpr ⟨List.mem_map_of_mem (List.mem_filter.mpr ⟨hw, ?_⟩), ?_⟩
      · exact decide_eq_true (nul_not_operator hnulw)
      · exact decide_eq_true (List.ne_nil_of_mem hleft)
    exact ⟨stripSpecials w, by rwa [phrases, if_neg (List.ne_nil_of_mem hkept)], hleft⟩

/-- A text becomes a query that FTS5 reads as phrases and nothing else: the words of the text that are left, or `_empty_`. -/
def ReadAsPhrases (input : String) (useOr : Bool) : Prop :=
  ∃ words, Words isWhitespace (stripInvisible input.toList) words ∧ phrases words ≠ [] ∧
    (∀ p ∈ phrases words, p ≠ [] ∧ ∀ c ∈ p, c ≠ '"' ∧ isWhitespace c = false) ∧
    (sanitizeFtsQuery input useOr).toList = (joiner useOr).intercalate ((phrases words).map Fts.quote) ∧
    Fts.tokens (sanitizeFtsQuery input useOr).toList =
      some ((joinerTokens useOr).intercalate ((phrases words).map fun p => [.phrase p]))

theorem quote_notMem_phrases (h : Words isWhitespace (stripInvisible input.toList) words) : ∀ p ∈ phrases words, '"' ∉ p :=
  fun _ hp hquote => ((phrases_clean hp (no_space_of_words h)).2 _ hquote).1 rfl

theorem nul_notMem_joiner (useOr : Bool) : '\x00' ∉ joiner useOr := by
  cases useOr <;> decide

/-- FTS5 reads the phrases of every text but those with U+0000 in them. -/
theorem sanitize_phrases_iff (input : String) (useOr : Bool) : ReadAsPhrases input useOr ↔ '\x00' ∉ input.toList := by
  constructor
  · rintro ⟨words, hwords, -, -, hquery, hread⟩ hnul
    have hcut := Fts.tokens_cut (joins_joiner useOr) (nul_notMem_joiner useOr) (quote_notMem_phrases hwords)
      ((nul_mem_phrases_iff hwords).mpr hnul)
    rw [hquery, hcut] at hread
    cases hread
  · intro hnul
    obtain ⟨words, hwords, hne, hclean, hquery⟩ := sanitize_quoted input useOr
    have hphrases : ∀ p ∈ phrases words, '\x00' ∉ p := fun p hp hmem =>
      hnul ((nul_mem_phrases_iff hwords).mp ⟨p, hp, hmem⟩)
    refine ⟨words, hwords, hne, hclean, hquery, ?_⟩
    rw [hquery]
    exact Fts.tokens_quoted (joins_joiner useOr) (nul_notMem_joiner useOr) hne (quote_notMem_phrases hwords) hphrases

/-- A word with U+0000 in it leaves its string open. -/
theorem nul_unclosed : ¬ReadAsPhrases "a\x00b" true ∧
    Fts.tokens (sanitizeFtsQuery "a\x00b" true).toList = none := by
  refine ⟨?_, by decide⟩
  rintro ⟨words, -, -, -, -, hread⟩
  cases hread

end Queries

end AiMemory
