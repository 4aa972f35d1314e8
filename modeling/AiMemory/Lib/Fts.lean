import Mathlib.Data.List.Basic
import Mathlib.Data.List.TakeWhile
import Mathlib.Tactic

/-!
# The tokens of an FTS5 query

A query is a run of strings in double quotes, in which `""` stands for a quote, of barewords and of single marks. `tokens` is the
scanner, one character a step; it is given a C string, which the first U+0000 ends. Texts without a quote, put in quotes and joined
by white space or by a bareword, are read back as the same texts (`tokens_quoted`), unless one of them holds that character: then a
string is left open (`tokens_cut`).
-/

namespace Fts

inductive Token where
  | phrase (text : List Char)
  | word (text : List Char)
  | mark (c : Char)
  deriving DecidableEq

/-- Where the scanner stands: between tokens, in a string, after a quote in one, or in a bareword. -/
inductive Mode where
  | between
  | quoted (textRev : List Char)
  | closing (textRev : List Char)
  | bare (textRev : List Char)

def isSpace (c : Char) : Bool := c = ' ' || c = '\t' || c = '\n' || c = '\r'

/-- The letters of a bareword: letters, digits, the underscore, the substitute character and everything outside ASCII. -/
def isBare (c : Char) : Bool := c.isAlphanum || c = '_' || c.toNat = 26 || 128 ≤ c.toNat

def start (c : Char) : List Token × Mode :=
  if isSpace c then ([], .between)
  else if c = '"' then ([], .quoted [])
  else if isBare c then ([], .bare [c])
  else ([.mark c], .between)

def step : Mode → Char → List Token × Mode
  | .between, c => start c
  | .quoted textRev, c => if c = '"' then ([], .closing textRev) else ([], .quoted (c :: textRev))
  | .closing textRev, c =>
    if c = '"' then ([], .quoted (c :: textRev)) else (.phrase textRev.reverse :: (start c).1, (start c).2)
  | .bare textRev, c =>
    if isBare c then ([], .bare (c :: textRev)) else (.word textRev.reverse :: (start c).1, (start c).2)

/-- The end of the query. A string that is not closed is an error. -/
def finish : Mode → Option (List Token)
  | .between => some []
  | .quoted _ => none
  | .closing textRev => some [.phrase textRev.reverse]
  | .bare textRev => some [.word textRev.reverse]

def scan : Mode → List Char → Option (List Token)
  | m, [] => finish m
  | m, c :: s => (scan (step m c).2 s).map ((step m c).1 ++ ·)

def cString (s : List Char) : List Char := s.takeWhile (· != '\x00')

def tokens (query : List Char) : Option (List Token) := scan .between (cString query)

def quote (text : List Char) : List Char := '"' :: text ++ ['"']

example : tokens "\"a-b\" OR c*".toList =
    some [.phrase "a-b".toList, .word "OR".toList, .word "c".toList, .mark '*'] := by decide

example : tokens "\"a\x00b\"".toList = none := by decide

variable {m : Mode} {text textRev joiner s : List Char} {texts : List (List Char)} {between : List Token}

theorem scan_quoted (h : '"' ∉ text) : scan (.quoted textRev) (text ++ '"' :: s) = scan (.closing (text.reverse ++ textRev)) s := by
  induction text generalizing textRev with
  | nil => simp [scan, step]
  | cons c text ih =>
    rw [List.mem_cons, not_or] at h
    have hc : c ≠ '"' := Ne.symm h.1
    simp [scan, step, hc, ih h.2]

/-- After the closing quote anything but another quote starts a new token. -/
theorem scan_closing {c : Char} (h : c ≠ '"') :
    scan (.closing textRev) (c :: s) = (scan .between (c :: s)).map (.phrase textRev.reverse :: ·) := by
  simp [scan, step, h, Function.comp_def]

/-- What may stand between two strings: a text that starts with white space and leaves the scanner between tokens, having emitted
`between`. -/
structure Joins (joiner : List Char) (between : List Token) : Prop where
  space : ∃ c rest, joiner = c :: rest ∧ isSpace c
  emits : ∀ s, scan .between (joiner ++ '"' :: s) = (scan (.quoted []) s).map (between ++ ·)

theorem joins_space : Joins " ".toList [] where
  space := ⟨' ', [], rfl, rfl⟩
  emits s := by simp [scan, step, start, isSpace]

theorem joins_or : Joins " OR ".toList [.word "OR".toList] where
  space := ⟨' ', _, rfl, rfl⟩
  emits s := by simp [scan, step, start, isSpace, isBare, Function.comp_def]

theorem scan_quote (h : '"' ∉ text) : scan .between (quote text ++ s) = scan (.closing text.reverse) s := by
  have hopen : scan .between (quote text ++ s) = scan (.quoted []) (text ++ '"' :: s) := by
    simp [quote, scan, step, start, isSpace]
  rw [hopen, scan_quoted h, List.append_nil]

theorem scan_open (s : List Char) : scan .between ('"' :: s) = scan (.quoted []) s := by
  simp [scan, step, start, isSpace]

theorem scan_quote_joiner (hjoins : Joins joiner between) (h : '"' ∉ text) :
    scan .between (quote text ++ (joiner ++ '"' :: s)) =
      (scan .between ('"' :: s)).map fun rest => .phrase text :: (between ++ rest) := by
  obtain ⟨c, rest, hjoiner, hspace⟩ := hjoins.space
  have hc : c ≠ '"' := by
    rintro rfl
    cases hspace
  rw [scan_quote h, scan_open, hjoiner, List.cons_append, scan_closing hc, ← List.cons_append, ← hjoiner, hjoins.emits,
    List.reverse_reverse, Option.map_map]
  rfl

theorem intercalate_map_cons {α β : Type*} (sep : List β) (f : α → List β) (x y : α) (l : List α) :
    sep.intercalate ((x :: y :: l).map f) = f x ++ sep ++ sep.intercalate ((y :: l).map f) := by
  rw [List.map_cons, List.intercalate_cons_of_ne_nil (List.map_eq_nil_iff.not.mpr (List.cons_ne_nil y l))]

theorem exists_quotes (joiner text : List Char) (texts : List (List Char)) :
    ∃ tail, joiner.intercalate ((text :: texts).map quote) = '"' :: tail := by
  cases texts <;> exact ⟨_, rfl⟩

theorem scan_quotes (hjoins : Joins joiner between) (hne : texts ≠ []) (h : ∀ text ∈ texts, '"' ∉ text) :
    scan .between (joiner.intercalate (texts.map quote)) =
      some (between.intercalate (texts.map fun text => [.phrase text])) := by
  induction texts with
  | nil => exact absurd rfl hne
  | cons text texts ih =>
    have htext := h text List.mem_cons_self
    cases texts with
    | nil =>
      rw [List.map_singleton, List.map_singleton, List.intercalate_singleton, List.intercalate_singleton,
        ← List.append_nil (quote text), scan_quote htext]
      simp [scan, finish]
    | cons text' texts =>
      have hrest := ih (List.cons_ne_nil _ _) fun t ht => h t (List.mem_cons_of_mem _ ht)
      obtain ⟨tail, htail⟩ := exists_quotes joiner text' texts
      rw [intercalate_map_cons, intercalate_map_cons, htail, List.append_assoc, scan_quote_joiner hjoins htext, ← htail, hrest,
        Option.map_some, List.append_assoc]
      rfl

/-! ## C strings -/

theorem cString_append (h : '\x00' ∉ text) (s : List Char) : cString (text ++ s) = text ++ cString s :=
  List.takeWhile_append_of_pos fun _ hc => bne_iff_ne.mpr (ne_of_mem_of_not_mem hc h)

theorem cString_eq_self (h : '\x00' ∉ text) : cString text = text :=
  List.takeWhile_eq_self_iff.mpr fun _ hc => bne_iff_ne.mpr (ne_of_mem_of_not_mem hc h)

theorem nul_notMem_quotes (hjoiner : '\x00' ∉ joiner) (h : ∀ text ∈ texts, '\x00' ∉ text) :
    '\x00' ∉ joiner.intercalate (texts.map quote) := by
  induction texts with
  | nil => exact List.not_mem_nil
  | cons text texts ih =>
    have htext := h text List.mem_cons_self
    cases texts with
    | nil => simpa [quote] using htext
    | cons text' texts =>
      have hrest := ih fun t ht => h t (List.mem_cons_of_mem _ ht)
      rw [intercalate_map_cons]
      simp only [List.mem_append, not_or]
      exact ⟨⟨by simpa [quote] using htext, hjoiner⟩, hrest⟩

theorem tokens_quoted (hjoins : Joins joiner between) (hjoiner : '\x00' ∉ joiner) (hne : texts ≠ [])
    (h : ∀ text ∈ texts, '"' ∉ text) (hnul : ∀ text ∈ texts, '\x00' ∉ text) :
    tokens (joiner.intercalate (texts.map quote)) = some (between.intercalate (texts.map fun text => [.phrase text])) := by
  rw [tokens, cString_eq_self (nul_notMem_quotes hjoiner hnul), scan_quotes hjoins hne h]

theorem scan_unclosed (h : '"' ∉ text) : scan (.quoted textRev) text = none := by
  induction text generalizing textRev with
  | nil => rfl
  | cons c text ih =>
    rw [List.mem_cons, not_or] at h
    simp [scan, step, Ne.symm h.1, ih h.2]

theorem scan_cut (h : '"' ∉ text) (hnul : '\x00' ∈ text) (s : List Char) :
    scan .between (cString (quote text ++ s)) = none := by
  obtain ⟨before, rest, rfl, hbefore⟩ := List.eq_append_cons_of_mem hnul
  have hquote : '"' ∉ before := fun hmem => h (List.mem_append_left _ hmem)
  have hcut : cString (quote (before ++ '\x00' :: rest) ++ s) = '"' :: before := by
    have hsplit : quote (before ++ '\x00' :: rest) ++ s = ('"' :: before) ++ '\x00' :: (rest ++ ['"'] ++ s) := by
      simp [quote]
    rw [hsplit, cString_append (by simp [hbefore])]
    simp [cString]
  rw [hcut, scan_open, scan_unclosed hquote]

theorem tokens_cut (hjoins : Joins joiner between) (hjoiner : '\x00' ∉ joiner) (h : ∀ text ∈ texts, '"' ∉ text)
    (hnul : ∃ text ∈ texts, '\x00' ∈ text) : tokens (joiner.intercalate (texts.map quote)) = none := by
  unfold tokens
  induction texts with
  | nil => exact absurd hnul (by simp)
  | cons text texts ih =>
    have htext := h text List.mem_cons_self
    by_cases hfirst : '\x00' ∈ text
    · cases texts with
      | nil =>
        exact scan_cut htext hfirst []
      | cons text' texts =>
        exact scan_cut htext hfirst _
    · obtain ⟨t, ht, htnul⟩ := hnul
      have hrest : t ∈ texts := (List.mem_cons.mp ht).resolve_left fun e => hfirst (e ▸ htnul)
      have hih := ih (fun t ht => h t (List.mem_cons_of_mem _ ht)) ⟨t, hrest, htnul⟩
      cases texts with
      | nil => exact absurd hrest List.not_mem_nil
      | cons text' texts =>
        obtain ⟨tail, htail⟩ := exists_quotes joiner text' texts
        have hquote : '\x00' ∉ quote text := by simpa [quote] using hfirst
        have hopen (s : List Char) : cString ('"' :: s) = '"' :: cString s := rfl
        rw [htail, hopen] at hih
        rw [intercalate_map_cons, htail, List.append_assoc, cString_append hquote, cString_append hjoiner, hopen,
          scan_quote_joiner hjoins htext, hih, Option.map_none]

end Fts
