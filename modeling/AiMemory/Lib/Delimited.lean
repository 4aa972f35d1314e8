import Mathlib.Data.List.Basic
import Mathlib.Tactic

/-!
# Escaped cells between separators

A code names the characters that may not stand for themselves and a letter for each; a text is escaped by writing such a
character as the escape character and its letter. What was escaped can be unescaped (`unescape_escape`), and a row of escaped
cells can be cut at the separators that no escape character stands before (`cells_intercalate`).
-/

namespace Delimited

/-- A property of every character of a text is decided along the text, not by going through all characters. -/
instance (priority := 2000) decidableForallMem (s : List Char) (p : Char → Prop) [DecidablePred p] :
    Decidable (∀ c ∈ s, p c) :=
  List.decidableBAll p s

variable {α : Type*}

/-- The letters of the special characters, with the way back; the escape character is special. -/
structure Code (α : Type*) where
  esc : α
  letter : α → Option α
  origin : α → Option α
  letter_esc : (letter esc).isSome
  origin_letter : ∀ x c : α, letter x = some c → origin c = some x

def Code.escape (k : Code α) (s : List α) : List α :=
  s.flatMap fun x => (k.letter x).elim [x] fun c => [k.esc, c]

def push (x : α) : List (List α) → List (List α)
  | [] => [[x]]
  | cell :: rest => (x :: cell) :: rest

section Cells

variable [DecidableEq α]

/-- The reader of an escaped text; the flag says that an escape character stands right before. Unknown letters stay. -/
def Code.unescapeFrom (k : Code α) : Bool → List α → List α
  | false, [] => []
  | true, [] => [k.esc]
  | false, x :: s => if x = k.esc then k.unescapeFrom true s else x :: k.unescapeFrom false s
  | true, c :: s => (k.origin c).elim [k.esc, c] (fun x => [x]) ++ k.unescapeFrom false s

def Code.unescape (k : Code α) (s : List α) : List α := k.unescapeFrom false s

/-- The cells of a row; the flag says that an escape character stands right before. -/
def Code.cellsFrom (k : Code α) (sep : α) : Bool → List α → List (List α)
  | _, [] => [[]]
  | true, c :: s => push c (k.cellsFrom sep false s)
  | false, x :: s =>
    if x = k.esc then push x (k.cellsFrom sep true s)
    else if x = sep then [] :: k.cellsFrom sep false s
    else push x (k.cellsFrom sep false s)

def Code.cells (k : Code α) (sep : α) (s : List α) : List (List α) := k.cellsFrom sep false s

variable {k : Code α} {sep x : α} {s t : List α}

omit [DecidableEq α] in
theorem escape_cons : k.escape (x :: s) = (k.letter x).elim [x] (fun c => [k.esc, c]) ++ k.escape s := rfl

omit [DecidableEq α] in
theorem escape_eq_self (h : ∀ x ∈ s, k.letter x = none) : k.escape s = s := by
  induction s with
  | nil => rfl
  | cons x s ih =>
    rw [escape_cons, h x List.mem_cons_self, ih fun y hy => h y (List.mem_cons_of_mem x hy)]
    rfl

omit [DecidableEq α] in
theorem ne_esc_of_letter (h : k.letter x = none) : x ≠ k.esc := by
  rintro rfl
  have hesc := k.letter_esc
  rw [h] at hesc
  cases hesc

theorem unescape_escape : k.unescape (k.escape s) = s := by
  unfold Code.unescape
  induction s with
  | nil => rfl
  | cons x s ih =>
    rw [escape_cons]
    cases hx : k.letter x with
    | none =>
      show k.unescapeFrom false (x :: k.escape s) = x :: s
      rw [Code.unescapeFrom, if_neg (ne_esc_of_letter hx), ih]
    | some c =>
      show k.unescapeFrom false (k.esc :: c :: k.escape s) = x :: s
      rw [Code.unescapeFrom, if_pos rfl, Code.unescapeFrom, k.origin_letter x c hx, ih]
      rfl

omit [DecidableEq α] in
theorem not_mem_escape (hx : (k.letter x).isSome) (hesc : x ≠ k.esc) (hletter : ∀ y, k.letter y ≠ some x) :
    x ∉ k.escape s := by
  unfold Code.escape
  rw [List.mem_flatMap]
  rintro ⟨y, -, hy⟩
  cases hl : k.letter y with
  | none =>
    rw [hl, Option.elim_none, List.mem_singleton] at hy
    rw [hy, hl] at hx
    cases hx
  | some c =>
    rw [hl, Option.elim_some, List.mem_cons, List.mem_singleton] at hy
    rcases hy with hy | rfl
    · exact hesc hy
    · exact hletter y hl

theorem cellsFrom_escape (hsep : (k.letter sep).isSome) (cell : List α) (rest : List (List α))
    (ht : k.cellsFrom sep false t = cell :: rest) :
    k.cellsFrom sep false (k.escape s ++ t) = (k.escape s ++ cell) :: rest := by
  induction s with
  | nil => exact ht
  | cons x s ih =>
    rw [escape_cons, List.append_assoc]
    cases hx : k.letter x with
    | none =>
      have hne : x ≠ sep := by
        rintro rfl
        rw [hx] at hsep
        cases hsep
      show k.cellsFrom sep false (x :: (k.escape s ++ t)) = _
      rw [Code.cellsFrom, if_neg (ne_esc_of_letter hx), if_neg hne, ih]
      rfl
    | some c =>
      show k.cellsFrom sep false (k.esc :: c :: (k.escape s ++ t)) = _
      rw [Code.cellsFrom, if_pos rfl, Code.cellsFrom, ih]
      rfl

omit [DecidableEq α] in
theorem not_mem_intercalate (hx : x ≠ sep) {cells : List (List α)} (h : ∀ cell ∈ cells, x ∉ cell) :
    x ∉ List.intercalate [sep] cells := by
  induction cells with
  | nil => exact List.not_mem_nil
  | cons cell cells ih =>
    have hcell := h cell List.mem_cons_self
    cases cells with
    | nil => simpa using hcell
    | cons cell' cells =>
      have hrest := ih fun c hc => h c (List.mem_cons_of_mem cell hc)
      simp only [List.intercalate, List.intersperse, List.flatten_cons, List.mem_append, List.mem_singleton] at hrest ⊢
      tauto

theorem cells_intercalate (hsep : (k.letter sep).isSome) (hesc : sep ≠ k.esc) {texts : List (List α)} (h : texts ≠ []) :
    k.cells sep (List.intercalate [sep] (texts.map k.escape)) = texts.map k.escape := by
  unfold Code.cells
  induction texts with
  | nil => exact absurd rfl h
  | cons text texts ih =>
    cases texts with
    | nil =>
      have hlast := cellsFrom_escape (s := text) (t := []) hsep [] [] rfl
      simpa using hlast
    | cons text' texts =>
      have hrest : k.cellsFrom sep false (sep :: List.intercalate [sep] ((text' :: texts).map k.escape)) =
          [] :: (text' :: texts).map k.escape := by
        rw [Code.cellsFrom, if_neg hesc, if_pos rfl, ih (List.cons_ne_nil _ _)]
      have hrow := cellsFrom_escape (s := text) hsep _ _ hrest
      simpa [List.intercalate, List.intersperse] using hrow

/-- Lines that each end with a line break are cut into these lines, and nothing is after the last break. -/
theorem splitOn_lines {lines : List (List α)} (h : ∀ line ∈ lines, sep ∉ line) :
    (lines.flatMap fun line => line ++ [sep]).splitOn sep = lines ++ [[]] := by
  induction lines with
  | nil => rfl
  | cons line lines ih =>
    have hrest := ih fun l hl => h l (List.mem_cons_of_mem line hl)
    rw [List.flatMap_cons, List.append_assoc, List.singleton_append, List.splitOn_append_cons_self,
      List.splitOn_eq_singleton (h line List.mem_cons_self), hrest]
    rfl

theorem not_mem_of_mem_splitOn {cell : List α} (h : cell ∈ s.splitOn sep) : sep ∉ cell := by
  induction s generalizing cell with
  | nil =>
    rw [List.splitOn_nil, List.mem_singleton] at h
    exact h ▸ List.not_mem_nil
  | cons x s ih =>
    rw [List.splitOn_cons_eq_if_modifyHead] at h
    split_ifs at h with hx
    · rcases List.mem_cons.mp h with rfl | h
      · exact List.not_mem_nil
      · exact ih h
    · obtain ⟨first, rest, hsplit⟩ := List.exists_cons_of_ne_nil (List.splitOn_ne_nil sep s)
      rw [hsplit, List.modifyHead_cons] at h
      rcases List.mem_cons.mp h with rfl | h
      · refine fun hmem => (List.mem_cons.mp hmem).elim (fun heq => hx (beq_iff_eq.mpr heq.symm)) ?_
        exact ih (hsplit ▸ List.mem_cons_self)
      · exact ih (hsplit ▸ List.mem_cons_of_mem _ h)

/-- Cells with a separator before each but the first. -/
theorem splitOn_blocks {first : List α} {cells : List (List α)} (hfirst : sep ∉ first) (h : ∀ cell ∈ cells, sep ∉ cell) :
    (first ++ cells.flatMap fun cell => sep :: cell).splitOn sep = first :: cells := by
  induction cells generalizing first with
  | nil => rw [List.flatMap_nil, List.append_nil, List.splitOn_eq_singleton hfirst]
  | cons cell cells ih =>
    rw [List.flatMap_cons, List.cons_append, List.splitOn_append_cons_self, List.splitOn_eq_singleton hfirst,
      ih (h cell List.mem_cons_self) fun cell hcell => h cell (List.mem_cons_of_mem _ hcell)]
    rfl

end Cells

/-! ## Words between white space -/

section Words

variable {white : α → Bool} {s w : List α} {words : List (List α)}

/-- The words of a text: its longest runs without white space, in order. -/
inductive Words (white : α → Bool) : List α → List (List α) → Prop
  | nil : Words white [] []
  | gap {c : α} {s : List α} {words : List (List α)} (hc : white c = true) (h : Words white s words) : Words white (c :: s) words
  | word {w s : List α} {words : List (List α)} (hne : w ≠ []) (hw : ∀ x ∈ w, white x = false)
    (hs : ∀ c, s.head? = some c → white c = true) (h : Words white s words) : Words white (w ++ s) (w :: words)

theorem exists_words (white : α → Bool) (s : List α) : ∃ words, Words white s words := by
  induction s with
  | nil => exact ⟨[], .nil⟩
  | cons c s ih =>
    obtain ⟨words, h⟩ := ih
    cases hc : white c with
    | true => exact ⟨words, .gap hc h⟩
    | false =>
      have hone : ∀ x ∈ [c], white x = false := fun x hx => List.mem_singleton.mp hx ▸ hc
      cases h with
      | nil => exact ⟨_, .word (List.cons_ne_nil c []) hone (by simp) .nil⟩
      | gap hx h =>
        refine ⟨_, .word (List.cons_ne_nil c []) hone (fun x hhead => ?_) (.gap hx h)⟩
        cases hhead
        exact hx
      | word hne hw hs h =>
        -- the first word of the rest is continued to the left
        exact ⟨_, .word (List.cons_ne_nil c _) (List.forall_mem_cons.mpr ⟨hc, hw⟩) hs h⟩

theorem words_iff : Words white s words ↔ words = (s.splitOnP white).filter (· ≠ []) := by
  have hwords : ∀ words, Words white s words → words = (s.splitOnP white).filter (· ≠ []) := by
    intro words h
    induction h with
    | nil => simp
    | gap hc h ih =>
      rw [ih, List.splitOnP_cons_eq_if_modifyHead, if_pos hc]
      rfl
    | @word w s words hne hw hs h ih =>
      cases s with
      | nil =>
        rw [ih, List.append_nil, List.splitOnP_eq_singleton hw]
        simp [hne]
      | cons c s =>
        have hc := hs c rfl
        rw [ih, List.splitOnP_append_cons_of_forall_mem hw c hc, List.splitOnP_cons_eq_if_modifyHead, if_pos hc]
        simp [hne]
  constructor
  · exact hwords words
  · rintro rfl
    obtain ⟨words, h⟩ := exists_words white s
    exact hwords words h ▸ h

theorem mem_words_iff {c : α} (h : Words white s words) (hc : white c = false) : (∃ w ∈ words, c ∈ w) ↔ c ∈ s := by
  induction h with
  | nil => simp
  | gap hgap h ih =>
    rw [ih, List.mem_cons, or_iff_right]
    rintro rfl
    rw [hc] at hgap
    cases hgap
  | word hne hw hs h ih => rw [List.exists_mem_cons_iff, ih, List.mem_append]

end Words

end Delimited
