import Mathlib.Data.List.Basic
import Mathlib.Data.List.TakeWhile
import Mathlib.Tactic

/-!
# Texts in blocks, and bags of words

A text is cut at its blank lines: two line ends with nothing but blanks between them. `blocks` is the loop that looks for the
next one from where it stands, and `Laid` says what it finds: the blocks from left to right, each without a blank line in it,
and each with the units before its start and before its end.

The words of a text are the runs of characters that are no separators. A piece of a text that ends where the text has
separators has no words but those of the text (`words_piece`).
-/

namespace Blocks

/-! ## Blank lines -/

/-- What ends a line, what may stand in a blank line, and how many units a character takes. -/
structure Layout (α : Type) where
  eol : α
  blank : α → Bool
  size : α → ℕ
  blank_eol : blank eol = false
  size_pos : ∀ x, 0 < size x

variable {α : Type} (L : Layout α)

namespace Layout

def sizeOf (text : List α) : ℕ := (text.map L.size).sum

@[simp] theorem sizeOf_nil : L.sizeOf [] = 0 := rfl

@[simp] theorem sizeOf_cons (x : α) (text : List α) : L.sizeOf (x :: text) = L.size x + L.sizeOf text := by
  simp [sizeOf]

@[simp] theorem sizeOf_append (text text' : List α) : L.sizeOf (text ++ text') = L.sizeOf text + L.sizeOf text' := by
  simp [sizeOf]

/-- A blank line, as a text: a line end, blanks, a line end. -/
def BlankLine (line : List α) : Prop := ∃ gap, (∀ x ∈ gap, L.blank x = true) ∧ line = L.eol :: gap ++ [L.eol]

/-- No blank line stands in a text. -/
def Solid (text : List α) : Prop := ∀ line, L.BlankLine line → ¬line <:+: text

variable [DecidableEq α]

/-- The text after the next line end, if there are only blanks before it. -/
def afterBlank (text : List α) : Option (List α × List α) :=
  match text.dropWhile L.blank with
  | x :: rest => if x = L.eol then some (text.takeWhile L.blank, rest) else none
  | [] => none

variable {L} {text gap rest : List α}

theorem afterBlank_eq_some_iff :
    L.afterBlank text = some (gap, rest) ↔ (∀ x ∈ gap, L.blank x = true) ∧ text = gap ++ L.eol :: rest := by
  constructor
  · intro h
    rw [afterBlank] at h
    cases hdrop : text.dropWhile L.blank with
    | nil =>
      rw [hdrop] at h
      cases h
    | cons x tail =>
      simp only [hdrop] at h
      split at h
      · next hx =>
        cases h
        refine ⟨fun y hy => List.mem_takeWhile_imp hy, ?_⟩
        rw [← hx, ← hdrop, List.takeWhile_append_dropWhile]
      · cases h
  · rintro ⟨hgap, rfl⟩
    have htake : (gap ++ L.eol :: rest).takeWhile L.blank = gap := by
      rw [List.takeWhile_append_of_pos hgap, List.takeWhile_cons_of_neg (by rw [L.blank_eol]; exact Bool.false_ne_true),
        List.append_nil]
    have hdrop : (gap ++ L.eol :: rest).dropWhile L.blank = L.eol :: rest := by
      rw [List.dropWhile_append_of_pos hgap, List.dropWhile_cons_of_neg (by rw [L.blank_eol]; exact Bool.false_ne_true)]
    rw [afterBlank, htake]
    simp only [hdrop, if_true]

theorem length_of_afterBlank (h : L.afterBlank text = some (gap, rest)) : rest.length < text.length := by
  rw [(afterBlank_eq_some_iff.mp h).2, List.length_append, List.length_cons]
  omega

theorem afterBlank_eq_none_iff : L.afterBlank text = none ↔ ∀ line, L.BlankLine line → ¬line <+: L.eol :: text := by
  constructor
  · rintro h _ ⟨gap, hgap, rfl⟩ ⟨tail, htail⟩
    have htext : text = gap ++ L.eol :: tail := by
      rw [List.cons_append, List.cons_append, List.append_assoc] at htail
      exact (List.cons.inj htail).2.symm
    rw [afterBlank_eq_some_iff.mpr ⟨hgap, htext⟩] at h
    cases h
  · intro h
    by_contra hsome
    obtain ⟨⟨gap, rest⟩, hsome⟩ := Option.ne_none_iff_exists'.mp hsome
    obtain ⟨hgap, rfl⟩ := afterBlank_eq_some_iff.mp hsome
    exact h _ ⟨gap, hgap, rfl⟩ ⟨rest, by simp⟩

end Layout

/-! ## Blocks -/

/-- A block of a text, with the units of the text before its start and before its end. -/
structure Block (α : Type) where
  start : ℕ
  stop : ℕ
  text : List α
  deriving DecidableEq

section Search

variable [DecidableEq α]

/-- The blocks of a text that goes on with `rest`: the block under the cursor starts at `start`, the cursor stands at `i`, and
`chunk` is what lies between the two, last character first. -/
def blocksFrom (start i : ℕ) (chunk : List α) : List α → List (Block α)
  | [] => [⟨start, i, chunk.reverse⟩]
  | x :: rest =>
    if x = L.eol then
      match _h : L.afterBlank rest with
      | some (gap, after) =>
        let j := i + L.size x + L.sizeOf gap
        ⟨start, i, chunk.reverse⟩ :: blocksFrom (j + L.size L.eol) (j + L.size L.eol) [] after
      | none => blocksFrom start (i + L.size x) (x :: chunk) rest
    else blocksFrom start (i + L.size x) (x :: chunk) rest
  termination_by text => text.length
  decreasing_by
    · exact (Layout.length_of_afterBlank _h).trans (Nat.lt_succ_self _)
    · exact Nat.lt_succ_self _
    · exact Nat.lt_succ_self _

def blocks (text : List α) : List (Block α) := blocksFrom L 0 0 [] text

end Search

/-- The blocks of a text from its first blank line on: none of them has a blank line in it or across its end, and each starts
where the blank line before it ends. -/
inductive Laid : ℕ → List α → List (Block α) → Prop
  | last {start : ℕ} {text : List α} (hsolid : L.Solid text) : Laid start text [⟨start, start + L.sizeOf text, text⟩]
  | cons {start : ℕ} {text line rest : List α} {bs : List (Block α)} (hline : L.BlankLine line)
      (hsolid : L.Solid (text ++ [L.eol])) (hrest : Laid (start + L.sizeOf (text ++ line)) rest bs) :
      Laid start (text ++ line ++ rest) (⟨start, start + L.sizeOf text, text⟩ :: bs)

namespace Layout

variable {L} {text line : List α} {x : α}

theorem solid_of_infix {text' : List α} (h : L.Solid text) (hsub : text' <:+: text) : L.Solid text' :=
  fun line hline hin => h line hline (hin.trans hsub)

theorem sizeOf_pos_of_blankLine (h : L.BlankLine line) : 0 < L.sizeOf line := by
  obtain ⟨gap, -, rfl⟩ := h
  have := L.size_pos L.eol
  rw [List.cons_append, sizeOf_cons]
  omega

theorem two_le_of_blankLine (h : L.BlankLine line) : 2 ≤ line.length := by
  obtain ⟨gap, -, rfl⟩ := h
  simp

theorem head_of_blankLine (h : L.BlankLine line) : line.head? = some L.eol := by
  obtain ⟨gap, -, rfl⟩ := h
  rfl

theorem getLast_of_blankLine (h : L.BlankLine line) : line.getLast? = some L.eol := by
  obtain ⟨gap, -, rfl⟩ := h
  exact List.getLast?_concat

end Layout

/-! ## The search finds them -/

section Search

variable {L} {start i : ℕ} {chunk text : List α}

/-- No blank line starts in what lies between the start of the block and the cursor. -/
def Clear (L : Layout α) (chunk text : List α) : Prop :=
  ∀ pre line post, L.BlankLine line → chunk.reverse ++ text = pre ++ (line ++ post) → chunk.length ≤ pre.length

theorem Clear.step {x : α} (h : Clear L chunk (x :: text)) (hx : ∀ line, L.BlankLine line → ¬line <+: x :: text) :
    Clear L (x :: chunk) text := by
  intro pre line post hline he
  rw [List.reverse_cons, List.append_assoc, List.singleton_append] at he
  have hle := h pre line post hline he
  refine lt_of_le_of_ne hle fun heq => ?_
  obtain ⟨-, htext⟩ := List.append_inj he (by rw [List.length_reverse, heq])
  exact hx line hline ⟨post, htext.symm⟩

theorem Clear.solid_end (h : Clear L chunk []) : L.Solid chunk.reverse := by
  rintro line hline ⟨pre, post, he⟩
  have hle := h pre line post hline (by rw [List.append_nil, ← he, List.append_assoc])
  have hlen := congrArg List.length he
  have := L.two_le_of_blankLine hline
  simp only [List.length_append, List.length_reverse] at hlen
  omega

theorem Clear.solid_eol (h : Clear L chunk (L.eol :: text)) : L.Solid (chunk.reverse ++ [L.eol]) := by
  rintro line hline ⟨pre, post, he⟩
  have hle := h pre line (post ++ text) hline (by
    rw [← List.append_assoc line, ← List.append_assoc pre, ← List.append_assoc pre, he, List.append_assoc,
      List.singleton_append])
  have hlen := congrArg List.length he
  have := L.two_le_of_blankLine hline
  simp only [List.length_append, List.length_reverse, List.length_singleton] at hlen
  omega

theorem clear_nil : Clear L [] text := fun _ _ _ _ _ => Nat.zero_le _

variable [DecidableEq α]

theorem laid_blocksFrom (hclear : Clear L chunk text) (hi : i = start + L.sizeOf chunk.reverse) :
    Laid L start (chunk.reverse ++ text) (blocksFrom L start i chunk text) := by
  fun_induction blocksFrom L start i chunk text with
  | case1 start i chunk =>
    rw [List.append_nil, hi]
    exact .last hclear.solid_end
  | case2 start i chunk rest gap after hafter j ih =>
    obtain ⟨hgap, hrest⟩ := Layout.afterBlank_eq_some_iff.mp hafter
    have hline : L.BlankLine (L.eol :: gap ++ [L.eol]) := ⟨gap, hgap, rfl⟩
    suffices hnext : Laid L (start + L.sizeOf (chunk.reverse ++ (L.eol :: gap ++ [L.eol]))) after
        (blocksFrom L (j + L.size L.eol) (j + L.size L.eol) [] after) by
      have hlaid := Laid.cons hline hclear.solid_eol hnext
      rw [← hi] at hlaid
      rw [hrest]
      simpa using hlaid
    have hstart : start + L.sizeOf (chunk.reverse ++ (L.eol :: gap ++ [L.eol])) = j + L.size L.eol := by
      simp only [Layout.sizeOf_append, Layout.sizeOf_cons, Layout.sizeOf_nil, List.cons_append, j, hi]
      omega
    rw [hstart]
    exact ih clear_nil (by rw [List.reverse_nil, Layout.sizeOf_nil, Nat.add_zero])
  | case3 start i chunk rest hafter ih =>
    rw [← List.singleton_append, ← List.append_assoc, ← List.reverse_cons]
    refine ih (hclear.step (Layout.afterBlank_eq_none_iff.mp hafter)) ?_
    rw [List.reverse_cons, Layout.sizeOf_append, hi]
    simp only [Layout.sizeOf_cons, Layout.sizeOf_nil]
    omega
  | case4 start i chunk x rest hx ih =>
    rw [← List.singleton_append, ← List.append_assoc, ← List.reverse_cons]
    refine ih (hclear.step fun line hline hprefix => hx ?_) ?_
    · obtain ⟨gap, -, rfl⟩ := hline
      exact (List.cons_prefix_cons.mp hprefix).1.symm
    · rw [List.reverse_cons, Layout.sizeOf_append, hi]
      simp only [Layout.sizeOf_cons, Layout.sizeOf_nil]
      omega

theorem laid_blocks (text : List α) : Laid L 0 text (blocks L text) := laid_blocksFrom clear_nil rfl

end Search

/-! ## Where the blocks stand -/

section Laid

variable {L} {start : ℕ} {text : List α} {bs : List (Block α)} {b : Block α}

/-- A piece of a text that ends, on either side, where the text ends or a line does. -/
def Piece (L : Layout α) (text pre piece post : List α) : Prop :=
  text = pre ++ (piece ++ post) ∧ (pre = [] ∨ pre.getLast? = some L.eol) ∧ (post = [] ∨ post.head? = some L.eol)

theorem Laid.piece (h : Laid L start text bs) (hb : b ∈ bs) :
    ∃ pre post, Piece L text pre b.text post ∧ b.start = start + L.sizeOf pre ∧ b.stop = b.start + L.sizeOf b.text := by
  induction h with
  | last =>
    cases List.mem_singleton.mp hb
    exact ⟨[], [], ⟨(List.append_nil _).symm, .inl rfl, .inl rfl⟩, rfl, rfl⟩
  | @cons start text line rest bs hline _ _ ih =>
    obtain rfl | hb := List.mem_cons.mp hb
    · refine ⟨[], line ++ rest, ⟨by rw [List.nil_append, List.append_assoc], .inl rfl, .inr ?_⟩, rfl, rfl⟩
      rw [List.head?_append, L.head_of_blankLine hline]
      rfl
    · obtain ⟨pre, post, ⟨rfl, hpre, hpost⟩, hstart, hstop⟩ := ih hb
      refine ⟨text ++ line ++ pre, post, ⟨(List.append_assoc _ _ _).symm, .inr ?_, hpost⟩, ?_, hstop⟩
      · obtain rfl | hpre := hpre
        · rw [List.append_nil, List.getLast?_append, L.getLast_of_blankLine hline]
          rfl
        · rw [List.getLast?_append, hpre]
          rfl
      · rw [hstart]
        simp only [Layout.sizeOf_append]
        omega

theorem Laid.start_le (h : Laid L start text bs) (hb : b ∈ bs) : start ≤ b.start := by
  obtain ⟨pre, -, -, hstart, -⟩ := h.piece hb
  omega

theorem Laid.pairwise (h : Laid L start text bs) : bs.Pairwise fun a b => a.stop < b.start := by
  induction h with
  | last => exact List.pairwise_singleton _ _
  | @cons start text line rest bs hline _ hrest ih =>
    refine List.pairwise_cons.mpr ⟨fun b hb => ?_, ih⟩
    have hle := hrest.start_le hb
    have hpos := L.sizeOf_pos_of_blankLine hline
    simp only [Layout.sizeOf_append] at hle ⊢
    omega

theorem Laid.solid (h : Laid L start text bs) (hb : b ∈ bs) : L.Solid b.text := by
  induction h with
  | last hsolid =>
    cases List.mem_singleton.mp hb
    exact hsolid
  | cons _ hsolid _ ih =>
    obtain rfl | hb := List.mem_cons.mp hb
    · exact L.solid_of_infix hsolid (List.prefix_append _ _).isInfix
    · exact ih hb

end Laid

/-! ## Words -/

section Words

variable {L} {sep : α → Bool} {text pre piece post : List α}

def words (sep : α → Bool) (text : List α) : List (List α) := (text.splitOnP sep).filter (· ≠ [])

theorem words_append_cons (text post : List α) {c : α} (hc : sep c = true) :
    words sep (text ++ c :: post) = words sep text ++ words sep post := by
  rw [words, List.splitOnP_append_cons text post hc, List.filter_append]
  rfl

theorem words_piece (hsep : sep L.eol = true) (h : Piece L text pre piece post) : words sep piece ⊆ words sep text := by
  obtain ⟨rfl, hpre, hpost⟩ := h
  have hright : words sep piece ⊆ words sep (piece ++ post) := by
    obtain rfl | hpost := hpost
    · rw [List.append_nil]
      exact List.Subset.refl _
    · obtain ⟨tail, rfl⟩ := List.head?_eq_some_iff.mp hpost
      rw [words_append_cons _ _ hsep]
      exact List.subset_append_left _ _
  obtain rfl | hpre := hpre
  · exact hright
  · obtain ⟨init, rfl⟩ := List.getLast?_eq_some_iff.mp hpre
    rw [List.append_assoc, List.singleton_append, words_append_cons _ _ hsep]
    exact List.Subset.trans hright (List.subset_append_right _ _)

end Words

end Blocks
