import AiMemory.Lib.Delimited
import AiMemory.Lib.Like
import AiMemory.Model.Json

/-!
# TOON

`toon.rs`: a response as a line of its counters, the standards of its namespace, a header with the names of the columns and a
row for each memory. Cells stand between bars; what would end a cell or a row is escaped. `readRows` is the reader that the
format has in mind, and `readRows_memoriesToToon` says what it gets.
-/

namespace AiMemory

namespace Toon

open Delimited

/-! ## The writer -/

def memoryFields : List String :=
  ["id", "title", "tier", "namespace", "priority", "confidence", "score", "access_count", "tags", "source", "created_at",
    "updated_at", "metadata"]

def memoryFieldsCompact : List String := ["id", "title", "tier", "namespace", "priority", "score", "tags", "agent_id"]

def fields (compact : Bool) : List String := if compact then memoryFieldsCompact else memoryFields

/-- `str::replace` of a character. -/
def replace (s : String) (c : Char) (r : String) : String := String.ofList (Like.replace s.toList c r.toList)

def escapeToon (s : String) : String :=
  if ['|', '\n', '\r', '\\', ':'].any fun c => s.toList.contains c then
    replace (replace (replace (replace (replace s '\\' "\\\\") '|' "\\|") ':' "\\:") '\n' "\\n") '\r' "\\r"
  else s

def joined (items : List Json) : String := ",".intercalate (items.filterMap Json.asStr)

def formatValue : Option Json → String
  | none | some .null => ""
  | some (.str s) => escapeToon s
  | some (.int n) => toString n
  | some (.float r) => r
  | some (.bool b) => if b then "1" else "0"
  | some (.arr items) => escapeToon (joined items)
  | some (.obj fs) => if fs = [] then "" else escapeToon (Json.obj fs).toText

def column (mem : Json) (field : String) : Option Json :=
  if field = "agent_id" then (mem.get "metadata").bind fun m => m.get "agent_id" else mem.get field

def counters (response : Json) : List String :=
  ((response.get "count").map fun v => "count:" ++ v.toText).toList ++
    (((response.get "mode").bind Json.asStr).map fun mode => "mode:" ++ mode).toList ++
    ((response.get "tokens_used").map fun v => "tokens_used:" ++ v.toText).toList ++
    ((response.get "budget_tokens").map fun v => "budget_tokens:" ++ v.toText).toList

def items (response : Json) (field : String) : List Json :=
  match response.get field with
  | some (.arr xs) => xs
  | _ => []

def standards (response : Json) : List Json := (response.get "standard").toList ++ items response "standards"

def row (cells : List String) : String := "|".intercalate cells

def standardFields : List String := ["id", "title", "content"]

def preamble (response : Json) : List String :=
  (if counters response = [] then [] else [row (counters response)]) ++
    (if standards response = [] then []
    else "standards[id|title|content]:" ::
      (standards response).map fun standard => row (standardFields.map fun f => formatValue (standard.get f)))

def header (compact : Bool) : String := "memories[" ++ row (fields compact) ++ "]:"

/-- `memories_to_toon`: every line ends with a line break. -/
def memoriesToToon (response : Json) (compact : Bool) : String :=
  String.join ((preamble response ++ header compact ::
    (items response "memories").map fun mem => row ((fields compact).map fun f => formatValue (column mem f))).map
      fun line => line ++ "\n")

/-! ## The reader -/

def letters : List (Char × Char) := [('\\', '\\'), ('|', '|'), (':', ':'), ('\n', 'n'), ('\r', 'r')]

def code : Code Char where
  esc := '\\'
  letter x := (letters.find? fun l => l.1 = x).map Prod.snd
  origin c := (letters.find? fun l => l.2 = c).map Prod.fst
  letter_esc := rfl
  origin_letter := by
    have hall : ∀ l ∈ letters, (letters.find? fun l' => l'.2 = l.2).map Prod.fst = some l.1 := by decide
    intro x c h
    obtain ⟨l, hl, rfl⟩ := Option.map_eq_some_iff.mp h
    have hx := List.find?_some hl
    obtain rfl : l.1 = x := of_decide_eq_true hx
    exact hall l (List.mem_of_find?_eq_some hl)

/-- The lines after the header, without the empty piece after the last line break. -/
def dataRows (compact : Bool) (out : String) : List (List Char) :=
  (((out.toList.splitOn '\n').dropWhile fun line => line ≠ (header compact).toList).drop 1).dropLast

def readRows (compact : Bool) (out : String) : List (List String) :=
  (dataRows compact out).map fun line => (code.cells '|' line).map fun cell => String.ofList (code.unescape cell)

/-- The text of a value, or what stands for it: an empty object and a missing value are empty, a truth value is a digit. -/
def fieldText : Option Json → String
  | none | some .null => ""
  | some (.str s) => s
  | some (.int n) => toString n
  | some (.float r) => r
  | some (.bool b) => if b then "1" else "0"
  | some (.arr items) => joined items
  | some (.obj fs) => if fs = [] then "" else (Json.obj fs).toText

/-! ## Escapes and numbers -/

theorem letter_eq_none {c : Char} (h : c ∉ ['\\', '|', ':', '\n', '\r']) : code.letter c = none := by
  simp only [List.mem_cons, List.not_mem_nil, or_false, not_or] at h
  show (letters.find? fun l => l.1 = c).map Prod.snd = none
  simp [letters, Ne.symm h.1, Ne.symm h.2.1, Ne.symm h.2.2.1, Ne.symm h.2.2.2.1, Ne.symm h.2.2.2.2]

theorem toList_escapeToon (s : String) : (escapeToon s).toList = code.escape s.toList := by
  unfold escapeToon
  split_ifs with hany
  · simp only [replace, String.toList_ofList]
    induction s.toList with
    | nil => rfl
    | cons c l ih =>
      rw [escape_cons, ← ih]
      by_cases hc : c ∈ ['\\', '|', ':', '\n', '\r']
      · simp only [List.mem_cons, List.not_mem_nil, or_false] at hc
        rcases hc with rfl | rfl | rfl | rfl | rfl <;> rfl
      · rw [letter_eq_none hc]
        simp only [List.mem_cons, List.not_mem_nil, or_false, not_or] at hc
        simp [Like.replace, hc]
  · refine (escape_eq_self fun c hc => letter_eq_none fun hmem => hany ?_).symm
    rw [List.any_eq_true]
    refine ⟨c, ?_, by simpa using hc⟩
    revert hmem
    simp only [List.mem_cons, List.not_mem_nil, or_false]
    tauto

def isNumberChar (c : Char) : Bool := c.isDigit || ['+', '-', '.', 'e'].contains c

theorem number_not_special {c : Char} (h : isNumberChar c) : c ∉ ['\\', '|', ':', '\n', '\r'] := by
  intro hmem
  simp only [List.mem_cons, List.not_mem_nil, or_false] at hmem
  rcases hmem with rfl | rfl | rfl | rfl | rfl <;> exact absurd h (by decide)

theorem isNumberChar_toString (n : ℤ) : ∀ c ∈ (toString n).toList, isNumberChar c := by
  have hnat : ∀ m : ℕ, ∀ c ∈ m.repr.toList, isNumberChar c := by
    intro m c hc
    rw [Nat.toList_repr] at hc
    rw [isNumberChar, Nat.isDigit_of_mem_toDigits (by decide) (by decide) hc, Bool.true_or]
  intro c hc
  rw [Int.toString_eq_repr, Int.repr_eq_if] at hc
  split_ifs at hc
  · exact hnat _ c hc
  · rw [String.toList_append, List.mem_append] at hc
    rcases hc with hc | hc
    · obtain rfl : c = '-' := by simpa using hc
      rfl
    · exact hnat _ c hc

end Toon

mutual

def Json.numeric : Json → Bool
  | .float r => r.toList.all Toon.isNumberChar
  | .arr xs => Json.numericItems xs
  | .obj fs => Json.numericFields fs
  | _ => true

def Json.numericItems : List Json → Bool
  | [] => true
  | x :: xs => x.numeric && Json.numericItems xs

def Json.numericFields : List (String × Json) → Bool
  | [] => true
  | (_, v) :: fs => v.numeric && Json.numericFields fs

end

namespace Toon

open Delimited

theorem newline_not_mem_quote (s : String) : '\n' ∉ Json.quote s := by
  have hpair : ∀ n < 32, '\n' ∉ Json.hexPair n := by decide
  unfold Json.quote
  rw [List.mem_cons, List.mem_append, List.mem_flatMap, List.mem_singleton]
  rintro (h | ⟨c, -, hc⟩ | h)
  · cases h
  · unfold Json.escapeChar at hc
    split_ifs at hc with h₁ h₂ h₃ h₄ h₅ h₆ h₇ h₈
    iterate 7 revert hc; decide
    · rw [List.mem_append] at hc
      rcases hc with hc | hc
      · revert hc
        decide
      · exact hpair _ h₈ hc
    · rw [List.mem_singleton] at hc
      exact h₅ (congrArg Char.toNat hc.symm)
  · cases h

mutual

theorem newline_not_mem_render (j : Json) (h : j.numeric) : '\n' ∉ j.render := by
  cases j with
  | null => decide
  | bool b => cases b <;> decide
  | int n =>
    intro hmem
    exact number_not_special (isNumberChar_toString n _ hmem) (by decide)
  | float r =>
    intro hmem
    exact number_not_special (List.all_eq_true.mp h _ hmem) (by decide)
  | str s => exact newline_not_mem_quote s
  | arr xs =>
    have hitems := newline_not_mem_renderItems xs h
    simpa [Json.render] using hitems
  | obj fs =>
    have hfields := newline_not_mem_renderFields fs h
    simpa [Json.render] using hfields

theorem newline_not_mem_renderItems (xs : List Json) (h : Json.numericItems xs) : '\n' ∉ Json.renderItems xs := by
  cases xs with
  | nil => exact List.not_mem_nil
  | cons x xs =>
    rw [Json.numericItems, Bool.and_eq_true] at h
    have hx := newline_not_mem_render x h.1
    have hxs := newline_not_mem_renderItems xs h.2
    cases xs with
    | nil => exact hx
    | cons y ys =>
      rw [Json.renderItems, List.mem_append, List.mem_cons]
      · rintro (h | h | h)
        · exact hx h
        · cases h
        · exact hxs h
      · exact nofun

theorem newline_not_mem_renderFields (fs : List (String × Json)) (h : Json.numericFields fs) :
    '\n' ∉ Json.renderFields fs := by
  cases fs with
  | nil => exact List.not_mem_nil
  | cons f fs =>
    obtain ⟨k, v⟩ := f
    rw [Json.numericFields, Bool.and_eq_true] at h
    have hk := newline_not_mem_quote k
    have hv := newline_not_mem_render v h.1
    have hfs := newline_not_mem_renderFields fs h.2
    cases fs with
    | nil =>
      rw [Json.renderFields, List.mem_append, List.mem_cons]
      rintro (h | h | h)
      · exact hk h
      · cases h
      · exact hv h
    | cons g gs =>
      rw [Json.renderFields, List.mem_append, List.mem_append, List.mem_cons, List.mem_cons]
      · rintro ((h | h | h) | h | h)
        · exact hk h
        · cases h
        · exact hv h
        · cases h
        · exact hfs h
      · exact nofun

end

/-! ## What the reader gets -/

section Rows

variable {response mem : Json} {compact : Bool} {field : String}

theorem numeric_of_mem_items {xs : List Json} (h : Json.numericItems xs) : ∀ x ∈ xs, x.numeric := by
  induction xs with
  | nil => exact fun x hx => absurd hx List.not_mem_nil
  | cons x xs ih =>
    rw [Json.numericItems, Bool.and_eq_true] at h
    exact List.forall_mem_cons.mpr ⟨h.1, ih h.2⟩

theorem numeric_get {j v : Json} {k : String} (h : j.numeric) (hget : j.get k = some v) : v.numeric := by
  cases j with
  | obj fs =>
    replace hget : Json.getField k fs = some v := hget
    replace h : Json.numericFields fs := h
    induction fs with
    | nil => cases hget
    | cons f fs ih =>
      obtain ⟨k', v'⟩ := f
      rw [Json.numericFields, Bool.and_eq_true] at h
      unfold Json.getField at hget
      split_ifs at hget
      · cases hget
        exact h.1
      · exact ih hget h.2
  | _ => cases hget

theorem numeric_items (h : response.numeric) : ∀ x ∈ items response field, x.numeric := by
  unfold items
  split
  · rename_i xs hget
    exact numeric_of_mem_items (numeric_get h hget)
  · exact fun x hx => absurd hx List.not_mem_nil

theorem numeric_standards (h : response.numeric) : ∀ x ∈ standards response, x.numeric := by
  intro x hx
  rw [standards, List.mem_append, Option.mem_toList] at hx
  exact hx.elim (numeric_get h) (numeric_items h x)

theorem numeric_column (h : mem.numeric) : ∀ v ∈ column mem field, v.numeric := by
  intro v hv
  unfold column at hv
  split_ifs at hv
  · obtain ⟨m, hm, hget⟩ := Option.bind_eq_some_iff.mp hv
    exact numeric_get (numeric_get h hm) hget
  · exact numeric_get h hv

theorem toList_formatValue {v : Option Json} (h : ∀ j ∈ v, j.numeric) :
    (formatValue v).toList = code.escape (fieldText v).toList := by
  cases v with
  | none => rfl
  | some j =>
    replace h := h j rfl
    cases j with
    | null => rfl
    | str s => exact toList_escapeToon s
    | int n => exact (escape_eq_self fun c hc => letter_eq_none (number_not_special (isNumberChar_toString n c hc))).symm
    | float r => exact (escape_eq_self fun c hc => letter_eq_none (number_not_special (List.all_eq_true.mp h c hc))).symm
    | bool b => cases b <;> decide
    | arr xs => exact toList_escapeToon _
    | obj fs =>
      rw [formatValue, fieldText]
      split_ifs
      · rfl
      · exact toList_escapeToon _

theorem toList_row (cells : List String) : (row cells).toList = List.intercalate ['|'] (cells.map String.toList) :=
  String.toList_intercalate

theorem cells_row {values : List (Option Json)} (hne : values ≠ []) (h : ∀ v ∈ values, ∀ j ∈ v, j.numeric) :
    code.cells '|' (row (values.map formatValue)).toList = values.map fun v => code.escape (fieldText v).toList := by
  have htexts : (values.map formatValue).map String.toList = (values.map fun v => (fieldText v).toList).map code.escape := by
    rw [List.map_map, List.map_map]
    exact List.map_congr_left fun v hv => toList_formatValue (h v hv)
  rw [toList_row, htexts, cells_intercalate rfl (by decide), List.map_map]
  · rfl
  · rwa [Ne, List.map_eq_nil_iff]

theorem newline_not_mem_row {values : List (Option Json)} (h : ∀ v ∈ values, ∀ j ∈ v, j.numeric) :
    '\n' ∉ (row (values.map formatValue)).toList := by
  rw [toList_row]
  refine not_mem_intercalate (by decide) fun cell hcell => ?_
  rw [List.map_map, List.mem_map] at hcell
  obtain ⟨v, hv, rfl⟩ := hcell
  rw [Function.comp_apply, toList_formatValue (h v hv)]
  refine not_mem_escape rfl (by decide) fun y hy => ?_
  have hletters : ∀ l ∈ letters, l.2 ≠ '\n' := by decide
  obtain ⟨l, hl, heq⟩ := Option.map_eq_some_iff.mp hy
  exact hletters l (List.mem_of_find?_eq_some hl) heq

theorem toList_header (compact : Bool) : (header compact).toList =
    "memories[".toList ++ List.intercalate ['|'] ((fields compact).map String.toList) ++ "]:".toList := by
  rw [header, String.toList_append, String.toList_append, toList_row]

theorem length_cells_header (compact : Bool) : (code.cells '|' (header compact).toList).length ≠ 3 := by
  rw [toList_header]
  cases compact <;> decide +kernel

theorem newline_not_mem_header : '\n' ∉ (header compact).toList := by
  rw [toList_header]
  cases compact <;> decide +kernel

/-- What the handlers put into a response: floats are numbers, and the mode is one line. -/
structure Shaped (response : Json) : Prop where
  numeric : response.numeric
  mode : ∀ mode, (response.get "mode").bind Json.asStr = some mode → '\n' ∉ mode.toList

def counterNames : List String := ["count:", "mode:", "tokens_used:", "budget_tokens:"]

theorem mem_counters (h : Shaped response) : ∀ c ∈ counters response,
    ∃ name ∈ counterNames, ∃ text, c = name ++ text ∧ '\n' ∉ text.toList := by
  have hvalue : ∀ k name c, c ∈ ((response.get k).map fun v => name ++ v.toText).toList →
      ∃ text, c = name ++ text ∧ '\n' ∉ text.toList := by
    intro k name c hc
    rw [Option.mem_toList] at hc
    obtain ⟨v, hv, rfl⟩ := Option.map_eq_some_iff.mp hc
    refine ⟨v.toText, rfl, ?_⟩
    rw [Json.toText, String.toList_ofList]
    exact newline_not_mem_render v (numeric_get h.numeric hv)
  intro c hc
  unfold counters at hc
  rw [List.mem_append, List.mem_append, List.mem_append] at hc
  rcases hc with ((hc | hc) | hc) | hc
  · exact ⟨"count:", by decide, hvalue _ _ c hc⟩
  · rw [Option.mem_toList] at hc
    obtain ⟨mode, hmode, rfl⟩ := Option.map_eq_some_iff.mp hc
    exact ⟨"mode:", by decide, mode, rfl, h.mode mode hmode⟩
  · exact ⟨"tokens_used:", by decide, hvalue _ _ c hc⟩
  · exact ⟨"budget_tokens:", by decide, hvalue _ _ c hc⟩

theorem newline_not_mem_counter (h : Shaped response) : ∀ c ∈ counters response, '\n' ∉ c.toList := by
  intro c hc
  obtain ⟨name, hname, text, rfl, htext⟩ := mem_counters h c hc
  have hnames : ∀ name ∈ counterNames, '\n' ∉ name.toList := by decide
  rw [String.toList_append, List.mem_append, not_or]
  exact ⟨hnames name hname, htext⟩

theorem counters_ne_header (h : Shaped response) (hne : counters response ≠ []) :
    row (counters response) ≠ header compact := by
  obtain ⟨c, cs, hcs⟩ := List.exists_cons_of_ne_nil hne
  obtain ⟨name, hname, text, hc, -⟩ := mem_counters h c (hcs ▸ List.mem_cons_self)
  have hnames : ∀ name ∈ counterNames, name.toList.take 2 ≠ ['m', 'e'] ∧ 2 ≤ name.toList.length := by decide
  have hheader : (header compact).toList.take 2 = ['m', 'e'] := by
    rw [toList_header]
    rfl
  intro heq
  rw [← heq, hcs, toList_row, List.map_cons, hc, String.toList_append] at hheader
  refine (hnames name hname).1 ?_
  rw [← hheader]
  cases cs with
  | nil => simp [List.take_append_of_le_length (hnames name hname).2]
  | cons c' cs =>
    simp only [List.map_cons, List.intercalate, List.intersperse, List.flatten_cons, List.append_assoc]
    exact (List.take_append_of_le_length (hnames name hname).2).symm

/-- No line before the header is the header, and none has a line break. -/
theorem preamble_ok (compact : Bool) (h : Shaped response) : ∀ line ∈ preamble response, line ≠ header compact ∧ '\n' ∉ line.toList := by
  intro line hline
  rw [preamble, List.mem_append] at hline
  rcases hline with hline | hline
  · split_ifs at hline with hne
    · cases hline
    · rw [List.mem_singleton] at hline
      subst hline
      refine ⟨counters_ne_header h hne, ?_⟩
      rw [toList_row]
      refine not_mem_intercalate (by decide) fun cell hcell => ?_
      obtain ⟨c, hc, rfl⟩ := List.mem_map.mp hcell
      exact newline_not_mem_counter h c hc
  · split_ifs at hline
    · cases hline
    · rcases List.mem_cons.mp hline with rfl | hline
      · cases compact <;> decide +kernel
      · obtain ⟨standard, hstandard, rfl⟩ := List.mem_map.mp hline
        have hnumeric : ∀ v ∈ standardFields.map standard.get, ∀ j ∈ v, j.numeric := by
          intro v hv j hj
          obtain ⟨f, -, rfl⟩ := List.mem_map.mp hv
          exact numeric_get (numeric_standards h.numeric standard hstandard) hj
        have hrow : row (standardFields.map fun f => formatValue (standard.get f)) =
            row ((standardFields.map standard.get).map formatValue) := by rw [List.map_map]; rfl
        rw [hrow]
        refine ⟨fun heq => length_cells_header compact ?_, newline_not_mem_row hnumeric⟩
        -- a standard has three cells
        have hne : standardFields.map standard.get ≠ [] := List.cons_ne_nil _ _
        rw [← heq, cells_row hne hnumeric]
        rfl

/-- What the reader gets: a row for each memory in order, with the text of each column. -/
theorem readRows_memoriesToToon (h : Shaped response) : readRows compact (memoriesToToon response compact) =
    (items response "memories").map fun mem => (fields compact).map fun f => fieldText (column mem f) := by
  have hnumeric : ∀ mem ∈ items response "memories", ∀ v ∈ (fields compact).map (column mem), ∀ j ∈ v, j.numeric := by
    intro mem hmem v hv
    obtain ⟨f, -, rfl⟩ := List.mem_map.mp hv
    exact numeric_column (numeric_items h.numeric mem hmem)
  have hne : ∀ mem, (fields compact).map (column mem) ≠ [] := by
    intro mem
    cases compact <;> exact List.cons_ne_nil _ _
  let lines := preamble response ++ header compact ::
    (items response "memories").map fun mem => row (((fields compact).map (column mem)).map formatValue)
  have hout : (memoriesToToon response compact).toList =
      (lines.map String.toList).flatMap fun line => line ++ ['\n'] := by
    have hlines : memoriesToToon response compact = String.join (lines.map fun line => line ++ "\n") := by
      simp only [memoriesToToon, lines, List.map_map]
      rfl
    rw [hlines, String.toList_join, List.flatMap_map, List.flatMap_map]
    simp only [String.toList_append]
    rfl
  have hno : ∀ line ∈ lines.map String.toList, '\n' ∉ line := by
    intro l hl
    obtain ⟨line, hline, rfl⟩ := List.mem_map.mp hl
    rcases List.mem_append.mp hline with hline | hline
    · exact (preamble_ok compact h line hline).2
    · rcases List.mem_cons.mp hline with rfl | hline
      · exact newline_not_mem_header
      · obtain ⟨mem, hmem, rfl⟩ := List.mem_map.mp hline
        exact newline_not_mem_row (hnumeric mem hmem)
  have hskip : ∀ line ∈ (preamble response).map String.toList,
      decide (line ≠ (header compact).toList) = true := by
    intro l hl
    obtain ⟨line, hline, rfl⟩ := List.mem_map.mp hl
    exact decide_eq_true fun heq => (preamble_ok compact h line hline).1 (String.toList_inj.mp heq)
  have hrows : dataRows compact (memoriesToToon response compact) = (items response "memories").map fun mem =>
      (row (((fields compact).map (column mem)).map formatValue)).toList := by
    unfold dataRows
    rw [hout, splitOn_lines hno]
    simp only [lines, List.map_append, List.map_cons, List.append_assoc, List.cons_append]
    rw [List.dropWhile_append_of_pos hskip, List.dropWhile_cons_of_neg (by simp)]
    simp
  unfold readRows
  rw [hrows, List.map_map]
  refine List.map_congr_left fun mem hmem => ?_
  rw [Function.comp_apply, cells_row (hne mem) (hnumeric mem hmem), List.map_map, List.map_map]
  refine List.map_congr_left fun f _ => ?_
  rw [Function.comp_apply, Function.comp_apply, unescape_escape, String.ofList_toList]

end Rows

def recalled : Json :=
  .obj [("count", .int 1), ("memories", .arr [.obj [("metadata", .obj []), ("priority", .int 5),
    ("tags", .arr [.str "a|b", .str "c"]), ("title", .str "x:\n")]]), ("mode", .str "keyword")]

theorem shaped_recalled : Shaped recalled where
  numeric := by decide
  mode := by
    intro mode hmode
    obtain rfl : "keyword" = mode := Option.some_inj.mp hmode
    decide

theorem readRows_recalled : readRows true (memoriesToToon recalled true) =
    [["", "x:\n", "", "", "5", "", "a|b,c", ""]] := by
  rw [readRows_memoriesToToon shaped_recalled]
  decide

def plainText : Json → Option String
  | .str s => some s
  | .int n => some (toString n)
  | .float r => some r
  | .obj fs => some (Json.obj fs).toText
  | .arr xs => some (joined xs)
  | _ => none

/-- An empty object has the text of two braces, but its cell is empty. -/
theorem empty_object_unread : ¬∀ (response : Json) (compact : Bool), Shaped response →
    List.Forall₂ (fun cells mem => List.Forall₂ (fun cell f => ∀ v ∈ column mem f, ∀ text ∈ plainText v, cell = text)
      cells (fields compact)) (readRows compact (memoriesToToon response compact)) (items response "memories") := by
  intro h
  have hread : readRows false (memoriesToToon recalled false) =
      [["", "x:\n", "", "", "5", "", "", "", "a|b,c", "", "", "", ""]] := by decide +kernel
  have hrows := h recalled false shaped_recalled
  rw [hread] at hrows
  obtain ⟨hcells, -⟩ := List.forall₂_cons.mp hrows
  have hlast := (List.forall₂_iff_get.mp hcells).2 12 (by decide) (by decide)
  have htext := hlast (.obj []) rfl "\x7b\x7d" (by decide)
  revert htext
  decide

end Toon

end AiMemory
