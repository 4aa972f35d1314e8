import AiMemory.Lib.Delimited

/-!
# Lines appended to a TOML document

A document is read line by line: what a line does depends on the tables that the lines before it opened, and on how they
were written (`Doc`). Of the language there are the lines that a program may append without knowing the document: blank
lines, comments, headers of an array of tables, and keys with a basic string. `Continues` is what a parser of the whole
language does with such lines after a text that it parses. The language of these lines alone has a parser (`parseLines`),
and it continues (`continues_parseLines`).
-/

namespace Toml

/-- A character that a comment or a basic string may hold as it is: the tab, and what is no control character. -/
def Legal (c : Char) : Prop := c = '\t' ∨ 32 ≤ c.toNat ∧ c.toNat ≠ 127

instance : DecidablePred Legal := fun _ => inferInstanceAs (Decidable (_ ∨ _ ∧ _))

/-- A character of a bare key. -/
def IsBare (c : Char) : Prop := c.isAlphanum ∨ c = '_' ∨ c = '-'

instance : DecidablePred IsBare := fun _ => inferInstanceAs (Decidable (_ ∨ _ ∨ _))

/-! ## Tables -/

/-- A value, and how it was written. A table may be closed (`inline`) or open for more headers (`table`), and so may an
array (`array`, `tables`). -/
inductive Value where
  | str (s : String)
  | scalar (text : String)
  | array (vs : List Value)
  | inline (t : List (String × Value))
  | table (t : List (String × Value))
  | tables (ts : List (List (String × Value)))

abbrev Table := List (String × Value)

def lookup (key : String) : Table → Option Value
  | [] => none
  | (k, v) :: t => if k = key then some v else lookup key t

def put (key : String) (v : Value) : Table → Table
  | [] => [(key, v)]
  | (k, w) :: t => if k = key then (key, v) :: t else (k, w) :: put key v t

def Value.fields : Value → Option Table
  | .inline t => some t
  | .table t => some t
  | _ => none

def Value.items : Value → Option (List Value)
  | .array vs => some vs
  | .tables ts => some (ts.map .table)
  | _ => none

@[simp] theorem lookup_put (key : String) (v : Value) (t : Table) : lookup key (put key v t) = some v := by
  induction t with
  | nil => simp [put, lookup]
  | cons p t ih =>
    by_cases h : p.1 = key
    · simp [put, lookup, h]
    · simp [put, lookup, h, ih]

theorem lookup_put_of_ne {key k : String} (hne : k ≠ key) (v : Value) (t : Table) : lookup k (put key v t) = lookup k t := by
  induction t with
  | nil => simp [put, lookup, hne.symm]
  | cons p t ih =>
    by_cases h : p.1 = key
    · subst h
      simp [put, lookup, hne.symm]
    · simp [put, lookup, h, ih]

/-! ## What a line does -/

/-- A document: its tables, and which one is open. -/
structure Doc where
  root : Table
  path : List String

/-- Change the table at the end of a path. A table that is missing is made; of an array of tables the last one is
meant; nothing goes through a closed value. -/
def modifyAt (f : Table → Option Table) : List String → Table → Option Table
  | [], t => f t
  | k :: ks, t =>
    match lookup k t with
    | none => (modifyAt f ks []).map fun u => put k (.table u) t
    | some (.table u) => (modifyAt f ks u).map fun u => put k (.table u) t
    | some (.tables ts) => ts.getLast?.bind fun u =>
        (modifyAt f ks u).map fun u => put k (.tables (ts.dropLast ++ [u])) t
    | some _ => none

def addTables (key : String) (us : List Table) (t : Table) : Option Table :=
  match lookup key t with
  | none => some (put key (.tables us) t)
  | some (.tables ts) => some (put key (.tables (ts ++ us)) t)
  | some _ => none

/-- A header `[[key]]`: one more table in an array of tables. -/
def addElement (key : String) : Table → Option Table := addTables key [[]]

/-- A line `key = value`: no key is given twice. -/
def addKey (key : String) (v : Value) (t : Table) : Option Table :=
  match lookup key t with
  | none => some (put key v t)
  | some _ => none

/-- A bare key. -/
structure Key where
  name : String
  bare : name.toList ≠ [] ∧ ∀ c ∈ name.toList, IsBare c

/-- The text of a comment. -/
structure Comment where
  chars : List Char
  legal : ∀ c ∈ chars, Legal c

/-- The escapes of a basic string that are one letter long. -/
inductive Escape where
  | backspace
  | tab
  | newline
  | formFeed
  | carriageReturn
  | quote
  | backslash

def Escape.letter : Escape → Char
  | backspace => 'b'
  | tab => 't'
  | newline => 'n'
  | formFeed => 'f'
  | carriageReturn => 'r'
  | quote => '"'
  | backslash => '\\'

def Escape.char : Escape → Char
  | backspace => Char.ofNat 8
  | tab => '\t'
  | newline => '\n'
  | formFeed => Char.ofNat 12
  | carriageReturn => '\r'
  | quote => '"'
  | backslash => '\\'

def Escape.ofLetter (c : Char) : Option Escape :=
  [Escape.backspace, tab, newline, formFeed, carriageReturn, quote, backslash].find? fun e => e.letter = c

/-- A piece of a basic string: a character as it is, or an escape. -/
inductive Piece where
  | plain (c : Char) (h : c ≠ '"' ∧ c ≠ '\\' ∧ c ≠ '\n')
  | escape (e : Escape)

def Piece.char : Piece → Char
  | plain c _ => c
  | escape e => e.char

def Piece.Legal : Piece → Prop
  | plain c _ => Toml.Legal c
  | escape _ => True

instance : DecidablePred Piece.Legal
  | .plain c _ => inferInstanceAs (Decidable (Toml.Legal c))
  | .escape _ => instDecidableTrue

def textOf (value : List Piece) : String := String.ofList (value.map Piece.char)

/-- The lines that may be appended. -/
inductive Line where
  | blank
  | comment (text : Comment)
  | element (path : List Key) (key : Key)
  | keyVal (key : Key) (value : List Piece)

/-- What a line does to a document; `none` is a syntax error or a key that is already there. -/
def Doc.read (doc : Doc) : Line → Option Doc
  | .blank => some doc
  | .comment _ => some doc
  | .element path key =>
    (modifyAt (addElement key.name) (path.map Key.name) doc.root).map fun root =>
      { root := root
        path := path.map Key.name ++ [key.name] }
  | .keyVal key value =>
    if ∀ p ∈ value, p.Legal then
      (modifyAt (addKey key.name (.str (textOf value))) doc.path doc.root).map fun root => { doc with root }
    else none

def Doc.readAll (doc : Doc) (lines : List Line) : Option Doc := lines.foldlM Doc.read doc

/-! ## How a line is written -/

def Piece.write : Piece → List Char
  | plain c _ => [c]
  | escape e => ['\\', e.letter]

/-- `key = "value"`. -/
def writeKeyVal (key : List Char) (value : List Char) : List Char := key ++ (' ' :: '=' :: ' ' :: '"' :: value)

def Line.write : Line → List Char
  | blank => []
  | comment text => '#' :: text.chars
  | element path key =>
    '[' :: '[' :: (List.intercalate ['.'] ((path ++ [key]).map fun k => k.name.toList) ++ [']', ']'])
  | keyVal key value => writeKeyVal key.name.toList (value.flatMap Piece.write ++ ['"'])

def writeAll (lines : List Line) : List Char := lines.flatMap fun line => line.write ++ ['\n']

/-- A parser goes on: a text that it parses, a line break and lines after it are read as the text and then the lines. -/
def Continues (parse : List Char → Option Doc) : Prop :=
  ∀ text doc lines, parse text = some doc → parse (text ++ '\n' :: writeAll lines) = doc.readAll lines

section Reading

variable {doc : Doc} {line : Line} {lines lines' : List Line} {t : Table} {key : String} {u : Table} {us us' : List Table}

theorem readAll_cons : doc.readAll (line :: lines) = (doc.read line).bind fun d => d.readAll lines := rfl

theorem readAll_append : doc.readAll (lines ++ lines') = (doc.readAll lines).bind fun d => d.readAll lines' :=
  List.foldlM_append

theorem writeAll_append : writeAll (lines ++ lines') = writeAll lines ++ writeAll lines' :=
  List.flatMap_append

theorem put_put (v w : Value) (t : Table) : put key v (put key w t) = put key v t := by
  induction t with
  | nil => simp [put]
  | cons p t ih =>
    by_cases h : p.1 = key
    · simp [put, h]
    · simp [put, h, ih]

theorem put_of_lookup_none {v : Value} (h : lookup key t = none) : put key v t = t ++ [(key, v)] := by
  induction t with
  | nil => rfl
  | cons p t ih =>
    by_cases hk : p.1 = key
    · simp [lookup, hk] at h
    · rw [lookup, if_neg hk] at h
      simp [put, hk, ih h]

theorem lookup_eq_none (h : key ∉ t.map Prod.fst) : lookup key t = none := by
  induction t with
  | nil => rfl
  | cons p t ih =>
    rw [List.map_cons, List.mem_cons, not_or] at h
    rw [lookup, if_neg fun e => h.1 e.symm, ih h.2]

section Steps

variable {f g : Table → Option Table} {k : String} {ks : List String} {ts : List Table}

theorem modifyAt_none (h : lookup k t = none) : modifyAt f (k :: ks) t = (modifyAt f ks []).map fun u => put k (.table u) t := by
  simp only [modifyAt, h]

theorem modifyAt_table (h : lookup k t = some (.table u)) :
    modifyAt f (k :: ks) t = (modifyAt f ks u).map fun u => put k (.table u) t := by
  simp only [modifyAt, h]

theorem modifyAt_tables (h : lookup k t = some (.tables ts)) (hlast : ts.getLast? = some u) :
    modifyAt f (k :: ks) t = (modifyAt f ks u).map fun u => put k (.tables (ts.dropLast ++ [u])) t := by
  simp only [modifyAt, h, hlast, Option.bind_some]

/-- Two changes at one place are one change. -/
theorem modifyAt_bind (g f : Table → Option Table) (path : List String) (t : Table) :
    (modifyAt g path t).bind (modifyAt f path) = modifyAt (fun u => (g u).bind f) path t := by
  induction path generalizing t with
  | nil => rfl
  | cons k ks ih =>
    cases hk : lookup k t with
    | none =>
      rw [modifyAt_none hk, modifyAt_none hk, ← ih]
      cases modifyAt g ks [] with
      | none => rfl
      | some u =>
        rw [Option.map_some, Option.bind_some, Option.bind_some, modifyAt_table (lookup_put k _ t)]
        simp only [put_put]
    | some v =>
      cases v with
      | table u =>
        rw [modifyAt_table hk, modifyAt_table hk, ← ih]
        cases modifyAt g ks u with
        | none => rfl
        | some u' =>
          rw [Option.map_some, Option.bind_some, Option.bind_some, modifyAt_table (lookup_put k _ t)]
          simp only [put_put]
      | tables ts =>
        cases hlast : ts.getLast? with
        | none => simp [modifyAt, hk, hlast]
        | some u =>
          rw [modifyAt_tables hk hlast, modifyAt_tables hk hlast, ← ih]
          cases modifyAt g ks u with
          | none => rfl
          | some u' =>
            rw [Option.map_some, Option.bind_some, Option.bind_some,
              modifyAt_tables (lookup_put k _ t) List.getLast?_concat, List.dropLast_concat]
            simp only [put_put]
      | _ => simp [modifyAt, hk]

end Steps

theorem modifyAt_append (f : Table → Option Table) (path path' : List String) (t : Table) :
    modifyAt f (path ++ path') t = modifyAt (modifyAt f path') path t := by
  induction path generalizing t with
  | nil => rfl
  | cons k ks ih => simp only [List.cons_append, modifyAt, ih]

theorem addTables_modifyAt {f : Table → Option Table} (t : Table) :
    (addTables key [u] t).bind (modifyAt f [key]) = (f u).bind fun u' => addTables key [u'] t := by
  unfold addTables
  cases lookup key t with
  | none => cases hu : f u <;> simp [modifyAt, put_put, hu]
  | some v =>
    cases v with
    | tables ts => cases hu : f u <;> simp [modifyAt, put_put, hu]
    | _ => cases f u <;> rfl

theorem addTables_addTables (t : Table) : (addTables key us t).bind (addTables key us') = addTables key (us ++ us') t := by
  unfold addTables
  cases lookup key t with
  | none => simp [put_put]
  | some v =>
    cases v with
    | tables ts => simp [put_put]
    | _ => rfl

theorem readAll_eq_none (hline : line ∈ lines) (hnone : ∀ d : Doc, d.read line = none) (doc : Doc) :
    doc.readAll lines = none := by
  obtain ⟨before, after, rfl⟩ := List.append_of_mem hline
  rw [readAll_append]
  cases doc.readAll before with
  | none => rfl
  | some d => rw [Option.bind_some, readAll_cons, hnone d, Option.bind_none]

end Reading

/-! ## Elements of an array of tables -/

def fieldLines (fields : List (Key × List Piece)) : List Line := fields.map fun f => .keyVal f.1 f.2

def tableOf (fields : List (Key × List Piece)) : Table := fields.map fun f => (f.1.name, .str (textOf f.2))

def elementLines (path : List Key) (key : Key) (fields : List (Key × List Piece)) : List Line :=
  .blank :: .element path key :: fieldLines fields

section Elements

variable {doc : Doc} {root : Table} {path : List Key} {key : Key} {field : Key × List Piece}
  {fields : List (Key × List Piece)} {elements : List (List (Key × List Piece))} {u : Table}

theorem read_keyVal (h : ∀ p ∈ field.2, p.Legal) : doc.read (.keyVal field.1 field.2) =
    (modifyAt (addKey field.1.name (.str (textOf field.2))) doc.path doc.root).map fun root => { doc with root } :=
  if_pos h

/-- The lines under a header go to the table that the header added. -/
theorem readAll_fieldLines (hlegal : ∀ f ∈ fields, ∀ p ∈ f.2, p.Legal)
    (hnodup : (u.map Prod.fst ++ fields.map fun f => f.1.name).Nodup) :
    ((modifyAt (addTables key.name [u]) (path.map Key.name) root).bind fun r =>
        Doc.readAll ⟨r, path.map Key.name ++ [key.name]⟩ (fieldLines fields)) =
      (modifyAt (addTables key.name [u ++ tableOf fields]) (path.map Key.name) root).map fun r =>
        ⟨r, path.map Key.name ++ [key.name]⟩ := by
  induction fields generalizing u with
  | nil =>
    rw [show u ++ tableOf [] = u from List.append_nil u]
    exact (Option.map_eq_bind ..).symm
  | cons f fields ih =>
    set place := path.map Key.name
    have hnew : f.1.name ∉ u.map Prod.fst := fun hmem =>
      (List.nodup_append.mp hnodup).2.2 _ hmem _ List.mem_cons_self rfl
    have hadd : addKey f.1.name (.str (textOf f.2)) u = some (u ++ [(f.1.name, .str (textOf f.2))]) := by
      rw [addKey, lookup_eq_none hnew, put_of_lookup_none (lookup_eq_none hnew)]
    have hstep : (modifyAt (addTables key.name [u]) place root).bind
        (modifyAt (addKey f.1.name (.str (textOf f.2))) (place ++ [key.name])) =
        modifyAt (addTables key.name [u ++ [(f.1.name, .str (textOf f.2))]]) place root := by
      have happend : modifyAt (addKey f.1.name (.str (textOf f.2))) (place ++ [key.name]) =
          modifyAt (modifyAt (addKey f.1.name (.str (textOf f.2))) [key.name]) place := by
        funext t
        exact modifyAt_append _ _ _ t
      rw [happend, modifyAt_bind]
      congr 1
      funext t
      rw [addTables_modifyAt, hadd, Option.bind_some]
    have hrest := ih (fun g hg => hlegal g (List.mem_cons_of_mem f hg)) (u := u ++ [(f.1.name, .str (textOf f.2))])
      (by simpa using hnodup)
    rw [← hstep, Option.bind_assoc] at hrest
    have hsplit : u ++ tableOf (f :: fields) = u ++ [(f.1.name, .str (textOf f.2))] ++ tableOf fields := by
      simp [tableOf]
    rw [hsplit, ← hrest]
    congr 1
    funext r
    rw [show fieldLines (f :: fields) = .keyVal f.1 f.2 :: fieldLines fields from rfl, readAll_cons,
      read_keyVal (hlegal f List.mem_cons_self), Option.bind_map]
    rfl

/-- Elements that are appended come last in their array of tables. -/
theorem readAll_elements (hlegal : ∀ fields ∈ elements, ∀ f ∈ fields, ∀ p ∈ f.2, p.Legal)
    (hnodup : ∀ fields ∈ elements, (fields.map fun f => f.1.name).Nodup) (hne : elements ≠ []) (doc : Doc) :
    doc.readAll (elements.flatMap (elementLines path key)) =
      (modifyAt (addTables key.name (elements.map tableOf)) (path.map Key.name) doc.root).map fun r =>
        ⟨r, path.map Key.name ++ [key.name]⟩ := by
  induction elements generalizing doc with
  | nil => exact absurd rfl hne
  | cons fields elements ih =>
    have hfirst : doc.readAll (elementLines path key fields) =
        (modifyAt (addTables key.name [tableOf fields]) (path.map Key.name) doc.root).map fun r =>
          ⟨r, path.map Key.name ++ [key.name]⟩ := by
      have h : ((modifyAt (addTables key.name [[]]) (path.map Key.name) doc.root).bind fun r =>
            Doc.readAll ⟨r, path.map Key.name ++ [key.name]⟩ (fieldLines fields)) =
          (modifyAt (addTables key.name [tableOf fields]) (path.map Key.name) doc.root).map fun r =>
            ⟨r, path.map Key.name ++ [key.name]⟩ :=
        readAll_fieldLines (u := []) (hlegal fields List.mem_cons_self) (hnodup fields List.mem_cons_self)
      rw [← h, elementLines, readAll_cons, Doc.read, Option.bind_some, readAll_cons, Doc.read, Option.bind_map]
      rfl
    rw [List.flatMap_cons, readAll_append, hfirst]
    cases elements with
    | nil =>
      exact Option.bind_fun_some _
    | cons next elements =>
      have hrest := ih (fun g hg => hlegal g (List.mem_cons_of_mem fields hg))
        (fun g hg => hnodup g (List.mem_cons_of_mem fields hg)) (List.cons_ne_nil next elements)
      have hjoin : (fun t => (addTables key.name [tableOf fields] t).bind
            (addTables key.name ((next :: elements).map tableOf))) =
          addTables key.name ((fields :: next :: elements).map tableOf) := by
        funext t
        exact addTables_addTables t
      rw [← hjoin, ← modifyAt_bind, Option.bind_map]
      cases modifyAt (addTables key.name [tableOf fields]) (path.map Key.name) doc.root with
      | none => rfl
      | some r => exact hrest _

theorem readAll_elements_eq_none {p : Piece} (he : fields ∈ elements) (hf : field ∈ fields) (hp : p ∈ field.2)
    (hillegal : ¬p.Legal) (doc : Doc) : doc.readAll (elements.flatMap (elementLines path key)) = none := by
  have hmem : Line.keyVal field.1 field.2 ∈ elementLines path key fields :=
    List.mem_cons_of_mem _ (List.mem_cons_of_mem _ (List.mem_map.mpr ⟨field, hf, rfl⟩))
  exact readAll_eq_none (List.mem_flatMap.mpr ⟨fields, he, hmem⟩) (fun d => if_neg fun h => hillegal (h p hp)) doc

end Elements

/-! ## A parser of these lines -/

def readPieces : List Char → Option (List Piece)
  | [] => none
  | c :: cs =>
    if c = '"' then if cs = [] then some [] else none
    else if c = '\\' then
      match cs with
      | [] => none
      | l :: cs => (Escape.ofLetter l).bind fun e => (readPieces cs).map fun ps => .escape e :: ps
    else if h : c ≠ '"' ∧ c ≠ '\\' ∧ c ≠ '\n' then (readPieces cs).map fun ps => .plain c h :: ps
    else none

def readKey (cs : List Char) : Option Key :=
  if h : (String.ofList cs).toList ≠ [] ∧ ∀ c ∈ (String.ofList cs).toList, IsBare c then
    some
      { name := String.ofList cs
        bare := h }
  else none

/-- What stands after `[[`. -/
def readElement (cs : List Char) : Option Line :=
  match cs.reverse with
  | ']' :: ']' :: body => ((body.reverse.splitOn '.').mapM readKey).bind fun keys =>
      keys.getLast?.map fun key => .element keys.dropLast key
  | _ => none

def readKeyVal (cs : List Char) : Option Line :=
  match cs.dropWhile fun c => IsBare c with
  | ' ' :: '=' :: ' ' :: '"' :: value => (readKey (cs.takeWhile fun c => IsBare c)).bind fun key =>
      (readPieces value).map fun ps => .keyVal key ps
  | _ => none

def readLine : List Char → Option Line
  | [] => some .blank
  | '#' :: cs =>
    if h : ∀ c ∈ cs, Legal c then
      some (.comment
        { chars := cs
          legal := h })
    else none
  | '[' :: '[' :: cs => readElement cs
  | c :: cs => readKeyVal (c :: cs)

def parseLines (text : List Char) : Option Doc :=
  ((text.splitOn '\n').mapM readLine).bind fun lines => Doc.readAll ⟨[], []⟩ lines

theorem ofLetter_letter (e : Escape) : Escape.ofLetter e.letter = some e := by
  cases e <;> rfl

theorem readPieces_write (value : List Piece) : readPieces (value.flatMap Piece.write ++ ['"']) = some value := by
  induction value with
  | nil => rfl
  | cons p value ih =>
    rw [List.flatMap_cons, List.append_assoc]
    cases p with
    | plain c h =>
      rw [Piece.write, List.singleton_append, readPieces.eq_def]
      simp [h, ih]
    | escape e => simp [Piece.write, readPieces, ofLetter_letter, ih]

theorem readKey_name (key : Key) : readKey key.name.toList = some key := by
  have h : String.ofList key.name.toList = key.name := String.ofList_toList
  simp only [readKey, h]
  exact dif_pos key.bare

theorem mapM_readKey (keys : List Key) : (keys.map fun k => k.name.toList).mapM readKey = some keys := by
  induction keys with
  | nil => rfl
  | cons key keys ih =>
    rw [List.map_cons, List.mapM_cons, readKey_name, ih]
    rfl

theorem dot_not_mem (key : Key) : '.' ∉ key.name.toList := by
  intro h
  exact absurd (key.bare.2 '.' h) (by decide)

theorem readElement_write (path : List Key) (key : Key) :
    readElement (List.intercalate ['.'] ((path ++ [key]).map fun k => k.name.toList) ++ [']', ']']) =
      some (.element path key) := by
  have hcut : (List.intercalate ['.'] ((path ++ [key]).map fun k => k.name.toList)).splitOn '.' =
      (path ++ [key]).map fun k => k.name.toList := by
    refine List.splitOn_intercalate '.' ?_ (by simp)
    intro l hl
    obtain ⟨k, -, rfl⟩ := List.mem_map.mp hl
    exact dot_not_mem k
  rw [readElement, List.reverse_append]
  simp only [List.reverse_cons, List.reverse_nil, List.nil_append, List.cons_append,
    List.reverse_reverse, hcut, mapM_readKey, Option.bind_some, List.getLast?_concat, Option.map_some,
    List.dropLast_concat]

theorem readKeyVal_write (key : Key) (value : List Piece) :
    readKeyVal (writeKeyVal key.name.toList (value.flatMap Piece.write ++ ['"'])) = some (.keyVal key value) := by
  have hbare : ∀ c ∈ key.name.toList, decide (IsBare c) = true := fun c hc => decide_eq_true (key.bare.2 c hc)
  have hspace : ¬IsBare ' ' := by decide
  rw [readKeyVal, writeKeyVal, List.takeWhile_append_of_pos hbare, List.dropWhile_append_of_pos hbare]
  simp [hspace, readKey_name, readPieces_write]

theorem readLine_write (line : Line) : readLine line.write = some line := by
  cases line with
  | blank => rfl
  | comment text => exact dif_pos text.legal
  | element path key => exact readElement_write path key
  | keyVal key value =>
    obtain ⟨hne, hbare⟩ := key.bare
    obtain ⟨c, cs, hcs⟩ := List.exists_cons_of_ne_nil hne
    have hc : IsBare c := hbare c (hcs ▸ List.mem_cons_self)
    have hhash : c ≠ '#' := fun e => absurd (e ▸ hc) (by decide)
    have hbracket : c ≠ '[' := fun e => absurd (e ▸ hc) (by decide)
    rw [Line.write, ← readKeyVal_write, writeKeyVal, hcs, List.cons_append]
    simp [readLine, hbracket]

theorem newline_not_mem_name (key : Key) : '\n' ∉ key.name.toList := by
  intro h
  exact absurd (key.bare.2 '\n' h) (by decide)

theorem newline_not_mem (line : Line) : '\n' ∉ line.write := by
  cases line with
  | blank => exact List.not_mem_nil
  | comment text =>
    intro h
    rcases List.mem_cons.mp h with h | h
    · exact absurd h (by decide)
    · exact absurd (text.legal _ h) (by decide)
  | element path key =>
    have hkeys : ∀ l ∈ (path ++ [key]).map fun k => k.name.toList, '\n' ∉ l := by
      intro l hl
      obtain ⟨k, -, rfl⟩ := List.mem_map.mp hl
      exact newline_not_mem_name k
    have hjoin : '\n' ∉ List.intercalate ['.'] ((path ++ [key]).map fun k => k.name.toList) :=
      Delimited.not_mem_intercalate (by decide) hkeys
    simp only [Line.write, List.mem_cons, List.mem_append, not_or]
    exact ⟨by decide, by decide, hjoin, by decide, by decide, List.not_mem_nil⟩
  | keyVal key value =>
    have hpieces : '\n' ∉ value.flatMap Piece.write := by
      intro h
      obtain ⟨p, -, hp⟩ := List.mem_flatMap.mp h
      cases p with
      | plain c hc => exact hc.2.2 (List.mem_singleton.mp hp).symm
      | escape e => cases e <;> exact absurd hp (by decide)
    simp only [Line.write, writeKeyVal, List.mem_append, List.mem_cons, not_or]
    exact ⟨newline_not_mem_name key, by decide, by decide, by decide, by decide, hpieces, by decide, List.not_mem_nil⟩

theorem mapM_readLine (lines : List Line) : (lines.map Line.write).mapM readLine = some lines := by
  induction lines with
  | nil => rfl
  | cons line lines ih =>
    rw [List.map_cons, List.mapM_cons, readLine_write, ih]
    rfl

theorem continues_parseLines : Continues parseLines := by
  intro text doc lines h
  obtain ⟨before, hbefore, hdoc⟩ := Option.bind_eq_some_iff.mp h
  have hlines : (writeAll lines).splitOn '\n' = (lines ++ [Line.blank]).map Line.write := by
    have hfree : ∀ l ∈ lines.map Line.write, '\n' ∉ l := by
      intro l hl
      obtain ⟨line, -, rfl⟩ := List.mem_map.mp hl
      exact newline_not_mem line
    have hcut := Delimited.splitOn_lines hfree
    rw [List.flatMap_map] at hcut
    rw [writeAll, hcut, List.map_append]
    rfl
  rw [parseLines, List.splitOn_append_cons_self, hlines, List.mapM_append, hbefore, mapM_readLine]
  show Doc.readAll _ (before ++ (lines ++ [.blank])) = _
  rw [readAll_append, hdoc, Option.bind_some, readAll_append]
  exact Option.bind_fun_some _

end Toml
