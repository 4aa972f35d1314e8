import AiMemory.Lib.Tail
import AiMemory.Transcripts.Store

/-!
# `ai-memory logs tail --follow`

The command prints the last lines of a log and then follows the file: it polls the size, and where the file has grown it
prints what lies behind the size of the poll before. What it reads goes on to the end of the file as it is by then. So a
line that is written between a poll and its read is printed twice, and one written between the first read and the first poll
is never printed; each other line behind that poll is printed once (`follow_spec`).
-/

namespace AiMemory.Logs

open Transcripts

/-! ## Lines -/

/-- `Filters`. The times are instants. -/
structure Filters where
  since : Option ℤ := none
  «until» : Option ℤ := none
  level : Option String := none
  «namespace» : Option String := none
  actor : Option String := none
  action : Option String := none
  formatJson : Bool := false

/-- What `chrono` and `serde_json` provide. -/
structure Crates where
  parseFromRfc3339 : String → Option ℤ
  toString : Json → String

variable (K : Crates)

def restAfter (pattern : List Char) : List Char → Option (List Char)
  | [] => if pattern = [] then some [] else none
  | c :: cs => if pattern <+: c :: cs then some ((c :: cs).drop pattern.length) else restAfter pattern cs

def before (c : Char) (s : List Char) : Option String :=
  if c ∈ s then some (String.ofList (s.takeWhile (· ≠ c))) else none

def extractTimestamp (line : String) : Option ℤ :=
  ((before ' ' line.toList).bind K.parseFromRfc3339).or
    ((restAfter "\"timestamp\":\"".toList line.toList).bind fun rest => (before '"' rest).bind K.parseFromRfc3339)

/-- `contains` of the two texts in one case. -/
def containsFolded (fold : Char → Char) (line : String) (text : String) : Bool :=
  text.toList.map fold <:+: line.toList.map fold

def lineMatches (filters : Filters) (line : String) : Bool :=
  filters.level.all (containsFolded Char.toUpper line) &&
    filters.namespace.all (containsFolded Char.toLower line) &&
    filters.actor.all (containsFolded Char.toLower line) &&
    filters.action.all (containsFolded Char.toLower line) &&
    (extractTimestamp K line).all fun ts => filters.since.all (· ≤ ts) && filters.until.all (ts ≤ ·)

def emitLine (filters : Filters) (line : String) : String :=
  if filters.formatJson then
    if (line.toList.dropWhile Validate.isWhitespace).head? = some '\x7b' then line
    else K.toString (.obj [("line", .str line)])
  else line

def lineFeed : UInt8 := 10

def carriageReturn : UInt8 := 13

/-- `BufRead::lines`, before the texts are read: a line ends with `\n` or `\r\n`, the last one also with the file. -/
def bufLines : List UInt8 → List (List UInt8)
  | [] => []
  | b :: bs =>
    if b = lineFeed then [] :: bufLines bs
    else if b = carriageReturn ∧ bs.head? = some lineFeed then bufLines bs
    else
      match bufLines bs with
      | [] => [[b]]
      | line :: lines => (b :: line) :: lines

/-- `BufRead::lines`, none where a line is not UTF-8. -/
def readLines (bytes : List UInt8) : Option (List String) := (bufLines bytes).mapM fromUtf8

/-- The loop of `read_tail_n`. -/
def keepLine (n : ℕ) (filters : Filters) (keep : List String) (line : String) : List String :=
  if lineMatches K filters line then
    if n < (keep ++ [line]).length then (keep ++ [line]).tail else keep ++ [line]
  else keep

def readTailN (file : List UInt8) (n : ℕ) (filters : Filters) : Option (List String) :=
  (readLines file).map (List.foldl (keepLine K n filters) [])

def readLinesAfterOffset (file : List UInt8) (offset : ℕ) : Option (List String) := readLines (file.drop offset)

/-! ## The command -/

/-- `TailArgs`, but for the interval. -/
structure TailArgs where
  lines : ℕ := 50
  follow : Bool := false
  maxPolls : ℕ := 0

/-- What `run_tail` does next to the file. -/
inductive Next where
  | tail
  | stat
  | poll
  | read (curSize : ℕ)
  | stopped
  | failed
  deriving DecidableEq

/-- The file, and `run_tail` on it. -/
structure Tailing where
  file : List UInt8
  stdout : List String
  lastSize : ℕ
  polls : ℕ
  next : Next

inductive Act where
  | write (bytes : List UInt8)
  | tick

variable (filters : Filters) (args : TailArgs)

def afterPoll (polls : ℕ) : Next := if 0 < args.maxPolls ∧ args.maxPolls ≤ polls then .stopped else .poll

/-- The next access of `run_tail` to the file. -/
def tick (s : Tailing) : Tailing :=
  match s.next with
  | .tail =>
    match readTailN K s.file args.lines filters with
    | none => { s with next := .failed }
    | some initial =>
      { s with
        stdout := s.stdout ++ initial.map (emitLine K filters)
        next := if args.follow then .stat else .stopped }
  | .stat =>
    { s with
      lastSize := s.file.length
      next := .poll }
  | .poll =>
    { s with
      polls := s.polls + 1
      next := if s.lastSize < s.file.length then .read s.file.length else afterPoll args (s.polls + 1) }
  | .read curSize =>
    match readLinesAfterOffset s.file s.lastSize with
    | none => { s with next := .failed }
    | some newLines =>
      { s with
        stdout := s.stdout ++ (newLines.filter (lineMatches K filters)).map (emitLine K filters)
        lastSize := curSize
        next := afterPoll args s.polls }
  | .stopped => s
  | .failed => s

def step (s : Tailing) : Act → Tailing
  | .write bytes => { s with file := s.file ++ bytes }
  | .tick => tick K filters args s

def run (s : Tailing) (acts : List Act) : Tailing := acts.foldl (step K filters args) s

/-- `run_tail` on a file. -/
def start (file : List UInt8) : Tailing where
  file := file
  stdout := []
  lastSize := 0
  polls := 0
  next := .tail

/-! ## Whole lines -/

/-- What `BufRead::lines` takes off a line. -/
def chop (bytes : List UInt8) : List UInt8 := if bytes.getLast? = some carriageReturn then bytes.dropLast else bytes

/-- A line of text, without its end. -/
structure Line where
  bytes : List UInt8
  text : String
  noFeed : lineFeed ∉ bytes
  decoded : fromUtf8 (chop bytes) = some text

def encode (ls : List Line) : List UInt8 := ls.flatMap fun l => l.bytes ++ [lineFeed]

def offset (ls : List Line) (i : ℕ) : ℕ := (encode (ls.take i)).length

def shown (ls : List Line) : List String := ((ls.map Line.text).filter (lineMatches K filters)).map (emitLine K filters)

def shownLast (n : ℕ) (ls : List Line) : List String :=
  (((ls.map Line.text).filter (lineMatches K filters)).rtake n).map (emitLine K filters)

def slice (ls : List Line) (span : ℕ × ℕ) : List Line := (ls.drop span.1).take (span.2 - span.1)

/-- What stands at a place of the file was written after a poll and before its read. -/
def Raced (s : Tailing) (acts : List Act) (place : ℕ) : Prop :=
  ∃ as₁ as₂, acts = as₁ ++ .tick :: as₂ ∧
    ∃ curSize, (run K filters args s as₁).next = .read curSize ∧ curSize ≤ place ∧
      place < (run K filters args s as₁).file.length


section Lines

variable {K : Crates} {filters : Filters} {args : TailArgs} {r rest : List UInt8} {ls ls' : List Line} {i j n : ℕ}

theorem chop_cons {b : UInt8} (h : r ≠ [] ∨ b ≠ carriageReturn) : chop (b :: r) = b :: chop r := by
  cases r with
  | nil =>
    have hb : b ≠ carriageReturn := h.resolve_left fun hn => hn rfl
    rw [chop, List.getLast?_singleton, if_neg fun hl => hb (Option.some.inj hl)]
    rfl
  | cons c r =>
    rw [chop, chop, List.getLast?_cons_cons, List.dropLast_cons_cons]
    split_ifs <;> rfl

theorem bufLines_line (h : lineFeed ∉ r) : bufLines (r ++ lineFeed :: rest) = chop r :: bufLines rest := by
  induction r with
  | nil => rw [List.nil_append, bufLines, if_pos rfl]; rfl
  | cons b r ih =>
    obtain ⟨hb, hr⟩ := not_or.mp fun hm => h (List.mem_cons.mpr (hm.imp_left fun e : b = lineFeed => e.symm))
    rw [List.cons_append, bufLines, if_neg hb]
    by_cases hcr : b = carriageReturn ∧ (r ++ lineFeed :: rest).head? = some lineFeed
    · obtain ⟨rfl, hhead⟩ := hcr
      have hnil : r = [] := by
        cases r with
        | nil => rfl
        | cons c r => exact absurd (List.mem_cons.mpr (.inl (Option.some.inj hhead).symm)) hr
      subst hnil
      rfl
    · rw [if_neg hcr, ih hr, chop_cons]
      by_contra hboth
      obtain ⟨hnil, hb⟩ := not_or.mp hboth
      have hnil : r = [] := not_not.mp hnil
      subst hnil
      exact hcr ⟨not_not.mp hb, rfl⟩

theorem encode_cons (l : Line) (ls : List Line) : encode (l :: ls) = l.bytes ++ lineFeed :: encode ls := by
  rw [encode, List.flatMap_cons, List.append_assoc, List.singleton_append]
  rfl

theorem encode_append (ls ls' : List Line) : encode (ls ++ ls') = encode ls ++ encode ls' := List.flatMap_append

theorem readLines_encode (ls : List Line) : readLines (encode ls) = some (ls.map Line.text) := by
  induction ls with
  | nil => rfl
  | cons l ls ih =>
    rw [readLines, encode_cons, bufLines_line l.noFeed, List.mapM_cons, l.decoded]
    rw [readLines] at ih
    rw [ih]
    rfl

theorem drop_encode (i : ℕ) (ls : List Line) : (encode ls).drop (offset ls i) = encode (ls.drop i) := by
  conv_lhs => rw [← List.take_append_drop i ls, encode_append]
  rw [offset, List.take_append_drop, List.drop_left]

theorem offset_append (h : i ≤ ls.length) : offset (ls ++ ls') i = offset ls i := by
  rw [offset, offset, List.take_append_of_le_length h]

theorem offset_length (ls : List Line) : offset ls ls.length = (encode ls).length := by
  rw [offset, List.take_length]

theorem offset_lt_succ (h : i < ls.length) : offset ls i < offset ls (i + 1) := by
  rw [offset, offset, List.take_succ_eq_append_getElem h, encode_append, List.length_append, encode_cons]
  simp

/-- Lines have bytes, so places tell lines apart. -/
theorem offset_lt_iff (hi : i ≤ ls.length) (hj : j ≤ ls.length) : offset ls i < offset ls j ↔ i < j := by
  have hmono : ∀ {i j}, i < j → j ≤ ls.length → offset ls i < offset ls j := by
    intro i j hij hj
    induction j, hij using Nat.le_induction with
    | base => exact offset_lt_succ hj
    | succ k hk ih => exact (ih (by omega)).trans (offset_lt_succ hj)
  refine ⟨fun h => not_le.mp fun hle => ?_, fun h => hmono h hj⟩
  obtain hlt | rfl := hle.lt_or_eq
  · exact h.not_gt (hmono hlt hi)
  · exact h.false

theorem offset_le_iff (hi : i ≤ ls.length) (hj : j ≤ ls.length) : offset ls i ≤ offset ls j ↔ i ≤ j := by
  rw [← not_lt, ← not_lt, offset_lt_iff hj hi]

theorem slice_append {span : ℕ × ℕ} (h : span.2 ≤ ls.length) : slice (ls ++ ls') span = slice ls span := by
  rw [slice, slice]
  by_cases hspan : span.1 ≤ ls.length
  · rw [List.drop_append_of_le_length hspan, List.take_append_of_le_length]
    rw [List.length_drop]
    omega
  · rw [show span.2 - span.1 = 0 by omega, List.take_zero, List.take_zero]

theorem slice_to_end (ls : List Line) (i : ℕ) : slice ls (i, ls.length) = ls.drop i := by
  rw [slice, List.take_of_length_le]
  rw [List.length_drop]

/-- One step of `read_tail_n` on what it has kept so far. -/
theorem keepLine_rtake (lines : List String) (line : String) (h : lineMatches K filters line = true) :
    keepLine K n filters (lines.rtake n) line = (lines ++ [line]).rtake n := by
  have hkeep : lines.rtake n ++ [line] = (lines ++ [line]).drop (lines.length - n) := by
    rw [List.rtake.eq_1, List.drop_append_of_le_length (Nat.sub_le _ _)]
  rw [keepLine, if_pos h, hkeep, List.rtake.eq_1, List.length_drop, List.length_append, List.length_singleton]
  split_ifs
  · rw [List.tail_drop]
    congr 1
    omega
  · congr 1
    omega

/-- `read_tail_n` keeps the last lines that match. -/
theorem readTailN_encode (ls : List Line) (n : ℕ) :
    readTailN K (encode ls) n filters = some (((ls.map Line.text).filter (lineMatches K filters)).rtake n) := by
  have hfold : ∀ (lines : List String),
      lines.foldl (keepLine K n filters) [] = (lines.filter (lineMatches K filters)).rtake n := by
    intro lines
    induction lines using List.reverseRecOn with
    | nil => exact (List.rtake_nil n).symm
    | append_singleton lines line ih =>
      rw [List.foldl_concat, ih]
      by_cases hline : lineMatches K filters line = true
      · rw [keepLine_rtake _ _ hline, List.filter_append, List.filter_singleton, hline]
        rfl
      · rw [keepLine, if_neg hline, List.filter_append, List.filter_singleton, Bool.eq_false_iff.mpr hline]
        exact (congrArg (List.rtake · n) (List.append_nil _)).symm
  rw [readTailN, readLines_encode, Option.map_some, hfold]

end Lines

section Follow

variable {K : Crates} {filters : Filters} {args : TailArgs} {s : Tailing} {acts : List Act} {a : Act} {place : ℕ}
  {initial : List String} {ls ls' : List Line} {t : Tail.Follower} {i : ℕ}

theorem run_append_one : run K filters args s (acts ++ [a]) = step K filters args (run K filters args s acts) a :=
  List.foldl_concat ..

theorem not_raced_nil : ¬Raced K filters args s [] place := by
  rintro ⟨as₁, as₂, h, -⟩
  simp at h

theorem raced_append_one : Raced K filters args s (acts ++ [a]) place ↔ Raced K filters args s acts place ∨ a = .tick ∧
    ∃ curSize, (run K filters args s acts).next = .read curSize ∧ curSize ≤ place ∧
      place < (run K filters args s acts).file.length :=
  Tail.exists_split_append_one

theorem file_tick : (tick K filters args s).file = s.file := by
  rw [tick]
  split
  · split <;> rfl
  · rfl
  · rfl
  · split <;> rfl
  · rfl
  · rfl

theorem length_le_step (s : Tailing) (a : Act) : s.file.length ≤ (step K filters args s a).file.length := by
  cases a with
  | write bytes => exact (List.prefix_append _ _).length_le
  | tick => rw [step, file_tick]

theorem lt_length_of_raced (h : Raced K filters args s acts place) : place < (run K filters args s acts).file.length := by
  induction acts using List.reverseRecOn with
  | nil => exact absurd h not_raced_nil
  | append_singleton acts a ih =>
    rw [run_append_one]
    refine lt_of_lt_of_le ?_ (length_le_step _ a)
    obtain h | ⟨-, curSize, -, -, hlt⟩ := raced_append_one.mp h
    · exact ih h
    · exact hlt

variable (K filters) in
/-- A follower of whole lines stands as one that only counts them. -/
structure Follows (initial : List String) (s : Tailing) (ls : List Line) (t : Tail.Follower) : Prop where
  file : s.file = encode ls
  count : t.count = ls.length
  mark : t.mark ≤ ls.length
  lastSize : s.lastSize = offset ls t.mark
  next : t.phase = .idle ∧ (s.next = .poll ∨ s.next = .stopped) ∨
    ∃ size ≤ ls.length, t.phase = .found size ∧ s.next = .read (offset ls size)
  spans : ∀ span ∈ t.given, span.2 ≤ ls.length
  stdout : s.stdout = initial ++ t.given.flatMap fun span => shown K filters (slice ls span)

theorem Follows.write (h : Follows K filters initial s ls t) (ls' : List Line) :
    Follows K filters initial (step K filters args s (.write (encode ls'))) (ls ++ ls') (t.step (.grow ls'.length)) := by
  have hlen : ls.length ≤ (ls ++ ls').length := (List.prefix_append _ _).length_le
  refine ⟨?_, ?_, h.mark.trans hlen, ?_, ?_, fun span hspan => (h.spans span hspan).trans hlen, ?_⟩
  · rw [step, h.file, encode_append]
  · rw [Tail.Follower.step, h.count, List.length_append]
  · exact h.lastSize.trans (offset_append h.mark).symm
  · refine h.next.imp_right ?_
    rintro ⟨size, hsize, hphase, hnext⟩
    exact ⟨size, hsize.trans hlen, hphase, hnext.trans (by rw [offset_append hsize])⟩
  · refine h.stdout.trans (congrArg (initial ++ ·) (List.flatMap_congr fun span hspan => ?_))
    rw [slice_append (h.spans span hspan)]

theorem afterPoll_cases (polls : ℕ) : afterPoll args polls = .poll ∨ afterPoll args polls = .stopped := by
  rw [afterPoll]
  split_ifs
  · exact .inr rfl
  · exact .inl rfl

theorem Follows.length_file (h : Follows K filters initial s ls t) : s.file.length = offset ls ls.length := by
  rw [h.file, offset_length]

theorem Follows.poll (h : Follows K filters initial s ls t) (hphase : t.phase = .idle) (hnext : s.next = .poll) :
    Follows K filters initial (tick K filters args s) ls (t.step .poll) := by
  have hgrown : s.lastSize < s.file.length ↔ t.mark < t.count := by
    rw [h.lastSize, h.length_file, offset_lt_iff h.mark le_rfl, h.count]
  rw [Logs.tick, hnext, Tail.Follower.step, hphase]
  by_cases hlt : t.mark < t.count
  · refine ⟨h.file, ?_, ?_, ?_, .inr ⟨ls.length, le_rfl, ?_, ?_⟩, ?_, ?_⟩ <;> simp only [if_pos hlt]
    · exact h.count
    · exact h.mark
    · exact h.lastSize
    · rw [h.count]
    · rw [if_pos (hgrown.mpr hlt), h.length_file]
    · exact h.spans
    · exact h.stdout
  · simp only [if_neg hlt, if_neg (mt hgrown.mp hlt)]
    exact { h with next := .inl ⟨hphase, afterPoll_cases _⟩ }

theorem Follows.read (h : Follows K filters initial s ls t) {size : ℕ} (hsize : size ≤ ls.length)
    (hphase : t.phase = .found size) (hnext : s.next = .read (offset ls size)) :
    Follows K filters initial (tick K filters args s) ls (t.step .read) := by
  have hlines : readLinesAfterOffset s.file s.lastSize = some ((ls.drop t.mark).map Line.text) := by
    rw [readLinesAfterOffset, h.file, h.lastSize, drop_encode, readLines_encode]
  rw [Logs.tick, hnext, Tail.Follower.step, hphase]
  rw [hlines]
  refine ⟨h.file, h.count, hsize, rfl, .inl ⟨rfl, afterPoll_cases _⟩, fun span hspan => ?_, ?_⟩
  · obtain hspan | hspan := List.mem_append.mp hspan
    · exact h.spans span hspan
    · rw [List.mem_singleton.mp hspan]
      exact h.count.le
  · dsimp only
    rw [h.stdout, List.flatMap_append, List.flatMap_singleton, h.count, slice_to_end, List.append_assoc]
    rfl

theorem Follows.tick (h : Follows K filters initial s ls t) : ∃ e,
    Follows K filters initial (tick K filters args s) ls (t.step e) ∧
    ∀ i < ls.length, (e = .read ∧ ∃ size, t.phase = .found size ∧ size ≤ i ∧ i < t.count) ↔
      ∃ curSize, s.next = .read curSize ∧ curSize ≤ offset ls i ∧ offset ls i < s.file.length := by
  obtain ⟨hphase, hnext | hnext⟩ | ⟨size, hsize, hphase, hnext⟩ := h.next
  · refine ⟨.poll, ?_, fun i hi => iff_of_false (fun hread => Tail.Event.noConfusion hread.1) ?_⟩
    · exact h.poll hphase hnext
    · rintro ⟨curSize, hread, -⟩
      exact Next.noConfusion (hnext.symm.trans hread)
  · refine ⟨.grow 0, ?_, fun i hi => iff_of_false (fun hread => Tail.Event.noConfusion hread.1) ?_⟩
    · rw [Logs.tick, hnext]
      exact h
    · rintro ⟨curSize, hread, -⟩
      exact Next.noConfusion (hnext.symm.trans hread)
  · refine ⟨.read, ?_, fun i hi => ?_⟩
    · exact h.read hsize hphase hnext
    · rw [hphase, hnext, h.count, h.length_file]
      constructor
      · rintro ⟨-, n, hn, hle, -⟩
        obtain rfl := Tail.Phase.found.inj hn
        exact ⟨_, rfl, (offset_le_iff hsize hi.le).mpr hle, (offset_lt_iff hi.le le_rfl).mpr hi⟩
      · rintro ⟨curSize, hcur, hle, -⟩
        obtain rfl := Next.read.inj hcur
        exact ⟨rfl, size, rfl, (offset_le_iff hsize hi.le).mp hle, hi⟩

/-- Whole lines are written, or the follower goes on. -/
def Act.Whole : Act → Prop
  | .write bytes => ∃ ls, bytes = encode ls
  | .tick => True

theorem follows_run (h : Follows K filters initial s ls t) (hwhole : ∀ a ∈ acts, a.Whole) :
    ∃ later es, Follows K filters initial (run K filters args s acts) (ls ++ later) (t.run es) ∧
      ∀ i < (ls ++ later).length, Tail.Raced t es i ↔ Raced K filters args s acts (offset (ls ++ later) i) := by
  induction acts using List.reverseRecOn with
  | nil =>
    refine ⟨[], [], ?_, fun i _ => iff_of_false Tail.not_raced_nil not_raced_nil⟩
    rwa [List.append_nil, Tail.run_nil]
  | append_singleton acts a ih =>
    obtain ⟨later, es, ih, hraced⟩ := ih fun a ha => hwhole a (List.mem_append_left _ ha)
    rw [run_append_one]
    cases a with
    | write bytes =>
      obtain ⟨ls', rfl⟩ := hwhole _ (List.mem_append_right _ List.mem_cons_self)
      refine ⟨later ++ ls', es ++ [.grow ls'.length], ?_, fun i hi => ?_⟩
      · rw [← List.append_assoc, Tail.run_append_one]
        exact ih.write ls'
      · rw [Tail.raced_append_one, raced_append_one, or_iff_left fun h => Tail.Event.noConfusion h.1,
          or_iff_left fun h => Act.noConfusion h.1, ← List.append_assoc]
        by_cases hold : i < (ls ++ later).length
        · rw [offset_append hold.le]
          exact hraced i hold
        · have hle : (ls ++ later).length ≤ i := not_lt.mp hold
          refine iff_of_false (fun hr => hold ?_) fun hr => ?_
          · exact (Tail.lt_count_of_raced hr).trans_eq ih.count
          · have hlt := lt_length_of_raced hr
            have hend : offset (ls ++ later ++ ls') (ls ++ later).length = offset (ls ++ later) (ls ++ later).length :=
              offset_append le_rfl
            rw [ih.length_file, ← hend] at hlt
            rw [← List.append_assoc] at hi
            exact hold ((offset_lt_iff hi.le (List.prefix_append _ _).length_le).mp hlt)
    | tick =>
      obtain ⟨e, hstep, hread⟩ := ih.tick
      refine ⟨later, es ++ [e], ?_, fun i hi => ?_⟩
      · rw [Tail.run_append_one]
        exact hstep
      · rw [Tail.raced_append_one, raced_append_one, hraced i hi, hread i hi]
        exact or_congr_right (iff_and_self.mpr fun _ => rfl)

end Follow

/-! ## What is printed -/

open scoped Classical in
/-- What `logs tail --follow` has printed: of the old lines the last that match, and then those of the matching lines that
stand in some spans. It misses what was written between its first read and the first poll. -/
structure Followed (K : Crates) (filters : Filters) (args : TailArgs) (old missed later : List Line) (spans : List (ℕ × ℕ))
    (polling : Tailing) (acts : List Act) : Prop where
  file : (run K filters args polling acts).file = encode (old ++ missed ++ later)
  stdout : (run K filters args polling acts).stdout =
    shownLast K filters args.lines old ++ spans.flatMap fun span => shown K filters (slice (old ++ missed ++ later) span)
  times : ∀ i < (old ++ missed ++ later).length, Tail.times spans i =
    (if (old ++ missed).length ≤ i ∧
      offset (old ++ missed ++ later) i < (run K filters args polling acts).lastSize then 1 else 0) +
      if Raced K filters args polling acts (offset (old ++ missed ++ later) i) then 1 else 0
  inOrder : (∀ place, ¬Raced K filters args polling acts place) →
    ∃ n, (run K filters args polling acts).lastSize = offset (old ++ missed ++ later) n ∧
      spans.flatMap (fun span => List.Ico span.1 span.2) = List.Ico (old ++ missed).length n

theorem follows_polling (K : Crates) (filters : Filters) {args : TailArgs} (hfollow : args.follow = true)
    (old missed : List Line) :
    Follows K filters (shownLast K filters args.lines old)
      (run K filters args (start (encode old)) [.tick, .write (encode missed), .tick]) (old ++ missed)
      (.begun (old ++ missed).length (old ++ missed).length) := by
  have htail : tick K filters args (start (encode old)) =
      { start (encode old) with
        stdout := shownLast K filters args.lines old
        next := .stat } := by
    rw [tick, start]
    rw [readTailN_encode, hfollow]
    rfl
  have hrun : run K filters args (start (encode old)) [.tick, .write (encode missed), .tick] =
      tick K filters args (step K filters args (tick K filters args (start (encode old))) (.write (encode missed))) := rfl
  rw [hrun, htail]
  refine ⟨(encode_append old missed).symm, rfl, le_rfl, ?_, .inl ⟨rfl, .inl rfl⟩, List.forall_mem_nil _,
    (List.append_nil _).symm⟩
  rw [Tail.Follower.begun, offset_length, encode_append]
  rfl

/-- However the file grows by whole lines, a line that is written after a poll and before its read is printed once more than
the others, one written between the first read and the first poll is not printed, and each other line behind that poll is
printed once when a later poll has seen it. -/
theorem follow_spec (K : Crates) (filters : Filters) (args : TailArgs) (hfollow : args.follow = true)
    (old missed : List Line)
    (acts : List Act) (hwhole : ∀ a ∈ acts, a.Whole) : ∃ later spans,
      Followed K filters args old missed later spans
        (run K filters args (start (encode old)) [.tick, .write (encode missed), .tick]) acts := by
  classical
  have hpolling := follows_polling K filters hfollow old missed
  obtain ⟨later, es, h, hraced⟩ := follows_run hpolling hwhole
  refine ⟨later, _, h.file, h.stdout, fun i hi => ?_, fun hnone => ⟨_, h.lastSize, Tail.given_run le_rfl es fun i hi => ?_⟩⟩
  · rw [Tail.times_run le_rfl, h.lastSize]
    congr 1
    · refine if_congr (and_congr_right fun _ => ?_) rfl rfl
      exact (offset_lt_iff hi.le h.mark).symm
    · exact if_congr (hraced i hi) rfl rfl
  · exact hnone _ ((hraced i ((Tail.lt_count_of_raced hi).trans_eq h.count)).mp hi)

def letterA : Line where
  bytes := [97]
  text := "a"
  noFeed := by decide
  decoded := by decide

def noCrates : Crates where
  parseFromRfc3339 _ := none
  toString _ := ""

theorem follow_spec_one : ∃ later spans, Followed noCrates {} { follow := true } [] [] later spans
    (run noCrates {} { follow := true } (start (encode [])) [.tick, .write (encode []), .tick])
    [.write (encode [letterA]), .tick, .write (encode [letterA]), .tick, .tick, .tick] :=
  follow_spec noCrates {} { follow := true } rfl [] [] _ (by
    intro a ha
    fin_cases ha
    · exact ⟨_, rfl⟩
    · trivial
    · exact ⟨_, rfl⟩
    · trivial
    · trivial
    · trivial)

/-- The second line comes after a poll and before its read. -/
example : (run noCrates {} { follow := true } (start []) [.tick, .tick, .write [97, 10], .tick, .write [98, 10], .tick, .tick,
    .tick]).stdout = ["a", "b", "b"] := by
  decide

end AiMemory.Logs
