import AiMemory.Db.Inserts

/-!
# `ai-memory mine`

`mine` renders every conversation of an export that is long enough and stores each with `insert`. The upsert goes by title,
and a title is cut to a hundred bytes or taken from the first message. So a conversation keeps its text when no later one of
its title is mined (`keeps_iff`); of several with one title, the last replaces the others.
-/

namespace AiMemory

open Relational Validate

namespace Mine

/-! ## Conversations -/

structure Message where
  role : String
  content : String
  timestamp : Option String := none

structure Conversation where
  id : String
  title : Option String
  messages : List Message
  createdAt : Option String

structure MinedMemory where
  title : String
  content : String
  sourceFormat : String
  createdAt : Option String

inductive Format
  | claude
  | chatGpt
  | slack

def Format.sourceTag : Format → String
  | claude => "mine-claude"
  | chatGpt => "mine-chatgpt"
  | slack => "mine-slack"

def maxContentSize : ℕ := 65536

/-- The characters before the last boundary within `n` bytes. -/
def upToBoundary : ℕ → List Char → List Char
  | _, [] => []
  | n, c :: cs => if c.utf8Size ≤ n then c :: upToBoundary (n - c.utf8Size) cs else []

def truncate (s : String) (maxChars : ℕ) : String :=
  if byteLen s.toList ≤ maxChars then s else String.ofList (upToBoundary maxChars s.toList)

def Message.line (m : Message) : String := s!"[{m.role}]: {m.content}\n"

/-- The loop over the messages, which stops before the first line that does not fit. -/
def appendLines (content : String) : List Message → String
  | [] => content
  | m :: ms =>
    if maxContentSize < byteLen content.toList + byteLen m.line.toList then content
    else appendLines (content ++ m.line) ms

/-- The title of a conversation: its own unless that is empty, else what the user opens with. -/
def titleOf (c : Conversation) : String :=
  match c.title.filter (· ≠ "") with
  | some t => truncate t 100
  | none =>
    match (c.messages.find? fun m => m.role = "user" ∨ m.role = "human").or c.messages.head? with
    | some m => truncate m.content 100
    | none => s!"Conversation {c.id}"

def conversationToMemory (c : Conversation) (format : Format) : Option MinedMemory :=
  if c.messages.isEmpty then none
  else
    let content := appendLines "" c.messages
    if content = "" then none
    else some {
      title := titleOf c
      content := content
      sourceFormat := format.sourceTag
      createdAt := c.createdAt }

/-! ## The command -/

/-- What one run is told: its arguments, the configuration, the clock and the ids it draws. -/
structure Miner where
  agentId : String
  format : Format
  ns : String
  tier : Tier
  minMessages : ℕ
  archiveOnGc : Bool
  ttlForTier : Tier → Option ℤ
  now : String
  /-- The time so many seconds from `now`. -/
  later : ℤ → String
  uuid : ℕ → String

/-- What a run has done so far. -/
structure Run where
  db : Db
  imported : ℕ := 0
  skipped : ℕ := 0
  errors : ℕ := 0
  warnings : List String := []

namespace Miner

variable (a : Miner)

def filtered (conversations : List Conversation) : List Conversation :=
  conversations.filter fun c => a.minMessages ≤ c.messages.length

def memory (mined : MinedMemory) (id : String) : Memory where
  id := id
  tier := a.tier
  ns := a.ns
  title := mined.title
  content := mined.content
  tags := [a.format.sourceTag]
  priority := 5
  confidence := 4 / 5
  source := mined.sourceFormat
  accessCount := 0
  createdAt := mined.createdAt.getD a.now
  updatedAt := a.now
  lastAccessedAt := none
  expiresAt := (a.ttlForTier a.tier).map a.later
  metadata := ((Json.obj []).set "agent_id" (.str a.agentId)).set "mined_from" (.str a.format.sourceTag)

/-- One conversation of the loop. Each memory draws an id, stored or not. -/
def importOne (s : Run) (c : Conversation) : Run :=
  match conversationToMemory c a.format with
  | none => { s with skipped := s.skipped + 1 }
  | some mined =>
    match s.db.insert (a.memory mined (a.uuid (s.imported + s.errors))) with
    | .ok (db, _) =>
      { s with
        db := db
        imported := s.imported + 1 }
    | .error e =>
      { s with
        errors := s.errors + 1
        warnings := s.warnings ++ [s!"warning: failed to store '{mined.title}': {e}"] }

/-- `mine`. The commit after every hundred memories and the transaction it opens change no row. -/
def mine (db : Db) (conversations : List Conversation) : Run :=
  (a.filtered conversations).foldl a.importOne { db := db.gcIfNeeded a.archiveOnGc a.now }

def mined (conversations : List Conversation) : List MinedMemory :=
  (a.filtered conversations).filterMap (conversationToMemory · a.format)

end Miner

/-! ## The text of a conversation -/

def text (ms : List Message) : String := String.join (ms.map Message.line)

def size (s : String) : ℕ := byteLen s.toList

@[simp] theorem size_append (s t : String) : size (s ++ t) = size s + size t := by
  simp [size, byteLen]

theorem append_text_cons (s : String) (m : Message) (ms : List Message) : s ++ text (m :: ms) = s ++ m.line ++ text ms := by
  unfold text
  rw [List.map_cons, String.join_cons, String.append_assoc]

/-- `content` is the longest run of leading messages that fits. -/
def Longest (ms : List Message) (content : String) : Prop :=
  ∃ k ≤ ms.length, content = text (ms.take k) ∧ ∀ j ≤ ms.length, size (text (ms.take j)) ≤ maxContentSize ↔ j ≤ k

/-- The loop appends as many lines as fit. -/
theorem appendLines_spec (ms : List Message) {s : String} (hs : size s ≤ maxContentSize) :
    ∃ k ≤ ms.length, appendLines s ms = s ++ text (ms.take k) ∧
      ∀ j ≤ ms.length, size (s ++ text (ms.take j)) ≤ maxContentSize ↔ j ≤ k := by
  induction ms generalizing s with
  | nil =>
    refine ⟨0, le_rfl, by simp [appendLines, text, String.join], fun j hj => ?_⟩
    obtain rfl := Nat.le_zero.mp hj
    exact iff_of_true (by simpa [text, String.join] using hs) le_rfl
  | cons m ms ih =>
    unfold appendLines
    split
    · rename_i hover
      refine ⟨0, Nat.zero_le _, by simp [text, String.join], fun j _ => ?_⟩
      cases j with
      | zero => exact iff_of_true (by simpa [text, String.join] using hs) le_rfl
      | succ j =>
        rw [List.take_succ_cons, append_text_cons, size_append, size_append]
        -- the line alone makes the content too large
        have hover : maxContentSize < size s + size m.line := hover
        omega
    · rename_i hfits
      have hline : size (s ++ m.line) ≤ maxContentSize := by
        rw [size_append]
        exact Nat.le_of_not_lt hfits
      obtain ⟨k, hk, htext, hmax⟩ := ih hline
      refine ⟨k + 1, Nat.succ_le_succ hk, ?_, fun j hj => ?_⟩
      · rw [htext, List.take_succ_cons, append_text_cons]
      · cases j with
        | zero => exact iff_of_true (by simpa [text, String.join] using hs) (Nat.zero_le _)
        | succ j =>
          rw [List.take_succ_cons, append_text_cons, hmax j (Nat.le_of_succ_le_succ hj), Nat.succ_le_succ_iff]

theorem longest_of_mined {c : Conversation} {format : Format} {m : MinedMemory} (h : conversationToMemory c format = some m) :
    Longest c.messages m.content := by
  obtain ⟨k, hk, htext, hmax⟩ := appendLines_spec (s := "") c.messages (by decide)
  have hcontent : m.content = appendLines "" c.messages := by
    simp only [conversationToMemory, Option.ite_none_left_eq_some] at h
    obtain ⟨-, -, h⟩ := h
    rw [← Option.some.inj h]
  exact ⟨k, hk, by rw [hcontent, htext, String.empty_append], fun j hj => by simpa using hmax j hj⟩

/-! ## The run -/

namespace Miner

variable {a : Miner} {s : Run} {db : Db} {c : Conversation} {cs : List Conversation} {t : String}

theorem counted_importOne (a : Miner) (s : Run) (c : Conversation) :
    (a.importOne s c).imported + (a.importOne s c).skipped + (a.importOne s c).errors = s.imported + s.skipped + s.errors + 1 := by
  unfold importOne
  split
  · exact Nat.add_right_comm _ 1 _
  · split
    · simp only
      omega
    · rfl

theorem counted_foldl (a : Miner) (cs : List Conversation) (s : Run) :
    (cs.foldl a.importOne s).imported + (cs.foldl a.importOne s).skipped + (cs.foldl a.importOne s).errors =
      s.imported + s.skipped + s.errors + cs.length := by
  induction cs generalizing s with
  | nil => rfl
  | cons c cs ih =>
    rw [List.foldl_cons, ih, counted_importOne, List.length_cons]
    omega

theorem errors_importOne (a : Miner) (s : Run) (c : Conversation) : s.errors ≤ (a.importOne s c).errors := by
  unfold importOne
  split
  · exact le_rfl
  · split
    · exact le_rfl
    · exact Nat.le_succ _

theorem errors_foldl (a : Miner) (cs : List Conversation) (s : Run) : s.errors ≤ (cs.foldl a.importOne s).errors :=
  Machine.foldl_induct (P := fun x : Run => s.errors ≤ x.errors) (fun x c _ h => h.trans (errors_importOne a x c)) le_rfl

def textAt (a : Miner) (db : Db) (t : String) : Option String := (db.getKey (t, a.ns)).map fun r => r.content

theorem textAt_eq_some {text : String} :
    a.textAt db t = some text ↔ ∃ r ∈ db.memories, r.title = t ∧ r.ns = a.ns ∧ r.content = text := by
  unfold textAt
  rw [Option.map_eq_some_iff]
  constructor
  · rintro ⟨r, hr, htext⟩
    obtain ⟨hmem, hkey⟩ := Db.getKey_eq_some.mp hr
    exact ⟨r, hmem, congrArg Prod.fst hkey, congrArg Prod.snd hkey, htext⟩
  · rintro ⟨r, hmem, rfl, hns, htext⟩
    exact ⟨r, hns ▸ Db.getKey_of_mem hmem, htext⟩

/-- A conversation that is stored becomes the text of its title and leaves every other title alone. -/
theorem textAt_importOne (herr : (a.importOne s c).errors = s.errors) : a.textAt (a.importOne s c).db t =
    (((conversationToMemory c a.format).filter fun m => m.title = t).map fun m => m.content).or (a.textAt s.db t) := by
  cases hm : conversationToMemory c a.format with
  | none =>
    simp [importOne, hm]
  | some m =>
    cases hi : s.db.insert (a.memory m (a.uuid (s.imported + s.errors))) with
    | error e => simp [importOne, hm, hi] at herr
    | ok res =>
      have hdb : (a.importOne s c).db = res.1 := by simp [importOne, hm, hi]
      rw [hdb, Option.filter_some]
      by_cases ht : m.title = t
      · subst ht
        have hrow : res.1.getKey (m.title, a.ns) = _ := Db.getKey_insertOnConflict hi
        rw [if_pos (decide_eq_true rfl), textAt, hrow]
        cases s.db.getKey (a.memory m (a.uuid (s.imported + s.errors))).key <;> rfl
      · have hne : (t, a.ns) ≠ (a.memory m (a.uuid (s.imported + s.errors))).key := fun hk => ht (congrArg Prod.fst hk).symm
        rw [if_neg (by simpa using ht), textAt, Db.getKey_insertOnConflict_of_ne hi hne]
        rfl

theorem textAt_foldl (herr : (cs.foldl a.importOne s).errors = s.errors) : a.textAt (cs.foldl a.importOne s).db t =
    (((cs.filterMap (conversationToMemory · a.format)).reverse.find? fun m => m.title = t).map fun m => m.content).or
      (a.textAt s.db t) := by
  induction cs generalizing s with
  | nil => rfl
  | cons c cs ih =>
    have hone : (a.importOne s c).errors = s.errors := by
      have hrest := errors_foldl a cs (a.importOne s c)
      exact le_antisymm (hrest.trans_eq herr) (errors_importOne a s c)
    rw [List.foldl_cons, ih (by rw [hone]; exact herr), textAt_importOne hone, List.filterMap_cons]
    cases hm : conversationToMemory c a.format with
    | none => rfl
    | some m =>
      rw [List.reverse_cons, List.find?_append, Option.map_or, Option.or_assoc, List.find?_singleton, Option.filter_some]

/-! ## What is kept -/

/-- A text is the last one mined under its title. -/
def Lasts (ms : List MinedMemory) (text : String) : Prop :=
  ∃ pre m post, ms = pre ++ m :: post ∧ m.content = text ∧ ∀ l ∈ post, l.title ≠ m.title

/-- A row that has not expired has the text already, and nothing is mined under its title. -/
def Held (a : Miner) (db : Db) (ms : List MinedMemory) (text : String) : Prop :=
  ∃ r ∈ db.memories, Db.isExpired a.now r = false ∧ r.ns = a.ns ∧ r.content = text ∧ ∀ l ∈ ms, l.title ≠ r.title

/-- Mining counts every conversation that passes the filter, renders as many leading messages as fit and keeps what it
imports. -/
structure Keeps (a : Miner) (db : Db) (conversations : List Conversation) : Prop where
  counted : (a.mine db conversations).imported + (a.mine db conversations).skipped + (a.mine db conversations).errors =
    (a.filtered conversations).length
  longest : ∀ c ∈ a.filtered conversations, ∀ m, conversationToMemory c a.format = some m → Longest c.messages m.content
  kept : ∀ c ∈ a.filtered conversations, ∀ m, conversationToMemory c a.format = some m →
    ∃ r ∈ (a.mine db conversations).db.memories, r.ns = a.ns ∧ r.content = m.content

/-- The last one of its title is the last of those with its text, or one before another of that text. -/
theorem lasts_iff {ms : List MinedMemory} {text : String} :
    Lasts ms text ↔ ∃ t m, ms.reverse.find? (fun l => l.title = t) = some m ∧ m.content = text := by
  constructor
  · rintro ⟨pre, m, post, rfl, htext, hpost⟩
    refine ⟨m.title, m, List.find?_eq_some_iff_append.mpr ⟨decide_eq_true rfl, post.reverse, pre.reverse, ?_, ?_⟩, htext⟩
    · simp
    · intro l hl
      simpa using hpost l (List.mem_reverse.mp hl)
  · rintro ⟨t, m, hfind, htext⟩
    obtain ⟨ht, post, pre, hsplit, hpost⟩ := List.find?_eq_some_iff_append.mp hfind
    obtain rfl := of_decide_eq_true ht
    refine ⟨pre.reverse, m, post.reverse, ?_, htext, fun l hl => ?_⟩
    · rw [← List.reverse_reverse ms, hsplit]
      simp
    · simpa using hpost l (List.mem_reverse.mp hl)

theorem stored_iff {conversations : List Conversation} {text : String} (herr : (a.mine db conversations).errors = 0) :
    (∃ r ∈ (a.mine db conversations).db.memories, r.ns = a.ns ∧ r.content = text) ↔
      Lasts (a.mined conversations) text ∨ Held a db (a.mined conversations) text := by
  have hat : ∀ t, a.textAt (a.mine db conversations).db t =
      (((a.mined conversations).reverse.find? fun m => m.title = t).map fun m => m.content).or (a.textAt (db.gcIfNeeded a.archiveOnGc a.now) t) :=
    fun t => textAt_foldl herr
  constructor
  · rintro ⟨r, hmem, hns, htext⟩
    have hr := (hat r.title).symm.trans (textAt_eq_some.mpr ⟨r, hmem, rfl, hns, htext⟩)
    rcases Option.or_eq_some_iff.mp hr with hlast | ⟨hnone, hold⟩
    · obtain ⟨m, hfind, hm⟩ := Option.map_eq_some_iff.mp hlast
      exact Or.inl (lasts_iff.mpr ⟨r.title, m, hfind, hm⟩)
    · obtain ⟨old, hold, ht, hns, htext⟩ := textAt_eq_some.mp hold
      obtain ⟨hdb, hlive⟩ := Db.mem_gcIfNeeded.mp hold
      refine Or.inr ⟨old, hdb, hlive, hns, htext, fun l hl => ?_⟩
      rw [ht]
      simpa using List.find?_eq_none.mp (Option.map_eq_none_iff.mp hnone) l (List.mem_reverse.mpr hl)
  · rintro (hlasts | ⟨r, hdb, hlive, hns, htext, hfree⟩)
    · obtain ⟨t, m, hfind, hm⟩ := lasts_iff.mp hlasts
      obtain ⟨r, hr, -, hrow⟩ := textAt_eq_some.mp (by rw [hat, hfind, Option.map_some, hm, Option.some_or])
      exact ⟨r, hr, hrow⟩
    · have hnone : (a.mined conversations).reverse.find? (fun m => m.title = r.title) = none :=
        List.find?_eq_none.mpr fun l hl => by simpa using hfree l (List.mem_reverse.mp hl)
      have hold : a.textAt (db.gcIfNeeded a.archiveOnGc a.now) r.title = some text :=
        textAt_eq_some.mpr ⟨r, Db.mem_gcIfNeeded.mpr ⟨hdb, hlive⟩, rfl, hns, htext⟩
      obtain ⟨r', hr', -, hrow⟩ := textAt_eq_some.mp (by rw [hat, hnone, Option.map_none, Option.none_or, hold])
      exact ⟨r', hr', hrow⟩

/-- Mining keeps every conversation when each text is the last one mined under a title, or is in the namespace already under
a title that is not mined. -/
theorem keeps_iff (a : Miner) (db : Db) (conversations : List Conversation) (herr : (a.mine db conversations).errors = 0) :
    a.Keeps db conversations ↔
      ∀ m ∈ a.mined conversations, Lasts (a.mined conversations) m.content ∨ Held a db (a.mined conversations) m.content := by
  have hkept : a.Keeps db conversations ↔ ∀ c ∈ a.filtered conversations, ∀ m, conversationToMemory c a.format = some m →
      ∃ r ∈ (a.mine db conversations).db.memories, r.ns = a.ns ∧ r.content = m.content := by
    refine ⟨Keeps.kept, fun h => ⟨?_, fun c _ m hm => longest_of_mined hm, h⟩⟩
    unfold mine
    rw [counted_foldl]
    simp
  rw [hkept]
  simp only [stored_iff herr]
  constructor
  · intro h m hm
    obtain ⟨c, hc, hcm⟩ := List.mem_filterMap.mp hm
    exact h c hc m hcm
  · intro h c hc m hcm
    exact h m (List.mem_filterMap.mpr ⟨c, hc, hcm⟩)

def claudeMiner : Miner where
  agentId := "ai:miner"
  format := .claude
  ns := "claude-export"
  tier := .mid
  minMessages := 1
  archiveOnGc := true
  ttlForTier := fun _ => none
  now := "2026-01-01T00:00:00+00:00"
  later := fun _ => ""
  uuid := fun n => String.ofList (List.replicate (n + 1) 'u')

def chat (title content : String) : Conversation where
  id := "c"
  title := some title
  messages := [{
    role := "user"
    content := content }]
  createdAt := none

theorem keeps_iff_two : claudeMiner.Keeps Db.empty [chat "Plans" "Paris", chat "Books" "Emma"] ↔
    ∀ m ∈ claudeMiner.mined [chat "Plans" "Paris", chat "Books" "Emma"],
      Lasts (claudeMiner.mined [chat "Plans" "Paris", chat "Books" "Emma"]) m.content ∨
        Held claudeMiner Db.empty (claudeMiner.mined [chat "Plans" "Paris", chat "Books" "Emma"]) m.content :=
  keeps_iff claudeMiner Db.empty [chat "Plans" "Paris", chat "Books" "Emma"] (by decide)

/-- Two conversations of one title: both count as imported, and the second replaces the first. -/
theorem same_title_replaced : (claudeMiner.mine Db.empty [chat "New chat" "Paris", chat "New chat" "Emma"]).errors = 0 ∧
    (claudeMiner.mine Db.empty [chat "New chat" "Paris", chat "New chat" "Emma"]).imported = 2 ∧
    ¬claudeMiner.Keeps Db.empty [chat "New chat" "Paris", chat "New chat" "Emma"] := by
  refine ⟨by decide, by decide, fun h => ?_⟩
  obtain ⟨r, hr, -, htext⟩ := h.kept (chat "New chat" "Paris") (List.mem_filter.mpr ⟨List.mem_cons_self, by decide⟩) _ rfl
  have hrows : ∀ r ∈ (claudeMiner.mine Db.empty [chat "New chat" "Paris", chat "New chat" "Emma"]).db.memories.rows,
      r.content ≠ "[user]: Paris\n" := by decide
  exact hrows r hr htext

end Miner

end Mine

end AiMemory
