import AiMemory.Audit.Log
import AiMemory.Lib.Table

/-!
# What the verifier accepts

The events of a text are those of its lines that can be read. The verifier reports no failure exactly when every line
that is not blank is one, the events are linked, their numbers increase, and each carries its own hash
(`verifyChainFromReader_ok`).
-/

namespace AiMemory.Audit

open HashChain

variable (K : Crates)

/-- The event of a line. -/
def lineEvent (line : List Char) : Option AuditEvent :=
  if isBlank line then none else (K.fromJson (String.ofList line)).toOption

/-- The events of a text. -/
def events (text : String) : List AuditEvent := (bufLines text.toList).filterMap (lineEvent K)

/-- The links of events, from a hash on. -/
abbrev Chained (h : String) (evs : List AuditEvent) : Prop := Linked AuditEvent.prevHash AuditEvent.selfHash h evs

/-- The hash the next event is linked to. -/
abbrev chainTip (evs : List AuditEvent) : String := tip AuditEvent.selfHash chainHeadPrevHash evs

/-- The numbers increase, from a number on; a zero is not compared with. -/
def Numbered (q : UInt64) : List AuditEvent → Prop
  | [] => True
  | ev :: evs => ¬(ev.sequence ≤ q ∧ q ≠ 0) ∧ Numbered ev.sequence evs

/-- The number of the last event. -/
def lastSequence (evs : List AuditEvent) : UInt64 := evs.foldl (fun _ ev => ev.sequence) 0

instance Numbered.decidable (q : UInt64) (evs : List AuditEvent) : Decidable (Numbered q evs) :=
  match evs with
  | [] => isTrue trivial
  | ev :: evs => @instDecidableAnd _ _ _ (Numbered.decidable ev.sequence evs)

/-- Every line that is not blank is an event. -/
def Legible (lines : List (List Char)) : Prop := ∀ line ∈ lines, isBlank line = false → (lineEvent K line).isSome

variable {K} {lines : List (List Char)} {evs : List AuditEvent} {ev : AuditEvent} {q : UInt64} {h text : String}

theorem chained_cons : Chained h (ev :: evs) ↔ ev.prevHash = h ∧ Chained ev.selfHash evs := linked_cons

theorem numbered_concat : Numbered q (evs ++ [ev]) ↔ Numbered q evs ∧
    ¬(ev.sequence ≤ evs.foldl (fun _ ev => ev.sequence) q ∧ evs.foldl (fun _ ev => ev.sequence) q ≠ 0) := by
  induction evs generalizing q with
  | nil => simp [Numbered]
  | cons x evs ih => rw [List.cons_append, Numbered, Numbered, ih, List.foldl_cons, and_assoc]

variable {line : List Char}

theorem lineEvent_blank (hb : isBlank line = true) : lineEvent K line = none := if_pos hb

theorem lineEvent_of_ne_blank (hb : ¬isBlank line = true) :
    lineEvent K line = (K.fromJson (String.ofList line)).toOption := if_neg hb

theorem legible_cons : Legible K (line :: lines) ↔
    (isBlank line = false → (lineEvent K line).isSome) ∧ Legible K lines := List.forall_mem_cons

/-! ## The verifier -/

theorem verifyLines_ok {n total : ℕ} : (verifyLines K n total h q lines).firstFailure = none ↔
    Legible K lines ∧ Chained h (lines.filterMap (lineEvent K)) ∧ Numbered q (lines.filterMap (lineEvent K)) ∧
      ∀ ev ∈ lines.filterMap (lineEvent K), computeSelfHash K ev = ev.selfHash := by
  induction lines generalizing n total h q with
  | nil => simp [verifyLines, Legible, Numbered]
  | cons line lines ih =>
    rw [verifyLines, legible_cons]
    by_cases hb : isBlank line = true
    · rw [if_pos hb, ih, List.filterMap_cons_none (lineEvent_blank hb)]
      simp [hb]
    · rw [if_neg hb]
      cases hread : K.fromJson (String.ofList line) with
      | error e =>
        have hnone : lineEvent K line = none := by rw [lineEvent_of_ne_blank hb, hread]; rfl
        simp [hnone, hb]
      | ok ev =>
        have hsome : lineEvent K line = some ev := by rw [lineEvent_of_ne_blank hb, hread]; rfl
        rw [List.filterMap_cons_some hsome, chained_cons, Numbered, List.forall_mem_cons, hsome]
        dsimp only
        split_ifs with hprev hseq hhash
        · simp [hprev]
        · simp [hseq]
        · simp [hhash]
        · rw [ih]
          tauto

theorem verifyLines_total {n total : ℕ} (hok : (verifyLines K n total h q lines).firstFailure = none) :
    (verifyLines K n total h q lines).totalLines = total + (lines.filterMap (lineEvent K)).length := by
  induction lines generalizing n total h q with
  | nil => rfl
  | cons line lines ih =>
    rw [verifyLines] at hok ⊢
    by_cases hb : isBlank line = true
    · rw [if_pos hb] at hok ⊢
      rw [ih hok, List.filterMap_cons_none (lineEvent_blank hb)]
    · rw [if_neg hb] at hok ⊢
      cases hread : K.fromJson (String.ofList line) with
      | error e => simp [hread] at hok
      | ok ev =>
        have hsome : lineEvent K line = some ev := by rw [lineEvent_of_ne_blank hb, hread]; rfl
        simp only [hread] at hok ⊢
        split_ifs at hok ⊢
        rw [ih hok, List.filterMap_cons_some hsome, List.length_cons]
        omega

theorem verifyChainFromReader_ok : (verifyChainFromReader K text).firstFailure = none ↔
    Legible K (bufLines text.toList) ∧ Chained chainHeadPrevHash (events K text) ∧ Numbered 0 (events K text) ∧
      ∀ ev ∈ events K text, computeSelfHash K ev = ev.selfHash := verifyLines_ok

theorem verifyChainFromReader_total (hok : (verifyChainFromReader K text).firstFailure = none) :
    (verifyChainFromReader K text).totalLines = (events K text).length := by
  rw [verifyChainFromReader, verifyLines_total hok, Nat.zero_add, events]

@[simp] theorem readChainTail_none : readChainTail K none = none := rfl

@[simp] theorem readChainTail_empty : readChainTail K (some "") = none := by
  simp [readChainTail, bufLines]

/-- The tail is the hash of the last event. -/
theorem readChainTail_some : readChainTail K (some text) = (events K text).getLast?.map AuditEvent.selfHash := by
  have hfold : ∀ (lines : List (List Char)) (last : Option String), lines.foldl (readTailLine K) last =
      ((lines.filterMap (lineEvent K)).getLast?.map AuditEvent.selfHash).or last := by
    intro lines
    induction lines with
    | nil => exact fun last => rfl
    | cons line lines ih =>
      intro last
      rw [List.foldl_cons, ih, readTailLine]
      by_cases hb : isBlank line = true
      · rw [if_pos hb, List.filterMap_cons_none (lineEvent_blank hb)]
      · rw [if_neg hb]
        cases hread : K.fromJson (String.ofList line) with
        | error e =>
          have hnone : lineEvent K line = none := by rw [lineEvent_of_ne_blank hb, hread]; rfl
          rw [List.filterMap_cons_none hnone]
        | ok ev =>
          have hsome : lineEvent K line = some ev := by rw [lineEvent_of_ne_blank hb, hread]; rfl
          rw [List.filterMap_cons_some hsome, List.getLast?_cons]
          cases (lines.filterMap (lineEvent K)).getLast? <;> rfl
  rw [readChainTail, hfold, Option.or_none, events]

/-! ## What the writer appends -/

/-- A line the writer appends is one line that is read back as its event. -/
structure Readable (K : Crates) (ev : AuditEvent) : Prop where
  back : K.fromJson (K.toJson ev) = .ok ev
  newline : '\n' ∉ (K.toJson ev).toList
  carriage : '\r' ∉ (K.toJson ev).toList
  notBlank : isBlank (K.toJson ev).toList = false

/-- The text of appended events. -/
def render (K : Crates) (evs : List AuditEvent) : String := evs.foldl (fun text ev => text ++ K.toJson ev ++ "\n") ""

theorem render_concat : render K (evs ++ [ev]) = render K evs ++ K.toJson ev ++ "\n" := by
  rw [render, List.foldl_append]
  rfl

theorem toList_render : (render K evs).toList = evs.flatMap fun ev => (K.toJson ev).toList ++ ['\n'] := by
  induction evs using List.reverseRecOn with
  | nil => rfl
  | append_singleton evs ev ih =>
    rw [render_concat, String.toList_append, String.toList_append, ih, List.flatMap_append]
    simp

theorem bufLines_append {line rest : List Char} (hn : '\n' ∉ line) (hr : '\r' ∉ line) :
    bufLines (line ++ '\n' :: rest) = line :: bufLines rest := by
  induction line with
  | nil => rw [List.nil_append, bufLines]
  | cons c line ih =>
    rw [List.mem_cons, not_or] at hn hr
    rw [List.cons_append, bufLines]
    · rw [ih hn.2 hr.2]
    · exact fun h => hn.1 h.symm
    · exact fun _ h => absurd h.symm hr.1

theorem events_render (hread : ∀ ev ∈ evs, Readable K ev) : events K (render K evs) = evs := by
  rw [events, toList_render]
  induction evs with
  | nil => rfl
  | cons ev evs ih =>
    obtain ⟨hev, hevs⟩ := List.forall_mem_cons.mp hread
    have hline : lineEvent K (K.toJson ev).toList = some ev := by
      rw [lineEvent, hev.notBlank, String.ofList_toList, hev.back]
      rfl
    rw [List.flatMap_cons, List.append_assoc, List.singleton_append, bufLines_append hev.newline hev.carriage,
      List.filterMap_cons_some hline, ih hevs]

theorem legible_render (hread : ∀ ev ∈ evs, Readable K ev) : Legible K (bufLines (render K evs).toList) := by
  rw [toList_render]
  induction evs with
  | nil => exact fun _ h => absurd h List.not_mem_nil
  | cons ev evs ih =>
    obtain ⟨hev, hevs⟩ := List.forall_mem_cons.mp hread
    rw [List.flatMap_cons, List.append_assoc, List.singleton_append, bufLines_append hev.newline hev.carriage, legible_cons]
    refine ⟨fun _ => ?_, ih hevs⟩
    rw [lineEvent, hev.notBlank, String.ofList_toList, hev.back]
    rfl

/-! ## A table of hashes

For a fixed set of events the crates are a table: the JSON text of an event whose strings need no escapes, and the hash
of the text of each event in the table.
-/

def jsonString (s : String) : List Char := '\"' :: s.toList ++ ['\"']

def jsonObject (fields : List (String × Option (List Char))) : List Char :=
  Char.ofNat 0x7b ::
    [','].intercalate (fields.filterMap fun f => f.2.map fun v => jsonString f.1 ++ ':' :: v) ++ [Char.ofNat 0x7d]

def jsonText (ev : AuditEvent) : List Char :=
  jsonObject
    [("schema_version", some (Nat.toDigits 10 ev.schemaVersion.toNat)), ("timestamp", some (jsonString ev.timestamp)),
      ("sequence", some (Nat.toDigits 10 ev.sequence.toNat)),
      ("actor", some (jsonObject [("agent_id", some (jsonString ev.actor.agentId)),
        ("scope", ev.actor.scope.map jsonString), ("synthesis_source", some (jsonString ev.actor.synthesisSource))])),
      ("action", some (jsonString ev.action.asStr)),
      ("target", some (jsonObject [("memory_id", some (jsonString ev.target.memoryId)),
        ("namespace", some (jsonString ev.target.ns)), ("title", ev.target.title.map jsonString),
        ("tier", ev.target.tier.map jsonString), ("scope", ev.target.scope.map jsonString)])),
      ("outcome", some (jsonString ev.outcome.name)),
      ("auth", ev.auth.map fun a => jsonObject [("source_ip", a.sourceIp.map jsonString),
        ("mtls_fp", a.mtlsFp.map jsonString), ("api_key_id_hash", a.apiKeyIdHash.map jsonString)]),
      ("session_id", ev.sessionId.map jsonString), ("request_id", ev.requestId.map jsonString),
      ("error", ev.error.map jsonString), ("prev_hash", some (jsonString ev.prevHash)),
      ("self_hash", some (jsonString ev.selfHash))]

/-- The event of a table entry, with its hash. -/
def withHash (x : AuditEvent × String) : AuditEvent := { x.1 with selfHash := x.2 }

/-- The crates on the events of a table, which gives each event without its hash, and its hash. -/
def tableCrates (table : List (AuditEvent × String)) : Crates where
  toJson := fun ev => String.ofList (jsonText ev)
  fromJson := fun s =>
    match table.find? fun x => String.ofList (jsonText (withHash x)) = s with
    | some x => .ok (withHash x)
    | none => .error "no event of the table"
  sha256Hex := fun s => ((table.find? fun x => String.ofList (jsonText x.1) = s).map Prod.snd).getD ""

variable {table : List (AuditEvent × String)}

theorem computeSelfHash_tableCrates {digest : String}
    (h : (table.find? fun x => jsonText x.1 = jsonText { ev with selfHash := "" }).map Prod.snd = some digest) :
    computeSelfHash (tableCrates table) ev = digest := by
  simp [computeSelfHash, canonicalJsonForHash, tableCrates, String.ofList_inj, h]

/-- The event a builder makes of an entry of the table. -/
theorem buildEvent_tableCrates {b : EventBuilder} {now last digest : String} {q : UInt64}
    (h : (table.find? fun x => jsonText x.1 = jsonText (unhashedEvent b now last q)).map Prod.snd = some digest) :
    buildEvent (tableCrates table) b now last q = withHash (unhashedEvent b now last q, digest) := by
  have hhash : computeSelfHash (tableCrates table) (unhashedEvent b now last q) = digest := computeSelfHash_tableCrates h
  rw [buildEvent, hhash, withHash]

theorem fromJson_tableCrates {x : AuditEvent × String}
    (h : (table.find? fun x => jsonText (withHash x) = jsonText ev) = some x) :
    (tableCrates table).fromJson ((tableCrates table).toJson ev) = .ok (withHash x) := by
  simp [tableCrates, String.ofList_inj, h]

theorem readable_tableCrates
    (hback : ((table.find? fun x => jsonText (withHash x) = jsonText ev).map withHash) = some ev)
    (hplain : ∀ c ∈ jsonText ev, Validate.isWhitespace c = false) : Readable (tableCrates table) ev where
  back := by
    obtain ⟨x, hx, rfl⟩ := Option.map_eq_some_iff.mp hback
    exact fromJson_tableCrates hx
  newline := by
    rw [tableCrates, String.toList_ofList]
    exact fun h => absurd (hplain _ h) (by decide)
  carriage := by
    rw [tableCrates, String.toList_ofList]
    exact fun h => absurd (hplain _ h) (by decide)
  notBlank := by
    rw [tableCrates, String.toList_ofList, isBlank, List.all_eq_false]
    have hmem : Char.ofNat 0x7b ∈ jsonText ev := List.mem_cons_self
    exact ⟨_, hmem, by rw [hplain _ hmem]; exact Bool.false_ne_true⟩

def storeBuilder : EventBuilder := .new .store ⟨"alice", none, "explicit"⟩ ⟨"m1", "global", none, none, none⟩

def updateBuilder : EventBuilder := .new .update ⟨"alice", none, "explicit"⟩ ⟨"m1", "global", none, none, none⟩

def storeHash : String := "65bcddd12f00fe7de64dee932e3eaa707625ceecfb12d8482c069a74b33ecec3"

def updateHash : String := "4dbc8a272af3b801e118e27c1595b42582bc869a14bba13e2771f0df8a5cfe60"

def restartHash : String := "175c95a716418b0f1ce7ec02aa53bfabf6c1b7ee7d321f3e94513513e6b40a85"

def storeEntry : AuditEvent × String :=
  (unhashedEvent storeBuilder "2026-05-01T10:00:00+00:00" chainHeadPrevHash 1, storeHash)

def updateEntry : AuditEvent × String :=
  (unhashedEvent updateBuilder "2026-05-01T10:05:00+00:00" storeHash 2, updateHash)

def restartEntry : AuditEvent × String :=
  (unhashedEvent updateBuilder "2026-05-01T10:05:00+00:00" storeHash 1, restartHash)

def sampleTable : List (AuditEvent × String) := [storeEntry, updateEntry, restartEntry]

def sampleCrates : Crates := tableCrates sampleTable

/-- The texts differ in the timestamp or the sequence number, before their eightieth character. -/
theorem nodup_withHash_sample : (sampleTable.map fun x => jsonText (withHash x)).Nodup := by
  refine List.Nodup.of_map (List.take 80) ?_
  decide

theorem nodup_unhashed_sample : (sampleTable.map fun x => jsonText x.1).Nodup := by
  refine List.Nodup.of_map (List.take 80) ?_
  decide

theorem readable_sample : ∀ x ∈ sampleTable, Readable sampleCrates (withHash x) := by
  have hplain : (sampleTable.all fun x => (jsonText (withHash x)).all fun c => !Validate.isWhitespace c) = true := by
    decide +kernel
  intro x hx
  have hback := Relational.lookup_of_mem nodup_withHash_sample hx
  refine readable_tableCrates ?_ fun c hc => ?_
  · exact congrArg (Option.map withHash) hback
  · simpa using List.all_eq_true.mp (List.all_eq_true.mp hplain x hx) c hc

theorem digest_sample (x : AuditEvent × String) (hx : x ∈ sampleTable) :
    (sampleTable.find? fun y => jsonText y.1 = jsonText x.1).map Prod.snd = some x.2 :=
  congrArg (Option.map Prod.snd) (Relational.lookup_of_mem nodup_unhashed_sample hx)

theorem clear_sample {x : AuditEvent × String} (hx : x ∈ sampleTable) : { withHash x with selfHash := "" } = x.1 := by
  simp only [sampleTable, List.mem_cons, List.not_mem_nil, or_false] at hx
  rcases hx with rfl | rfl | rfl <;> rfl

theorem hashed_sample : ∀ x ∈ sampleTable, computeSelfHash sampleCrates (withHash x) = x.2 := by
  intro x hx
  refine computeSelfHash_tableCrates ?_
  rw [clear_sample hx]
  exact digest_sample x hx

theorem sampleLog_subset : [withHash storeEntry, withHash updateEntry] ⊆ sampleTable.map withHash := by
  simp [sampleTable]

theorem readable_of_subset (h : evs ⊆ sampleTable.map withHash) : ∀ ev ∈ evs, Readable sampleCrates ev := by
  intro ev hev
  obtain ⟨x, hx, rfl⟩ := List.mem_map.mp (h hev)
  exact readable_sample x hx

theorem hashed_of_subset (h : evs ⊆ sampleTable.map withHash) :
    ∀ ev ∈ evs, computeSelfHash sampleCrates ev = ev.selfHash := by
  intro ev hev
  obtain ⟨x, hx, rfl⟩ := List.mem_map.mp (h hev)
  exact hashed_sample x hx

theorem buildEvent_store : buildEvent sampleCrates storeBuilder "2026-05-01T10:00:00+00:00" chainHeadPrevHash 1 =
    withHash storeEntry := buildEvent_tableCrates (digest_sample storeEntry (by simp [sampleTable]))

theorem buildEvent_update : buildEvent sampleCrates updateBuilder "2026-05-01T10:05:00+00:00" storeHash 2 =
    withHash updateEntry := buildEvent_tableCrates (digest_sample updateEntry (by simp [sampleTable]))

theorem buildEvent_restart : buildEvent sampleCrates updateBuilder "2026-05-01T10:05:00+00:00" storeHash 1 =
    withHash restartEntry := buildEvent_tableCrates (digest_sample restartEntry (by simp [sampleTable]))

theorem readChainTail_store :
    readChainTail sampleCrates (some (sampleCrates.toJson (withHash storeEntry) ++ "\n")) = some storeHash := by
  have hevents : events sampleCrates (render sampleCrates [withHash storeEntry]) = [withHash storeEntry] :=
    events_render (readable_of_subset (by simp [sampleTable]))
  rw [render, List.foldl_cons, List.foldl_nil, String.empty_append] at hevents
  rw [readChainTail_some, hevents]
  rfl

end AiMemory.Audit
