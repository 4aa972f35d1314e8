import AiMemory.Hooks.Decision
import AiMemory.Hooks.Deltas

/-!
# Decisions survive the wire

A decision is written as `serde` derives it and read by hand. What is read back is the same decision (`parse_written`) when the
JSON layer reads back what it writes, for every decision that `parse` returns: those have a priority and a code of 32 bits and no
`null` for metadata (`inRange_of_parse`). Only an empty line, an empty object and the action `allow` are read as `allow`
(`allow_of_parse`).
-/

namespace AiMemory.Hooks

open Json

/-! ## What `serde` derives -/

def InI32 (n : ℤ) : Prop := -2 ^ 31 ≤ n ∧ n < 2 ^ 31

instance (n : ℤ) : Decidable (InI32 n) := inferInstanceAs (Decidable (_ ∧ _))

/-- A unit variant: its name, or an object with that key and `null`. -/
def decodeTier : Json → Option Tier
  | .str s | .obj [(s, .null)] => Tier.fromStr s
  | _ => none

def decodeI32 : Json → Option ℤ
  | .int n => if InI32 n then some n else none
  | _ => none

/-- `asF64` is the text of an integer as an `f64`. -/
def decodeF64 (asF64 : ℤ → String) : Json → Option String
  | .int n => some (asF64 n)
  | .float r => some r
  | _ => none

def decodeStrings : Json → Option (List String)
  | .arr items => items.mapM Json.asStr
  | _ => none

/-- An optional field: `null` is read as none. -/
def decodeField {α : Type} (decode : Json → Option α) : Option Json → Option (Option α)
  | none | some .null => some none
  | some v => (decode v).map some

def decodeFields (asF64 : ℤ → String) (field : String → Option Json) : Option MemoryDelta := do
  let tier ← decodeField decodeTier (field "tier")
  let ns ← decodeField Json.asStr (field "namespace")
  let title ← decodeField Json.asStr (field "title")
  let content ← decodeField Json.asStr (field "content")
  let tags ← decodeField decodeStrings (field "tags")
  let priority ← decodeField decodeI32 (field "priority")
  let confidence ← decodeField (decodeF64 asF64) (field "confidence")
  let source ← decodeField Json.asStr (field "source")
  let expiresAt ← decodeField Json.asStr (field "expires_at")
  let metadata ← decodeField some (field "metadata")
  pure ⟨tier, ns, title, content, tags, priority, confidence, source, expiresAt, metadata⟩

def deltaNames : List String :=
  ["tier", "namespace", "title", "content", "tags", "priority", "confidence", "source", "expires_at", "metadata"]

/-- `MemoryDelta::deserialize`: an object, or an array with an item for each field. -/
def decodeDelta (asF64 : ℤ → String) : Json → Option MemoryDelta
  | .obj fields => decodeFields asF64 (getField · fields)
  | .arr items => if items.length = deltaNames.length then decodeFields asF64 (getField · (deltaNames.zip items)) else none
  | _ => none

/-- The derived readers, but for the texts of their errors. -/
structure Serde.Derived (serde : Serde) (asF64 : ℤ → String) : Prop where
  memoryDelta : ∀ v d, serde.memoryDelta v = .ok d ↔ decodeDelta asF64 v = some d
  strings : ∀ v l, serde.strings v = .ok l ↔ decodeStrings v = some l

def HookDecision.rows : HookDecision → List (String × Option Json)
  | .allow => [("action", some (.str "allow"))]
  | .modify delta => [("action", some (.str "modify")), ("delta", some (.obj (overlay delta.rows [])))]
  | .deny reason code => [("action", some (.str "deny")), ("reason", some (.str reason)), ("code", some (.int code))]
  | .askUser prompt options default => [("action", some (.str "ask_user")), ("prompt", some (.str prompt)),
      ("options", some (.arr (options.map .str))), ("default", default.map .str)]

/-- `serde_json::to_value` of a decision. -/
def HookDecision.toValue (d : HookDecision) : Json := .obj (overlay d.rows [])

/-- The JSON layer reads back the text it writes for a decision, which is that of an object and has no white space around it. -/
structure Serde.ReadsBack (serde : Serde) (text : HookDecision → String) (d : HookDecision) : Prop where
  compact : ∃ body, body ≠ [] ∧ (text d).toList = '\x7b' :: body ++ ['\x7d']
  value : serde.fromStr (text d) = .ok d.toValue

/-! ## Reading fields back -/

section Fields

variable {k : String} {v : Option Json} {obj : List (String × Json)} {rows : List (String × Option Json)}

theorem getField_overlay_of_not_mem (hk : k ∉ rows.map Prod.fst) : getField k (overlay rows obj) = getField k obj := by
  induction rows generalizing obj with
  | nil => rfl
  | cons row rows ih =>
    rw [List.map_cons, List.mem_cons, not_or] at hk
    rw [overlay_cons, ih hk.2]
    cases row.2 with
    | none => rfl
    | some w => exact getField_setField_of_ne hk.1 w obj

theorem getField_overlay (hn : (rows.map Prod.fst).Nodup) (h : (k, v) ∈ rows) :
    getField k (overlay rows obj) = v.or (getField k obj) := by
  induction rows generalizing obj with
  | nil => cases h
  | cons row rows ih =>
    rw [List.map_cons, List.nodup_cons] at hn
    rw [overlay_cons]
    rcases List.mem_cons.mp h with rfl | h
    · rw [getField_overlay_of_not_mem hn.1]
      cases v with
      | none => rfl
      | some w => exact getField_setField k w obj
    · have hk : k ≠ row.1 := by
        rintro rfl
        exact hn.1 (List.mem_map.mpr ⟨_, h, rfl⟩)
      rw [ih hn.2 h]
      cases row.2 with
      | none => rfl
      | some w => exact congrArg v.or (getField_setField_of_ne hk w obj)

theorem getField_overlay_nil (hn : (rows.map Prod.fst).Nodup) (h : (k, v) ∈ rows) : getField k (overlay rows []) = v := by
  rw [getField_overlay hn h]
  exact Option.or_none

end Fields

/-! ## Deltas -/

section Deltas

variable {α : Type} {asF64 : ℤ → String} {d : MemoryDelta} {v : Json}

theorem nodup_rows (d : MemoryDelta) : (d.rows.map Prod.fst).Nodup := by
  show deltaNames.Nodup
  decide

theorem decodeField_map {decode : Json → Option α} (encode : α → Json) (o : Option α) (hnull : ∀ a ∈ o, encode a ≠ .null) (h : ∀ a ∈ o, decode (encode a) = some a) :
    decodeField decode (o.map encode) = some o := by
  cases o with
  | none => rfl
  | some a =>
    have hne := hnull a rfl
    rw [Option.map_some, decodeField]
    · rw [h a rfl]
      rfl
    · exact hne

@[simp] theorem tier_fromStr_asStr (t : Tier) : Tier.fromStr t.asStr = some t := by cases t <;> rfl

theorem decodeStrings_map (l : List String) : decodeStrings (.arr (l.map .str)) = some l := by
  show (l.map Json.str).mapM Json.asStr = some l
  induction l with
  | nil => rfl
  | cons s l ih =>
    rw [List.map_cons, List.mapM_cons, ih]
    rfl

/-- What the fields of a delta can be: a priority of 32 bits, and metadata other than `null`. -/
structure MemoryDelta.InRange (d : MemoryDelta) : Prop where
  priority : ∀ p ∈ d.priority, InI32 p
  metadata : ∀ m ∈ d.metadata, m ≠ .null

theorem decodeDelta_written (h : d.InRange) : decodeDelta asF64 (.obj (overlay d.rows [])) = some d := by
  have hfields : ∀ row ∈ d.rows, getField row.1 (overlay d.rows []) = row.2 := fun row => getField_overlay_nil (nodup_rows d)
  have hstr : ∀ o : Option String, decodeField Json.asStr (o.map .str) = some o := fun o =>
    decodeField_map .str o (fun _ _ => nofun) fun _ _ => rfl
  have htier : decodeField decodeTier (d.tier.map fun t => .str t.asStr) = some d.tier :=
    decodeField_map _ d.tier (fun _ _ => nofun) fun t _ => tier_fromStr_asStr t
  have htags : decodeField decodeStrings (d.tags.map fun ts => .arr (ts.map .str)) = some d.tags :=
    decodeField_map _ d.tags (fun _ _ => nofun) fun ts _ => decodeStrings_map ts
  have hpriority : decodeField decodeI32 (d.priority.map .int) = some d.priority :=
    decodeField_map _ d.priority (fun _ _ => nofun) fun p hp => if_pos (h.priority p hp)
  have hconfidence : decodeField (decodeF64 asF64) (d.confidence.map .float) = some d.confidence :=
    decodeField_map _ d.confidence (fun _ _ => nofun) fun _ _ => rfl
  have hmetadata : decodeField some d.metadata = some d.metadata := by
    have hmap : decodeField some (d.metadata.map id) = some d.metadata :=
      decodeField_map id d.metadata h.metadata fun _ _ => rfl
    rwa [Option.map_id, id] at hmap
  generalize overlay d.rows [] = obj at hfields
  simp only [MemoryDelta.rows, List.forall_mem_cons] at hfields
  obtain ⟨h1, h2, h3, h4, h5, h6, h7, h8, h9, h10, -⟩ := hfields
  rw [decodeDelta, decodeFields]
  simp only [h1, h2, h3, h4, h5, h6, h7, h8, h9, h10, htier, hstr, htags, hpriority, hconfidence, hmetadata]
  rfl

/-- A field that was read had a value other than `null`. -/
theorem decodeField_eq_some {decode : Json → Option α} {o : Option Json} {a : α} (h : decodeField decode o = some (some a)) :
    ∃ v, v ≠ .null ∧ decode v = some a := by
  unfold decodeField at h
  split at h
  · cases h
  · cases h
  · rename_i v hv
    obtain ⟨a', ha, he⟩ := Option.map_eq_some_iff.mp h
    cases he
    exact ⟨v, hv, ha⟩

theorem inI32_of_decodeI32 {n : ℤ} (h : decodeI32 v = some n) : InI32 n := by
  unfold decodeI32 at h
  split at h
  · rw [Option.ite_none_right_eq_some] at h
    exact Option.some.inj h.2 ▸ h.1
  · cases h

theorem inRange_of_decodeFields {field : String → Option Json} (h : decodeFields asF64 field = some d) : d.InRange := by
  unfold decodeFields at h
  simp only [Option.bind_eq_bind, Option.bind_eq_some_iff] at h
  obtain ⟨_, -, _, -, _, -, _, -, _, -, priority, hpriority, _, -, _, -, _, -, metadata, hmetadata, hd⟩ := h
  cases hd
  refine ⟨fun p hp => ?_, fun m hm => ?_⟩
  · cases hp
    obtain ⟨v, -, hv⟩ := decodeField_eq_some hpriority
    exact inI32_of_decodeI32 hv
  · cases hm
    obtain ⟨v, hne, hv⟩ := decodeField_eq_some hmetadata
    cases hv
    exact hne

theorem inRange_of_decodeDelta (h : decodeDelta asF64 v = some d) : d.InRange := by
  unfold decodeDelta at h
  split at h
  · exact inRange_of_decodeFields h
  · split_ifs at h
    exact inRange_of_decodeFields h
  · cases h

end Deltas

/-! ## Decisions -/

section Decisions

variable {serde : Serde} {asF64 : ℤ → String} {line : String} {d : HookDecision} {obj : Json}

/-- What a decision that is read can hold. -/
def HookDecision.InRange : HookDecision → Prop
  | .modify delta => delta.InRange
  | .deny _ code => InI32 code
  | _ => True

theorem inI32_denyCode (obj : Json) : InI32 (denyCode obj) := by
  have hdefault : InI32 defaultDenyCode := by decide
  unfold denyCode
  split
  · split_ifs with hcode
    · exact hcode
    · exact hdefault
  · exact hdefault

theorem mapError_eq_ok {ε ε' α : Type} {x : Except ε α} {f : ε → ε'} {a : α} : x.mapError f = .ok a ↔ x = .ok a := by
  cases x <;> simp [Except.mapError]

theorem ofAction_cases {action : String} (h : HookDecision.ofAction serde obj action = .ok d) :
    (action = "allow" ∧ d = .allow) ∨ (∃ v delta, serde.memoryDelta v = .ok delta ∧ d = .modify delta) ∨
    (∃ reason, d = .deny reason (denyCode obj)) ∨ ∃ prompt options default, d = .askUser prompt options default := by
  unfold HookDecision.ofAction at h
  split at h
  · cases h
    exact Or.inl ⟨rfl, rfl⟩
  · simp only [bind_eq_ok_iff, mapError_eq_ok] at h
    obtain ⟨v, -, delta, hdelta, hd⟩ := h
    cases hd
    exact Or.inr (Or.inl ⟨v, delta, hdelta, rfl⟩)
  · simp only [bind_eq_ok_iff] at h
    obtain ⟨reason, -, hd⟩ := h
    cases hd
    exact Or.inr (Or.inr (Or.inl ⟨reason, rfl⟩))
  · simp only [bind_eq_ok_iff, mapError_eq_ok] at h
    obtain ⟨prompt, -, v, -, options, -, hd⟩ := h
    split at hd
    · cases hd
      exact Or.inr (Or.inr (Or.inr ⟨_, _, _, rfl⟩))
    · cases hd
      exact Or.inr (Or.inr (Or.inr ⟨_, _, _, rfl⟩))
    · simp only [bind_eq_ok_iff] at hd
      obtain ⟨default, -, hd⟩ := hd
      cases hd
      exact Or.inr (Or.inr (Or.inr ⟨_, _, _, rfl⟩))
  · cases h

/-- What `parse` can return: an empty line or object, or what an action says. -/
theorem parse_cases (h : HookDecision.parse serde line = .ok d) :
    (d = .allow ∧ (Validate.trim line = [] ∨ Validate.trim line = "\x7b\x7d".toList ∨
      serde.fromStr (String.ofList (Validate.trim line)) = .ok (.obj []))) ∨
    ∃ fields action, serde.fromStr (String.ofList (Validate.trim line)) = .ok (.obj fields) ∧
      getField "action" fields = some (.str action) ∧ HookDecision.ofAction serde (.obj fields) action = .ok d := by
  unfold HookDecision.parse at h
  simp only at h
  split_ifs at h with hempty
  · cases h
    rcases hempty with hempty | hempty
    · exact Or.inl ⟨rfl, Or.inl hempty⟩
    · exact Or.inl ⟨rfl, Or.inr (Or.inl hempty)⟩
  · split at h
    · cases h
    · rename_i hv
      cases h
      exact Or.inl ⟨rfl, Or.inr (Or.inr hv)⟩
    · rename_i fields _ hv
      simp only [bind_eq_ok_iff] at h
      obtain ⟨v, hget, action, hstr, h⟩ := h
      refine Or.inr ⟨fields, action, hv, ?_, h⟩
      cases hfield : getField "action" fields with
      | none =>
        rw [Json.get, hfield] at hget
        cases hget
      | some w =>
        rw [Json.get, hfield] at hget
        cases hget
        unfold requiredStr at hstr
        cases v <;> cases hstr
        rfl
    · cases h

theorem inRange_of_parse (hserde : serde.Derived asF64) (h : HookDecision.parse serde line = .ok d) : d.InRange := by
  rcases parse_cases h with ⟨rfl, -⟩ | ⟨fields, action, -, -, h⟩
  · trivial
  · rcases ofAction_cases h with ⟨-, rfl⟩ | ⟨v, delta, hdelta, rfl⟩ | ⟨reason, rfl⟩ | ⟨prompt, options, default, rfl⟩
    · trivial
    · exact inRange_of_decodeDelta ((hserde.memoryDelta v delta).mp hdelta)
    · exact inI32_denyCode _
    · trivial

/-! ## Reading back -/

theorem trim_compact {body : List Char} {text : String} (h : text.toList = '\x7b' :: body ++ ['\x7d']) :
    Validate.trim text = text.toList := by
  have hopen : Validate.isWhitespace '\x7b' = false := by decide
  have hclose : Validate.isWhitespace '\x7d' = false := by decide
  rw [Validate.trim, h, List.cons_append, List.dropWhile_cons_of_neg (by simp [hopen]), List.reverse_cons, List.reverse_append]
  simp [hclose]

theorem nodup_decisionRows (d : HookDecision) : (d.rows.map Prod.fst).Nodup := by
  cases d <;> (simp only [HookDecision.rows, List.map_cons, List.map_nil]; decide)

/-- The arm of the action reads the decision back. -/
theorem ofAction_written (hserde : serde.Derived asF64) (hd : d.InRange) :
    ∃ action, getField "action" (overlay d.rows []) = some (.str action) ∧
      HookDecision.ofAction serde d.toValue action = .ok d := by
  have hfields : ∀ row ∈ d.rows, getField row.1 (overlay d.rows []) = row.2 := fun row =>
    getField_overlay_nil (nodup_decisionRows d)
  unfold HookDecision.toValue
  generalize overlay d.rows [] = obj at hfields
  cases d with
  | allow =>
    simp only [HookDecision.rows, List.forall_mem_cons] at hfields
    exact ⟨"allow", hfields.1, rfl⟩
  | modify delta =>
    simp only [HookDecision.rows, List.forall_mem_cons] at hfields
    obtain ⟨haction, hdelta, -⟩ := hfields
    refine ⟨"modify", haction, ?_⟩
    have hread := (hserde.memoryDelta (.obj (overlay delta.rows [])) delta).mpr (decodeDelta_written hd)
    simp only [HookDecision.ofAction, bind_eq_ok_iff, mapError_eq_ok]
    exact ⟨_, by rw [required, Json.get, hdelta]; rfl, delta, hread, rfl⟩
  | deny reason code =>
    simp only [HookDecision.rows, List.forall_mem_cons] at hfields
    obtain ⟨haction, hreason, hcode, -⟩ := hfields
    refine ⟨"deny", haction, ?_⟩
    have hrange : denyCode (.obj obj) = code := by
      rw [denyCode, Json.get, hcode]
      exact if_pos hd
    simp only [HookDecision.ofAction, bind_eq_ok_iff]
    exact ⟨reason, ⟨_, by rw [required, Json.get, hreason]; rfl, rfl⟩, by rw [hrange]⟩
  | askUser prompt options default =>
    simp only [HookDecision.rows, List.forall_mem_cons] at hfields
    obtain ⟨haction, hprompt, hoptions, hdefault, -⟩ := hfields
    refine ⟨"ask_user", haction, ?_⟩
    have hread := (hserde.strings (.arr (options.map .str)) options).mpr (decodeStrings_map options)
    simp only [HookDecision.ofAction, bind_eq_ok_iff, mapError_eq_ok]
    refine ⟨prompt, ⟨_, by rw [required, Json.get, hprompt]; rfl, rfl⟩, _, by rw [required, Json.get, hoptions]; rfl, options,
      hread, ?_⟩
    rw [Json.get, hdefault]
    cases default with
    | none => rfl
    | some choice => rfl

theorem parse_written {text : HookDecision → String} (hserde : serde.Derived asF64) (hd : d.InRange)
    (hread : serde.ReadsBack text d) : HookDecision.parse serde (text d) = .ok d := by
  obtain ⟨body, hbody, htext⟩ := hread.compact
  obtain ⟨action, haction, h⟩ := ofAction_written hserde hd
  have hne : ¬ ((text d).toList = [] ∨ (text d).toList = "\x7b\x7d".toList) := by
    rw [htext]
    rintro (hnil | hempty)
    · cases hnil
    · cases body with
      | nil => exact hbody rfl
      | cons c body => exact absurd (congrArg List.length hempty) (by simp)
  unfold HookDecision.parse
  simp only [trim_compact htext, String.ofList_toList, hread.value, if_neg hne]
  unfold HookDecision.toValue at h ⊢
  cases hobj : overlay d.rows [] with
  | nil =>
    rw [hobj] at haction
    cases haction
  | cons f fs =>
    rw [hobj] at haction h
    simp only [bind_eq_ok_iff]
    exact ⟨_, by rw [Json.get, haction]; rfl, action, rfl, h⟩

/-- Nothing but an empty line, an empty object or the action `allow` is read as `allow`. -/
theorem allow_of_parse (h : HookDecision.parse serde line = .ok .allow) :
    Validate.trim line = [] ∨ Validate.trim line = "\x7b\x7d".toList ∨
    ∃ fields, serde.fromStr (String.ofList (Validate.trim line)) = .ok (.obj fields) ∧
      (fields = [] ∨ getField "action" fields = some (.str "allow")) := by
  rcases parse_cases h with ⟨-, hempty | hempty | hempty⟩ | ⟨fields, action, hv, haction, h⟩
  · exact Or.inl hempty
  · exact Or.inr (Or.inl hempty)
  · exact Or.inr (Or.inr ⟨[], hempty, Or.inl rfl⟩)
  · rcases ofAction_cases h with ⟨rfl, -⟩ | ⟨_, _, -, hd⟩ | ⟨_, hd⟩ | ⟨_, _, _, hd⟩
    · exact Or.inr (Or.inr ⟨fields, hv, Or.inr haction⟩)
    all_goals cases hd

end Decisions

/-- Every decision that `parse` returns is read back as itself, if the JSON layer reads back the text it writes for it; and `allow`
is never the reading of anything else. -/
theorem decisions_survive (serde : Serde) (asF64 : ℤ → String) (text : HookDecision → String) (hserde : serde.Derived asF64)
    (line : String) :
    (∀ d, HookDecision.parse serde line = .ok d → serde.ReadsBack text d → HookDecision.parse serde (text d) = .ok d) ∧
    (HookDecision.parse serde line = .ok .allow → Validate.trim line = [] ∨ Validate.trim line = "\x7b\x7d".toList ∨
      ∃ fields, serde.fromStr (String.ofList (Validate.trim line)) = .ok (.obj fields) ∧
        (fields = [] ∨ getField "action" fields = some (.str "allow"))) :=
  ⟨fun _ h hread => parse_written hserde (inRange_of_parse hserde h) hread, allow_of_parse⟩

/-! ## On a few lines -/

def plainF64 (n : ℤ) : String := s!"{n}.0"

/-- Some lines and what `serde_json` reads in them. Its default number parser rounds twice, so it reads `0.9190212329005018` as the
`f64` that is written `0.9190212329005017`, and that text as the one below. -/
def readings : List (String × Json) :=
  [("\x7b\"action\":\"deny\",\"reason\":\"no\"\x7d", .obj [("action", .str "deny"), ("reason", .str "no")]),
    ("\x7b\"action\":\"deny\",\"reason\":\"no\",\"code\":403\x7d",
      .obj [("action", .str "deny"), ("code", .int 403), ("reason", .str "no")]),
    ("\x7b\"action\":\"modify\",\"delta\":\x7b\"confidence\":0.9190212329005018\x7d\x7d",
      .obj [("action", .str "modify"), ("delta", .obj [("confidence", .float "0.9190212329005017")])]),
    ("\x7b\"action\":\"modify\",\"delta\":\x7b\"confidence\":0.9190212329005017\x7d\x7d",
      .obj [("action", .str "modify"), ("delta", .obj [("confidence", .float "0.9190212329005016")])])]

def sampleSerde : Serde where
  toVec _ _ := []
  oneLine _ _ := List.not_mem_nil
  fromStr s := (readings.lookup s).elim (.error "expected value at line 1 column 1") .ok
  memoryDelta v := (decodeDelta plainF64 v).elim (.error "invalid type") .ok
  strings v := (decodeStrings v).elim (.error "invalid type") .ok

/-- The texts `serde_json` writes for two decisions. -/
def sampleText : HookDecision → String
  | .deny _ _ => "\x7b\"action\":\"deny\",\"reason\":\"no\",\"code\":403\x7d"
  | _ => "\x7b\"action\":\"modify\",\"delta\":\x7b\"confidence\":0.9190212329005017\x7d\x7d"

theorem elim_eq_ok {ε α : Type} {e : ε} {o : Option α} {a : α} : o.elim (.error e) .ok = (.ok a : Except ε α) ↔ o = some a := by
  cases o <;> simp

theorem sampleSerde_derived : sampleSerde.Derived plainF64 := ⟨fun _ _ => elim_eq_ok, fun _ _ => elim_eq_ok⟩

theorem decisions_survive_deny :
    HookDecision.parse sampleSerde "\x7b\"action\":\"deny\",\"reason\":\"no\",\"code\":403\x7d" = .ok (.deny "no" 403) :=
  (decisions_survive sampleSerde plainF64 sampleText sampleSerde_derived
    "\x7b\"action\":\"deny\",\"reason\":\"no\"\x7d").1 (.deny "no" 403) rfl
    ⟨⟨"\"action\":\"deny\",\"reason\":\"no\",\"code\":403".toList, by decide, by decide⟩, rfl⟩

/-- A confidence that is read is written, and read back as another. -/
theorem confidence_not_read_back :
    ∃ d, HookDecision.parse sampleSerde
        "\x7b\"action\":\"modify\",\"delta\":\x7b\"confidence\":0.9190212329005018\x7d\x7d" = .ok d ∧
      HookDecision.parse sampleSerde (sampleText d) ≠ .ok d := by
  refine ⟨.modify { MemoryDelta.empty with confidence := some "0.9190212329005017" }, rfl, fun h => ?_⟩
  have hback : HookDecision.parse sampleSerde
      "\x7b\"action\":\"modify\",\"delta\":\x7b\"confidence\":0.9190212329005017\x7d\x7d" =
        .ok (.modify { MemoryDelta.empty with confidence := some "0.9190212329005016" }) := rfl
  have hsame := hback.symm.trans h
  simp at hsame

end AiMemory.Hooks
