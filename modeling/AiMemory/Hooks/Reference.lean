import AiMemory.Hooks.Detector

/-!
# The reference hooks in a chain

The two tools write `allow`, or a modification of the metadata alone. In a chain of them, in any number and order and whatever
times out, every hook is asked with the payload as it came or as one extraction leaves it (`reference_chain`): an extraction
from an extracted payload finds what is there, and what the detector proposes after a store is degraded to `allow`.
-/

namespace AiMemory.Hooks

open Json

/-! ## The decisions of the tools -/

inductive Tool where
  | transcriptExtractor (settings : Extractor.Settings)
  | autoLinkDetector (settings : Detector.Settings)

def ofMetadata (metadata : Json) : MemoryDelta := { MemoryDelta.empty with metadata := some metadata }

/-- The metadata a tool writes for an event, if it writes any. -/
def Tool.metadata (event : HookEvent) (payload : Json) : Tool → Option Json
  | .transcriptExtractor s =>
    if Extractor.HookEventTag.ofEvent event = .other ∨ Extractor.candidates s payload = [] then none
    else some (metadataWith payload "extracted_memories" (.arr ((Extractor.candidates s payload).map (Extractor.toValue s.text))))
  | .autoLinkDetector s =>
    if Detector.HookEventTag.ofEvent event = .other ∨ Detector.proposals s payload = [] then none
    else some (metadataWith payload "auto_related_links"
      (.arr ((Detector.proposals s payload).map (Detector.AutoRelatedLink.toValue s.text))))

def Tool.decision (event : HookEvent) (payload : Json) (t : Tool) : HookDecision :=
  (t.metadata event payload).elim .allow fun m => .modify (ofMetadata m)

def Tool.buildDecision (event : HookEvent) (payload : Json) : Tool → Json
  | .transcriptExtractor s => Extractor.buildDecision s (.ofEvent event) payload
  | .autoLinkDetector s => Detector.buildDecision s (.ofEvent event) payload

theorem overlay_ofMetadata (m : Json) (obj : List (String × Json)) :
    overlay (ofMetadata m).rows obj = setField "metadata" m obj := rfl

theorem modified_eq (m : Json) : modified m = (HookDecision.modify (ofMetadata m)).toValue := by
  have hne : ¬"action" = "delta" := by decide
  have hlt : ¬"delta" < "action" := by decide
  simp only [modified, HookDecision.toValue, HookDecision.rows, overlay_ofMetadata]
  simp [overlay, setField, getField, insertField, hne, hlt]

theorem Tool.buildDecision_eq (event : HookEvent) (payload : Json) (t : Tool) :
    t.buildDecision event payload = (t.decision event payload).toValue := by
  cases t with
  | transcriptExtractor s =>
    rw [Tool.buildDecision, Extractor.buildDecision, Tool.decision, Tool.metadata]
    split
    · next h => rw [if_pos (.inl h)]; rfl
    · next h =>
      cases hc : Extractor.candidates s payload with
      | nil => rw [if_pos (.inr rfl)]; rfl
      | cons c cs => rw [if_neg (not_or.mpr ⟨h, List.cons_ne_nil _ _⟩)]; exact modified_eq _
  | autoLinkDetector s =>
    rw [Tool.buildDecision, Detector.buildDecision, Tool.decision, Tool.metadata]
    split
    · next h => rw [if_pos (.inl h)]; rfl
    · next h =>
      cases hc : Detector.proposals s payload with
      | nil => rw [if_pos (.inr rfl)]; rfl
      | cons c cs => rw [if_neg (not_or.mpr ⟨h, List.cons_ne_nil _ _⟩)]; exact modified_eq _

def fieldsOf : Json → List (String × Json)
  | .obj fields => fields
  | _ => []

theorem metadataWith_eq (payload : Json) (k : String) (v : Json) :
    metadataWith payload k v = .obj (setField k v (fieldsOf ((payload.get "metadata").getD (.obj [])))) := by
  unfold metadataWith
  cases (payload.get "metadata").getD (.obj []) <;> rfl

theorem metadataWith_ne_null (payload : Json) (k : String) (v : Json) : metadataWith payload k v ≠ .null := by
  rw [metadataWith_eq]
  intro h
  cases h

theorem Tool.metadata_ne_null {event : HookEvent} {payload m : Json} {t : Tool} (h : t.metadata event payload = some m) :
    m ≠ .null := by
  cases t with
  | transcriptExtractor s =>
    obtain ⟨-, he⟩ := Option.ite_none_left_eq_some.mp h
    rw [← Option.some.inj he]
    exact metadataWith_ne_null _ _ _
  | autoLinkDetector s =>
    obtain ⟨-, he⟩ := Option.ite_none_left_eq_some.mp h
    rw [← Option.some.inj he]
    exact metadataWith_ne_null _ _ _

theorem inRange_ofMetadata {m : Json} (h : m ≠ .null) : (ofMetadata m).InRange where
  priority p hp := (Option.not_mem_none p hp).elim
  metadata m' hm' := by
    cases hm'
    exact h

theorem Tool.parse_line {serde : Serde} {asF64 : ℤ → String} {text : Json → String} {event : HookEvent}
    {payload : Json} {t : Tool}
    (hserde : serde.Derived asF64) (hread : serde.ReadsBack (fun d => text d.toValue) (t.decision event payload)) :
    parseDecisionLine serde (text (t.buildDecision event payload)) = .ok (t.decision event payload) := by
  have hrange : (t.decision event payload).InRange := by
    unfold Tool.decision
    cases hm : t.metadata event payload with
    | none => trivial
    | some m => exact inRange_ofMetadata (t.metadata_ne_null hm)
  rw [Tool.buildDecision_eq, parseDecisionLine, mapError_eq_ok]
  have hparse := parse_written hserde hrange hread
  exact hparse

/-! ## Extractions over an extracted payload -/

section Metadata

variable {fields : List (String × Json)} {j k : String} {v w : Json}

def withMetadata (payload metadata : Json) : Json := applyDeltaToPayload payload (ofMetadata metadata)

theorem withMetadata_eq (payload m : Json) : withMetadata payload m = .obj (setField "metadata" m (fieldsOf payload)) := by
  cases payload <;> exact congrArg Json.obj (insertFields_filterMap (ofMetadata m).rows _)

theorem withMetadata_withMetadata (payload m m' : Json) :
    withMetadata (withMetadata payload m) m' = withMetadata payload m' := by
  rw [withMetadata_eq, withMetadata_eq, withMetadata_eq, fieldsOf, setField_setField]

theorem get_withMetadata (payload m : Json) : (withMetadata payload m).get "metadata" = some m := by
  rw [withMetadata_eq]
  exact getField_setField "metadata" m _

theorem get_withMetadata_of_ne (hk : k ≠ "metadata") (m : Json) :
    (withMetadata (.obj fields) m).get k = (Json.obj fields).get k := by
  exact getField_setField_of_ne hk m fields

theorem get_metadataWith_of_ne {payload : Json} (hjk : j ≠ k) (v : Json) :
    (metadataWith payload k v).get j = (payload.get "metadata").bind fun m => m.get j := by
  rw [metadataWith_eq]
  refine (getField_setField_of_ne hjk v _).trans ?_
  cases payload.get "metadata" with
  | none => rfl
  | some m => cases m <;> rfl

theorem metadataWith_withMetadata (payload : Json) (k : String) (v w : Json) :
    metadataWith (withMetadata payload (metadataWith payload k v)) k w = metadataWith payload k w := by
  rw [metadataWith_eq, get_withMetadata, metadataWith_eq, metadataWith_eq, Option.getD_some, fieldsOf, setField_setField]

end Metadata

theorem Extractor.candidates_withMetadata (s : Extractor.Settings) (fields : List (String × Json)) (v : Json) :
    candidates s (withMetadata (.obj fields) (metadataWith (.obj fields) "extracted_memories" v)) =
      candidates s (.obj fields) := by
  have hkind : ((withMetadata (.obj fields) (metadataWith (.obj fields) "extracted_memories" v)).get "metadata").bind
      (fun m => m.get "kind") = ((Json.obj fields).get "metadata").bind fun m => m.get "kind" := by
    rw [get_withMetadata]
    exact get_metadataWith_of_ne (by decide) v
  unfold candidates looksLikeTranscript
  rw [hkind, get_withMetadata_of_ne (by decide), get_withMetadata_of_ne (by decide)]

theorem Extractor.exists_fields {s : Extractor.Settings} {payload : Json} (h : candidates s payload ≠ []) :
    ∃ fields, payload = .obj fields := by
  cases payload with
  | obj fields => exact ⟨fields, rfl⟩
  | _ => exact absurd rfl h

/-- An extraction: the metadata that some extractor writes for an event before a store. -/
def Extracts (event : HookEvent) (payload m : Json) (t : Tool) : Prop :=
  (∃ s, t = .transcriptExtractor s) ∧ isPreEvent event = true ∧ t.metadata event payload = some m

theorem Extracts.metadata_eq {event : HookEvent} {payload m : Json} {t : Tool} (h : Extracts event payload m t) (t' : Tool) :
    t'.metadata event (withMetadata payload m) = t'.metadata event payload := by
  obtain ⟨⟨s, rfl⟩, hpre, hm⟩ := h
  rw [Tool.metadata] at hm
  split at hm
  · cases hm
  next hgo =>
  cases hm
  obtain ⟨fields, rfl⟩ := Extractor.exists_fields (not_or.mp hgo).2
  cases t' with
  | transcriptExtractor s' =>
    rw [Tool.metadata, Tool.metadata, Extractor.candidates_withMetadata, metadataWith_withMetadata]
  | autoLinkDetector s' =>
    have hother : Detector.HookEventTag.ofEvent event = .other := by
      cases event <;> first | rfl | cases hpre
    rw [Tool.metadata, Tool.metadata, if_pos (.inl hother), if_pos (.inl hother)]

/-! ## A chain of them -/

def afterHook (event : HookEvent) (acc : Acc) (cfg : HookConfig) (outcome : Outcome) : Acc :=
  match raced outcome with
  | none => acc
  | some fireResult =>
    match decided event cfg fireResult with
    | .error _ => acc
    | .ok decision => accept cfg acc decision

/-- Each hook is one of the tools: what it returns, if it returns anything, is read off the line that the tool writes for the
payload it is asked with. -/
def Answers (serde : Serde) (text : Json → String) (tools : HookConfig → Tool) (event : HookEvent) :
    Acc → List (HookConfig × Outcome) → Prop
  | _, [] => True
  | acc, (cfg, outcome) :: rest =>
    (∀ d, outcome = .returned d →
      serde.ReadsBack (fun d => text d.toValue) ((tools cfg).decision event acc.payload) ∧
      parseDecisionLine serde (text ((tools cfg).buildDecision event acc.payload)) = .ok d) ∧
    Answers serde text tools event (afterHook event acc cfg outcome) rest

/-- The accumulators of a chain of tools: nothing was changed, or one extraction was made. -/
structure Acc.Extracted (tools : HookConfig → Tool) (event : HookEvent) (payload : Json) (acc : Acc) : Prop where
  queue : acc.queue = []
  state : acc.payload = payload ∧ acc.modified = false ∧ acc.delta = .empty ∨
    ∃ cfg m, Extracts event payload m (tools cfg) ∧ acc.payload = withMetadata payload m ∧ acc.modified = true ∧
      acc.delta = ofMetadata m

section Chain

variable {serde : Serde} {asF64 : ℤ → String} {text : Json → String} {tools : HookConfig → Tool} {event : HookEvent}
  {payload : Json} {acc : Acc} {cfg : HookConfig} {chain : List (HookConfig × Outcome)}

theorem Acc.Extracted.metadata_eq (h : acc.Extracted tools event payload) (t : Tool) :
    t.metadata event acc.payload = t.metadata event payload := by
  obtain ⟨hp, -, -⟩ | ⟨cfg, m, hm, hp, -, -⟩ := h.state
  · rw [hp]
  · rw [hp, hm.metadata_eq]

theorem extracts_of_metadata {m : Json} {t : Tool} (hpre : isPreEvent event = true) (h : t.metadata event payload = some m) :
    Extracts event payload m t := by
  cases t with
  | transcriptExtractor s => exact ⟨⟨s, rfl⟩, hpre, h⟩
  | autoLinkDetector s =>
    have hother : Detector.HookEventTag.ofEvent event = .other := by
      cases event <;> first | rfl | cases hpre
    rw [Tool.metadata, if_pos (.inl hother)] at h
    cases h

theorem mergeDeltaInto_ofMetadata {d : MemoryDelta} (h : d = .empty ∨ ∃ m, d = ofMetadata m) (m : Json) :
    mergeDeltaInto d (ofMetadata m) = ofMetadata m := by
  obtain rfl | ⟨m', rfl⟩ := h <;> rfl

theorem Acc.Extracted.accept (h : acc.Extracted tools event payload) (cfg : HookConfig) :
    (accept cfg acc (((tools cfg).decision event acc.payload).degradeModifyForPostEvent event)).Extracted tools event payload := by
  have hkeep : (Hooks.accept cfg acc .allow).Extracted tools event payload := ⟨rfl, h.state⟩
  rw [Tool.decision, h.metadata_eq]
  cases hm : (tools cfg).metadata event payload with
  | none => exact hkeep
  | some m =>
    rw [Option.elim_some, HookDecision.degradeModifyForPostEvent]
    split
    · next hpre =>
      refine ⟨rfl, .inr ⟨cfg, m, extracts_of_metadata hpre hm, ?_, rfl, ?_⟩⟩
      · obtain ⟨hp, -, -⟩ | ⟨cfg', m', -, hp, -, -⟩ := h.state
        · show applyDeltaToPayload acc.payload (ofMetadata m) = _
          rw [hp]
          rfl
        · show applyDeltaToPayload acc.payload (ofMetadata m) = _
          rw [hp]
          exact withMetadata_withMetadata payload m' m
      · refine mergeDeltaInto_ofMetadata ?_ m
        obtain ⟨-, -, hd⟩ | ⟨-, m', -, -, -, hd⟩ := h.state
        · exact .inl hd
        · exact .inr ⟨m', hd⟩
    · exact hkeep

/-- What comes of a chain of tools. -/
structure Harmless (tools : HookConfig → Tool) (event : HookEvent) (payload : Json) (chain : List (HookConfig × Outcome))
    (out : ChainResult × List (HookConfig × Json)) : Prop where
  asked : ∀ a ∈ out.2, a.2 = payload ∨ ∃ cfg m, Extracts event payload m (tools cfg) ∧ a.2 = withMetadata payload m
  result : out.1 = .allow ∨ (∃ cfg m, Extracts event payload m (tools cfg) ∧ out.1 = .modifiedAllow (ofMetadata m)) ∨
    ∃ e ∈ chain, e.1.failMode = .closed ∧ (∀ d, e.2 ≠ .returned d) ∧
      ∃ reason code, (code = 503 ∨ code = 504) ∧ out.1 = .deny reason code

theorem Acc.Extracted.finish (h : acc.Extracted tools event payload) :
    finish acc = .allow ∨ ∃ cfg m, Extracts event payload m (tools cfg) ∧ finish acc = .modifiedAllow (ofMetadata m) := by
  unfold Hooks.finish
  rw [if_neg (not_not.mpr h.queue)]
  obtain ⟨-, hmod, -⟩ | ⟨cfg, m, hm, -, hmod, hd⟩ := h.state
  · exact .inl (by rw [hmod, if_neg Bool.false_ne_true])
  · exact .inr ⟨cfg, m, hm, by rw [hmod, if_pos rfl, hd]⟩

theorem Harmless.cons {e : HookConfig × Outcome} {out : ChainResult × List (HookConfig × Json)}
    (h : Harmless tools event payload chain out) : Harmless tools event payload (e :: chain) out where
  asked := h.asked
  result := by
    obtain hallow | hmodified | ⟨e', he', hrest⟩ := h.result
    · exact .inl hallow
    · exact .inr (.inl hmodified)
    · exact .inr (.inr ⟨e', List.mem_cons_of_mem _ he', hrest⟩)

theorem decided_tool (cfg : HookConfig) (t : Tool) (payload : Json) :
    decided event cfg (.ok (t.decision event payload)) =
      .ok ((t.decision event payload).degradeModifyForPostEvent event) := by
  unfold Tool.decision
  cases t.metadata event payload <;> rfl

/-- A hook that was asked: its answer is accepted, or it failed and fails closed. -/
theorem Acc.Extracted.decided {outcome : Outcome} {r : Except ExecutorError HookDecision} (hserde : serde.Derived asF64)
    (h : acc.Extracted tools event payload) (hr : raced outcome = some r)
    (hanswer : ∀ d, outcome = .returned d →
      serde.ReadsBack (fun d => text d.toValue) ((tools cfg).decision event acc.payload) ∧
      parseDecisionLine serde (text ((tools cfg).buildDecision event acc.payload)) = .ok d) :
    (∃ decision, Hooks.decided event cfg r = .ok decision ∧ (Hooks.accept cfg acc decision).Extracted tools event payload) ∨
      cfg.failMode = .closed ∧ (∀ d, outcome ≠ .returned d) ∧
        ∃ reason, Hooks.decided event cfg r = .error (reason, 503) := by
  have hallow : (Hooks.accept cfg acc .allow).Extracted tools event payload := ⟨rfl, h.state⟩
  have hfailed : ∀ e, (∃ decision, Hooks.decided event cfg (.error e) = .ok decision ∧
      (Hooks.accept cfg acc decision).Extracted tools event payload) ∨
      cfg.failMode = .closed ∧ ∃ reason, Hooks.decided event cfg (.error e) = .error (reason, 503) := by
    intro e
    unfold Hooks.decided
    cases cfg.failMode with
    | «open» => exact .inl ⟨_, rfl, hallow⟩
    | closed => exact .inr ⟨rfl, _, rfl⟩
  cases outcome with
  | exhausted => cases hr
  | elapsed budgetMs =>
    cases hr
    exact (hfailed (.timeout budgetMs)).imp id fun hc => ⟨hc.1, fun d hd => Outcome.noConfusion hd, hc.2⟩
  | failed e =>
    cases hr
    exact (hfailed e).imp id fun hc => ⟨hc.1, fun d hd => Outcome.noConfusion hd, hc.2⟩
  | returned d =>
    cases hr
    obtain ⟨hread, hparse⟩ := hanswer d rfl
    have hd : (tools cfg).decision event acc.payload = d := Except.ok.inj ((Tool.parse_line hserde hread).symm.trans hparse)
    subst hd
    exact .inl ⟨_, decided_tool cfg (tools cfg) acc.payload, h.accept cfg⟩

theorem fireLoop_harmless (hserde : serde.Derived asF64) (h : acc.Extracted tools event payload)
    (hanswers : Answers serde text tools event acc chain) :
    Harmless tools event payload chain (fireLoop event acc chain) := by
  induction chain generalizing acc with
  | nil => exact ⟨List.forall_mem_nil _, h.finish.imp id .inl⟩
  | cons e rest ih =>
    obtain ⟨cfg, outcome⟩ := e
    obtain ⟨hanswer, hrest⟩ := hanswers
    rw [fireLoop]
    rw [afterHook] at hrest
    cases hr : raced outcome with
    | none =>
      rw [hr] at hrest
      cases hmode : cfg.failMode with
      | «open» => exact (ih h hrest).cons
      | closed =>
        refine ⟨List.forall_mem_nil _, .inr (.inr ⟨_, List.mem_cons_self, hmode, fun d hd => ?_, _, 504, .inr rfl, rfl⟩)⟩
        rw [show outcome = .returned d from hd] at hr
        cases hr
    | some r =>
      have hasked : acc.payload = payload ∨
          ∃ cfg m, Extracts event payload m (tools cfg) ∧ acc.payload = withMetadata payload m := by
        obtain ⟨hp, -, -⟩ | ⟨cfg, m, hm, hp, -⟩ := h.state
        · exact .inl hp
        · exact .inr ⟨cfg, m, hm, hp⟩
      rw [hr] at hrest
      dsimp only at hrest ⊢
      obtain ⟨decision, hdecided, hacc⟩ | ⟨hclosed, hfailed, reason, hdecided⟩ := h.decided hserde hr hanswer
      · rw [hdecided] at hrest ⊢
        have hout := ih hacc hrest
        exact ⟨List.forall_mem_cons.mpr ⟨hasked, hout.asked⟩, (hout.cons (e := (cfg, outcome))).result⟩
      · rw [hdecided]
        exact ⟨List.forall_mem_singleton.mpr hasked,
          .inr (.inr ⟨_, List.mem_cons_self, hclosed, hfailed, reason, 503, .inl rfl, rfl⟩)⟩

end Chain

/-- What an extraction leaves alone: the other fields, and the other keys of the metadata. -/
structure Touches (payload m : Json) : Prop where
  fields : ∀ k, k ≠ "metadata" → (withMetadata payload m).get k = payload.get k
  keys : ∀ k, k ≠ "extracted_memories" → m.get k = (payload.get "metadata").bind fun old => old.get k

theorem Extracts.touches {event : HookEvent} {payload m : Json} {t : Tool} (h : Extracts event payload m t) :
    Touches payload m := by
  obtain ⟨⟨s, rfl⟩, -, hm⟩ := h
  obtain ⟨hgo, he⟩ := Option.ite_none_left_eq_some.mp hm
  obtain ⟨fields, rfl⟩ := Extractor.exists_fields (not_or.mp hgo).2
  rw [← Option.some.inj he]
  exact ⟨fun k hk => get_withMetadata_of_ne hk _, fun k hk => get_metadataWith_of_ne hk _⟩

/-- Whatever times out and whatever fails, a chain of the two tools asks every hook with the payload as it came, or with the
metadata of one extraction in it; it allows the operation, with that metadata or without, unless a hook that fails closed
fails. An extraction touches one key of the metadata. -/
theorem reference_chain (serde : Serde) (asF64 : ℤ → String) (hserde : serde.Derived asF64) (text : Json → String)
    (tools : HookConfig → Tool) (chain : HookChain) (event : HookEvent) (payload : Json) (outcomes : ℕ → Outcome)
    (hanswers : Answers serde text tools event ⟨payload, .empty, false, []⟩ (chain.prepared outcomes)) :
    Harmless tools event payload (chain.prepared outcomes) (chain.fire event payload outcomes) ∧
      ∀ t m, Extracts event payload m t → Touches payload m :=
  ⟨fireLoop_harmless hserde ⟨rfl, .inl ⟨rfl, rfl, rfl⟩⟩ hanswers, fun _ _ h => h.touches⟩

section Sample

def sampleSettings : Extractor.Settings where
  binary64 := exactArithmetic
  unicode := asciiTables
  text q := s!"{q.num}.0"
  topK := none

def extractorHook : HookConfig where
  event := .preStore
  command := "transcript-extractor"
  priority := 0
  enabled := true
  failMode := .closed

/-- A payload with a transcript of two turns, and what is extracted from it. -/
def conversation : Json := .obj [("content", .str "user: graph links\n\ntool: prune rows")]

def extracted : Json := .obj [("extracted_memories", .arr [
  .obj [("content", .str "user: graph links"), ("score", .float "6.0"), ("span_end", .int 17), ("span_start", .int 0),
    ("title", .str "user: graph links")],
  .obj [("content", .str "tool: prune rows"), ("score", .float "6.0"), ("span_end", .int 35), ("span_start", .int 19),
    ("title", .str "tool: prune rows")]])]

/-- The line that the extractor writes for it, without the braces around it. -/
def extractedBody : List Char :=
  '"' :: ("action\":\"modify\",\"delta\":\x7b\"metadata\":\x7b\"extracted_memories\":[" ++
    "\x7b\"content\":\"user: graph links\",\"score\":6.0,\"span_end\":17,\"span_start\":0," ++
    "\"title\":\"user: graph links\"\x7d," ++
    "\x7b\"content\":\"tool: prune rows\",\"score\":6.0,\"span_end\":35,\"span_start\":19," ++
    "\"title\":\"tool: prune rows\"\x7d]\x7d\x7d").toList

def extractedLine : String := String.ofList ('\x7b' :: extractedBody ++ ['\x7d'])

/-- `serde_json` on that line. -/
def extractingSerde : Serde := { sampleSerde with
  fromStr := fun s => if s = extractedLine then .ok (modified extracted) else .error "expected value at line 1 column 1" }

theorem candidates_conversation : Json.arr ((Extractor.candidates sampleSettings conversation).map (Extractor.toValue sampleSettings.text)) =
    (extracted.get "extracted_memories").getD .null := by
  have hgo : Extractor.looksLikeTranscript sampleSettings.unicode conversation = true := by decide +kernel
  have hscored : scoredParagraphs exactArithmetic asciiTables "user: graph links\n\ntool: prune rows".toList =
      [(6, ⟨0, 17, "user: graph links".toList⟩), (6, ⟨19, 35, "tool: prune rows".toList⟩)] := by decide +kernel
  have htwo : ¬(paragraphsWithSpans "user: graph links\n\ntool: prune rows".toList).length < 2 := by decide +kernel
  have hsorted : (scoredParagraphs exactArithmetic asciiTables "user: graph links\n\ntool: prune rows".toList).Pairwise
      fun a b => higherFirst a b := by
    rw [hscored]
    decide
  unfold Extractor.candidates
  rw [if_pos hgo]
  show Json.arr ((if _ then [] else _ : List ExtractedMemory).map _) = _
  rw [if_neg (by decide +kernel), extractCandidates, if_neg htwo]
  show Json.arr (List.map _ (List.map candidate (((scoredParagraphs exactArithmetic asciiTables _).mergeSort higherFirst).take _))) = _
  rw [List.mergeSort_of_pairwise hsorted, hscored]
  decide +kernel

theorem metadata_conversation : (Tool.transcriptExtractor sampleSettings).metadata .preStore conversation = some extracted := by
  have hne : ¬(Extractor.HookEventTag.ofEvent .preStore = .other ∨ Extractor.candidates sampleSettings conversation = []) := by
    rintro (hother | hnil)
    · cases hother
    · have hempty := candidates_conversation
      rw [hnil] at hempty
      exact absurd hempty (by decide)
  rw [Tool.metadata, if_neg hne, candidates_conversation]
  rfl

/-- Two extractors over the transcript: the second finds what the first extracted. -/
theorem reference_chain_conversation :
    extractingSerde.Derived plainF64 ∧
      (⟨[extractorHook, extractorHook]⟩ : HookChain).fire .preStore conversation
        (fun _ => .returned (.modify (ofMetadata extracted))) =
        (.modifiedAllow (ofMetadata extracted),
          [(extractorHook, conversation), (extractorHook, withMetadata conversation extracted)]) ∧
      Harmless (fun _ => .transcriptExtractor sampleSettings) .preStore conversation
        [(extractorHook, .returned (.modify (ofMetadata extracted))), (extractorHook, .returned (.modify (ofMetadata extracted)))]
        ((⟨[extractorHook, extractorHook]⟩ : HookChain).fire .preStore conversation
          (fun _ => .returned (.modify (ofMetadata extracted)))) := by
  have hserde : extractingSerde.Derived plainF64 := ⟨fun _ _ => elim_eq_ok, fun _ _ => elim_eq_ok⟩
  have hm : Extracts .preStore conversation extracted (.transcriptExtractor sampleSettings) :=
    ⟨⟨_, rfl⟩, rfl, metadata_conversation⟩
  have hdecision : ∀ payload, payload = conversation ∨ payload = withMetadata conversation extracted →
      (Tool.transcriptExtractor sampleSettings).decision .preStore payload = .modify (ofMetadata extracted) := by
    rintro payload (rfl | rfl)
    · rw [Tool.decision, metadata_conversation]
      rfl
    · rw [Tool.decision, hm.metadata_eq, metadata_conversation]
      rfl
  have hreads : extractingSerde.ReadsBack (fun _ => extractedLine) (.modify (ofMetadata extracted)) :=
    ⟨⟨extractedBody, List.cons_ne_nil _ _, String.toList_ofList⟩,
      by rw [← modified_eq]; simp [extractingSerde]⟩
  have hanswer : ∀ payload, payload = conversation ∨ payload = withMetadata conversation extracted →
      ∀ d, Outcome.returned (.modify (ofMetadata extracted)) = .returned d →
        extractingSerde.ReadsBack (fun d => extractedLine) ((Tool.transcriptExtractor sampleSettings).decision .preStore payload) ∧
        parseDecisionLine extractingSerde extractedLine = .ok d := by
    rintro payload hpayload d hd
    cases hd
    rw [hdecision payload hpayload]
    have hread : extractingSerde.ReadsBack (fun _ => extractedLine)
        ((Tool.transcriptExtractor sampleSettings).decision .preStore payload) := (hdecision payload hpayload).symm ▸ hreads
    have hline := @Tool.parse_line _ _ (fun _ => extractedLine) _ _ _ hserde hread
    rw [hdecision payload hpayload] at hline
    exact ⟨hreads, hline⟩
  refine ⟨hserde, by rfl, ?_⟩
  refine (reference_chain extractingSerde plainF64 hserde (fun _ => extractedLine) (fun _ => .transcriptExtractor sampleSettings)
    ⟨[extractorHook, extractorHook]⟩ .preStore conversation (fun _ => .returned (.modify (ofMetadata extracted))) ?_).1
  exact ⟨hanswer _ (.inl rfl), hanswer _ (.inr rfl), trivial⟩

end Sample

end AiMemory.Hooks
