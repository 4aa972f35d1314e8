import AiMemory.Hooks.Extractor

/-!
# The auto-link detector

`tools/auto-link-detector/src/main.rs`: the reference hook for `post_store`. It compares the words of a new memory with those of
the recent memories of its namespace, and proposes a link to each one that is close enough.
-/

namespace AiMemory.Hooks.Detector

open Curator

/-! ## Similarity -/

/-- `SIMILARITY_THRESHOLD`, which is the `f64` closest to 0.4. -/
def similarityThreshold (f : Binary64) : ℚ := f.div 2 5

/-- `similarity_threshold_from_env`; `parse` is `str::parse::<f64>`, with `some none` for what is not finite. -/
def similarityThresholdFromEnv (f : Binary64) (parse : String → Option (Option ℚ)) (var : Option String) : ℚ :=
  ((var.bind parse).join.filter fun v => 0 < v ∧ v < 1).getD (similarityThreshold f)

def maxCandidates : ℕ := 50

def maxProposals : ℕ := 16

def jaccard (f : Binary64) (a b : Finset String) : ℚ :=
  if a = ∅ ∨ b = ∅ then 0
  else
    let intersection := (a ∩ b).card
    if intersection = 0 then 0
    else f.div (u32OfUsize intersection) (u32OfUsize (a ∪ b).card)

theorem threshold_pos (f : Binary64) (parse : String → Option (Option ℚ)) (var : Option String) :
    0 < similarityThresholdFromEnv f parse var := by
  unfold similarityThresholdFromEnv
  cases h : (var.bind parse).join.filter fun v => 0 < v ∧ v < 1 with
  | some v =>
    have hv := of_decide_eq_true (Option.filter_eq_some_iff.mp h).2
    exact hv.1
  | none =>
    -- the default is at least the `f64` of a quarter
    have hquarter : f.round (1 / 4) = 1 / 4 := by exact_mod_cast f.exact 1 2 (by norm_num) (by norm_num)
    have hle := f.mono (show (1 / 4 : ℚ) ≤ 2 / 5 by norm_num)
    rw [hquarter] at hle
    exact lt_of_lt_of_le (by norm_num) hle

theorem inter_nonempty_of_jaccard_pos {f : Binary64} {a b : Finset String} (h : 0 < jaccard f a b) : (a ∩ b).Nonempty := by
  by_contra hempty
  rw [Finset.not_nonempty_iff_eq_empty] at hempty
  unfold jaccard at h
  rw [hempty] at h
  split at h
  · exact absurd h (lt_irrefl 0)
  · rw [Finset.card_empty, if_pos rfl] at h
    exact absurd h (lt_irrefl 0)

theorem jaccard_le_one (f : Binary64) (a b : Finset String) : jaccard f a b ≤ 1 := by
  unfold jaccard
  split
  · exact zero_le_one
  dsimp only
  split
  · exact zero_le_one
  · have hle : u32OfUsize (a ∩ b).card ≤ u32OfUsize (a ∪ b).card :=
      min_le_min_right _ (Finset.card_le_card (Finset.inter_subset_union))
    have hratio : (u32OfUsize (a ∩ b).card : ℚ) / u32OfUsize (a ∪ b).card ≤ 1 :=
      div_le_one_of_le₀ (Nat.cast_le.mpr hle) (Nat.cast_nonneg _)
    have hone : f.round 1 = 1 := by exact_mod_cast f.whole (n := 1) (by norm_num)
    exact (f.mono hratio).trans hone.le

/-! ## Proposals -/

structure AutoRelatedLink where
  source : String
  target : String
  kind : String
  attestLevel : String
  score : ℚ

def AutoRelatedLink.new (source target : String) (score : ℚ) : AutoRelatedLink where
  source := source
  target := target
  kind := "auto-related"
  attestLevel := "R3"
  score := score

def AutoRelatedLink.toValue (text : ℚ → String) (l : AutoRelatedLink) : Json :=
  .obj [("attest_level", .str l.attestLevel), ("kind", .str l.kind), ("score", .float (text l.score)),
    ("source", .str l.source), ("target", .str l.target)]

/-- `v.get(key).and_then(Value::as_str)`. -/
def str (key : String) (v : Json) : Option String := (v.get key).bind Json.asStr

def extractNewMemory (payload : Json) : Option (String × String × String) := do
  let id ← str "id" payload
  let ns ← str "namespace" payload
  let content ← str "content" payload
  if id = "" ∨ ns = "" ∨ Validate.trim content = [] then none else some (id, ns, content)

def scoreCandidate (f : Binary64) (u : Unicode) (newId newNamespace : String) (newBag : Finset String) (candidate : Json)
    (threshold : ℚ) : Option AutoRelatedLink := do
  let candId ← str "id" candidate
  if candId = newId then none
  else
    let candNs ← str "namespace" candidate
    if candNs ≠ newNamespace then none
    else
      let candContent ← str "content" candidate
      if Validate.trim candContent = [] then none
      else
        let score := jaccard f newBag (tokenBag u candContent.toList)
        if score < threshold then none else some (.new newId candId score)

/-- The comparison `b.score.partial_cmp(&a.score)`. -/
def higherFirst (a b : AutoRelatedLink) : Bool := b.score ≤ a.score

/-- What the tool was started with. -/
structure Settings where
  binary64 : Binary64
  unicode : Unicode
  text : ℚ → String
  parseF64 : String → Option (Option ℚ)
  similarityThreshold : Option String

/-- `recent_namespace_memories`. -/
def recent (payload : Json) : List Json :=
  match payload.get "recent_namespace_memories" with
  | some (.arr items) => items
  | _ => []

/-- The proposals for a payload with a new memory, in the order of the candidates. -/
def matching (s : Settings) (payload : Json) : List AutoRelatedLink :=
  match extractNewMemory payload with
  | none => []
  | some (newId, newNamespace, newContent) =>
    let newBag := tokenBag s.unicode newContent.toList
    if newBag = ∅ then []
    else
      let threshold := similarityThresholdFromEnv s.binary64 s.parseF64 s.similarityThreshold
      ((recent payload).take maxCandidates).filterMap fun c =>
        scoreCandidate s.binary64 s.unicode newId newNamespace newBag c threshold

def proposals (s : Settings) (payload : Json) : List AutoRelatedLink :=
  ((matching s payload).mergeSort higherFirst).take maxProposals

inductive HookEventTag where
  | postStore
  | postTranscriptStore
  | other
  deriving DecidableEq

/-- How the name of an event is read. -/
def HookEventTag.ofEvent : HookEvent → HookEventTag
  | .postStore => .postStore
  | .postTranscriptStore => .postTranscriptStore
  | _ => .other

def buildDecision (s : Settings) (event : HookEventTag) (payload : Json) : Json :=
  if event = .other then allowed
  else
    match proposals s payload with
    | [] => allowed
    | links => modified (metadataWith payload "auto_related_links" (.arr (links.map (AutoRelatedLink.toValue s.text))))

/-! ## What is proposed -/

/-- A recent memory of the namespace that is close enough to the new one. -/
structure Neighbour (s : Settings) (payload candidate : Json) (l : AutoRelatedLink) : Prop where
  id : str "id" payload = some l.source ∧ str "id" candidate = some l.target
  other : l.target ≠ l.source
  sameNamespace : str "namespace" candidate = str "namespace" payload
  literals : l.kind = "auto-related" ∧ l.attestLevel = "R3"
  similar : ∃ content content', str "content" payload = some content ∧ str "content" candidate = some content' ∧
    l.score = jaccard s.binary64 (tokenBag s.unicode content.toList) (tokenBag s.unicode content'.toList) ∧
    (tokenBag s.unicode content.toList ∩ tokenBag s.unicode content'.toList).Nonempty
  threshold : similarityThresholdFromEnv s.binary64 s.parseF64 s.similarityThreshold ≤ l.score
  atMostOne : l.score ≤ 1

section Proposed

variable {s : Settings} {payload candidate : Json} {l : AutoRelatedLink}

theorem extractNewMemory_eq_some {id ns content : String} (h : extractNewMemory payload = some (id, ns, content)) :
    str "id" payload = some id ∧ str "namespace" payload = some ns ∧ str "content" payload = some content := by
  simp only [extractNewMemory, Option.bind_eq_bind, Option.bind_eq_some_iff] at h
  obtain ⟨_, hid, _, hns, _, hcontent, h⟩ := h
  split at h
  · cases h
  · cases h
    exact ⟨hid, hns, hcontent⟩

theorem scoreCandidate_eq_some {f : Binary64} {u : Unicode} {newId newNamespace : String} {newBag : Finset String}
    {threshold : ℚ} (h : scoreCandidate f u newId newNamespace newBag candidate threshold = some l) :
    ∃ candId candContent, str "id" candidate = some candId ∧ candId ≠ newId ∧ str "namespace" candidate = some newNamespace ∧
      str "content" candidate = some candContent ∧ threshold ≤ jaccard f newBag (tokenBag u candContent.toList) ∧
      l = .new newId candId (jaccard f newBag (tokenBag u candContent.toList)) := by
  simp only [scoreCandidate, Option.bind_eq_bind, Option.bind_eq_some_iff] at h
  obtain ⟨candId, hid, h⟩ := h
  split at h
  · cases h
  next hne =>
  obtain ⟨candNs, hns, h⟩ := Option.bind_eq_some_iff.mp h
  split at h
  · cases h
  next hsame =>
  obtain ⟨candContent, hcontent, h⟩ := Option.bind_eq_some_iff.mp h
  split at h
  · cases h
  split at h
  · cases h
  next hscore =>
  cases h
  exact ⟨candId, candContent, hid, hne, not_not.mp hsame ▸ hns, hcontent, not_lt.mp hscore, rfl⟩

theorem neighbour_of_mem_matching (h : l ∈ matching s payload) :
    ∃ c ∈ (recent payload).take maxCandidates, Neighbour s payload c l := by
  unfold matching at h
  cases hnew : extractNewMemory payload with
  | none =>
    rw [hnew] at h
    cases h
  | some new =>
    obtain ⟨newId, newNamespace, newContent⟩ := new
    rw [hnew] at h
    dsimp only at h
    split at h
    · cases h
    obtain ⟨c, hc, hscored⟩ := List.mem_filterMap.mp h
    obtain ⟨hid, hns, hcontent⟩ := extractNewMemory_eq_some hnew
    obtain ⟨candId, candContent, hcid, hne, hcns, hccontent, hthreshold, rfl⟩ := scoreCandidate_eq_some hscored
    have hpos := (threshold_pos s.binary64 s.parseF64 s.similarityThreshold).trans_le hthreshold
    exact ⟨c, hc, ⟨hid, hcid⟩, hne, hcns.trans hns.symm, ⟨rfl, rfl⟩,
      ⟨newContent, candContent, hcontent, hccontent, rfl, inter_nonempty_of_jaccard_pos hpos⟩, hthreshold,
        jaccard_le_one _ _ _⟩

/-- What is proposed for a payload: at most sixteen neighbours, the most similar first, none of those left out closer. -/
structure Detection (s : Settings) (payload : Json) (links : List AutoRelatedLink) : Prop where
  bounded : links.length ≤ maxProposals
  neighbours : ∀ l ∈ links, ∃ c ∈ (recent payload).take maxCandidates, Neighbour s payload c l
  ranked : links.Pairwise fun l l' => l'.score ≤ l.score
  best : ∀ l ∈ matching s payload, l ∈ links ∨ links.length = maxProposals ∧ ∀ l' ∈ links, l.score ≤ l'.score

theorem higherFirst_trans (a b c : AutoRelatedLink) (hab : higherFirst a b = true) (hbc : higherFirst b c = true) :
    higherFirst a c = true := by
  simp only [higherFirst, decide_eq_true_eq] at *
  exact hbc.trans hab

theorem higherFirst_total (a b : AutoRelatedLink) : (higherFirst a b || higherFirst b a) = true := by
  simp only [higherFirst, Bool.or_eq_true, decide_eq_true_eq]
  exact le_total _ _

theorem proposals_spec (s : Settings) (payload : Json) : Detection s payload (proposals s payload) := by
  have hsorted := List.pairwise_mergeSort higherFirst_trans higherFirst_total (matching s payload)
  have hranked : ((matching s payload).mergeSort higherFirst).Pairwise fun l l' => l'.score ≤ l.score :=
    hsorted.imp fun h => of_decide_eq_true h
  refine ⟨List.length_take_le _ _, fun l hl => ?_, hranked.sublist (List.take_sublist _ _), fun l hl => ?_⟩
  · exact neighbour_of_mem_matching (List.mem_mergeSort.mp (List.mem_of_mem_take hl))
  · exact Ranking.mem_take_or hranked (List.mem_mergeSort.mpr hl)

end Proposed

end AiMemory.Hooks.Detector
