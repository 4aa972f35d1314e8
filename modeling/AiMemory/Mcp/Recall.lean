import AiMemory.Lib.Panics
import AiMemory.Mcp.Tools
import AiMemory.Recall.Blind
import AiMemory.Recall.Touched

/-!
# `handle_recall`

`handle_recall` sweeps what has expired, recalls by the hybrid search or, without an embedding, by keywords, and puts the answer
together on one JSON value: the memories, the budget, the telemetry and the standards of the namespace. The response is changed
through accesses that panic where it is no object, and the hybrid search converts the length of every content that it scores. None of
them fails (`handleRecall_returns`), the last because SQLite stores no text of that length.
-/

namespace AiMemory

open Ranking Recall

namespace Mcp

open Fallible

/-! ## Accesses that panic -/

/-- `value[key] = v`. -/
def assign (j : Json) (key : String) (v : Json) : Fallible String Json :=
  match j with
  | .obj _ => pure (j.set key v)
  | .null => pure (.obj [(key, v)])
  | _ => panicWith s!"cannot access key {key} in JSON"

/-- `value[key]` of a value that is changed through it. -/
def valueAt (j : Json) (key : String) : Fallible String Json :=
  match j with
  | .obj _ => pure ((j.get key).getD .null)
  | .null => pure .null
  | _ => panicWith s!"cannot access key {key} in JSON"

/-- `as_object_mut`. -/
def asObject (j : Json) : Option Json := if j.isObject then some j else none

/-- `f64::from(i32::try_from(mem.content.len()).expect("usize as i64"))`. -/
def contentLen (mem : Memory) : Fallible String ℕ :=
  let n := Validate.byteLen mem.content.toList
  expect "usize as i64" (if n < 2 ^ 31 then some n else none)

/-! ## The response -/

/-- A change of the field `meta`, which is made when it is missing. -/
def withMeta (resp : Json) (change : Json → Fallible String Json) : Fallible String Json := do
  let resp ← expect "recall response is always a JSON object" (asObject resp)
  let fields ← change ((resp.get "meta").getD (.obj []))
  pure (resp.set "meta" fields)

def decorateBudget (budgetTokens : Option ℕ) (outcome : BudgetOutcome) (resp : Json) : Fallible String Json := do
  let resp ← assign resp "tokens_used" (.int outcome.tokensUsed)
  match budgetTokens with
  | none => pure resp
  | some b =>
    let resp ← assign resp "budget_tokens" (.int b)
    withMeta resp fun fields => do
      let fields ← assign fields "budget_tokens_used" (.int outcome.tokensUsed)
      let fields ← assign fields "budget_tokens_remaining" (.int (outcome.tokensRemaining.getD 0))
      let fields ← assign fields "memories_dropped" (.int outcome.memoriesDropped)
      assign fields "budget_overflow" (.bool outcome.budgetOverflow)

structure BatchedReranker (F64 : Type) where
  isNeural : Bool
  rerank : String → List (Memory × F64) → List (Memory × F64)

/-- What `handle_recall` gets from outside, besides what the tools get. -/
structure RecallHost (F32 F64 : Type) where
  env : Env F32 F64
  /-- `fts.rank` of the rows of a database for a context. -/
  ftsRank : Db → String → String → F64
  /-- `embed`, where a failure is only logged. -/
  embedder : Option (String → Option (List F32))
  vectorIndex : Option (List F32 → ℕ → List (VectorHit F32))
  reranker : Option (BatchedReranker F64)
  times : String → Db.TouchTimes
  /-- `(x * 1000.0).round() / 1000.0` as a JSON number. -/
  rounded : F64 → Json
  display : RecallError → String

section Handler

variable {F32 F64 : Type} [Arith F32] [Arith F64] (h : Host) (r : RecallHost F32 F64)

def RecallHost.rerankerUsed : String :=
  match r.reranker with
  | some ce => if ce.isNeural then "neural" else "lexical"
  | none => "none"

/-- `RecallMeta` as JSON. -/
def RecallHost.recallMeta (recallMode : String) (telemetry : RecallTelemetry F64) : List (String × Json) :=
  [("blend_weight", r.rounded telemetry.blendWeightAvg),
    ("candidate_counts", .obj [("fts", .int telemetry.ftsCandidates), ("hnsw", .int telemetry.hnswCandidates)]),
    ("recall_mode", .str recallMode), ("reranker_used", .str r.rerankerUsed)]

def RecallHost.attachMeta (recallMode : String) (telemetry : RecallTelemetry F64) (resp : Json) : Fallible String Json :=
  withMeta resp fun fields => pure ((r.recallMeta recallMode telemetry).foldl (fun j f => j.set f.1 f.2) fields)

def Host.lookupNamespaceStandard (db : Db) (ns : String) : Option Json := do
  let standardId ← db.getNamespaceStandard ns
  let mem ← db.get standardId
  return h.app.memoryToValue mem.toMemory

/-- The `id` of a memory as JSON. -/
def idOf (j : Json) : String := (strParam j "id").getD ""

/-- The standards along the chain of a namespace, without those whose id was there before. -/
def Host.standards (db : Db) (ns : Option String) : List Json :=
  let chain := (ns.map db.buildNamespaceChain).getD ["*"]
  (chain.filterMap (h.lookupNamespaceStandard db)).foldl
    (fun standards std => if idOf std ∈ standards.map idOf then standards else standards ++ [std]) []

def withoutStandards (standards : List Json) (resp : Json) : Fallible String Json := do
  match ← valueAt resp "memories" with
  | .arr items =>
    let items := items.filter fun m => idOf m ∉ standards.map idOf
    let resp ← assign resp "memories" (.arr items)
    assign resp "count" (.int items.length)
  | _ => pure resp

def Host.injectNamespaceStandard (db : Db) (ns : Option String) (resp : Json) : Fallible String Json :=
  let standards := h.standards db ns
  if standards.isEmpty then pure resp
  else do
    let resp ← withoutStandards standards resp
    if standards.length = 1 then
      let standard ← expect "called `Option::unwrap()` on a `None` value" standards.head?
      assign resp "standard" standard
    else assign resp "standards" (.arr standards)

def RecallHost.scoredMemories (results : List (Memory × F64)) : List Json :=
  results.map fun s => (h.app.memoryToValue s.1).set "score" (r.rounded s.2)

/-! ## The search -/

/-- `Embedder::fuse` with the weight 0.7. -/
def fuse (primary secondary : List F32) : List F32 :=
  if primary.length ≠ secondary.length then primary
  else List.zipWith (fun p s => lit (7 / 10) * p + (lit 1 - lit (7 / 10)) * s) primary secondary

/-- The embedding of the query, with that of the context tokens in it. -/
def queryEmbedding (embed : String → Option (List F32)) (context : String) (contextTokens : List String) : Option (List F32) :=
  (embed context).map fun primary =>
    if contextTokens.isEmpty then primary
    else
      match embed (" ".intercalate contextTokens) with
      | some ctx => fuse primary ctx
      | none => primary

def RecallHost.displayed {α : Type} (x : Except RecallError α) : Except String α := x.mapError r.display

/-- `recall_hybrid_with_telemetry`, whose fusion converts the length of every content. -/
def RecallHost.hybrid (store : Recall.Store F32 F64) (req : Request F32) : Fallible String (Recalled F64 × Db) := do
  let keyword ← r.displayed (keywordStage r.env store req)
  let scored := semanticStage r.env store.db req store.vectorIndex keyword
  scored.forM fun s => do
    let _ ← contentLen s.mem
  r.displayed (recallHybridWithTelemetry r.env store req r.times)

/-- What a search found, and how. -/
structure Found (F64 : Type) where
  results : List (Memory × F64)
  outcome : BudgetOutcome
  telemetry : RecallTelemetry F64
  mode : String
  recallMode : String
  db : Db

def recallRequest (params : Json) (context : String) (queryEmbedding : List F32) : Request F32 where
  context
  queryEmbedding
  ns := strParam params "namespace"
  limit := min ((natParam params "limit").getD 10) 50
  tagsFilter := strParam params "tags"
  since := strParam params "since"
  until' := strParam params "until"
  asAgent := strParam params "as_agent"
  budgetTokens := natParam params "budget_tokens"

/-- The hybrid search where the query has an embedding, else the search by keywords. -/
def RecallHost.search (params : Json) (context : String) (db : Db) : Fallible String (Found F64) := do
  let store : Recall.Store F32 F64 := ⟨db, r.ftsRank db context, r.vectorIndex⟩
  match r.embedder.bind fun embed => queryEmbedding embed context ((stringsParam params "context_tokens").getD []) with
  | some query =>
    let (recalled, db) ← r.hybrid store (recallRequest params context query)
    match r.reranker with
    | some ce => pure ⟨ce.rerank context recalled.memories, recalled.outcome, recalled.telemetry, "hybrid+rerank", "hybrid", db⟩
    | none => pure ⟨recalled.memories, recalled.outcome, recalled.telemetry, "hybrid", "hybrid", db⟩
  | none =>
    let ((results, outcome), db) ← r.displayed (recallByKeyword r.env store (recallRequest params context []) r.times)
    pure ⟨results, outcome, ⟨results.length, 0, lit 0⟩, "keyword", "keyword_only", db⟩

def recallAnswer (params : Json) (found : Found F64) : Fallible String Json := do
  let memories := r.scoredMemories h found.results
  let resp := Json.obj [("count", .int memories.length), ("memories", .arr memories), ("mode", .str found.mode)]
  let resp ← decorateBudget (natParam params "budget_tokens") found.outcome resp
  let resp ← r.attachMeta found.recallMode found.telemetry resp
  h.injectNamespaceStandard found.db (strParam params "namespace") resp

/-- The part of `handle_recall` behind the sweep. -/
def recallSwept (params : Json) (db : Db) : Fallible String (Db × Json) := do
  let context ← required params "context"
  Validate.ifSome Validate.validateNamespace (strParam params "as_agent")
  let found ← r.search params context db
  let resp ← recallAnswer h r params found
  return (found.db, resp)

def handleRecall (params : Json) (db : Db) : Except Panic (Db × Except String Json) :=
  let db := db.gcIfNeeded h.app.archiveOnGc r.env.now
  (recallSwept h r params db).run.map fun
    | .error e => (db, .error e)
    | .ok (db, resp) => (db, .ok resp)

/-! ## What cannot panic -/

theorem assign_of_isObject {j v : Json} {key : String} (hj : j.isObject) : assign j key v = pure (j.set key v) := by
  cases j <;> first | rfl | cases hj

variable {resp : Json}

theorem withMeta_of_isObject {change : Json → Fallible String Json} (hresp : resp.isObject) :
    withMeta resp change = change ((resp.get "meta").getD (.obj [])) >>= fun fields => pure (resp.set "meta" fields) := by
  rw [withMeta, asObject, if_pos hresp]
  rfl

/-- The budget goes into any object whose `meta` is one too, and leaves such an object. -/
theorem decorateBudget_eq (budgetTokens : Option ℕ) (outcome : BudgetOutcome) (hresp : resp.isObject)
    (hmeta : resp.get "meta" = none) : ∃ resp' : Json, decorateBudget budgetTokens outcome resp = pure resp' ∧ resp'.isObject := by
  unfold decorateBudget
  rw [assign_of_isObject hresp, pure_bind]
  cases budgetTokens with
  | none => exact ⟨_, rfl, by simpa using hresp⟩
  | some b =>
    have hfields : ((((resp.set "tokens_used" (.int outcome.tokensUsed)).set "budget_tokens" (.int b)).get "meta").getD
        (.obj [])).isObject := by
      rw [Json.get_set_of_ne (by decide), Json.get_set_of_ne (by decide), hmeta]
      rfl
    simp only
    rw [assign_of_isObject (by simpa using hresp), pure_bind, withMeta_of_isObject (by simpa using hresp),
      assign_of_isObject hfields, pure_bind, assign_of_isObject (by simpa using hfields), pure_bind,
      assign_of_isObject (by simpa using hfields), pure_bind, assign_of_isObject (by simpa using hfields), pure_bind]
    exact ⟨_, rfl, by simpa using hresp⟩

omit [Arith F32] [Arith F64] in
theorem attachMeta_eq (recallMode : String) (telemetry : RecallTelemetry F64) (hresp : resp.isObject) :
    ∃ resp' : Json, r.attachMeta recallMode telemetry resp = pure resp' ∧ resp'.isObject := by
  unfold RecallHost.attachMeta
  rw [withMeta_of_isObject hresp, pure_bind]
  exact ⟨_, rfl, by simpa using hresp⟩

omit [Arith F32] [Arith F64] in
theorem withoutStandards_eq (standards : List Json) (hresp : resp.isObject) :
    ∃ resp' : Json, withoutStandards standards resp = pure resp' ∧ resp'.isObject := by
  have hat : valueAt resp "memories" = pure ((resp.get "memories").getD .null) := by
    cases resp <;> first | rfl | cases hresp
  unfold withoutStandards
  rw [hat, pure_bind]
  split
  · simp only
    rw [assign_of_isObject hresp, pure_bind, assign_of_isObject (by simpa using hresp)]
    exact ⟨_, rfl, by simpa using hresp⟩
  · exact ⟨resp, rfl, hresp⟩

theorem injectNamespaceStandard_returns (db : Db) (ns : Option String) (hresp : resp.isObject) :
    (h.injectNamespaceStandard db ns resp).Returns := by
  unfold Host.injectNamespaceStandard
  simp only
  split_ifs with hempty hone
  · exact returns_pure resp
  all_goals
    obtain ⟨resp', heq, hresp'⟩ := withoutStandards_eq (h.standards db ns) hresp
    rw [heq, pure_bind]
  · obtain ⟨standard, hstandard⟩ := List.length_eq_one_iff.mp hone
    rw [hstandard, List.head?_cons, returns_expect_bind]
    refine ⟨standard, rfl, ?_⟩
    rw [assign_of_isObject hresp']
    exact returns_pure _
  · rw [assign_of_isObject hresp']
    exact returns_pure _

omit [Arith F32] [Arith F64] in
theorem recallAnswer_returns (params : Json) (found : Found F64) : (recallAnswer h r params found).Returns := by
  unfold recallAnswer
  simp only
  have hresp : (Json.obj [("count", .int (r.scoredMemories h found.results).length),
      ("memories", .arr (r.scoredMemories h found.results)), ("mode", .str found.mode)]).isObject := rfl
  obtain ⟨decorated, hdecorate, hobject⟩ := decorateBudget_eq (natParam params "budget_tokens") found.outcome hresp rfl
  obtain ⟨attached, hattach, hobject'⟩ := attachMeta_eq r found.recallMode found.telemetry hobject
  rw [hdecorate, pure_bind, hattach, pure_bind]
  exact injectNamespaceStandard_returns h found.db _ hobject'

/-! ## The lengths of the contents -/

omit [Arith F32] [Arith F64] in
theorem of_mem_collect {ι : Type} {key : ι → String} {candidate : ι → Option (Scored F64)} {items : List ι}
    {scored : List (Scored F64)} {s : Scored F64} (hs : s ∈ collect key candidate items scored) :
    s ∈ scored ∨ ∃ i ∈ items, candidate i = some s := by
  induction items generalizing scored with
  | nil => exact Or.inl hs
  | cons i items ih =>
    rw [collect_cons] at hs
    rcases ih hs with hold | ⟨j, hj, hcand⟩
    · split at hold
      · exact Or.inl hold
      · rcases List.mem_append.mp hold with hold | hnew
        · exact Or.inl hold
        · exact Or.inr ⟨i, List.mem_cons_self, Option.mem_toList.mp hnew⟩
    · exact Or.inr ⟨j, List.mem_cons_of_mem i hj, hcand⟩

theorem live_of_scored {store : Recall.Store F32 F64} {req : Request F32} {keyword : List (Scored F64)} {s : Scored F64}
    (hkeyword : keywordStage r.env store req = .ok keyword)
    (hs : s ∈ semanticStage r.env store.db req store.vectorIndex keyword) : s.mem ∈ store.db.live := by
  have hold : ∀ s ∈ keyword, s.mem ∈ store.db.live := by
    intro s hs
    have hmap : keyword.map (fun s => s.mem) = (ftsRows r.env store req).map fun r => r.toMemory :=
      map_of_mapM (fun _ _ h => ftsScored_mem h) hkeyword
    have hmem : s.mem ∈ (ftsRows r.env store req).map fun r => r.toMemory := hmap ▸ List.mem_map_of_mem hs
    obtain ⟨row, hrow, hmem⟩ := List.mem_map.mp hmem
    exact Db.mem_live.mpr ⟨row, (List.mem_filter.mp (mem_arrange.mp (List.mem_of_mem_take hrow))).1, hmem⟩
  cases hindex : store.vectorIndex with
  | none =>
    rw [hindex] at hs
    rcases mem_linearStage.mp hs with hs | ⟨row, hrow, -, -, -, -, rfl, -⟩
    · exact hold s hs
    · exact Db.mem_live.mpr ⟨row, hrow, rfl⟩
  | some search =>
    rw [hindex] at hs
    rcases of_mem_collect hs with hs | ⟨hit, -, hcand⟩
    · exact hold s hs
    · simp only [hitCandidate, Option.ite_none_right_eq_some, Option.bind_eq_some_iff] at hcand
      obtain ⟨-, row, hget, -, hs⟩ := hcand
      cases hs
      exact Db.mem_live.mpr ⟨row, (Db.get_eq_some.mp hget).1, rfl⟩

/-- `SQLITE_MAX_LENGTH`: SQLite stores no longer text. -/
def sqliteMaxLength : ℕ := 1000000000

/-- The contents are texts that SQLite can hold. -/
def Storable (db : Db) : Prop := ∀ mem ∈ db.live, Validate.byteLen mem.content.toList ≤ sqliteMaxLength

theorem contentLen_returns {mem : Memory} (hlen : Validate.byteLen mem.content.toList ≤ sqliteMaxLength) : (contentLen mem).Returns := by
  unfold contentLen
  unfold sqliteMaxLength at hlen
  simp only
  rw [if_pos (by omega)]
  exact returns_pure _

theorem hybrid_returns {store : Recall.Store F32 F64} (req : Request F32) (hsize : Storable store.db) :
    (r.hybrid store req).Returns := by
  unfold RecallHost.hybrid
  rw [returns_liftM_bind]
  intro keyword hkeyword
  have hstage : keywordStage r.env store req = .ok keyword := by
    cases h : keywordStage r.env store req with
    | error e =>
      rw [h] at hkeyword
      cases hkeyword
    | ok stage =>
      rw [h] at hkeyword
      cases hkeyword
      rfl
  refine returns_bind.mpr ⟨returns_forM fun s hs => ?_, fun _ _ => returns_liftM _⟩
  exact returns_bind.mpr ⟨contentLen_returns (hsize _ (live_of_scored r hstage hs)), fun _ _ => returns_pure _⟩

theorem search_returns (params : Json) (context : String) {db : Db} (hsize : Storable db) : (r.search params context db).Returns := by
  unfold RecallHost.search
  simp only
  split
  · refine returns_bind.mpr ⟨hybrid_returns r _ hsize, fun found _ => ?_⟩
    split <;> exact returns_pure _
  · exact returns_bind.mpr ⟨returns_liftM _, fun _ _ => returns_pure _⟩

/-- `handle_recall` returns whatever its arguments are, in every database that SQLite can hold. -/
theorem handleRecall_returns (params : Json) {db : Db} (hsize : Storable db) : ∃ out, handleRecall h r params db = .ok out := by
  have hswept : Storable (db.gcIfNeeded h.app.archiveOnGc r.env.now) := by
    intro mem hmem
    obtain ⟨row, hrow, rfl⟩ := Db.mem_live.mp hmem
    exact hsize _ (Db.mem_live.mpr ⟨row, (Db.mem_gcIfNeeded.mp hrow).1, rfl⟩)
  have hreturns : (recallSwept h r params (db.gcIfNeeded h.app.archiveOnGc r.env.now)).Returns := by
    unfold recallSwept
    simp only [returns_liftM_bind]
    intro context _ _ _
    refine returns_bind.mpr ⟨search_returns r params context hswept, fun found _ => ?_⟩
    exact returns_bind.mpr ⟨recallAnswer_returns h r params found, fun _ _ => returns_pure _⟩
  obtain ⟨out, hout⟩ := hreturns
  unfold handleRecall
  simp only
  rw [hout]
  exact ⟨_, rfl⟩

end Handler

end Mcp

end AiMemory
