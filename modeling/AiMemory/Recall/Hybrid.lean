import AiMemory.Db.Archive
import AiMemory.Lib.Ranking
import AiMemory.Recall.Similarity
import AiMemory.Recall.Visibility

/-!
# Hybrid recall

`recall_hybrid_with_telemetry`. The keyword stage takes the best full-text matches that pass the filters of the
request. The semantic stage adds memories that are no keyword match: either those among the nearest neighbours in the
vector index that pass the filters, tested one by one in Rust, or those a linear scan finds, filtered by SQL. Fusion
scores what was found, cuts it at the limit, boosts near namespaces and fills the token budget; what is returned is
touched.

What the full-text index, the clock and the tokenizer answer are parameters (`Env`). SQLite and the hash map leave
open how equal scores are ordered; both settle it by one order of the ids.
-/

namespace AiMemory

open Ranking

namespace Recall

structure ResolvedScoring (F : Type) where
  halfLifeDaysShort : F
  halfLifeDaysMid : F
  halfLifeDaysLong : F
  legacyScoring : Bool

/-- The arguments of a recall. -/
structure Request (F32 : Type) where
  context : String
  queryEmbedding : List F32
  ns : Option String
  limit : ℕ
  tagsFilter : Option String
  since : Option String
  until' : Option String
  asAgent : Option String
  budgetTokens : Option ℕ

/-- What the call reads besides its arguments and the database. -/
structure Env (F32 F64 : Type) where
  /-- `f64::from`. -/
  widen : F32 → F64
  /-- `f32::from_le_bytes`. -/
  fromLeBytes : UInt8 → UInt8 → UInt8 → UInt8 → F32
  /-- `memories_fts MATCH`. -/
  fts : Fts
  /-- `Utc::now().to_rfc3339()`. -/
  now : String
  /-- SQLite's `julianday`. -/
  julianday : String → Option F64
  /-- `julianday('now')`. -/
  juliandayNow : F64
  /-- The seconds since an RFC 3339 timestamp. -/
  ageSecs : String → Option ℤ
  /-- `count_tokens_cl100k`. -/
  countTokens : String → ℕ
  scoring : ResolvedScoring F64
  ties : Ties String

structure VectorHit (F32 : Type) where
  id : String
  distance : F32

/-- What is searched: the database, the full-text rank of its rows for the query, and the vector index, by its
`search`. -/
structure Store (F32 F64 : Type) where
  db : Db
  ftsRank : String → F64
  vectorIndex : Option (List F32 → ℕ → List (VectorHit F32))

/-- A value of the map `scored`. -/
structure Scored (F64 : Type) where
  mem : Memory
  ftsScore : F64
  cosine : F64

inductive RecallError where
  /-- `row.get(16)` on a `NULL` score. -/
  | nullScore
  | embedding (error : EmbeddingFormatError)
  deriving DecidableEq

/-! ## The filters -/

/-- The flag of `hierarchy_in_clause`. -/
def hierarchyActive : Option String → Bool
  | none => false
  | some ns => ns.toList.contains '/' && !(namespaceAncestors ns).isEmpty

section Filters

variable {F32 : Type} (now : String) (req : Request F32)

/-- `effective_namespace` and the fragment of `hierarchy_in_clause`. -/
def sqlNamespace (mem : Memory) : Bool :=
  let effective := if hierarchyActive req.ns then none else req.ns
  effective.all (mem.ns = ·) &&
    (!hierarchyActive req.ns || req.ns.all fun ns => (namespaceAncestors ns).contains mem.ns)

/-- The `WHERE` clause that the full-text query and the linear scan share, up to the visibility. -/
def plainFilters (mem : Memory) : Bool :=
  sqlNamespace req mem && mem.expiresAt.all (now < ·) && req.tagsFilter.all (mem.tags.contains ·) &&
    req.since.all (· ≤ mem.createdAt) && req.until'.all (mem.createdAt ≤ ·)

def sqlFilters (mem : Memory) : Bool :=
  plainFilters now req mem && visibilityClause mem (computeVisibilityPrefixes req.asAgent)

/-- The filters of the index branch: none of its `continue`s is taken. -/
def hnswFilters (mem : Memory) : Bool :=
  !(req.ns.any fun ns =>
      if hierarchyActive req.ns then !(namespaceAncestors ns).contains mem.ns else mem.ns != ns) &&
    !(mem.expiresAt.any (· ≤ now)) && !(req.tagsFilter.any (!mem.tags.contains ·)) &&
    !(req.since.any (mem.createdAt < ·)) && !(req.until'.any (· < mem.createdAt)) &&
    isVisible mem (computeVisibilityPrefixes req.asAgent)

variable {now req} {mem : Memory}

theorem sqlFilters_iff : sqlFilters now req mem = true ↔ plainFilters now req mem = true ∧
    visibilityClause mem (computeVisibilityPrefixes req.asAgent) = true := by
  rw [sqlFilters, Bool.and_eq_true]

theorem not_any_eq_all {α : Type} {o : Option α} {f g : α → Bool} (h : ∀ x, (!f x) = g x) :
    (!o.any f) = o.all g := by
  cases o with
  | none => rfl
  | some x => exact h x

theorem not_decide_lt (a b : String) : (!decide (a < b)) = decide (b ≤ a) := by
  rw [← decide_not]
  exact decide_eq_decide.mpr not_lt

theorem not_decide_le (a b : String) : (!decide (a ≤ b)) = decide (b < a) := by
  rw [← decide_not]
  exact decide_eq_decide.mpr not_le

theorem namespace_test : (!(req.ns.any fun ns =>
    if hierarchyActive req.ns then !(namespaceAncestors ns).contains mem.ns else mem.ns != ns)) =
      sqlNamespace req mem := by
  unfold sqlNamespace
  cases req.ns with
  | none => rfl
  | some ns =>
    cases hierarchyActive (some ns) with
    | true => simp
    | false => exact Bool.eq_iff_iff.mpr (by simp)

theorem hnswFilters_iff : hnswFilters now req mem = true ↔ plainFilters now req mem = true ∧
    isVisible mem (computeVisibilityPrefixes req.asAgent) = true := by
  rw [hnswFilters, namespace_test, not_any_eq_all (fun x => not_decide_le x now),
    not_any_eq_all (fun tag => Bool.not_not (mem.tags.contains tag)),
    not_any_eq_all (fun x => not_decide_lt mem.createdAt x), not_any_eq_all (fun x => not_decide_lt x mem.createdAt),
    Bool.and_eq_true]
  rfl

end Filters

/-! ## The map -/

section Collect

variable {ι F64 : Type}

/-- The loop of both branches: an item whose key is in the map is passed over, and one that makes a candidate is
inserted. -/
def collect (key : ι → String) (candidate : ι → Option (Scored F64)) (items : List ι)
    (scored : List (Scored F64)) : List (Scored F64) :=
  items.foldl (fun scored i =>
    if scored.any fun s => s.mem.id = key i then scored else scored ++ (candidate i).toList) scored

variable {key : ι → String} {candidate : ι → Option (Scored F64)} {items : List ι} {i : ι}
  {scored : List (Scored F64)} {s : Scored F64}

theorem collect_cons : collect key candidate (i :: items) scored = collect key candidate items
    (if scored.any fun s => s.mem.id = key i then scored else scored ++ (candidate i).toList) := rfl

theorem any_id : (scored.any fun s => s.mem.id = key i) = true ↔ ∃ t ∈ scored, t.mem.id = key i := by
  simp

/-- An item with a key of its own adds its candidate, unless the key is in the map. -/
theorem mem_collect (hkey : ∀ i s, candidate i = some s → s.mem.id = key i) (hnodup : (items.map key).Nodup) :
    s ∈ collect key candidate items scored ↔
      s ∈ scored ∨ ∃ i ∈ items, candidate i = some s ∧ ∀ t ∈ scored, t.mem.id ≠ key i := by
  induction items generalizing scored with
  | nil => simp [collect]
  | cons i items ih =>
    rw [List.map_cons, List.nodup_cons] at hnodup
    rw [collect_cons, ih hnodup.2]
    by_cases hin : (scored.any fun s => s.mem.id = key i) = true
    · rw [if_pos hin]
      obtain ⟨t, ht, hti⟩ := any_id.mp hin
      have hnot : ¬∀ t ∈ scored, t.mem.id ≠ key i := fun h => h t ht hti
      simp [hnot]
    · rw [if_neg hin]
      have hfree : ∀ t ∈ scored, t.mem.id ≠ key i := fun t ht hti => hin (any_id.mpr ⟨t, ht, hti⟩)
      -- the candidate of `i` is in the way of no later key
      have hlater : ∀ j ∈ items, (∀ t ∈ scored ++ (candidate i).toList, t.mem.id ≠ key j) ↔
          ∀ t ∈ scored, t.mem.id ≠ key j := by
        intro j hj
        refine ⟨fun h t ht => h t (List.mem_append_left _ ht), fun h t ht => ?_⟩
        rcases List.mem_append.mp ht with ht | ht
        · exact h t ht
        · rw [hkey i t (Option.mem_toList.mp ht)]
          exact fun hij => hnodup.1 (hij ▸ List.mem_map_of_mem hj)
      constructor
      · rintro (hs | ⟨j, hj, hcand, hno⟩)
        · rcases List.mem_append.mp hs with hs | hs
          · exact Or.inl hs
          · exact Or.inr ⟨i, List.mem_cons_self, Option.mem_toList.mp hs, hfree⟩
        · exact Or.inr ⟨j, List.mem_cons_of_mem _ hj, hcand, (hlater j hj).mp hno⟩
      · rintro (hs | ⟨j, hj, hcand, hno⟩)
        · exact Or.inl (List.mem_append_left _ hs)
        · rcases List.mem_cons.mp hj with rfl | hj
          · exact Or.inl (List.mem_append_right _ (Option.mem_toList.mpr hcand))
          · exact Or.inr ⟨j, hj, hcand, (hlater j hj).mpr hno⟩

theorem nodup_collect (hkey : ∀ i s, candidate i = some s → s.mem.id = key i)
    (h : (scored.map fun s => s.mem.id).Nodup) :
    ((collect key candidate items scored).map fun s => s.mem.id).Nodup := by
  induction items generalizing scored with
  | nil => exact h
  | cons i items ih =>
    rw [collect_cons]
    refine ih ?_
    by_cases hin : (scored.any fun s => s.mem.id = key i) = true
    · rw [if_pos hin]
      exact h
    · rw [if_neg hin, List.map_append, List.nodup_append]
      cases hcand : candidate i with
      | none => exact ⟨h, List.nodup_nil, fun _ _ _ hb => absurd hb List.not_mem_nil⟩
      | some c =>
        refine ⟨h, List.nodup_singleton _, fun a ha b hb hab => hin (any_id.mpr ?_)⟩
        obtain ⟨t, ht, rfl⟩ := List.mem_map.mp ha
        exact ⟨t, ht, (hab.trans (List.mem_singleton.mp hb)).trans (hkey i c hcand)⟩

end Collect

variable {F32 F64 : Type} [Arith F32] [Arith F64]

/-! ## The keyword stage -/

section Keyword

variable (env : Env F32 F64) (store : Store F32 F64) (req : Request F32)

/-- The column `fts_score`; a date that `julianday` does not read makes it `NULL`. -/
def ftsScore (mem : Memory) : WithBot F64 :=
  (env.julianday mem.updatedAt).map fun updated =>
    store.ftsRank mem.id * lit (-1) + lit mem.priority * lit (1 / 2) + lit (min mem.accessCount 50 : ℤ) * lit (1 / 10) +
      lit mem.confidence * lit 2 +
      (match mem.tier with | .long => lit 3 | .mid => lit 1 | .short => lit 0) +
      lit 1 / (lit 1 + (env.juliandayNow - updated) * lit (1 / 10))

def ftsLimit (limit : ℕ) : ℕ := max (limit * 3) 30

/-- Whether the full-text query made of the context finds a row. -/
def ftsMatch (r : MemoryRow) : Bool := env.fts (sanitizeFtsQuery req.context true) r

def ftsRows : List MemoryRow :=
  (arrange env.ties (fun r => r.id) (fun r => ftsScore env store r.toMemory)
    (store.db.memories.rows.filter fun r =>
      ftsMatch env req r && sqlFilters env.now req r.toMemory)).take (ftsLimit req.limit)

def ftsScored (mem : Memory) : Except RecallError (Scored F64) :=
  match ftsScore env store mem with
  | none => .error .nullScore
  | some score =>
    match getEmbedding env.fromLeBytes ((store.db.get mem.id).bind fun r => r.embedding) with
    | .error e => .error (.embedding e)
    | .ok none => .ok ⟨mem, score, lit 0⟩
    | .ok (some emb) => .ok ⟨mem, score, env.widen (cosineSimilarity req.queryEmbedding emb)⟩

/-- The map `scored` after the keyword stage. -/
def keywordStage : Except RecallError (List (Scored F64)) :=
  (ftsRows env store req).mapM fun r => ftsScored env store req r.toMemory

def maxFtsScore (scored : List (Scored F64)) : F64 :=
  scored.foldl (fun m s => if m < s.ftsScore then s.ftsScore else m) (lit 1)

end Keyword

/-! ## The semantic stage -/

section Semantic

variable (env : Env F32 F64) (db : Db) (req : Request F32)

def annLimit (limit : ℕ) : ℕ := max (limit * 5) 50

def aboveGate (cosine : F64) : Bool := lit (1 / 5) < cosine

def hitCandidate (hit : VectorHit F32) : Option (Scored F64) :=
  let cosine := env.widen (lit 1 - hit.distance)
  if aboveGate cosine then
    (db.get hit.id).bind fun r =>
      if hnswFilters env.now req r.toMemory then some ⟨r.toMemory, lit 0, cosine⟩ else none
  else none

def rowCandidate (r : MemoryRow) : Option (Scored F64) :=
  (embeddingOf env.fromLeBytes r.embedding).bind fun emb =>
    let cosine := env.widen (cosineSimilarity req.queryEmbedding emb)
    if aboveGate cosine then some ⟨r.toMemory, lit 0, cosine⟩ else none

def indexStage (search : List F32 → ℕ → List (VectorHit F32)) (scored : List (Scored F64)) : List (Scored F64) :=
  collect (fun hit => hit.id) (hitCandidate env db req) (search req.queryEmbedding (annLimit req.limit)) scored

def linearStage (scored : List (Scored F64)) : List (Scored F64) :=
  collect (fun r => r.id) (rowCandidate env req)
    (db.memories.rows.filter fun r => r.embedding.isSome && sqlFilters env.now req r.toMemory) scored

def semanticStage (index : Option (List F32 → ℕ → List (VectorHit F32))) (scored : List (Scored F64)) :
    List (Scored F64) :=
  match index with
  | some search => indexStage env db req search scored
  | none => linearStage env db req scored

end Semantic

/-! ## Fusion -/

section Fusion

/-- The semantic weight falls from 0.50 for contents up to 500 bytes to 0.15 for contents from 5000 bytes on. -/
def semanticWeight (mem : Memory) : F64 :=
  let contentLen : F64 := lit (Validate.byteLen mem.content.toList)
  if contentLen ≤ lit 500 then lit (1 / 2)
  else if lit 5000 ≤ contentLen then lit (3 / 20)
  else lit (1 / 2) - lit (7 / 20) * ((contentLen - lit 500) / lit 4500)

def ResolvedScoring.halfLifeForTier (scoring : ResolvedScoring F64) : Tier → F64
  | .short => scoring.halfLifeDaysShort
  | .mid => scoring.halfLifeDaysMid
  | .long => scoring.halfLifeDaysLong

def ln2 : ℚ := 693147180559945309417232121458 / 1000000000000000000000000000000

def ResolvedScoring.decayMultiplier (scoring : ResolvedScoring F64) (tier : Tier) (ageDays : F64) : F64 :=
  if scoring.legacyScoring || ageDays ≤ lit 0 then lit 1
  else Arith.exp (lit (-ln2) * ageDays / scoring.halfLifeForTier tier)

variable (env : Env F32 F64)

def ageDays (createdAt : String) : F64 :=
  match env.ageSecs createdAt with
  | some secs => lit secs / lit 86400
  | none => lit 0

def finalScore (maxFts : F64) (s : Scored F64) : F64 :=
  let normFts := if lit 0 < maxFts then s.ftsScore / maxFts else lit 0
  let weight := semanticWeight s.mem
  (weight * s.cosine + (lit 1 - weight) * normFts) *
    env.scoring.decayMultiplier s.mem.tier (ageDays env s.mem.createdAt)

def proximityBoost (agentNs memoryNs : String) : F64 :=
  lit 1 / (lit 1 + lit ((namespaceDepth agentNs - namespaceDepth memoryNs : ℕ) : ℚ) * lit (3 / 10))

def applyProximityBoost (scored : List (Memory × F64)) (agentNs : String) : List (Memory × F64) :=
  (scored.map fun r => (r.1, r.2 * proximityBoost agentNs r.1.ns)).insertionSort fun a b => b.2 ≤ a.2

structure BudgetOutcome where
  tokensUsed : ℕ
  tokensRemaining : Option ℕ
  memoriesDropped : ℕ
  budgetOverflow : Bool
  deriving DecidableEq

def saturatingAdd (a b : ℕ) : ℕ := min (a + b) (2 ^ 64 - 1)

/-- The greedy fill: what was kept, the tokens it uses, and whether the first memory alone is over the budget. -/
def fillBudget (cost : Memory → ℕ) (budget : ℕ) :
    ℕ → List (Memory × F64) → List (Memory × F64) → List (Memory × F64) × ℕ × Bool
  | used, out, [] => (out, used, false)
  | used, out, r :: rest =>
    if budget < saturatingAdd used (cost r.1) then
      if out.isEmpty then ([r], saturatingAdd used (cost r.1), true) else (out, used, false)
    else fillBudget cost budget (saturatingAdd used (cost r.1)) (out ++ [r]) rest

def applyTokenBudget (scored : List (Memory × F64)) : Option ℕ → List (Memory × F64) × BudgetOutcome
  | some 0 => ([], ⟨0, some 0, scored.length, false⟩)
  | none =>
    let used := scored.foldl (fun used r => saturatingAdd used (Validate.byteLen r.1.content.toList / 4)) 0
    (scored, ⟨used, none, 0, false⟩)
  | some budget =>
    let filled := fillBudget (fun mem => env.countTokens mem.content) budget 0 [] scored
    (filled.1, ⟨filled.2.1, some (budget - filled.2.1), scored.length - filled.1.length, filled.2.2⟩)

structure RecallTelemetry (F64 : Type) where
  ftsCandidates : ℕ
  hnswCandidates : ℕ
  blendWeightAvg : F64

/-- What a recall returns. -/
structure Recalled (F64 : Type) where
  memories : List (Memory × F64)
  outcome : BudgetOutcome
  telemetry : RecallTelemetry F64

/-- The mean of the semantic weights, added up in the order of the map. -/
def blendWeightAvg (scored : List (Scored F64)) : F64 :=
  let weights : List F64 := (inOrder env.ties (fun s => s.mem.id) scored).map fun s => semanticWeight s.mem
  if weights.isEmpty then lit 0 else weights.foldl (· + ·) (lit 0) / lit weights.length

variable (req : Request F32)

/-- From the map to the result: score, sort, truncate, boost, fill the budget. -/
def fusion (keyword scored : List (Scored F64)) : Recalled F64 :=
  let results := (arrange env.ties (fun r => r.1.id) (fun r => r.2)
    (scored.map fun s => (s.mem, finalScore env (maxFtsScore keyword) s))).take req.limit
  let boosted :=
    match hierarchyActive req.ns, req.ns with
    | true, some anchor => applyProximityBoost results anchor
    | _, _ => results
  let budgeted := applyTokenBudget env boosted req.budgetTokens
  ⟨budgeted.1, budgeted.2, ⟨keyword.length, scored.length - keyword.length, blendWeightAvg env scored⟩⟩

end Fusion

/-- The result of a recall, and the database after the returned memories are touched; `times` are the clock readings
of each `touch`. -/
def recallHybridWithTelemetry (env : Env F32 F64) (store : Store F32 F64) (req : Request F32)
    (times : String → Db.TouchTimes) : Except RecallError (Recalled F64 × Db) := do
  let keyword ← keywordStage env store req
  let recalled := fusion env req keyword (semanticStage env store.db req store.vectorIndex keyword)
  return (recalled, recalled.memories.foldl (fun db r => db.touch r.1.id (times r.1.id)) store.db)

end Recall

end AiMemory
