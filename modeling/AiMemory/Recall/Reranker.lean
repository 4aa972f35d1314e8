import AiMemory.Lib.Batching
import AiMemory.Model.Types

/-!
# The coalescing reranker

`BatchedReranker` passes the calls of `rerank` to one worker, which scores those that it has collected with one call of `rerank_batch`. The
scores of a batch are one flat vector, and a cursor walks over it. A call that finds no worker, or that the worker leaves, falls back to
the encoder, with no candidates: it gets none back (`own_results_iff`).

Scores are elements of a linear order; `blend` is `0.6 * original + 0.4 * cross_encoder` there.
-/

namespace AiMemory

namespace Reranker

variable {S : Type*}

/-- A memory with its score. -/
abbrev Candidate (S : Type*) := Memory × S

/-- `CrossEncoder`: `neural` is the model on a query and a document, `none` for the variant `Lexical`. -/
structure CrossEncoder (S : Type*) where
  lexicalScore : String → String → String → S
  neural : Option (String → String → S)
  blend : S → S → S

/-- What fails while a batch is processed: the lock of the model, the inference of the batch, or the scoring of one candidate. -/
structure Faults where
  lock : Bool
  inference : Bool
  score : ℕ → Bool

/-- Every scoring call of the model succeeds. -/
def Faults.Clear (faults : Faults) : Prop := faults.lock = false ∧ faults.inference = false ∧ ∀ i, faults.score i = false

/-- `RerankJob` without its channel. -/
structure RerankJob (S : Type*) where
  query : String
  candidates : List (Candidate S)

namespace CrossEncoder

variable [LinearOrder S] (e : CrossEncoder S)

def score (fails : Bool) (query title content : String) : S :=
  match e.neural with
  | none => e.lexicalScore query title content
  | some model => if fails then e.lexicalScore query title content else model query (title ++ " " ++ content)

/-- `sort_by`, by descending score. It is stable. -/
def sortByScore (scored : List (Candidate S)) : List (Candidate S) := scored.mergeSort fun a b => decide (b.2 ≤ a.2)

def rerank (fails : ℕ → Bool) (query : String) (candidates : List (Candidate S)) : List (Candidate S) :=
  sortByScore (candidates.mapIdx fun i c => (c.1, e.blend c.2 (e.score (fails i) query c.1.title c.1.content)))

/-- The variant `Lexical`. -/
def lexical : CrossEncoder S := { e with neural := none }

/-- `neural_rerank_batch`: one score for each pair of a query and one of its candidates, in their order; no pairs need no inference. -/
def neuralRerankBatch (model : String → String → S) (fails : Bool) (queries : List (String × List (Candidate S))) : Option (List S) :=
  let pairs := queries.flatMap fun job => job.2.map fun c => (job.1, c.1.title ++ " " ++ c.1.content)
  if pairs = [] then some []
  else if fails then none
  else some (pairs.map fun pair => model pair.1 pair.2)

/-- The candidates of one query with the scores from the cursor on; an index out of bounds panics. -/
def scoredAt (scores : List S) : ℕ → List (Candidate S) → Option (List (Candidate S))
  | _, [] => some []
  | i, c :: candidates =>
    match scores[i]? with
    | none => none
    | some ce => (scoredAt scores (i + 1) candidates).map ((c.1, e.blend c.2 ce) :: ·)

/-- The loop of `rerank_batch` over its queries. -/
def assign (scores : List S) : ℕ → List (String × List (Candidate S)) → Option (List (List (Candidate S)))
  | _, [] => some []
  | cursor, (_, candidates) :: queries =>
    match e.scoredAt scores cursor candidates with
    | none => none
    | some scored => (assign scores (cursor + candidates.length) queries).map (sortByScore scored :: ·)

/-- `rerank_batch`; `none` is a panic. -/
def rerankBatch (faults : Faults) (queries : List (String × List (Candidate S))) : Option (List (List (Candidate S))) :=
  match queries with
  | [(query, candidates)] => some [e.rerank faults.score query candidates]
  | _ =>
    match e.neural with
    | none => some (queries.map fun job => e.rerank faults.score job.1 job.2)
    | some model =>
      if faults.lock then some (queries.map fun job => e.lexical.rerank faults.score job.1 job.2)
      else
        match neuralRerankBatch model faults.inference queries with
        | some scores => e.assign scores 0 queries
        | none => some (queries.map fun job => e.lexical.rerank faults.score job.1 job.2)

/-- `process_batch`: the results, in the order of the jobs. -/
def processBatch (faults : Faults) (batch : List (RerankJob S)) : Option (List (List (Candidate S))) :=
  match batch with
  | [] => some []
  | [job] => some [e.rerank faults.score job.query job.candidates]
  | _ => e.rerankBatch faults (batch.map fun job => (job.query, job.candidates))

/-- `BatchedReranker`. A call whose job is not taken, or not answered, reranks `Vec::new()`. -/
def batchedReranker (maxBatch : ℕ) : Batching.Worker (RerankJob S) (List (Candidate S)) Faults where
  maxBatch
  work := e.processBatch
  fallback job := e.rerank (fun _ => false) job.query []

end CrossEncoder

/-- The result is a permutation of the candidates of the job, with new scores, in descending order of these. -/
structure OwnResults [LinearOrder S] (job : RerankJob S) (result : List (Candidate S)) : Prop where
  perm : (result.map Prod.fst).Perm (job.candidates.map Prod.fst)
  sorted : result.Pairwise fun a b => b.2 ≤ a.2

namespace CrossEncoder

variable [LinearOrder S] (e : CrossEncoder S)

/-- What `rerank` gives the query of the job alone, when nothing fails. -/
def alone (job : RerankJob S) : List (Candidate S) := e.rerank (fun _ => false) job.query job.candidates

variable {e} {job : RerankJob S} {fails : ℕ → Bool} {faults : Faults}

theorem ownResults_sortByScore {scored : List (Candidate S)} (h : (scored.map Prod.fst).Perm (job.candidates.map Prod.fst)) :
    OwnResults job (sortByScore scored) where
  perm := ((List.mergeSort_perm scored _).map Prod.fst).trans h
  sorted := by
    refine (List.pairwise_mergeSort (fun a b c hab hbc => ?_) (fun a b => ?_) scored).imp fun hle => of_decide_eq_true hle
    · exact decide_eq_true ((of_decide_eq_true hbc).trans (of_decide_eq_true hab))
    · simp only [Bool.or_eq_true, decide_eq_true_eq]
      exact le_total b.2 a.2

theorem ownResults_rerank : OwnResults job (e.rerank fails job.query job.candidates) := by
  refine ownResults_sortByScore (.of_eq ?_)
  rw [List.mapIdx_eq_zipIdx_map, List.map_map, ← List.zipIdx_map_fst 0 job.candidates, List.map_map, List.zipIdx_map_fst]
  rfl

theorem ownResults_fallback : OwnResults job (e.rerank fails job.query []) ↔ job.candidates = [] := by
  constructor
  · intro hown
    have hlength := hown.perm.length_eq
    unfold rerank sortByScore at hlength
    simpa using hlength.symm
  · intro hnone
    have hown : OwnResults ⟨job.query, []⟩ (e.rerank fails job.query []) := ownResults_rerank
    exact ⟨hnone ▸ hown.perm, hown.sorted⟩

omit [LinearOrder S] in
theorem scoredAt_append (f : Candidate S → S) (before after : List S) (candidates : List (Candidate S)) :
    e.scoredAt (before ++ candidates.map f ++ after) before.length candidates =
      some (candidates.map fun c => (c.1, e.blend c.2 (f c))) := by
  induction candidates generalizing before with
  | nil => rfl
  | cons c candidates ih =>
    have hhead : (before ++ (c :: candidates).map f ++ after)[before.length]? = some (f c) := by
      rw [List.append_assoc, List.map_cons, List.cons_append, List.getElem?_append_right le_rfl, Nat.sub_self]
      rfl
    have hrest : before ++ (c :: candidates).map f ++ after = (before ++ [f c]) ++ candidates.map f ++ after := by simp
    unfold scoredAt
    rw [hhead]
    simp only
    rw [hrest, show before.length + 1 = (before ++ [f c]).length by rw [List.length_append, List.length_singleton], ih]
    rfl

theorem assign_append (f : String → Candidate S → S) (before : List S) (queries : List (String × List (Candidate S))) :
    e.assign (before ++ queries.flatMap fun job => job.2.map (f job.1)) before.length queries =
      some (queries.map fun job => sortByScore (job.2.map fun c => (c.1, e.blend c.2 (f job.1 c)))) := by
  induction queries generalizing before with
  | nil => rfl
  | cons job queries ih =>
    obtain ⟨query, candidates⟩ := job
    unfold assign
    rw [List.flatMap_cons, ← List.append_assoc, scoredAt_append]
    simp only
    rw [show before.length + candidates.length = (before ++ candidates.map (f query)).length by
      rw [List.length_append, List.length_map], ih]
    rfl

omit [LinearOrder S] in
theorem neuralRerankBatch_cases (model : String → String → S) (fails : Bool) (queries : List (String × List (Candidate S))) :
    (neuralRerankBatch model fails queries = none ∧ fails = true) ∨ neuralRerankBatch model fails queries =
      some (queries.flatMap fun job => job.2.map fun c => model job.1 (c.1.title ++ " " ++ c.1.content)) := by
  unfold neuralRerankBatch
  simp only
  have hmap : (queries.flatMap fun job => job.2.map fun c => (job.1, c.1.title ++ " " ++ c.1.content)).map
      (fun pair => model pair.1 pair.2) =
      queries.flatMap fun job => job.2.map fun c => model job.1 (c.1.title ++ " " ++ c.1.content) := by
    rw [List.map_flatMap]
    simp only [List.map_map, Function.comp_def]
  split_ifs with hempty hfails
  · refine Or.inr ?_
    rw [← hmap, hempty]
    rfl
  · exact Or.inl ⟨rfl, hfails⟩
  · exact Or.inr (congrArg some hmap)

theorem rerank_of_clear (hclear : ∀ i, fails i = false) : e.rerank fails job.query job.candidates = e.alone job := by
  unfold alone
  rw [show fails = fun _ => false from funext hclear]

theorem alone_of_neural {model : String → String → S} (hneural : e.neural = some model) :
    sortByScore (job.candidates.map fun c => (c.1, e.blend c.2 (model job.query (c.1.title ++ " " ++ c.1.content)))) = e.alone job := by
  unfold alone rerank score
  rw [hneural]
  simp only [Bool.false_eq_true, if_false]
  rw [List.mapIdx_eq_zipIdx_map, ← List.zipIdx_map_fst 0 job.candidates, List.map_map, List.zipIdx_map_fst]
  rfl

/-- The answer of `rerank_batch` has a result of its own for each query, at its place. -/
theorem rerankBatch_spec (faults : Faults) (batch : List (RerankJob S)) :
    ∃ g, e.rerankBatch faults (batch.map fun job => (job.query, job.candidates)) = some (batch.map g) ∧
      (∀ job, OwnResults job (g job)) ∧ (faults.Clear → ∀ job, g job = e.alone job) := by
  have heach : ∀ e' : CrossEncoder S, (batch.map fun job => (job.query, job.candidates)).map
      (fun job => e'.rerank faults.score job.1 job.2) = batch.map fun job => e'.rerank faults.score job.query job.candidates := by
    intro e'
    rw [List.map_map]
    rfl
  unfold rerankBatch
  split
  · rename_i query candidates hone
    obtain ⟨job, rfl⟩ : ∃ job, batch = [job] := List.length_eq_one_iff.mp (by simpa using congrArg List.length hone)
    cases hone
    exact ⟨fun job => e.rerank faults.score job.query job.candidates, rfl, fun _ => ownResults_rerank,
      fun hclear _ => rerank_of_clear hclear.2.2⟩
  · cases hneural : e.neural with
    | none => exact ⟨_, congrArg some (heach e), fun _ => ownResults_rerank, fun hclear _ => rerank_of_clear hclear.2.2⟩
    | some model =>
      simp only
      split_ifs with hlock
      · exact ⟨_, congrArg some (heach e.lexical), fun _ => ownResults_rerank, fun hclear => absurd (hclear.1.symm.trans hlock) (by decide)⟩
      · rcases neuralRerankBatch_cases model faults.inference (batch.map fun job => (job.query, job.candidates)) with
          ⟨hfailed, hinference⟩ | hscores
        · rw [hfailed]
          exact ⟨_, congrArg some (heach e.lexical), fun _ => ownResults_rerank,
            fun hclear => absurd (hclear.2.1.symm.trans hinference) (by decide)⟩
        · have hassign := assign_append (e := e) (fun query c => model query (c.1.title ++ " " ++ c.1.content)) []
            (batch.map fun job => (job.query, job.candidates))
          rw [List.nil_append, List.length_nil, List.map_map] at hassign
          rw [hscores]
          refine ⟨_, hassign, fun job => ?_, fun _ job => alone_of_neural hneural⟩
          refine ownResults_sortByScore (.of_eq ?_)
          rw [List.map_map]
          rfl

theorem processBatch_spec (faults : Faults) (batch : List (RerankJob S)) :
    ∃ g, e.processBatch faults batch = some (batch.map g) ∧ (∀ job, OwnResults job (g job)) ∧
      (faults.Clear → ∀ job, g job = e.alone job) := by
  match batch with
  | [] => exact ⟨e.alone, rfl, fun _ => ownResults_rerank, fun _ _ => rfl⟩
  | [job] => exact ⟨fun job => e.rerank faults.score job.query job.candidates, rfl, fun _ => ownResults_rerank,
      fun hclear _ => rerank_of_clear hclear.2.2⟩
  | job :: job' :: rest => exact rerankBatch_spec faults (job :: job' :: rest)

end CrossEncoder

/-! ## Runs -/

section Runs

open Batching

variable [LinearOrder S] {e : CrossEncoder S} {maxBatch : ℕ}

/-- Whoever finds no worker, or is left by it, has no candidates. -/
def ServesAll (s : State (RerankJob S) (List (Candidate S))) : Action (RerankJob S) Faults → Prop
  | .submit job => s.running = false → job.candidates = []
  | .stop => ∀ j ∈ s.held, j.2.candidates = []
  | _ => True

/-- Every scoring call of the run succeeds. -/
def AllScored (as : List (Action (RerankJob S) Faults)) : Prop := ∀ faults, .work faults ∈ as → faults.Clear

/-- What a call has to get: its own results, and while every scoring call succeeds those of the encoder alone. -/
def Served (e : CrossEncoder S) (as : List (Action (RerankJob S) Faults)) (job : RerankJob S) (result : List (Candidate S)) : Prop :=
  OwnResults job result ∧ (AllScored as → result = e.alone job)

theorem served_fallback (as : List (Action (RerankJob S) Faults)) (job : RerankJob S) :
    Served e as job ((e.batchedReranker maxBatch).fallback job) ↔ job.candidates = [] := by
  refine ⟨fun hserved => CrossEncoder.ownResults_fallback.mp hserved.1, fun hnone => ⟨CrossEncoder.ownResults_fallback.mpr hnone, ?_⟩⟩
  intro _
  unfold CrossEncoder.alone
  rw [hnone]
  rfl

theorem spared_iff (as : List (Action (RerankJob S) Faults)) (s : State (RerankJob S) (List (Candidate S)))
    (a : Action (RerankJob S) Faults) : (e.batchedReranker maxBatch).Spared (Served e as) s a ↔ ServesAll s a := by
  cases a with
  | submit job => exact imp_congr_right fun _ => served_fallback as job
  | stop => exact forall₂_congr fun j _ => served_fallback as j.2
  | pull => exact Iff.rfl
  | reply => exact Iff.rfl
  | work faults =>
    refine iff_of_true (fun _ => ?_) trivial
    obtain ⟨g, hg, -⟩ := CrossEncoder.processBatch_spec (e := e) faults (s.batch.map Prod.snd)
    rw [show (e.batchedReranker maxBatch).work faults (s.batch.map Prod.snd) = _ from hg]
    simp

/-- Every call is answered once, or waits for a running worker. And the answers are what the calls have to get exactly if no call with
candidates finds the worker gone, or is left by it. -/
theorem own_results_iff (e : CrossEncoder S) (maxBatch : ℕ) (as : List (Action (RerankJob S) Faults)) :
    (∀ t ∈ Machine.states (e.batchedReranker maxBatch).step {} as, Worker.Accounted t) ∧
    ((∀ t ∈ Machine.states (e.batchedReranker maxBatch).step {} as, ∀ x ∈ t.answers, Served e as x.1.2 x.2) ↔
      Machine.Meets (e.batchedReranker maxBatch).step ServesAll {} as) := by
  refine ⟨Worker.accounted_states as, ?_⟩
  refine (Worker.answers_iff_meets as (fun faults hfaults jobs outs hwork x hx => ?_) fun x hx => absurd hx List.not_mem_nil).trans
    (Machine.meets_congr (spared_iff as))
  obtain ⟨g, hg, hown, halone⟩ := CrossEncoder.processBatch_spec (e := e) faults jobs
  cases hg.symm.trans hwork
  have hzip : jobs.zip (jobs.map g) = jobs.map fun job => (job, g job) := by
    rw [List.zip_map_right, List.zip_eq_zipWith, List.zipWith_self, List.map_map]
    rfl
  rw [hzip] at hx
  obtain ⟨job, -, rfl⟩ := List.mem_map.mp hx
  exact ⟨hown job, fun hall => halone (hall faults hfaults) job⟩

def byLength : CrossEncoder ℕ where
  lexicalScore _ title _ := title.length
  neural := none
  blend original ce := original + ce

def found : Memory where
  id := "m-1"
  tier := .long
  ns := "notes"
  title := "Plan"
  content := "draft"
  tags := []
  priority := 5
  confidence := 1
  source := "claude"
  accessCount := 0
  createdAt := "2026-01-05T00:00:00+00:00"
  updatedAt := "2026-01-05T00:00:00+00:00"
  lastAccessedAt := none
  expiresAt := none
  metadata := .obj []

def lone : RerankJob ℕ := ⟨"plan", [(found, 1)]⟩

/-- A call while the worker runs gets its candidate back. -/
example : ([.submit lone, .pull, .work ⟨false, false, fun _ => false⟩, .reply].foldl (byLength.batchedReranker 32).step {}).answers.map
    (fun x => x.2.map fun c => (c.1.id, c.2)) = [[("m-1", 5)]] := by decide +kernel

/-- A call that the worker leaves, and one that finds it gone, lose it. -/
theorem lone_loses_its_candidate :
    ([.submit lone, .stop].foldl (byLength.batchedReranker 32).step {}).answers.map (fun x => x.2) = [[]] ∧
    ([.stop, .submit lone].foldl (byLength.batchedReranker 32).step {}).answers.map (fun x => x.2) = [[]] ∧
    ¬OwnResults lone [] :=
  ⟨by decide +kernel, by decide +kernel, fun hown => absurd hown.perm.length_eq (by decide)⟩

end Runs

end Reranker

end AiMemory
