import AiMemory.Recall.Nearest

/-!
# What a recall tells about hidden memories

Two stores look the same to an agent if they hold the same memories that `is_visible` lets it see (`SameVisible`). Each
stage of a recall is then computed from the same rows, with two exceptions: rows that only the SQL lets the agent see
(`SqlOnly`), and the cut of the nearest neighbours, which hidden memories take part in (`SameReach`). Where these make
no difference the recall returns the same (`recall_blind`); where neither the limit nor the budget cuts anything, a
difference in the second always shows.
-/

namespace AiMemory

open Ranking

namespace Recall

variable {F32 F64 : Type}

/-- The stores hold the same memories visible to the agent, with the same full-text ranks. -/
structure SameVisible (req : Request F32) (a b : Store F32 F64) : Prop where
  rows : ∀ r : MemoryRow, isVisible r.toMemory (computeVisibilityPrefixes req.asAgent) = true →
    (r ∈ a.db.memories ↔ r ∈ b.db.memories)
  rank : ∀ r ∈ a.db.memories, isVisible r.toMemory (computeVisibilityPrefixes req.asAgent) = true →
    a.ftsRank r.id = b.ftsRank r.id

theorem SameVisible.symm {req : Request F32} {a b : Store F32 F64} (h : SameVisible req a b) : SameVisible req b a :=
  ⟨fun r hr => (h.rows r hr).symm, fun r hr hvis => (h.rank r ((h.rows r hvis).mpr hr) hvis).symm⟩

theorem SameVisible.refl {req : Request F32} (a : Store F32 F64) : SameVisible req a a :=
  ⟨fun _ _ => Iff.rfl, fun _ _ _ => rfl⟩

variable [Arith F32] [Arith F64]

/-- A store without an index, or with one that holds its embeddings and searches exactly. -/
inductive Searched (env : Env F32 F64) (req : Request F32) (s : Store F32 F64) :
    Option (List (String × List F32)) → Prop
  | scan : s.vectorIndex = none → Searched env req s none
  | index {search ranking} : s.vectorIndex = some search →
      Nearest env s.db req.queryEmbedding search ranking → Searched env req s (some ranking)

/-- A row that a query finds although the agent does not see it. -/
def SqlOnly (env : Env F32 F64) (req : Request F32) (s : Store F32 F64) (r : MemoryRow) : Prop :=
  r ∈ s.db.memories ∧ isVisible r.toMemory (computeVisibilityPrefixes req.asAgent) = false ∧
    sqlFilters env.now req r.toMemory = true ∧
    (ftsMatch env req r = true ∨ s.vectorIndex = none ∧
      ∃ emb, embeddingOf env.fromLeBytes r.embedding = some emb ∧
        aboveGate (linearCosine env req.queryEmbedding emb) = true)

/-- What only the SQL lets the agent see in the first store, the second one holds too, with the same rank. -/
def SharedSqlOnly (env : Env F32 F64) (req : Request F32) (a b : Store F32 F64) : Prop :=
  ∀ r, SqlOnly env req a r → r ∈ b.db.memories ∧ a.ftsRank r.id = b.ftsRank r.id

/-- Few enough embeddings of the store are nearer than that of an id. -/
def InReach (ranking : Option (List (String × List F32))) (limit : ℕ) (id : String) : Prop :=
  ∀ l ∈ ranking, (before Prod.fst l id).length < annLimit limit

/-- The visible memories that the semantic stage may add are in reach of both stores' indexes or of neither. -/
def SameReach (env : Env F32 F64) (req : Request F32) (a : Store F32 F64)
    (ra rb : Option (List (String × List F32))) : Prop :=
  ∀ r ∈ a.db.memories, hnswFilters env.now req r.toMemory = true → (∀ x ∈ ftsRows env a req, x.id ≠ r.id) →
    ∀ emb, embeddingOf env.fromLeBytes r.embedding = some emb →
      aboveGate (indexCosine env req.queryEmbedding emb) = true →
      (InReach ra req.limit r.id ↔ InReach rb req.limit r.id)

section Blind

variable {env : Env F32 F64} {req : Request F32} {a b : Store F32 F64} {ra rb : Option (List (String × List F32))}
  {keyword scored scored' : List (Scored F64)} {s : Scored F64} {r : MemoryRow}
  {times times' : String → Db.TouchTimes}

/-! ## The keyword stage -/

theorem nodup_filter_rows (db : Db) (p : MemoryRow → Bool) : ((db.memories.rows.filter p).map fun r => r.id).Nodup :=
  db.memories.nodup.sublist (List.filter_sublist.map _)

omit [Arith F32] in
theorem ftsRows_nodup : ((ftsRows env a req).map fun r => r.id).Nodup :=
  (nodup_arrange (nodup_filter_rows a.db _)).sublist ((List.take_sublist _ _).map _)

theorem shared_of_match (h : SameVisible req a b) (hab : SharedSqlOnly env req a b) (hr : r ∈ a.db.memories)
    (hmatch : (ftsMatch env req r && sqlFilters env.now req r.toMemory) = true) :
    r ∈ b.db.memories ∧ a.ftsRank r.id = b.ftsRank r.id := by
  rw [Bool.and_eq_true] at hmatch
  by_cases hvis : isVisible r.toMemory (computeVisibilityPrefixes req.asAgent) = true
  · exact ⟨(h.rows r hvis).mp hr, h.rank r hr hvis⟩
  · exact hab r ⟨hr, Bool.not_eq_true _ ▸ hvis, hmatch.2, Or.inl hmatch.1⟩

omit [Arith F32] in
theorem ftsScore_eq (hrank : a.ftsRank r.id = b.ftsRank r.id) :
    ftsScore env a r.toMemory = ftsScore env b r.toMemory := by
  unfold ftsScore
  rw [show a.ftsRank r.toMemory.id = b.ftsRank r.toMemory.id from hrank]

theorem ftsRows_eq (h : SameVisible req a b) (hab : SharedSqlOnly env req a b) (hba : SharedSqlOnly env req b a) :
    ftsRows env a req = ftsRows env b req := by
  unfold ftsRows
  rw [arrange_congr (nodup_filter_rows a.db _) (nodup_filter_rows b.db _) (fun r => ?_) (fun r hr => ?_)]
  · rw [List.mem_filter, List.mem_filter]
    exact and_congr_left fun hmatch =>
      ⟨fun hr => (shared_of_match h hab hr hmatch).1, fun hr => (shared_of_match h.symm hba hr hmatch).1⟩
  · obtain ⟨hr, hmatch⟩ := List.mem_filter.mp hr
    exact ftsScore_eq (shared_of_match h hab hr hmatch).2

theorem mapM_congr {ι α ε : Type} {f g : ι → Except ε α} {l : List ι} (h : ∀ i ∈ l, f i = g i) :
    l.mapM f = l.mapM g := by
  induction l with
  | nil => rfl
  | cons i l ih =>
    rw [List.mapM_cons, List.mapM_cons, h i List.mem_cons_self, ih fun j hj => h j (List.mem_cons_of_mem _ hj)]

theorem map_of_mapM {ι α ε κ : Type} {f : ι → Except ε α} {g : α → κ} {k : ι → κ} (hf : ∀ i x, f i = .ok x → g x = k i)
    {l : List ι} {xs : List α} (h : l.mapM f = .ok xs) : xs.map g = l.map k := by
  induction l generalizing xs with
  | nil =>
    cases h
    rfl
  | cons i l ih =>
    rw [List.mapM_cons] at h
    cases hi : f i with
    | error e =>
      rw [hi] at h
      cases h
    | ok x =>
      rw [hi] at h
      cases hl : l.mapM f with
      | error e =>
        rw [hl] at h
        cases h
      | ok ys =>
        rw [hl] at h
        cases h
        rw [List.map_cons, List.map_cons, hf i x hi, ih hl]

theorem ftsScored_mem {mem : Memory} (h : ftsScored env a req mem = .ok s) : s.mem = mem := by
  unfold ftsScored at h
  split at h
  · cases h
  · split at h <;> cases h <;> rfl

theorem keyword_ids (h : keywordStage env a req = .ok keyword) :
    (keyword.map fun s => s.mem.id) = (ftsRows env a req).map fun r => r.id :=
  map_of_mapM (fun _ _ hs => congrArg Memory.id (ftsScored_mem hs)) h

theorem keyword_nodup (h : keywordStage env a req = .ok keyword) : (keyword.map fun s => s.mem.id).Nodup := by
  rw [keyword_ids h]
  exact ftsRows_nodup

theorem keywordStage_eq (h : SameVisible req a b) (hab : SharedSqlOnly env req a b) (hba : SharedSqlOnly env req b a) :
    keywordStage env a req = keywordStage env b req := by
  rw [keywordStage, keywordStage, ← ftsRows_eq h hab hba]
  refine mapM_congr fun r hr => ?_
  have hrow := List.mem_filter.mp (mem_arrange.mp (List.mem_of_mem_take hr))
  obtain ⟨hrb, hrank⟩ := shared_of_match h hab hrow.1 hrow.2
  have hget : a.db.get r.toMemory.id = b.db.get r.toMemory.id :=
    (Db.get_of_mem hrow.1).trans (Db.get_of_mem hrb).symm
  unfold ftsScored
  rw [ftsScore_eq hrank, hget]

/-! ## The semantic stage -/

omit [Arith F32] in
theorem inReach_some {l : List (String × List F32)} {limit : ℕ} {id : String} :
    InReach (some l) limit id ↔ (before Prod.fst l id).length < annLimit limit := by
  simp [InReach]

/-- What the semantic stage finds in one store it finds in the other. -/
theorem semanticStage_subset (h : SameVisible req a b) (ha : Searched env req a ra) (hb : Searched env req b rb)
    (hkind : ra.isSome = rb.isSome) (hab : SharedSqlOnly env req a b) (hreach : SameReach env req a ra rb)
    (hids : (keyword.map fun s => s.mem.id) = (ftsRows env a req).map fun r => r.id)
    (hs : s ∈ semanticStage env a.db req a.vectorIndex keyword) :
    s ∈ semanticStage env b.db req b.vectorIndex keyword := by
  cases ha with
  | scan hanone =>
    cases hb with
    | index => cases hkind
    | scan hbnone =>
      rw [hanone] at hs
      rw [hbnone]
      rcases mem_linearStage.mp hs with hs | ⟨r, hr, emb, hemb, hpass, hgate, hseq, hnew⟩
      · exact mem_linearStage.mpr (Or.inl hs)
      · have hrb : r ∈ b.db.memories := by
          by_cases hvis : isVisible r.toMemory (computeVisibilityPrefixes req.asAgent) = true
          · exact (h.rows r hvis).mp hr
          · exact (hab r ⟨hr, Bool.not_eq_true _ ▸ hvis, hpass, Or.inr ⟨hanone, emb, hemb, hgate⟩⟩).1
        exact mem_linearStage.mpr (Or.inr ⟨r, hrb, emb, hemb, hpass, hgate, hseq, hnew⟩)
  | index hasome hanear =>
    cases hb with
    | scan => cases hkind
    | index hbsome hbnear =>
      rw [hasome] at hs
      rw [hbsome]
      rcases (mem_indexStage hanear).mp hs with hs | ⟨r, hr, emb, hemb, hnear, hpass, hgate, hseq, hnew⟩
      · exact (mem_indexStage hbnear).mpr (Or.inl hs)
      · have hvis := (hnswFilters_iff.mp hpass).2
        have hfts : ∀ x ∈ ftsRows env a req, x.id ≠ r.id := by
          intro x hx hid
          obtain ⟨t, ht, htid⟩ := List.mem_map.mp (hids ▸ List.mem_map_of_mem hx)
          exact hnew t ht (htid.trans hid)
        have hiff := hreach r hr hpass hfts emb hemb hgate
        rw [inReach_some, inReach_some] at hiff
        exact (mem_indexStage hbnear).mpr
          (Or.inr ⟨r, (h.rows r hvis).mp hr, emb, hemb, hiff.mp hnear, hpass, hgate, hseq, hnew⟩)

theorem SameReach.symm (h : SameVisible req a b) (hab : SharedSqlOnly env req a b) (hba : SharedSqlOnly env req b a)
    (hreach : SameReach env req a ra rb) : SameReach env req b rb ra := by
  intro r hr hpass hfts emb hemb hgate
  rw [← ftsRows_eq h hab hba] at hfts
  exact (hreach r ((h.rows r (hnswFilters_iff.mp hpass).2).mpr hr) hpass hfts emb hemb hgate).symm

theorem nodup_semanticStage (h : (keyword.map fun s => s.mem.id).Nodup) :
    ((semanticStage env a.db req a.vectorIndex keyword).map fun s => s.mem.id).Nodup := by
  cases a.vectorIndex with
  | none =>
    refine nodup_collect (fun r s hs => ?_) h
    obtain ⟨emb, -, -, rfl⟩ := rowCandidate_eq_some.mp hs
    rfl
  | some search =>
    refine nodup_collect (fun hit s hs => ?_) h
    obtain ⟨r, -, hid, -, -, rfl⟩ := hitCandidate_eq_some.mp hs
    exact hid

/-! ## Fusion -/

omit [Arith F32] in
theorem fusion_congr (hs : (scored.map fun s => s.mem.id).Nodup) (hs' : (scored'.map fun s => s.mem.id).Nodup)
    (h : ∀ s, s ∈ scored ↔ s ∈ scored') : fusion env req keyword scored = fusion env req keyword scored' := by
  have hlength : scored.length = scored'.length :=
    ((List.perm_ext_iff_of_nodup (List.Nodup.of_map _ hs) (List.Nodup.of_map _ hs')).mpr h).length_eq
  have harrange : arrange env.ties (fun r => r.1.id) (fun r => r.2)
      (scored.map fun s => (s.mem, finalScore env (maxFtsScore keyword) s)) =
      arrange env.ties (fun r => r.1.id) (fun r => r.2)
        (scored'.map fun s => (s.mem, finalScore env (maxFtsScore keyword) s)) := by
    refine arrange_congr ?_ ?_ (fun x => ?_) fun _ _ => rfl
    · rwa [List.map_map]
    · rwa [List.map_map]
    · simp only [List.mem_map, h]
  have havg : blendWeightAvg env scored = blendWeightAvg env scored' := by
    rw [blendWeightAvg, blendWeightAvg, inOrder_congr hs hs' h]
  rw [fusion, fusion, harrange, havg, hlength]

theorem mem_applyProximityBoost {results : List (Memory × F64)} {anchor : String} {m : Memory} :
    m ∈ (applyProximityBoost results anchor).map Prod.fst ↔ m ∈ results.map Prod.fst := by
  unfold applyProximityBoost
  simp only [List.mem_map, List.mem_insertionSort]
  constructor
  · rintro ⟨x, ⟨r, hr, rfl⟩, rfl⟩
    exact ⟨r, hr, rfl⟩
  · rintro ⟨r, hr, rfl⟩
    exact ⟨_, ⟨r, hr, rfl⟩, rfl⟩

omit [Arith F32] in
theorem mem_fusion (hlimit : scored.length ≤ req.limit) (hbudget : req.budgetTokens = none) {m : Memory} :
    m ∈ (fusion env req keyword scored).memories.map Prod.fst ↔ ∃ s ∈ scored, s.mem = m := by
  obtain ⟨results, hresults⟩ : ∃ results, results = (arrange env.ties (fun r => r.1.id) (fun r => r.2)
    (scored.map fun s => (s.mem, finalScore env (maxFtsScore keyword) s))).take req.limit := ⟨_, rfl⟩
  have hmem : m ∈ results.map Prod.fst ↔ ∃ s ∈ scored, s.mem = m := by
    rw [hresults, List.take_of_length_le]
    · simp only [List.mem_map, mem_arrange]
      constructor
      · rintro ⟨x, ⟨s, hs, rfl⟩, rfl⟩
        exact ⟨s, hs, rfl⟩
      · rintro ⟨s, hs, rfl⟩
        exact ⟨_, ⟨s, hs, rfl⟩, rfl⟩
    · rwa [arrange, List.length_insertionSort, inOrder, List.length_insertionSort, List.length_map]
  rw [← hmem, fusion, hbudget, ← hresults]
  cases hierarchyActive req.ns with
  | false => rfl
  | true =>
    cases req.ns with
    | none => rfl
    | some anchor => exact mem_applyProximityBoost

/-! ## Two stores -/

/-- The rows that one of the visibility checks lets the agent see. -/
def seen (req : Request F32) (s : Store F32 F64) : List MemoryRow :=
  s.db.memories.rows.filter fun r => isVisible r.toMemory (computeVisibilityPrefixes req.asAgent) ||
    visibilityClause r.toMemory (computeVisibilityPrefixes req.asAgent)

theorem recall_eq : (recallHybridWithTelemetry env a req times).map Prod.fst =
    (keywordStage env a req).map fun keyword =>
      fusion env req keyword (semanticStage env a.db req a.vectorIndex keyword) := by
  unfold recallHybridWithTelemetry
  cases keywordStage env a req <;> rfl

theorem row_of_mem (ha : Searched env req a ra) (hkeyword : keywordStage env a req = .ok keyword)
    (hs : s ∈ semanticStage env a.db req a.vectorIndex keyword) : ∃ r ∈ a.db.memories, r.id = s.mem.id ∧
      (isVisible r.toMemory (computeVisibilityPrefixes req.asAgent) = true ∨ SqlOnly env req a r) := by
  have hold : ∀ s ∈ keyword, ∃ r ∈ a.db.memories, r.id = s.mem.id ∧
      (isVisible r.toMemory (computeVisibilityPrefixes req.asAgent) = true ∨ SqlOnly env req a r) := by
    intro s hs
    have hid : s.mem.id ∈ keyword.map fun s => s.mem.id := List.mem_map_of_mem hs
    rw [keyword_ids hkeyword] at hid
    obtain ⟨r, hr, hid⟩ := List.mem_map.mp hid
    obtain ⟨hrow, hmatch⟩ := List.mem_filter.mp (mem_arrange.mp (List.mem_of_mem_take hr))
    rw [Bool.and_eq_true] at hmatch
    refine ⟨r, hrow, hid, or_iff_not_imp_left.mpr fun hnot => ?_⟩
    exact ⟨hrow, Bool.not_eq_true _ ▸ hnot, hmatch.2, Or.inl hmatch.1⟩
  cases ha with
  | scan hnone =>
    rw [hnone] at hs
    rcases mem_linearStage.mp hs with hs | ⟨r, hr, emb, hemb, hpass, hgate, rfl, -⟩
    · exact hold s hs
    · refine ⟨r, hr, rfl, or_iff_not_imp_left.mpr fun hnot => ?_⟩
      exact ⟨hr, Bool.not_eq_true _ ▸ hnot, hpass, Or.inr ⟨hnone, emb, hemb, hgate⟩⟩
  | index hsome hnear =>
    rw [hsome] at hs
    rcases (mem_indexStage hnear).mp hs with hs | ⟨r, hr, emb, -, -, hpass, -, rfl, -⟩
    · exact hold s hs
    · exact ⟨r, hr, rfl, Or.inl (hnswFilters_iff.mp hpass).2⟩

theorem length_semanticStage_le (h : SameVisible req a b) (hba : SharedSqlOnly env req b a)
    (hb : Searched env req b rb) (hkeyword : keywordStage env b req = .ok keyword) :
    (semanticStage env b.db req b.vectorIndex keyword).length ≤ (seen req a).length := by
  have hnodup : ((semanticStage env b.db req b.vectorIndex keyword).map fun s => s.mem.id).Nodup :=
    nodup_semanticStage (keyword_nodup hkeyword)
  have hsub : (semanticStage env b.db req b.vectorIndex keyword).map (fun s => s.mem.id) ⊆
      (seen req a).map fun r => r.id := by
    intro id hid
    obtain ⟨s, hs, rfl⟩ := List.mem_map.mp hid
    obtain ⟨r, hr, hrid, hvis | hsql⟩ := row_of_mem hb hkeyword hs
    · rw [← hrid]
      have hra := (h.rows r hvis).mpr hr
      exact List.mem_map_of_mem (List.mem_filter.mpr ⟨hra, Bool.or_eq_true_iff.mpr (Or.inl hvis)⟩)
    · rw [← hrid]
      have hclause := (sqlFilters_iff.mp hsql.2.2.1).2
      exact List.mem_map_of_mem (List.mem_filter.mpr ⟨(hba r hsql).1, Bool.or_eq_true_iff.mpr (Or.inr hclause)⟩)
  have hle := (List.subperm_of_subset hnodup hsub).length_le
  rwa [List.length_map, List.length_map] at hle

theorem inReach_of_found (ha : Searched env req a ra) (hb : Searched env req b rb) (hkind : ra.isSome = rb.isSome)
    (hids : (keyword.map fun s => s.mem.id) = (ftsRows env a req).map fun r => r.id)
    (hfound : ∀ m, (∃ s ∈ semanticStage env a.db req a.vectorIndex keyword, s.mem = m) →
      ∃ s ∈ semanticStage env b.db req b.vectorIndex keyword, s.mem = m)
    {emb : List F32} (hr : r ∈ a.db.memories) (hpass : hnswFilters env.now req r.toMemory = true)
    (hfts : ∀ x ∈ ftsRows env a req, x.id ≠ r.id) (hemb : embeddingOf env.fromLeBytes r.embedding = some emb)
    (hgate : aboveGate (indexCosine env req.queryEmbedding emb) = true) (hreach : InReach ra req.limit r.id) :
    InReach rb req.limit r.id := by
  cases ha with
  | scan hanone =>
    cases hb with
    | index => cases hkind
    | scan => exact hreach
  | index hasome hanear =>
    cases hb with
    | scan => cases hkind
    | index hbsome hbnear =>
      rw [hasome, hbsome] at hfound
      have hnew : ∀ t ∈ keyword, t.mem.id ≠ r.id := by
        intro t ht htid
        obtain ⟨x, hx, hxid⟩ := List.mem_map.mp (hids ▸ List.mem_map_of_mem ht)
        exact hfts x hx (hxid.trans htid)
      obtain ⟨s, hs, hsr⟩ := hfound r.toMemory ⟨_, (mem_indexStage hanear).mpr
        (Or.inr ⟨r, hr, emb, hemb, inReach_some.mp hreach, hpass, hgate, rfl, hnew⟩), rfl⟩
      have hid : s.mem.id = r.id := congrArg Memory.id hsr
      rcases (mem_indexStage hbnear).mp hs with hs | ⟨r', -, emb', -, hnear, -, -, rfl, -⟩
      · exact absurd hid (hnew s hs)
      · rw [inReach_some, ← hid]
        exact hnear

/-- Stores that look the same to the agent and have its memories in the same reach answer the same. -/
theorem recall_eq_of_sameReach (h : SameVisible req a b) (ha : Searched env req a ra) (hb : Searched env req b rb)
    (hkind : ra.isSome = rb.isSome) (hab : SharedSqlOnly env req a b) (hba : SharedSqlOnly env req b a)
    (hreach : SameReach env req a ra rb) (times times' : String → Db.TouchTimes) :
    (recallHybridWithTelemetry env a req times).map Prod.fst =
      (recallHybridWithTelemetry env b req times').map Prod.fst := by
  have hstage := keywordStage_eq h hab hba
  rw [recall_eq, recall_eq, ← hstage]
  cases hkeyword : keywordStage env a req with
  | error e => rfl
  | ok keyword =>
    have hidsa := keyword_ids hkeyword
    have hidsb := keyword_ids (hstage ▸ hkeyword)
    refine congrArg Except.ok (fusion_congr (nodup_semanticStage (keyword_nodup hkeyword))
      (nodup_semanticStage (keyword_nodup hkeyword)) fun s => ⟨?_, ?_⟩)
    · exact semanticStage_subset h ha hb hkind hab hreach hidsa
    · exact semanticStage_subset h.symm hb ha hkind.symm hba (hreach.symm h hab hba) hidsb

theorem found_of_recall_eq (h : SameVisible req a b) (ha : Searched env req a ra) (hb : Searched env req b rb)
    (hba : SharedSqlOnly env req b a) (hkeya : keywordStage env a req = .ok keyword)
    (hkeyb : keywordStage env b req = .ok keyword) (hlimit : (seen req a).length ≤ req.limit)
    (hbudget : req.budgetTokens = none)
    (heq : fusion env req keyword (semanticStage env a.db req a.vectorIndex keyword) =
      fusion env req keyword (semanticStage env b.db req b.vectorIndex keyword)) (m : Memory) :
    (∃ s ∈ semanticStage env a.db req a.vectorIndex keyword, s.mem = m) ↔
      ∃ s ∈ semanticStage env b.db req b.vectorIndex keyword, s.mem = m := by
  have hlena := (length_semanticStage_le (SameVisible.refl a) (fun r hr => ⟨hr.1, rfl⟩) ha hkeya).trans hlimit
  have hlenb := (length_semanticStage_le h hba hb hkeyb).trans hlimit
  rw [← mem_fusion hlena hbudget, ← mem_fusion hlenb hbudget, heq]

/-- An agent learns nothing of hidden memories from a recall, if what only the SQL lets it see is the same in both
stores, and the memories it may see are in the same reach of both indexes. If it sees no more memories than it asks for
and sets no budget, a difference in reach always shows. -/
theorem recall_blind (h : SameVisible req a b) (ha : Searched env req a ra) (hb : Searched env req b rb)
    (hkind : ra.isSome = rb.isSome) (hab : SharedSqlOnly env req a b) (hba : SharedSqlOnly env req b a)
    (times times' : String → Db.TouchTimes) :
    (SameReach env req a ra rb → (recallHybridWithTelemetry env a req times).map Prod.fst =
      (recallHybridWithTelemetry env b req times').map Prod.fst) ∧
    ((seen req a).length ≤ req.limit → req.budgetTokens = none → (keywordStage env a req).isOk = true →
      (recallHybridWithTelemetry env a req times).map Prod.fst =
        (recallHybridWithTelemetry env b req times').map Prod.fst →
      SameReach env req a ra rb) := by
  constructor
  · intro hreach
    exact recall_eq_of_sameReach h ha hb hkind hab hba hreach times times'
  · intro hlimit hbudget hok heq
    have hstage := keywordStage_eq h hab hba
    rw [recall_eq, recall_eq, ← hstage] at heq
    cases hkeyword : keywordStage env a req with
    | error e =>
      rw [hkeyword] at hok
      cases hok
    | ok keyword =>
      have hkeyb := hstage ▸ hkeyword
      rw [hkeyword] at heq
      have hmem := found_of_recall_eq h ha hb hba hkeyword hkeyb hlimit hbudget (Except.ok.inj heq)
      intro r hr hpass hfts emb hemb hgate
      have hrb := (h.rows r (hnswFilters_iff.mp hpass).2).mp hr
      constructor
      · exact inReach_of_found ha hb hkind (keyword_ids hkeyword) (fun m => (hmem m).mp) hr hpass hfts hemb hgate
      · refine inReach_of_found hb ha hkind.symm (keyword_ids hkeyb) (fun m => (hmem m).mpr) hrb hpass ?_ hemb hgate
        rwa [← ftsRows_eq h hab hba]

end Blind

/-! ## One hidden memory, and fifty -/

attribute [local instance] ratArith

namespace Crowd

def pair : Db :=
  { Db.empty with memories := ⟨⟨[hidden 0, target], by decide⟩, by decide⟩ }

theorem hidden_of_visible {i : ℕ} (hi : i < 50) :
    isVisible (hidden i).toMemory (computeVisibilityPrefixes req.asAgent) = false := by
  have hall : ∀ i < 50, isVisible (hidden i).toMemory (computeVisibilityPrefixes req.asAgent) = false := by
    decide
  exact hall i hi

theorem searched_indexed (db : Db) :
    Searched env req (indexed db) (some (exactRanking (getAllEmbeddings f32OfLeBytes db) req.queryEmbedding)) :=
  .index rfl (nearest_exactSearch env db req.queryEmbedding)

theorem sameVisible_single (db : Db) (n : ℕ) (hn : n ≤ 50)
    (hrows : db.memories.rows = (List.range n).map hidden ++ [target]) :
    SameVisible req (indexed db) (indexed (Db.single target)) := by
  refine ⟨fun r hvis => ?_, fun _ _ _ => rfl⟩
  have hmem : r ∈ db.memories ↔ r ∈ (List.range n).map hidden ++ [target] := by rw [← hrows]; rfl
  refine (hmem.trans List.mem_append).trans (or_iff_right fun hr => ?_)
  obtain ⟨i, hi, rfl⟩ := List.mem_map.mp hr
  rw [hidden_of_visible ((List.mem_range.mp hi).trans_le hn)] at hvis
  cases hvis

theorem sharedSqlOnly {db : Db} {s : Store ℚ ℚ} (h : ∀ r ∈ db.memories.rows,
    isVisible r.toMemory (computeVisibilityPrefixes req.asAgent) = false → sqlFilters env.now req r.toMemory = false) :
    SharedSqlOnly env req (indexed db) s := by
  rintro r ⟨hr, hvis, hsql, -⟩
  rw [h r hr hvis] at hsql
  cases hsql

def times (_ : String) : Db.TouchTimes := ⟨env.now, "2026-02-08T00:00:00+00:00", "2026-03-01T00:00:00+00:00"⟩

/-- One hidden memory changes nothing. -/
theorem pair_blind :
    (recallHybridWithTelemetry env (indexed pair) req times).map Prod.fst =
      (recallHybridWithTelemetry env (indexed (Db.single target)) req times).map Prod.fst := by
  refine (recall_blind (sameVisible_single pair 1 (by decide) rfl) (searched_indexed _) (searched_indexed _) rfl
    (sharedSqlOnly (by decide)) (sharedSqlOnly (by decide)) times times).1 fun r hr hpass _ emb _ _ => ?_
  rw [inReach_some, inReach_some]
  -- the rows that pass are the target alone
  have hreach : ∀ r ∈ pair.memories.rows, hnswFilters env.now req r.toMemory = true →
      ((before Prod.fst (exactRanking (getAllEmbeddings f32OfLeBytes pair) req.queryEmbedding) r.id).length <
          annLimit req.limit ∧
        (before Prod.fst (exactRanking (getAllEmbeddings f32OfLeBytes (Db.single target)) req.queryEmbedding)
          r.id).length < annLimit req.limit) := by
    decide +kernel
  exact iff_of_true (hreach r hr hpass).1 (hreach r hr hpass).2

/-- Fifty hidden memories hide the agent's own from it. -/
theorem crowd_shows :
    SameVisible req (indexed crowded) (indexed (Db.single target)) ∧
      Searched env req (indexed crowded)
        (some (exactRanking (getAllEmbeddings f32OfLeBytes crowded) req.queryEmbedding)) ∧
      Searched env req (indexed (Db.single target))
        (some (exactRanking (getAllEmbeddings f32OfLeBytes (Db.single target)) req.queryEmbedding)) ∧
      ((recallHybridWithTelemetry env (indexed crowded) req times).map fun out =>
        out.1.memories.map fun r => r.1.id) = .ok [] ∧
      ((recallHybridWithTelemetry env (indexed (Db.single target)) req times).map fun out =>
        out.1.memories.map fun r => r.1.id) = .ok ["target"] :=
  ⟨sameVisible_single crowded 50 le_rfl rfl, searched_indexed _, searched_indexed _, by decide +kernel, by decide +kernel⟩

end Crowd

end Recall

end AiMemory
