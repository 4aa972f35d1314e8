import AiMemory.Recall.Hybrid

/-!
# The index branch and the linear scan

Let the index hold the stored embeddings and answer with true nearest neighbours (`Nearest`). The linear scan filters
first. The index branch asks for a fixed number of neighbours in the whole store and filters afterwards, so a memory
that is among the best of those that pass is lost when enough others stand before it. Besides, the branches apply the
gate to two measures, which agree on vectors of length one only, and two visibility checks. The candidates of the two
are the same, up to the cut, unless a memory diverges in one of these ways (`admits_alike_iff`).
-/

namespace AiMemory

open Ranking

namespace Recall

variable {F32 F64 : Type} [Arith F32]

/-- The index holds the stored embeddings, and its search returns the nearest ones; `ranking` lists them all, those of
the same distance in the order the index has them. -/
structure Nearest (env : Env F32 F64) (db : Db) (query : List F32) (search : List F32 → ℕ → List (VectorHit F32))
    (ranking : List (String × List F32)) : Prop where
  perm : ranking.Perm (getAllEmbeddings env.fromLeBytes db)
  sorted : ranking.Pairwise fun a b => distance query a.2 ≤ distance query b.2
  search_eq : ∀ k, search query k = (ranking.take k).map fun e => ⟨e.1, distance query e.2⟩

def exactRanking (entries : List (String × List F32)) (query : List F32) : List (String × List F32) :=
  entries.insertionSort fun a b => distance query a.2 ≤ distance query b.2

def exactSearch (entries : List (String × List F32)) (query : List F32) (k : ℕ) : List (VectorHit F32) :=
  ((exactRanking entries query).take k).map fun e => ⟨e.1, distance query e.2⟩

theorem nearest_exactSearch (env : Env F32 F64) (db : Db) (query : List F32) :
    Nearest env db query (exactSearch (getAllEmbeddings env.fromLeBytes db))
      (exactRanking (getAllEmbeddings env.fromLeBytes db) query) := by
  have : Std.Total fun a b : String × List F32 => distance query a.2 ≤ distance query b.2 := ⟨fun _ _ => le_total _ _⟩
  have : IsTrans (String × List F32) fun a b => distance query a.2 ≤ distance query b.2 := ⟨fun _ _ _ => le_trans⟩
  exact ⟨List.perm_insertionSort _ _, List.pairwise_insertionSort _ _, fun _ => rfl⟩

def indexCosine (env : Env F32 F64) (query emb : List F32) : F64 := env.widen (lit 1 - distance query emb)

def linearCosine (env : Env F32 F64) (query emb : List F32) : F64 := env.widen (cosineSimilarity query emb)

def passing (env : Env F32 F64) (db : Db) (req : Request F32) (e : String × List F32) : Bool :=
  (db.get e.1).any fun r => sqlFilters env.now req r.toMemory

def bestPassing (env : Env F32 F64) (db : Db) (req : Request F32) (ranking : List (String × List F32)) :
    List (String × List F32) :=
  (ranking.filter (passing env db req)).take (annLimit req.limit)

section Stages

variable {env : Env F32 F64} {db : Db} {req : Request F32} {search : List F32 → ℕ → List (VectorHit F32)}
  {ranking : List (String × List F32)} {scored : List (Scored F64)} {s : Scored F64} {r : MemoryRow}
  {hit : VectorHit F32} {emb : List F32} {id : String} {k : ℕ}

theorem Nearest.nodup (h : Nearest env db req.queryEmbedding search ranking) : (ranking.map Prod.fst).Nodup :=
  (h.perm.map Prod.fst).nodup_iff.mpr (nodup_getAllEmbeddings db)

theorem Nearest.mem_iff (h : Nearest env db req.queryEmbedding search ranking) (hr : r ∈ db.memories) :
    (r.id, emb) ∈ ranking ↔ embeddingOf env.fromLeBytes r.embedding = some emb := by
  rw [h.perm.mem_iff, mem_getAllEmbeddings]
  constructor
  · rintro ⟨r', hr', hid, he⟩
    rw [Relational.Indexed.eq_of_pk hr' hr hid] at he
    exact he
  · exact fun he => ⟨r, hr, rfl, he⟩

theorem mem_bestPassing (h : Nearest env db req.queryEmbedding search ranking) (hr : r ∈ db.memories)
    (hemb : embeddingOf env.fromLeBytes r.embedding = some emb) :
    (∃ e ∈ bestPassing env db req ranking, e.1 = r.id) ↔
      ((before Prod.fst ranking r.id).filter (passing env db req)).length < annLimit req.limit ∧
      sqlFilters env.now req r.toMemory = true := by
  have hentry := (h.mem_iff hr).mpr hemb
  have hpass : passing env db req (r.id, emb) = sqlFilters env.now req r.toMemory := by
    rw [passing, Db.get_of_mem hr]
    rfl
  rw [← hpass, ← mem_take_filter_iff h.nodup hentry]
  constructor
  · rintro ⟨e, he, hid⟩
    have hmem := (List.mem_filter.mp (List.mem_of_mem_take he)).1
    obtain rfl : e = (r.id, emb) := List.inj_on_of_nodup_map h.nodup hmem hentry hid
    exact he
  · exact fun he => ⟨_, he, rfl⟩

/-! ## What each branch admits -/

variable [Arith F64]

theorem hitCandidate_eq_some : hitCandidate env db req hit = some s ↔ ∃ r ∈ db.memories, r.id = hit.id ∧
    aboveGate (env.widen (lit 1 - hit.distance)) = true ∧ hnswFilters env.now req r.toMemory = true ∧
    s = ⟨r.toMemory, lit 0, env.widen (lit 1 - hit.distance)⟩ := by
  unfold hitCandidate
  simp only [Option.ite_none_right_eq_some, Option.bind_eq_some_iff, Db.get_eq_some, Option.some.injEq]
  constructor
  · rintro ⟨hgate, r, ⟨hr, hid⟩, hpass, rfl⟩
    exact ⟨r, hr, hid, hgate, hpass, rfl⟩
  · rintro ⟨r, hr, hid, hgate, hpass, rfl⟩
    exact ⟨hgate, r, ⟨hr, hid⟩, hpass, rfl⟩

theorem rowCandidate_eq_some : rowCandidate env req r = some s ↔
    ∃ emb, embeddingOf env.fromLeBytes r.embedding = some emb ∧
      aboveGate (linearCosine env req.queryEmbedding emb) = true ∧
      s = ⟨r.toMemory, lit 0, linearCosine env req.queryEmbedding emb⟩ := by
  unfold rowCandidate linearCosine
  simp only [Option.ite_none_right_eq_some, Option.bind_eq_some_iff, Option.some.injEq, eq_comm (b := s)]

theorem mem_linearStage : s ∈ linearStage env db req scored ↔ s ∈ scored ∨
    ∃ r ∈ db.memories, ∃ emb, embeddingOf env.fromLeBytes r.embedding = some emb ∧
      sqlFilters env.now req r.toMemory = true ∧ aboveGate (linearCosine env req.queryEmbedding emb) = true ∧
      s = ⟨r.toMemory, lit 0, linearCosine env req.queryEmbedding emb⟩ ∧ ∀ t ∈ scored, t.mem.id ≠ r.id := by
  have hkey : ∀ r s, rowCandidate env req r = some s → s.mem.id = r.id := by
    intro r s hs
    obtain ⟨emb, -, -, rfl⟩ := rowCandidate_eq_some.mp hs
    rfl
  rw [linearStage, mem_collect hkey (db.memories.nodup.sublist (List.filter_sublist.map _))]
  simp only [List.mem_filter, Bool.and_eq_true, rowCandidate_eq_some]
  constructor
  · rintro (hs | ⟨r, ⟨hr, -, hpass⟩, ⟨emb, hemb, hgate, hs⟩, hnew⟩)
    · exact Or.inl hs
    · exact Or.inr ⟨r, hr, emb, hemb, hpass, hgate, hs, hnew⟩
  · rintro (hs | ⟨r, hr, emb, hemb, hpass, hgate, hs, hnew⟩)
    · exact Or.inl hs
    · exact Or.inr ⟨r, ⟨hr, isSome_of_embeddingOf hemb, hpass⟩, ⟨emb, hemb, hgate, hs⟩, hnew⟩

/-- The index branch adds the rows outside the map that are among the nearest of the store, pass the filters of the
index branch and the gate. -/
theorem mem_indexStage (h : Nearest env db req.queryEmbedding search ranking) :
    s ∈ indexStage env db req search scored ↔ s ∈ scored ∨
    ∃ r ∈ db.memories, ∃ emb, embeddingOf env.fromLeBytes r.embedding = some emb ∧
      (before Prod.fst ranking r.id).length < annLimit req.limit ∧ hnswFilters env.now req r.toMemory = true ∧
      aboveGate (indexCosine env req.queryEmbedding emb) = true ∧
      s = ⟨r.toMemory, lit 0, indexCosine env req.queryEmbedding emb⟩ ∧ ∀ t ∈ scored, t.mem.id ≠ r.id := by
  have hkey : ∀ hit s, hitCandidate env db req hit = some s → s.mem.id = hit.id := by
    intro hit s hs
    obtain ⟨r, -, hid, -, -, rfl⟩ := hitCandidate_eq_some.mp hs
    exact hid
  have hnodup : ((search req.queryEmbedding (annLimit req.limit)).map fun hit => hit.id).Nodup := by
    rw [h.search_eq, List.map_map]
    exact h.nodup.sublist ((List.take_sublist _ _).map _)
  rw [indexStage, mem_collect hkey hnodup, h.search_eq]
  constructor
  · rintro (hs | ⟨hit, hhit, hcand, hnew⟩)
    · exact Or.inl hs
    · obtain ⟨e, he, rfl⟩ := List.mem_map.mp hhit
      obtain ⟨r, hr, hid, hgate, hpass, hs⟩ := hitCandidate_eq_some.mp hcand
      have hentry : (r.id, e.2) ∈ ranking := hid ▸ List.mem_of_mem_take he
      have hin : (r.id, e.2) ∈ ranking.take (annLimit req.limit) := hid ▸ he
      refine Or.inr ⟨r, hr, e.2, (h.mem_iff hr).mp hentry, (mem_take_iff h.nodup hentry).mp hin, hpass, hgate, hs, ?_⟩
      rwa [hid]
  · rintro (hs | ⟨r, hr, emb, hemb, hnear, hpass, hgate, hs, hnew⟩)
    · exact Or.inl hs
    · have hentry := (h.mem_iff hr).mpr hemb
      exact Or.inr ⟨⟨r.id, distance req.queryEmbedding emb⟩,
        List.mem_map.mpr ⟨(r.id, emb), (mem_take_iff h.nodup hentry).mpr hnear, rfl⟩,
        hitCandidate_eq_some.mpr ⟨r, hr, rfl, hgate, hpass, hs⟩, hnew⟩

/-! ## Where they part -/

def admitted (old new : List (Scored F64)) : Set String :=
  {id | (∃ s ∈ new, s.mem.id = id) ∧ ∀ t ∈ old, t.mem.id ≠ id}

/-- The ways in which a memory with an embedding is a candidate of one branch only. -/
inductive Diverges (env : Env F32 F64) (db : Db) (req : Request F32) (ranking : List (String × List F32))
    (r : MemoryRow) (emb : List F32) : Prop
  /-- It is among the best of those that pass, but too many others stand before it in the store. -/
  | crowded : sqlFilters env.now req r.toMemory = true → hnswFilters env.now req r.toMemory = true →
      aboveGate (linearCosine env req.queryEmbedding emb) = true →
      annLimit req.limit ≤ (before Prod.fst ranking r.id).length →
      ((before Prod.fst ranking r.id).filter (passing env db req)).length < annLimit req.limit →
      Diverges env db req ranking r emb
  /-- Its two cosines lie on different sides of the gate. -/
  | gate : sqlFilters env.now req r.toMemory = true → hnswFilters env.now req r.toMemory = true →
      (before Prod.fst ranking r.id).length < annLimit req.limit →
      aboveGate (linearCosine env req.queryEmbedding emb) ≠ aboveGate (indexCosine env req.queryEmbedding emb) →
      Diverges env db req ranking r emb
  /-- Only `is_visible` lets the agent see it. -/
  | rustOnly : sqlFilters env.now req r.toMemory = false → hnswFilters env.now req r.toMemory = true →
      aboveGate (indexCosine env req.queryEmbedding emb) = true →
      (before Prod.fst ranking r.id).length < annLimit req.limit →
      Diverges env db req ranking r emb
  /-- Only `visibility_clause` lets the agent see it. -/
  | sqlOnly : sqlFilters env.now req r.toMemory = true → hnswFilters env.now req r.toMemory = false →
      aboveGate (linearCosine env req.queryEmbedding emb) = true →
      ((before Prod.fst ranking r.id).filter (passing env db req)).length < annLimit req.limit →
      Diverges env db req ranking r emb

theorem mem_admitted_linear (hr : r ∈ db.memories) (hemb : embeddingOf env.fromLeBytes r.embedding = some emb) :
    r.id ∈ admitted scored (linearStage env db req scored) ↔ sqlFilters env.now req r.toMemory = true ∧
      aboveGate (linearCosine env req.queryEmbedding emb) = true ∧ ∀ t ∈ scored, t.mem.id ≠ r.id := by
  constructor
  · rintro ⟨⟨s, hs, hid⟩, hnew⟩
    rcases mem_linearStage.mp hs with hs | ⟨r', hr', emb', hemb', hpass, hgate, rfl, -⟩
    · exact absurd hid (hnew s hs)
    · obtain rfl := Relational.Indexed.eq_of_pk hr' hr hid
      obtain rfl := Option.some.inj (hemb'.symm.trans hemb)
      exact ⟨hpass, hgate, hnew⟩
  · rintro ⟨hpass, hgate, hnew⟩
    exact ⟨⟨_, mem_linearStage.mpr (Or.inr ⟨r, hr, emb, hemb, hpass, hgate, rfl, hnew⟩), rfl⟩, hnew⟩

theorem mem_admitted_index (h : Nearest env db req.queryEmbedding search ranking) (hr : r ∈ db.memories)
    (hemb : embeddingOf env.fromLeBytes r.embedding = some emb) :
    r.id ∈ admitted scored (indexStage env db req search scored) ↔
      (before Prod.fst ranking r.id).length < annLimit req.limit ∧ hnswFilters env.now req r.toMemory = true ∧
      aboveGate (indexCosine env req.queryEmbedding emb) = true ∧ ∀ t ∈ scored, t.mem.id ≠ r.id := by
  constructor
  · rintro ⟨⟨s, hs, hid⟩, hnew⟩
    rcases (mem_indexStage h).mp hs with hs | ⟨r', hr', emb', hemb', hnear, hpass, hgate, rfl, -⟩
    · exact absurd hid (hnew s hs)
    · obtain rfl := Relational.Indexed.eq_of_pk hr' hr hid
      obtain rfl := Option.some.inj (hemb'.symm.trans hemb)
      exact ⟨hnear, hpass, hgate, hnew⟩
  · rintro ⟨hnear, hpass, hgate, hnew⟩
    exact ⟨⟨_, (mem_indexStage h).mpr (Or.inr ⟨r, hr, emb, hemb, hnear, hpass, hgate, rfl, hnew⟩), rfl⟩, hnew⟩

theorem exists_of_mem_admitted (h : Nearest env db req.queryEmbedding search ranking)
    (hid : id ∈ admitted scored (indexStage env db req search scored) ∨
      id ∈ admitted scored (linearStage env db req scored)) :
    ∃ r ∈ db.memories, r.id = id ∧ ∃ emb, embeddingOf env.fromLeBytes r.embedding = some emb := by
  rcases hid with ⟨⟨s, hs, hid⟩, hnew⟩ | ⟨⟨s, hs, hid⟩, hnew⟩
  · rcases (mem_indexStage h).mp hs with hs | ⟨r, hr, emb, hemb, -, -, -, rfl, -⟩
    · exact absurd hid (hnew s hs)
    · exact ⟨r, hr, hid, emb, hemb⟩
  · rcases mem_linearStage.mp hs with hs | ⟨r, hr, emb, hemb, -, -, rfl, -⟩
    · exact absurd hid (hnew s hs)
    · exact ⟨r, hr, hid, emb, hemb⟩

/-- Of one memory, the branches disagree exactly if it diverges. -/
theorem diverges_iff : Diverges env db req ranking r emb ↔
    ¬((before Prod.fst ranking r.id).length < annLimit req.limit ∧ hnswFilters env.now req r.toMemory = true ∧
        aboveGate (indexCosine env req.queryEmbedding emb) = true ↔
      (sqlFilters env.now req r.toMemory = true ∧ aboveGate (linearCosine env req.queryEmbedding emb) = true) ∧
        ((before Prod.fst ranking r.id).filter (passing env db req)).length < annLimit req.limit ∧
        sqlFilters env.now req r.toMemory = true) := by
  have hle : ((before Prod.fst ranking r.id).filter (passing env db req)).length ≤
      (before Prod.fst ranking r.id).length := List.length_filter_le _ _
  constructor
  · rintro (⟨hsql, hrust, hlin, hfar, hbest⟩ | ⟨hsql, hrust, hnear, hgate⟩ | ⟨hsql, hrust, hidx, hnear⟩ |
      ⟨hsql, hrust, hlin, hbest⟩) hiff
    · exact absurd (hiff.mpr ⟨⟨hsql, hlin⟩, hbest, hsql⟩).1 (not_lt.mpr hfar)
    · refine hgate (Bool.eq_iff_iff.mpr ⟨fun hlin => ?_, fun hidx => ?_⟩)
      · exact (hiff.mpr ⟨⟨hsql, hlin⟩, hle.trans_lt hnear, hsql⟩).2.2
      · exact (hiff.mp ⟨hnear, hrust, hidx⟩).1.2
    · exact absurd (hiff.mp ⟨hnear, hrust, hidx⟩).2.2 (by simp [hsql])
    · exact absurd (hiff.mpr ⟨⟨hsql, hlin⟩, hbest, hsql⟩).2.1 (by simp [hrust])
  · intro hne
    by_contra hno
    refine hne ⟨?_, ?_⟩
    · rintro ⟨hnear, hrust, hidx⟩
      have hsql : sqlFilters env.now req r.toMemory = true :=
        Bool.not_eq_false _ ▸ fun h => hno (.rustOnly h hrust hidx hnear)
      have hlin : aboveGate (linearCosine env req.queryEmbedding emb) = true :=
        (not_not.mp fun hgate => hno (.gate hsql hrust hnear hgate)).trans hidx
      exact ⟨⟨hsql, hlin⟩, hle.trans_lt hnear, hsql⟩
    · rintro ⟨⟨hsql, hlin⟩, hbest, -⟩
      have hrust : hnswFilters env.now req r.toMemory = true :=
        Bool.not_eq_false _ ▸ fun h => hno (.sqlOnly hsql h hlin hbest)
      have hnear : (before Prod.fst ranking r.id).length < annLimit req.limit :=
        not_le.mp fun hfar => hno (.crowded hsql hrust hlin hfar hbest)
      have hidx : aboveGate (indexCosine env req.queryEmbedding emb) = true :=
        (not_not.mp fun hgate => hno (.gate hsql hrust hnear hgate)).symm.trans hlin
      exact ⟨hnear, hrust, hidx⟩

/-- The index branch admits what the linear scan admits among the best that pass, unless a memory outside the keyword
matches diverges. -/
theorem admits_alike_iff (h : Nearest env db req.queryEmbedding search ranking) (scored : List (Scored F64)) :
    admitted scored (indexStage env db req search scored) = admitted scored (linearStage env db req scored) ∩
      {id | ∃ e ∈ bestPassing env db req ranking, e.1 = id} ↔
    ∀ r ∈ db.memories, ∀ emb, embeddingOf env.fromLeBytes r.embedding = some emb →
      (∀ t ∈ scored, t.mem.id ≠ r.id) → ¬Diverges env db req ranking r emb := by
  constructor
  · intro heq r hr emb hemb hnew hdiv
    refine diverges_iff.mp hdiv ?_
    have hid := Set.ext_iff.mp heq r.id
    rw [Set.mem_inter_iff, Set.mem_ofPred_eq, mem_admitted_index h hr hemb, mem_admitted_linear hr hemb,
      mem_bestPassing h hr hemb] at hid
    tauto
  · intro hno
    refine Set.ext fun id => ?_
    by_cases hrow : ∃ r ∈ db.memories, r.id = id ∧ ∃ emb, embeddingOf env.fromLeBytes r.embedding = some emb
    · obtain ⟨r, hr, rfl, emb, hemb⟩ := hrow
      rw [Set.mem_inter_iff, Set.mem_ofPred_eq, mem_admitted_index h hr hemb, mem_admitted_linear hr hemb,
        mem_bestPassing h hr hemb]
      by_cases hnew : ∀ t ∈ scored, t.mem.id ≠ r.id
      · have hiff := not_not.mp fun hne => hno r hr emb hemb hnew (diverges_iff.mpr hne)
        tauto
      · tauto
    · exact ⟨fun hidx => absurd (exists_of_mem_admitted h (Or.inl hidx)) hrow,
        fun hlin => absurd (exists_of_mem_admitted h (Or.inr hlin.1)) hrow⟩

end Stages

/-! ## Fifty memories in front -/

/-- Exact arithmetic; the root is exact on squares, and `exp` at zero. -/
abbrev ratArith : Arith ℚ where
  lit := id
  sqrt x := mkRat x.num.toNat.sqrt x.den.sqrt
  exp _ := 1

attribute [local instance] ratArith

/-- A finite `f32` from its bytes. -/
def f32OfLeBytes (a b c d : UInt8) : ℚ :=
  let mantissa := a.toNat + 256 * b.toNat + 65536 * (c.toNat % 128)
  let exponent := 2 * (d.toNat % 128) + c.toNat / 128
  let magnitude : ℚ :=
    if exponent = 0 then mkRat mantissa (2 ^ 149)
    else if 150 ≤ exponent then ((2 ^ 23 + mantissa) * 2 ^ (exponent - 150) : ℕ)
    else mkRat (2 ^ 23 + mantissa) (2 ^ (150 - exponent))
  if 128 ≤ d.toNat then -magnitude else magnitude

namespace Crowd

def env : Env ℚ ℚ where
  widen := id
  fromLeBytes := f32OfLeBytes
  fts _ _ := false
  now := "2026-02-01T00:00:00+00:00"
  julianday _ := some 0
  juliandayNow := 0
  ageSecs _ := some 0
  countTokens _ := 1
  scoring := ⟨7, 30, 365, false⟩
  ties := Ties.ofLinearOrder String

/-- The agent `work` asks for ten memories near `(1, 0, 0, 0)`. -/
def req : Request ℚ where
  context := "plan"
  queryEmbedding := [1, 0, 0, 0]
  ns := none
  limit := 10
  tagsFilter := none
  since := none
  until' := none
  asAgent := some "work"
  budgetTokens := none

/-- A private memory of another agent, with the vector of the query. -/
def hidden (i : ℕ) : MemoryRow :=
  { scopeMemory (String.ofList ['h', Char.ofNat (65 + i)]) "other" (.str "private") with
    embedding := some [1, 0, 0, 128, 63, 0, 0, 0, 0, 0, 0, 0, 0, 0, 0, 0, 0]
    embeddingDim := some 4 }

/-- A private memory of the agent, with the vector `(1/2, 1/2, 1/2, 1/2)`. -/
def target : MemoryRow :=
  { scopeMemory "target" "work" (.str "private") with
    embedding := some [1, 0, 0, 0, 63, 0, 0, 0, 63, 0, 0, 0, 63, 0, 0, 0, 63]
    embeddingDim := some 4 }

def crowded : Db :=
  { Db.empty with memories := ⟨⟨(List.range 50).map hidden ++ [target], by decide +kernel⟩, by decide +kernel⟩ }

def indexed (db : Db) : Store ℚ ℚ := ⟨db, fun _ => 0, some (exactSearch (getAllEmbeddings f32OfLeBytes db))⟩

/-- Alone, the memory is found by either branch. -/
theorem alone_alike :
    admitted [] (indexStage env (Db.single target) req
        (exactSearch (getAllEmbeddings f32OfLeBytes (Db.single target))) []) =
      admitted [] (linearStage env (Db.single target) req []) ∩
        {id | ∃ e ∈ bestPassing env (Db.single target) req
          (exactRanking (getAllEmbeddings f32OfLeBytes (Db.single target)) req.queryEmbedding), e.1 = id} := by
  refine (admits_alike_iff (nearest_exactSearch env _ _) []).mpr fun r hr emb hemb _ hdiv => ?_
  obtain rfl : r = target := List.mem_singleton.mp hr
  cases hemb
  rcases hdiv with ⟨-, -, -, hfar, -⟩ | ⟨-, -, -, hgate⟩ | ⟨hsql, -, -, -⟩ | ⟨-, hrust, -, -⟩
  · exact absurd hfar (by decide +kernel)
  · exact hgate (by decide +kernel)
  · exact absurd hsql (by decide +kernel)
  · exact absurd hrust (by decide +kernel)

/-- Behind fifty memories that the agent may not see, the linear scan still finds it, and it is the best of those that
pass; the index branch does not. -/
theorem target_lost :
    Nearest env crowded req.queryEmbedding (exactSearch (getAllEmbeddings f32OfLeBytes crowded))
        (exactRanking (getAllEmbeddings f32OfLeBytes crowded) req.queryEmbedding) ∧
      (keywordStage env (indexed crowded) req).map List.length = .ok 0 ∧
      "target" ∈ admitted [] (linearStage env crowded req []) ∩
        {id | ∃ e ∈ bestPassing env crowded req
          (exactRanking (getAllEmbeddings f32OfLeBytes crowded) req.queryEmbedding), e.1 = id} ∧
      "target" ∉ admitted [] (indexStage env crowded req (exactSearch (getAllEmbeddings f32OfLeBytes crowded)) []) := by
  refine ⟨nearest_exactSearch _ _ _, by decide +kernel, ⟨⟨?_, fun _ ht => absurd ht List.not_mem_nil⟩, ?_⟩, ?_⟩
  · decide +kernel
  · change ∃ e ∈ bestPassing env crowded req _, e.1 = "target"
    decide +kernel
  · rintro ⟨hin, -⟩
    revert hin
    decide +kernel

end Crowd

end Recall

end AiMemory
