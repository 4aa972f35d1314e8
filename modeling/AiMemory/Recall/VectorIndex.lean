import AiMemory.Lib.Transitions
import AiMemory.Recall.Nearest

/-!
# The vector index

`hnsw.rs` keeps three copies of the embeddings: an immutable graph, the entries added since it was built, and all
entries. A removal touches the two lists only, and a search drops the hits of the graph whose id is in no entry. So an
id that is removed and inserted again brings its old point in the graph back to life, and the search, which keeps the
first hit of an id, answers with the old embedding until the graph is built anew. Answers are current all along a run
exactly when no insertion or build leaves such a point, or a nearer duplicate, for the search to meet
(`current_iff_meets`).

The graph is third-party: it is given by the entries it was built from and by a search that answers with some of them,
each at its true distance. Distances are any linear order.
-/

namespace AiMemory

open Ranking

namespace Recall

def rebuildThreshold : ℕ := 200

def maxEntries : ℕ := 100000

section Index

variable {V D : Type}

structure IndexState (V : Type) where
  hnsw : Option (List (String × V))
  overflow : List (String × V)
  allEntries : List (String × V)

def buildHnsw (entries : List (String × V)) : Option (List (String × V)) :=
  if entries.isEmpty then none else some entries

theorem getD_buildHnsw (entries : List (String × V)) : (buildHnsw entries).getD [] = entries := by
  cases entries <;> rfl

namespace IndexState

def build (entries : List (String × V)) : IndexState V := ⟨buildHnsw entries, [], entries⟩

def empty : IndexState V := ⟨none, [], []⟩

def rebuild (s : IndexState V) : IndexState V := { s with hnsw := buildHnsw s.allEntries, overflow := [] }

/-- `insert`, without the counters of evictions. -/
def insert (s : IndexState V) (id : String) (embedding : V) : IndexState V :=
  let s := { s with
    allEntries := s.allEntries ++ [(id, embedding)]
    overflow := s.overflow ++ [(id, embedding)] }
  let s := if rebuildThreshold ≤ s.overflow.length then s.rebuild else s
  if maxEntries < s.allEntries.length then
    { s with allEntries := s.allEntries.drop (s.allEntries.length - maxEntries) }.rebuild
  else s

def remove (s : IndexState V) (id : String) : IndexState V :=
  { s with
    allEntries := s.allEntries.filter fun e => e.1 ≠ id
    overflow := s.overflow.filter fun e => e.1 ≠ id }

/-- The hits of the graph whose id is in some entry; the loop stops at `k * 2`, after the push. -/
def graphHits (hnswSearch : List (String × V) → V → List (VectorHit D)) (s : IndexState V) (query : V) (k : ℕ) :
    List (VectorHit D) :=
  match s.hnsw with
  | none => []
  | some points =>
    ((hnswSearch points query).filter fun hit => s.allEntries.any fun e => e.1 = hit.id).take (max (k * 2) 1)

variable [LinearOrder D]

def overflowHits (dist : V → V → D) (s : IndexState V) (query : V) : List (VectorHit D) :=
  (s.overflow.map fun e => ⟨e.1, dist query e.2⟩).insertionSort fun a b => a.distance ≤ b.distance

def search (dist : V → V → D) (hnswSearch : List (String × V) → V → List (VectorHit D)) (s : IndexState V) (query : V)
    (k : ℕ) : List (VectorHit D) :=
  let results := firsts (fun hit => hit.id) [] (s.graphHits hnswSearch query k ++ s.overflowHits dist query)
  (results.insertionSort fun a b => a.distance ≤ b.distance).take k

end IndexState

/-! ## What a search should answer -/

/-- An index, and the embedding last inserted for each id that was not removed since. -/
structure Tracked (V : Type) where
  index : IndexState V
  latest : String → Option V

def Tracked.empty : Tracked V := ⟨.empty, fun _ => none⟩

/-- The calls of a run. -/
inductive IndexOp (V : Type) where
  | build (entries : List (String × V))
  | insert (id : String) (embedding : V)
  | remove (id : String)
  | rebuild

def lastOf (entries : List (String × V)) (id : String) : Option V :=
  (entries.reverse.find? fun e => e.1 = id).map Prod.snd

def Tracked.step (s : Tracked V) : IndexOp V → Tracked V
  | .build entries => ⟨.build entries, lastOf entries⟩
  | .insert id embedding => ⟨s.index.insert id embedding, Function.update s.latest id (some embedding)⟩
  | .remove id => ⟨s.index.remove id, Function.update s.latest id none⟩
  | .rebuild => ⟨s.index.rebuild, s.latest⟩

variable [LinearOrder D] (dist : V → V → D)

/-- The third-party search answers with points it stores, at their true distances. -/
def Faithful (hnswSearch : List (String × V) → V → List (VectorHit D)) : Prop :=
  ∀ points query, ∀ hit ∈ hnswSearch points query, ∃ e ∈ points, hit = ⟨e.1, dist query e.2⟩

/-- At most `k` hits of different ids, closest first, each at the distance of the current embedding of its id. -/
structure Answers (latest : String → Option V) (query : V) (k : ℕ) (hits : List (VectorHit D)) : Prop where
  length_le : hits.length ≤ k
  nodup : (hits.map fun hit => hit.id).Nodup
  sorted : hits.Pairwise fun a b => a.distance ≤ b.distance
  current : ∀ hit ∈ hits, ∃ e, latest hit.id = some e ∧ hit.distance = dist query e

/-- Every search answers as it should, whichever of its points the graph returns. -/
def Current (s : Tracked V) : Prop :=
  ∀ hnswSearch, Faithful dist hnswSearch → ∀ query k,
    Answers dist s.latest query k (s.index.search dist hnswSearch query k)

/-- No query tells the two embeddings apart. -/
def Alike (x e : V) : Prop := ∀ query, dist query x = dist query e

/-- To no query is `x` nearer than `e`. -/
def NoNearer (x e : V) : Prop := ∀ query, dist query e ≤ dist query x

/-- The insertion ends with a new graph. -/
def Refreshes (s : IndexState V) : Prop :=
  rebuildThreshold ≤ s.overflow.length + 1 ∨ maxEntries < s.allEntries.length + 1

def keptEntries (s : IndexState V) (id : String) (embedding : V) : List (String × V) :=
  (s.allEntries ++ [(id, embedding)]).drop (s.allEntries.length + 1 - maxEntries)

/-- All entries of one id are alike, up to the current one. -/
def Uniform (entries : List (String × V)) (latest : String → Option V) : Prop :=
  ∀ p ∈ entries, ∀ e, latest p.1 = some e → Alike dist p.2 e

/-- A graph is built of entries that are alike for each id. An insertion that builds none finds no other point of its
id in the graph, and no nearer one in the overflow. -/
def IndexOpOk (s : Tracked V) : IndexOp V → Prop
  | .build entries => Uniform dist entries (lastOf entries)
  | .insert id embedding =>
    (Refreshes s.index →
      Uniform dist (keptEntries s.index id embedding) (Function.update s.latest id (some embedding))) ∧
    (¬Refreshes s.index →
      (∀ p ∈ s.index.hnsw.getD [], p.1 = id → Alike dist p.2 embedding) ∧
        ∀ p ∈ s.index.overflow, p.1 = id → NoNearer dist p.2 embedding)
  | .remove _ => True
  | .rebuild => Uniform dist s.index.allEntries s.latest

end Index

/-! ## Answers and the state of the index -/

section Answers

variable {V D : Type} {dist : V → V → D} {hnswSearch : List (String × V) → V → List (VectorHit D)}
  {s : IndexState V} {t : Tracked V} {query : V} {k : ℕ} {hit : VectorHit D}

theorem mem_of_mem_graphHits (h : hit ∈ s.graphHits hnswSearch query k) :
    hit ∈ hnswSearch (s.hnsw.getD []) query ∧ ∃ x, (hit.id, x) ∈ s.allEntries := by
  unfold IndexState.graphHits at h
  cases hgraph : s.hnsw with
  | none =>
    rw [hgraph] at h
    cases h
  | some points =>
    rw [hgraph] at h
    obtain ⟨hin, hvalid⟩ := List.mem_filter.mp (List.mem_of_mem_take h)
    obtain ⟨e, he, hid⟩ := List.any_eq_true.mp hvalid
    exact ⟨hin, e.2, by rwa [← of_decide_eq_true hid]⟩

open Classical in
noncomputable def onlyPoint (dist : V → V → D) (p : String × V) (points : List (String × V)) (query : V) :
    List (VectorHit D) :=
  if p ∈ points then [⟨p.1, dist query p.2⟩] else []

theorem faithful_onlyPoint (p : String × V) : Faithful dist (onlyPoint dist p) := by
  intro points query hit hhit
  unfold onlyPoint at hhit
  split_ifs at hhit with hp
  · exact ⟨p, hp, List.mem_singleton.mp hhit⟩
  · cases hhit

theorem graphHits_onlyPoint {p : String × V} (hp : p ∈ s.hnsw.getD []) (hvalid : ∃ x, (p.1, x) ∈ s.allEntries) :
    s.graphHits (onlyPoint dist p) query k = [⟨p.1, dist query p.2⟩] := by
  obtain ⟨x, hx⟩ := hvalid
  have hany : (s.allEntries.any fun e => e.1 = p.1) = true := List.any_eq_true.mpr ⟨_, hx, decide_eq_true rfl⟩
  have hkeep : ∀ hit ∈ [(⟨p.1, dist query p.2⟩ : VectorHit D)], (s.allEntries.any fun e => e.1 = hit.id) = true := by
    intro hit hhit
    rwa [List.mem_singleton.mp hhit]
  unfold IndexState.graphHits onlyPoint
  cases hgraph : s.hnsw with
  | none =>
    rw [hgraph] at hp
    cases hp
  | some points =>
    rw [hgraph, Option.getD_some] at hp
    simp only [if_pos hp]
    rw [List.filter_eq_self.mpr hkeep]
    exact List.take_of_length_le (le_max_right _ _)

variable [LinearOrder D]

theorem pairwise_sorted (hits : List (VectorHit D)) :
    (hits.insertionSort fun a b => a.distance ≤ b.distance).Pairwise fun a b => a.distance ≤ b.distance := by
  have : Std.Total fun a b : VectorHit D => a.distance ≤ b.distance := ⟨fun _ _ => le_total _ _⟩
  have : IsTrans (VectorHit D) fun a b => a.distance ≤ b.distance := ⟨fun _ _ _ => le_trans⟩
  exact List.pairwise_insertionSort _ hits

theorem mem_overflowHits : hit ∈ s.overflowHits dist query ↔ ∃ p ∈ s.overflow, ⟨p.1, dist query p.2⟩ = hit := by
  rw [IndexState.overflowHits, List.mem_insertionSort, List.mem_map]

theorem find?_of_mem_search (h : hit ∈ s.search dist hnswSearch query k) :
    (s.graphHits hnswSearch query k ++ s.overflowHits dist query).find? (fun b => b.id = hit.id) = some hit := by
  have hfirst := (List.mem_insertionSort _).mp (List.mem_of_mem_take h)
  exact (mem_firsts_iff.mp hfirst).2

/-- With `k` large enough the first of each id is a hit. -/
theorem mem_search (hk : (s.graphHits hnswSearch query k ++ s.overflowHits dist query).length ≤ k)
    (h : (s.graphHits hnswSearch query k ++ s.overflowHits dist query).find? (fun b => b.id = hit.id) = some hit) :
    hit ∈ s.search dist hnswSearch query k := by
  have hlen : (firsts (fun hit => hit.id) [] (s.graphHits hnswSearch query k ++ s.overflowHits dist query)).length ≤ k :=
    length_firsts_le.trans hk
  rw [IndexState.search, List.take_of_length_le (by rwa [List.length_insertionSort]), List.mem_insertionSort]
  exact mem_firsts_iff.mpr ⟨List.not_mem_nil, h⟩

/-- What the operations keep of the three copies. -/
structure WellKept (t : Tracked V) : Prop where
  known : ∀ p ∈ t.index.allEntries, ∃ e, t.latest p.1 = some e
  listed : ∀ p ∈ t.index.overflow, p ∈ t.index.allEntries
  newest : ∀ p ∈ t.index.overflow, ∀ e, t.latest p.1 = some e → (p.1, e) ∈ t.index.overflow

/-- Every point of a live id is like the current one, and no entry of the overflow is nearer. -/
structure Fresh (dist : V → V → D) (t : Tracked V) : Prop where
  graph : ∀ p ∈ t.index.hnsw.getD [], (∃ x, (p.1, x) ∈ t.index.allEntries) → ∀ e, t.latest p.1 = some e →
    Alike dist p.2 e
  overflow : ∀ p ∈ t.index.overflow, ∀ e, t.latest p.1 = some e → NoNearer dist p.2 e

theorem Fresh.answers (hf : Fresh dist t) (hw : WellKept t) (hsearch : Faithful dist hnswSearch) (query : V) (k : ℕ) :
    Answers dist t.latest query k (t.index.search dist hnswSearch query k) where
  length_le := List.length_take_le _ _
  nodup := by
    refine (List.Nodup.sublist ((List.take_sublist _ _).map _) ?_)
    exact ((List.perm_insertionSort _ _).map _).nodup_iff.mpr nodup_firsts
  sorted := (pairwise_sorted _).sublist (List.take_sublist _ _)
  current := by
    intro hit hhit
    have hfind := find?_of_mem_search hhit
    rw [List.find?_append, Option.or_eq_some_iff] at hfind
    rcases hfind with hgraph | ⟨-, hover⟩
    · obtain ⟨hin, hvalid⟩ := mem_of_mem_graphHits (List.mem_of_find?_eq_some hgraph)
      obtain ⟨p, hp, rfl⟩ := hsearch _ _ _ hin
      obtain ⟨x, hx⟩ := hvalid
      obtain ⟨e, he⟩ := hw.known _ hx
      exact ⟨e, he, hf.graph p hp ⟨x, hx⟩ e he query⟩
    · -- the nearest of the entries of the id, one of which is the current one
      obtain ⟨p, hp, rfl⟩ := mem_overflowHits.mp (List.mem_of_find?_eq_some hover)
      obtain ⟨e, he⟩ := hw.known _ (hw.listed p hp)
      have hcurrent : ⟨p.1, dist query e⟩ ∈ t.index.overflowHits dist query :=
        mem_overflowHits.mpr ⟨(p.1, e), hw.newest p hp e he, rfl⟩
      have hle := le_of_find? (pairwise_sorted _) hover hcurrent (decide_eq_true rfl)
      exact ⟨e, he, hle.antisymm (hf.overflow p hp e he query)⟩

/-- Answers are current only if the index is fresh. -/
theorem Current.fresh (hc : Current dist t) : Fresh dist t where
  graph := by
    intro p hp hvalid e he query
    have hgraph : ∀ k, t.index.graphHits (onlyPoint dist p) query k = [⟨p.1, dist query p.2⟩] :=
      fun k => graphHits_onlyPoint hp hvalid
    have hans := hc _ (faithful_onlyPoint p) query (1 + (t.index.overflowHits dist query).length)
    obtain ⟨e', he', hdist⟩ := hans.current ⟨p.1, dist query p.2⟩ (mem_search
      (by rw [hgraph, List.length_append, List.length_singleton])
      (by rw [hgraph, List.singleton_append, List.find?_cons, decide_eq_true rfl]))
    cases he.symm.trans he'
    exact hdist
  overflow := by
    intro p hp e he query
    have hnone : Faithful dist fun _ _ => [] := fun _ _ _ h => absurd h List.not_mem_nil
    have hgraph : ∀ k, t.index.graphHits (fun _ _ => ([] : List (VectorHit D))) query k = [] := by
      intro k
      unfold IndexState.graphHits
      cases t.index.hnsw with
      | none => rfl
      | some points => exact List.take_nil
    have hin : ⟨p.1, dist query p.2⟩ ∈ t.index.overflowHits dist query := mem_overflowHits.mpr ⟨p, hp, rfl⟩
    obtain ⟨hit, hhit⟩ : ∃ hit, (t.index.overflowHits dist query).find? (fun b => b.id = p.1) = some hit :=
      Option.isSome_iff_exists.mp (List.find?_isSome.mpr ⟨_, hin, decide_eq_true rfl⟩)
    have hid : hit.id = p.1 := by simpa using List.find?_some hhit
    have hans := hc _ hnone query (t.index.overflowHits dist query).length
    obtain ⟨e', he', hdist⟩ := hans.current hit (mem_search (by rw [hgraph, List.nil_append])
      (by rwa [hgraph, List.nil_append, hid]))
    rw [hid] at he'
    cases he.symm.trans he'
    rw [← hdist]
    exact le_of_find? (pairwise_sorted _) hhit hin (decide_eq_true rfl)

end Answers

/-! ## Steps -/

section Step

variable {V D : Type} [LinearOrder D] {dist : V → V → D} {s : IndexState V} {t : Tracked V} {id : String} {x : V}

theorem insert_of_not_refreshes (h : ¬Refreshes s) : s.insert id x =
    { s with allEntries := s.allEntries ++ [(id, x)], overflow := s.overflow ++ [(id, x)] } := by
  rw [Refreshes, not_or] at h
  unfold IndexState.insert
  simp only [List.length_append, List.length_singleton, if_neg h.1, if_neg h.2]

theorem insert_of_refreshes (h : Refreshes s) : s.insert id x =
    ⟨buildHnsw (keptEntries s id x), [], keptEntries s id x⟩ := by
  have hlen : (s.allEntries ++ [(id, x)]).length = s.allEntries.length + 1 := by
    rw [List.length_append, List.length_singleton]
  have hover : (s.overflow ++ [(id, x)]).length = s.overflow.length + 1 := by
    rw [List.length_append, List.length_singleton]
  unfold IndexState.insert keptEntries
  rw [Refreshes] at h
  -- the bound stays closed, so that it is not computed with
  generalize maxEntries = bound at h ⊢
  simp only [hover]
  by_cases hfull : rebuildThreshold ≤ s.overflow.length + 1
  · rw [if_pos hfull]
    by_cases hcap : bound < s.allEntries.length + 1
    · rw [if_pos (hlen ▸ hcap)]
      simp only [IndexState.rebuild, hlen]
    · rw [if_neg (hlen ▸ hcap), Nat.sub_eq_zero_of_le (not_lt.mp hcap)]
      rfl
  · rw [if_neg hfull, if_pos (hlen ▸ h.resolve_left hfull)]
    simp only [IndexState.rebuild, hlen]

variable {p : String × V}

theorem mem_keptEntries (h : p ∈ keptEntries s id x) : p ∈ s.allEntries ∨ p = (id, x) := by
  have hin := List.mem_of_mem_drop h
  rwa [List.mem_append, List.mem_singleton] at hin

variable {entries : List (String × V)} {latest : String → Option V}

theorem wellKept_built
    (h : ∀ p ∈ entries, ∃ e, latest p.1 = some e) : WellKept ⟨⟨buildHnsw entries, [], entries⟩, latest⟩ :=
  ⟨h, fun _ hp => absurd hp List.not_mem_nil, fun _ hp => absurd hp List.not_mem_nil⟩

theorem fresh_built_iff :
    Fresh dist ⟨⟨buildHnsw entries, [], entries⟩, latest⟩ ↔ Uniform dist entries latest := by
  constructor
  · intro hf p hp e he
    exact hf.graph p (by rwa [getD_buildHnsw]) ⟨p.2, hp⟩ e he
  · intro hu
    refine ⟨fun p hp _ e he => ?_, fun p hp => absurd hp List.not_mem_nil⟩
    rw [getD_buildHnsw] at hp
    exact hu p hp e he

theorem known_update (h : (∃ e, latest p.1 = some e) ∨ p = (id, x)) :
    ∃ e, Function.update latest id (some x) p.1 = some e := by
  by_cases hid : p.1 = id
  · exact ⟨x, by rw [hid, Function.update_self]⟩
  · rcases h with h | rfl
    · rwa [Function.update_of_ne hid]
    · exact absurd rfl hid

theorem exists_lastOf (hp : p ∈ entries) :
    ∃ e, lastOf entries p.1 = some e := by
  obtain ⟨q, hq⟩ : ∃ q, entries.reverse.find? (fun e => e.1 = p.1) = some q :=
    Option.isSome_iff_exists.mp (List.find?_isSome.mpr ⟨p, List.mem_reverse.mpr hp, decide_eq_true rfl⟩)
  exact ⟨q.2, by rw [lastOf, hq]; rfl⟩

theorem WellKept.step (h : WellKept t) (op : IndexOp V) : WellKept (t.step op) := by
  cases op with
  | build entries => exact wellKept_built fun p hp => exists_lastOf hp
  | insert id x =>
    by_cases hr : Refreshes t.index
    · rw [Tracked.step, insert_of_refreshes hr]
      exact wellKept_built fun p hp => known_update ((mem_keptEntries hp).imp_left (h.known p))
    · rw [Tracked.step, insert_of_not_refreshes hr]
      refine ⟨fun p hp => ?_, fun p hp => ?_, fun p hp e he => ?_⟩
      · rw [List.mem_append, List.mem_singleton] at hp
        exact known_update (hp.imp_left (h.known p))
      · rw [List.mem_append] at hp ⊢
        exact hp.imp_left (h.listed p)
      · rw [List.mem_append, List.mem_singleton]
        by_cases hid : p.1 = id
        · simp only [hid, Function.update_self, Option.some.injEq] at he
          exact Or.inr (by rw [hid, he])
        · simp only [Function.update_of_ne hid] at he
          rw [List.mem_append, List.mem_singleton] at hp
          exact Or.inl (h.newest p (hp.resolve_right fun heq => hid (heq ▸ rfl)) e he)
  | remove id =>
    have hne : ∀ {p : String × V}, p.1 ≠ id → Function.update t.latest id none p.1 = t.latest p.1 :=
      fun hid => Function.update_of_ne hid _ _
    refine ⟨fun p hp => ?_, fun p hp => ?_, fun p hp e he => ?_⟩
    · obtain ⟨hin, hid⟩ := List.mem_filter.mp hp
      obtain ⟨e, he⟩ := h.known p hin
      exact ⟨e, (hne (of_decide_eq_true hid)).trans he⟩
    · obtain ⟨hin, hid⟩ := List.mem_filter.mp hp
      exact List.mem_filter.mpr ⟨h.listed p hin, hid⟩
    · obtain ⟨hin, hid⟩ := List.mem_filter.mp hp
      exact List.mem_filter.mpr ⟨h.newest p hin e ((hne (of_decide_eq_true hid)).symm.trans he), hid⟩
  | rebuild => exact wellKept_built h.known

/-- After a step from a fresh index the index is fresh exactly if the step meets its condition. -/
theorem fresh_step_iff (hf : Fresh dist t) (op : IndexOp V) : Fresh dist (t.step op) ↔ IndexOpOk dist t op := by
  cases op with
  | build entries => exact fresh_built_iff
  | insert id x =>
    by_cases hr : Refreshes t.index
    · rw [Tracked.step, insert_of_refreshes hr, fresh_built_iff, IndexOpOk]
      exact ⟨fun h => ⟨fun _ => h, fun hn => absurd hr hn⟩, fun h => h.1 hr⟩
    · rw [Tracked.step, insert_of_not_refreshes hr, IndexOpOk]
      constructor
      · intro h
        refine ⟨fun hyes => absurd hyes hr, fun _ => ⟨fun p hp hid => ?_, fun p hp hid => ?_⟩⟩
        · refine h.graph p hp ⟨x, ?_⟩ x (by simp only [hid, Function.update_self])
          rw [hid]
          exact List.mem_append_right _ (List.mem_singleton_self _)
        · exact h.overflow p (List.mem_append_left _ hp) x (by simp only [hid, Function.update_self])
      · intro h
        obtain ⟨hgraph, hover⟩ := h.2 hr
        refine ⟨fun p hp hvalid e he => ?_, fun p hp e he => ?_⟩
        · by_cases hid : p.1 = id
          · simp only [hid, Function.update_self, Option.some.injEq] at he
            exact he ▸ hgraph p hp hid
          · simp only [Function.update_of_ne hid] at he
            obtain ⟨y, hy⟩ := hvalid
            rw [List.mem_append, List.mem_singleton] at hy
            exact hf.graph p hp ⟨y, hy.resolve_right fun heq => hid (congrArg Prod.fst heq)⟩ e he
        · rw [List.mem_append, List.mem_singleton] at hp
          by_cases hid : p.1 = id
          · simp only [hid, Function.update_self, Option.some.injEq] at he
            subst he
            rcases hp with hp | rfl
            · exact hover p hp hid
            · exact fun _ => le_rfl
          · simp only [Function.update_of_ne hid] at he
            exact hf.overflow p (hp.resolve_right fun heq => hid (heq ▸ rfl)) e he
  | remove id =>
    refine iff_of_true ⟨fun p hp hvalid e he => ?_, fun p hp e he => ?_⟩ trivial
    · obtain ⟨y, hy⟩ := hvalid
      obtain ⟨hin, hid⟩ := List.mem_filter.mp hy
      simp only [Tracked.step, Function.update_of_ne (of_decide_eq_true hid)] at he
      exact hf.graph p hp ⟨y, hin⟩ e he
    · obtain ⟨hin, hid⟩ := List.mem_filter.mp hp
      simp only [Tracked.step, Function.update_of_ne (of_decide_eq_true hid)] at he
      exact hf.overflow p hin e he
  | rebuild => exact fresh_built_iff

end Step

/-- A run of the index answers with current data in every state exactly if every step meets its condition. -/
theorem current_iff_meets {V D : Type} [LinearOrder D] (dist : V → V → D) (ops : List (IndexOp V)) :
    (∀ t ∈ Machine.states Tracked.step Tracked.empty ops, Current dist t) ↔
      Machine.Meets Tracked.step (IndexOpOk dist) Tracked.empty ops := by
  have hcurrent : ∀ t, WellKept t ∧ Fresh dist t → Current dist t := fun t h hnswSearch hsearch query k =>
    h.2.answers h.1 hsearch query k
  refine Machine.forall_states_iff_meets hcurrent
    (fun t op h hok => ⟨h.1.step op, (fresh_step_iff h.2 op).mpr hok⟩)
    (fun t op h hbad hc => hbad ((fresh_step_iff h.2 op).mp hc.fresh)) ⟨?_, ?_⟩
  · exact wellKept_built fun _ hp => absurd hp List.not_mem_nil
  · exact ⟨fun _ hp => absurd hp List.not_mem_nil, fun _ hp => absurd hp List.not_mem_nil⟩

/-! ## A memory that is embedded again -/

attribute [local instance] ratArith

/-- `m1` is in the graph, and a handler replaces its embedding. -/
def reembedded : List (IndexOp (List ℚ)) :=
  [.build [("m1", [0, 1])], .remove "m1", .insert "m1" [1, 0]]

def sortedSearch (points : List (String × List ℚ)) (query : List ℚ) : List (VectorHit ℚ) :=
  (exactRanking points query).map fun e => ⟨e.1, distance query e.2⟩

/-- A search for the new vector finds `m1` at the distance of the old one. -/
theorem stale_embedding_answers :
    Faithful distance sortedSearch ∧
      (reembedded.foldl Tracked.step Tracked.empty).latest "m1" = some [1, 0] ∧
      (((reembedded.foldl Tracked.step Tracked.empty).index.search distance sortedSearch [1, 0] 10).map fun hit =>
        (hit.id, hit.distance)) = [("m1", 1)] ∧
      distance [1, 0] ([1, 0] : List ℚ) = 0 ∧
      ¬∀ t ∈ Machine.states Tracked.step Tracked.empty reembedded, Current (distance (F := ℚ)) t := by
  have hfaithful : Faithful distance sortedSearch := by
    intro points query hit hhit
    obtain ⟨e, he, rfl⟩ := List.mem_map.mp hhit
    exact ⟨e, (List.mem_insertionSort _).mp he, rfl⟩
  have hhits : (((reembedded.foldl Tracked.step Tracked.empty).index.search distance sortedSearch [1, 0] 10).map
      fun hit => (hit.id, hit.distance)) = [("m1", 1)] := by decide +kernel
  refine ⟨hfaithful, rfl, hhits, by decide +kernel, fun h => ?_⟩
  have hans := h _ Machine.foldl_mem_states sortedSearch hfaithful [1, 0] 10
  obtain ⟨hit, hin, heq⟩ := List.mem_map.mp (hhits ▸ List.mem_singleton_self (("m1", 1) : String × ℚ))
  obtain ⟨hid, hone⟩ := Prod.mk.inj heq
  obtain ⟨e, he, hdist⟩ := hans.current hit hin
  rw [hid] at he
  cases he
  rw [hone] at hdist
  exact absurd hdist (by decide +kernel)

end Recall

end AiMemory
