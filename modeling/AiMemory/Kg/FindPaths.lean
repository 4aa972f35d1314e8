import AiMemory.Lib.Codes
import AiMemory.Lib.Delimited
import AiMemory.Kg.Paths

/-!
# Paths between two memories

`find_paths` walks the links in both directions with one recursive query. The rows of its table are paths from the source
without repetition, so what reaches the target are the simple paths up to `max_depth`, each once, whatever links join its
nodes; they are ordered by length and by the text of the JSON array, and cut at the cap (`findPaths_lists_paths`).
-/

namespace AiMemory

open Relational Recursion Walks

namespace Kg

def findPathsDefaultLimit : ℕ := 10

def findPathsMaxLimit : ℕ := 50

def findPathsMaxDepth : ℕ := 7

def findPathsDefaultDepth : ℕ := 4

/-! ## The text of a path -/

def jsonChar (c : Char) : List Char :=
  if c = '"' ∨ c = '\\' then ['\\', c]
  else if c.toNat < 32 then
    match c.toNat with
    | 8 => ['\\', 'b']
    | 9 => ['\\', 't']
    | 10 => ['\\', 'n']
    | 12 => ['\\', 'f']
    | 13 => ['\\', 'r']
    | n => ['\\', 'u', '0', '0', Nat.digitChar (n / 16), Nat.digitChar (n % 16)]
  else [c]

def jsonString (s : String) : List Char := '"' :: s.toList.flatMap jsonChar ++ ['"']

/-- The text of the array that `json_array` and `json_insert` make of texts. -/
def jsonText (path : List String) : String :=
  String.ofList ('[' :: [','].intercalate (path.map jsonString) ++ [']'])

def jsonEscaped : List Char := '"' :: '\\' :: (List.range 32).map Char.ofNat

theorem mem_jsonEscaped {c : Char} (h : (c = '"' ∨ c = '\\') ∨ c.toNat < 32) : c ∈ jsonEscaped := by
  rcases h with (rfl | rfl) | h
  · exact List.mem_cons_self
  · exact List.mem_cons_of_mem _ List.mem_cons_self
  · refine List.mem_cons_of_mem _ (List.mem_cons_of_mem _ (List.mem_map.mpr ⟨c.toNat, List.mem_range.mpr h, ?_⟩))
    exact Char.ofNat_toNat c

theorem jsonChar_plain {c : Char} (h : c ∉ jsonEscaped) : jsonChar c = [c] := by
  unfold jsonChar
  rw [if_neg fun hc => h (mem_jsonEscaped (Or.inl hc)), if_neg fun hc => h (mem_jsonEscaped (Or.inr hc))]

theorem jsonChar_escaped : ∀ c ∈ jsonEscaped, (jsonChar c).head? = some '\\' := by decide

theorem prefixFree_jsonChar : Codes.PrefixFree jsonChar := by
  have hescaped : ∀ c ∈ jsonEscaped, ∀ d ∈ jsonEscaped, jsonChar c <+: jsonChar d → c = d := by decide
  have hbackslash : '\\' ∈ jsonEscaped := by decide
  have hhead : ∀ c d, jsonChar c <+: jsonChar d → (jsonChar c).head? = (jsonChar d).head? := by
    intro c d h
    have hne : jsonChar c ≠ [] := by
      unfold jsonChar
      split_ifs
      · exact List.cons_ne_nil _ _
      · split <;> exact List.cons_ne_nil _ _
      · exact List.cons_ne_nil _ _
    obtain ⟨t, ht⟩ := h
    rw [← ht, List.head?_append_of_ne_nil _ hne]
  intro c d h
  have heads := hhead c d h
  by_cases hc : c ∈ jsonEscaped <;> by_cases hd : d ∈ jsonEscaped
  · exact hescaped c hc d hd h
  · rw [jsonChar_escaped c hc, jsonChar_plain hd] at heads
    exact absurd (Option.some.inj heads ▸ hbackslash) hd
  · rw [jsonChar_escaped d hd, jsonChar_plain hc] at heads
    exact absurd ((Option.some.inj heads).symm ▸ hbackslash) hc
  · rw [jsonChar_plain hc, jsonChar_plain hd] at heads
    exact Option.some.inj heads

theorem unmarked_jsonChar : Codes.Unmarked '"' jsonChar := by
  intro c s t h
  by_cases hc : c ∈ jsonEscaped
  · have hhead := jsonChar_escaped c hc
    cases hcode : jsonChar c with
    | nil => rw [hcode] at hhead; cases hhead
    | cons x xs =>
      rw [hcode] at h hhead
      obtain rfl : x = '\\' := Option.some.inj hhead
      exact absurd (List.cons.inj h).1 (by decide)
  · rw [jsonChar_plain hc] at h
    exact hc ((List.cons.inj h).1 ▸ List.mem_cons_self)

theorem prefixFree_jsonString : Codes.PrefixFree jsonString := by
  intro s t ⟨rest, h⟩
  have hbody : s.toList.flatMap jsonChar ++ '"' :: rest = t.toList.flatMap jsonChar ++ '"' :: [] := by
    simpa [jsonString] using h
  exact String.toList_inj.mp (Codes.flatMap_stop_inj prefixFree_jsonChar unmarked_jsonChar hbody).1

theorem jsonText_injective : Function.Injective jsonText := by
  intro p q h
  have hchars : [','].intercalate (p.map jsonString) ++ ']' :: [] = [','].intercalate (q.map jsonString) ++ ']' :: [] :=
    (List.cons.inj (String.ofList_injective h)).2
  have hunmarked : Codes.Unmarked ']' jsonString := fun s x t h => absurd (List.cons.inj h).1 (by decide)
  exact Codes.intercalate_stop_inj prefixFree_jsonString hunmarked (by decide) hchars

/-! ## The query -/

/-- A row of the recursive table `traversal`. -/
structure PathRow where
  currentId : String
  depth : ℕ
  path : List String

/-- The links in both directions, without duplicates (`UNION`). -/
def undirected (db : Db) : List (String × String) :=
  ((db.links.rows.map fun l => (l.sourceId, l.targetId)) ++ db.links.rows.map fun l => (l.targetId, l.sourceId)).dedup

def pathStart (sourceId : String) : PathRow := ⟨sourceId, 0, [sourceId]⟩

/-- The recursive member, on one row `t` of the queue. -/
def PathRow.extend (db : Db) (maxDepth : ℕ) (t : PathRow) : List PathRow :=
  ((undirected db).filter fun e => e.1 = t.currentId ∧ t.depth < maxDepth ∧ e.2 ∉ t.path).map fun e =>
    ⟨e.2, t.depth + 1, t.path ++ [e.2]⟩

/-- What paths are ordered by: the number of hops, and the text. -/
def pathKey (path : List String) : ℕ ×ₗ String := toLex (path.length - 1, jsonText path)

/-- `ORDER BY depth ASC, path ASC`. -/
def PathRow.sortKey (t : PathRow) : ℕ ×ₗ String := toLex (t.depth, jsonText t.path)

/-- The outer `SELECT`, without its `LIMIT`. -/
def completedPaths (targetId : String) (traversal : List PathRow) : List (List String) :=
  ((traversal.filter fun t => t.currentId = targetId ∧ 1 ≤ t.depth).mergeSort fun a b => a.sortKey ≤ b.sortKey).map
    (·.path)

/-- The row cap of `find_paths`. -/
def pathsCap (maxResults : Option ℕ) : ℕ := min (max (maxResults.getD findPathsDefaultLimit) 1) findPathsMaxLimit

/-- `find_paths`. The query may take `fuel` rows from its queue. -/
def findPaths (db : Db) (sourceId targetId : String) (maxDepth maxResults : Option ℕ) (fuel : ℕ) :
    Option (Except String (List (List String))) :=
  let depth := maxDepth.getD findPathsDefaultDepth
  if depth = 0 then some (.error "max_depth must be >= 1")
  else if findPathsMaxDepth < depth then
    some (.error s!"max_depth={depth} exceeds supported depth={findPathsMaxDepth}")
  else if sourceId = targetId then some (.ok [[sourceId]])
  else
    (Recursion.run (PathRow.extend db depth) fuel [pathStart sourceId]).map fun traversal =>
      .ok ((completedPaths targetId traversal).take (pathsCap maxResults))

/-! ## Simple paths -/

/-- A link joins two memories, in one direction or the other. -/
def Linked (db : Db) (x y : String) : Prop :=
  ∃ l ∈ db.links, (l.sourceId = x ∧ l.targetId = y) ∨ (l.sourceId = y ∧ l.targetId = x)

/-- A path along links that visits no memory twice, of 1 to `maxDepth` hops. -/
structure SimplePath (db : Db) (sourceId targetId : String) (maxDepth : ℕ) (path : List String) : Prop where
  starts : path.head? = some sourceId
  ends : path.getLast? = some targetId
  joined : path.IsChain (Linked db)
  distinct : path.Nodup
  moves : 2 ≤ path.length
  short : path.length ≤ maxDepth + 1

/-- What `find_paths` should list. -/
def Wanted (db : Db) (sourceId targetId : String) (maxDepth : ℕ) (path : List String) : Prop :=
  if sourceId = targetId then path = [sourceId] else SimplePath db sourceId targetId maxDepth path

section Paths

variable {db : Db} {sourceId targetId x y : String} {maxDepth : ℕ} {path : List String}

theorem Linked.symm (h : Linked db x y) : Linked db y x := by
  obtain ⟨l, hl, hends⟩ := h
  exact ⟨l, hl, hends.symm⟩

theorem SimplePath.reverse (h : SimplePath db sourceId targetId maxDepth path) :
    SimplePath db targetId sourceId maxDepth path.reverse where
  starts := List.head?_reverse.trans h.ends
  ends := List.getLast?_reverse.trans h.starts
  joined := List.isChain_reverse.mpr (h.joined.imp fun _ _ => Linked.symm)
  distinct := List.nodup_reverse.mpr h.distinct
  moves := h.moves.trans_eq List.length_reverse.symm
  short := List.length_reverse.trans_le h.short

theorem wanted_reverse : Wanted db targetId sourceId maxDepth path.reverse ↔ Wanted db sourceId targetId maxDepth path := by
  unfold Wanted
  by_cases heq : sourceId = targetId
  · subst heq
    rw [if_pos rfl, if_pos rfl]
    exact List.reverse_eq_iff
  · rw [if_neg heq, if_neg fun h => heq h.symm]
    exact ⟨fun h => List.reverse_reverse path ▸ h.reverse, SimplePath.reverse⟩

theorem mem_undirected : (x, y) ∈ undirected db ↔ Linked db x y := by
  simp only [undirected, List.mem_dedup, List.mem_append, List.mem_map, Prod.mk.injEq, Linked, Table.mem_def]
  constructor
  · rintro (⟨l, hl, h⟩ | ⟨l, hl, h⟩)
    · exact ⟨l, hl, Or.inl h⟩
    · exact ⟨l, hl, Or.inr h.symm⟩
  · rintro ⟨l, hl, h | h⟩
    · exact Or.inl ⟨l, hl, h⟩
    · exact Or.inr ⟨l, hl, h.symm⟩

def moves (db : Db) : List (String × String) := (undirected db).filter fun e => e.1 ≠ e.2

theorem mem_moves {e : String × String} : e ∈ moves db ↔ Linked db e.1 e.2 ∧ e.1 ≠ e.2 := by
  rw [moves, List.mem_filter, decide_eq_true_iff, mem_undirected]

theorem ne_of_mem_moves : ∀ e ∈ moves db, e.1 ≠ e.2 := fun _ he => (mem_moves.mp he).2

def pathRow (sourceId : String) (t : Trail (String × String)) : PathRow :=
  ⟨t.last.2, t.edges.length, vertices sourceId t.edges⟩

theorem extend_pathStart (hmax : 1 ≤ maxDepth) :
    (pathStart sourceId).extend db maxDepth = (start Prod.fst (moves db) sourceId).map (pathRow sourceId) := by
  rw [PathRow.extend, start, List.map_map, moves, List.filter_filter]
  congr 1
  refine List.filter_congr fun e _ => ?_
  simp only [pathStart, List.mem_singleton, true_and, Bool.decide_and, Nat.lt_of_lt_of_le Nat.zero_lt_one hmax]
  by_cases he : e.1 = sourceId
  · simp [he, eq_comm]
  · simp [he]

theorem extend_pathRow (t : Trail (String × String)) : (pathRow sourceId t).extend db maxDepth =
    (grow Prod.fst Prod.snd (moves db) sourceId maxDepth t).map (pathRow sourceId) := by
  unfold PathRow.extend grow
  by_cases hlt : t.edges.length < maxDepth
  · rw [if_pos hlt, List.map_map, moves, List.filter_filter]
    have hlast : t.last.2 ∈ vertices sourceId t.edges := by
      refine List.mem_cons_of_mem _ (List.mem_map.mpr ⟨t.last, ?_, rfl⟩)
      exact List.mem_append_right _ List.mem_cons_self
    have hfilter : ((undirected db).filter fun e => e.1 = (pathRow sourceId t).currentId ∧
        (pathRow sourceId t).depth < maxDepth ∧ e.2 ∉ (pathRow sourceId t).path) =
        (undirected db).filter fun e => decide (e.1 = t.last.2 ∧ e.2 ∉ sourceId :: t.edges.map Prod.snd) &&
          decide (e.1 ≠ e.2) := by
      refine List.filter_congr fun e _ => ?_
      rw [← Bool.decide_and, decide_eq_decide]
      constructor
      · rintro ⟨hfrom, -, hnew⟩
        exact ⟨⟨hfrom, hnew⟩, fun heq => hnew (heq ▸ hfrom ▸ hlast)⟩
      · rintro ⟨⟨hfrom, hnew⟩, -⟩
        exact ⟨hfrom, hlt, hnew⟩
    rw [hfilter]
    refine List.map_congr_left fun e _ => ?_
    simp [pathRow, vertices]
  · rw [if_neg hlt]
    have hnone : ∀ e ∈ undirected db, ¬(e.1 = (pathRow sourceId t).currentId ∧
        (pathRow sourceId t).depth < maxDepth ∧ e.2 ∉ (pathRow sourceId t).path) := fun e _ h => hlt h.2.1
    rw [List.filter_eq_nil_iff.mpr fun e he => by simpa using hnone e he]
    rfl

/-- The walks of one to `maxDepth` steps from the source. -/
def walks (db : Db) (sourceId : String) (maxDepth : ℕ) : List (Trail (String × String)) :=
  levels (grow Prod.fst Prod.snd (moves db) sourceId maxDepth) maxDepth (start Prod.fst (moves db) sourceId)

theorem run_pathStart (hmax : 1 ≤ maxDepth) {fuel : ℕ} (hfuel : (walks db sourceId maxDepth).length + 1 ≤ fuel) :
    run (PathRow.extend db maxDepth) fuel [pathStart sourceId] =
      some (pathStart sourceId :: (walks db sourceId maxDepth).map (pathRow sourceId)) := by
  have hfirst : [pathStart sourceId].flatMap (PathRow.extend db maxDepth) =
      (start Prod.fst (moves db) sourceId).map (pathRow sourceId) := by
    rw [List.flatMap_singleton, extend_pathStart hmax]
  have hempty : level (PathRow.extend db maxDepth) (maxDepth + 1) [pathStart sourceId] = [] := by
    rw [level_succ, hfirst, level_map extend_pathRow, level_grow_eq_nil ne_of_mem_moves hmax, List.map_nil]
  have hlevels : levels (PathRow.extend db maxDepth) (maxDepth + 1) [pathStart sourceId] =
      pathStart sourceId :: (walks db sourceId maxDepth).map (pathRow sourceId) := by
    rw [levels, hfirst, levels_map extend_pathRow]
    rfl
  rw [← hlevels]
  refine run_eq_levels hempty ?_
  rwa [hlevels, List.length_cons, List.length_map]

theorem mem_walks {t : Trail (String × String)} : t ∈ walks db sourceId maxDepth ↔
    Simple Prod.fst Prod.snd sourceId t.edges ∧ t.edges ⊆ moves db ∧ t.edges.length ≤ maxDepth :=
  mem_levels_grow ne_of_mem_moves

theorem steps_of_mem_walks {t : Trail (String × String)} (h : t ∈ walks db sourceId maxDepth) :
    steps (vertices sourceId t.edges) = t.edges :=
  steps_vertices (mem_walks.mp h).1.starts (mem_walks.mp h).1.joined

/-- The walks that end at the target are the simple paths to it. -/
theorem simplePath_iff : SimplePath db sourceId targetId maxDepth path ↔
    ∃ t ∈ walks db sourceId maxDepth, t.last.2 = targetId ∧ vertices sourceId t.edges = path := by
  constructor
  · intro h
    obtain ⟨rest, rfl⟩ : ∃ rest, path = sourceId :: rest := by
      cases path with
      | nil => exact absurd h.starts (by simp)
      | cons a rest => exact ⟨rest, by rw [Option.some.inj h.starts]⟩
    have hlen : (steps (sourceId :: rest)).length = rest.length := by simp [steps]
    have hpos : 2 ≤ rest.length + 1 := h.moves
    have hne : steps (sourceId :: rest) ≠ [] := fun hnil => by
      rw [hnil, List.length_nil] at hlen
      omega
    obtain ⟨t, ht⟩ := Trail.exists_edges_eq hne
    have hvertices : vertices sourceId t.edges = sourceId :: rest := ht ▸ vertices_steps sourceId rest
    refine ⟨t, mem_walks.mpr ⟨?_, ?_, ?_⟩, ?_, hvertices⟩
    · exact ht ▸ simple_steps.mpr h.distinct
    · intro e he
      rw [ht] at he
      exact mem_moves.mpr ⟨isChain_iff_steps.mp h.joined e he, isChain_iff_steps.mp h.distinct.isChain e he⟩
    · rw [ht, hlen]
      exact Nat.le_of_succ_le_succ h.short
    · have hends := h.ends
      rw [← hvertices, vertices, Trail.edges, List.map_append, ← List.cons_append, List.map_singleton,
        List.getLast?_append_of_ne_nil _ (List.cons_ne_nil _ _)] at hends
      exact Option.some.inj hends
  · rintro ⟨t, ht, rfl, rfl⟩
    obtain ⟨hsimple, hsub, hlen⟩ := mem_walks.mp ht
    have hsteps := steps_of_mem_walks ht
    have hcount : (vertices sourceId t.edges).length = t.edges.length + 1 := by simp [vertices]
    refine ⟨rfl, ?_, ?_, hsimple.distinct, ?_, ?_⟩
    · rw [vertices, Trail.edges, List.map_append, ← List.cons_append, List.map_singleton,
        List.getLast?_append_of_ne_nil _ (List.cons_ne_nil _ _)]
      rfl
    · exact isChain_iff_steps.mpr fun e he => (mem_moves.mp (hsub (hsteps ▸ he))).1
    · rw [hcount]
      exact Nat.succ_le_succ t.length_edges_pos
    · rw [hcount]
      exact Nat.succ_le_succ hlen

theorem pathKey_injective : Function.Injective pathKey := fun _ _ h =>
  jsonText_injective (congrArg (fun key => (ofLex key).2) h)

def allPaths (db : Db) (sourceId targetId : String) (maxDepth : ℕ) : List (List String) :=
  if sourceId = targetId then [[sourceId]]
  else completedPaths targetId (pathStart sourceId :: (walks db sourceId maxDepth).map (pathRow sourceId))

/-- What `completedPaths` sorts: the paths of the walks to the target. -/
theorem perm_completedPaths : (completedPaths targetId
    (pathStart sourceId :: (walks db sourceId maxDepth).map (pathRow sourceId))).Perm
      (((walks db sourceId maxDepth).filter fun t => t.last.2 = targetId).map fun t => vertices sourceId t.edges) := by
  have hstart : ¬((pathStart sourceId).currentId = targetId ∧ 1 ≤ (pathStart sourceId).depth) := fun h =>
    absurd h.2 (by simp [pathStart])
  have hrow : ((fun t : PathRow => decide (t.currentId = targetId ∧ 1 ≤ t.depth)) ∘ pathRow sourceId) =
      fun t => decide (t.last.2 = targetId) := by
    funext t
    rw [Function.comp_apply, decide_eq_decide]
    exact and_iff_left t.length_edges_pos
  refine ((List.mergeSort_perm _ _).map _).trans ?_
  rw [List.filter_cons_of_neg (by simpa using hstart), List.filter_map, hrow, List.map_map]
  exact List.Perm.refl _

theorem nodup_completedPaths : (completedPaths targetId
    (pathStart sourceId :: (walks db sourceId maxDepth).map (pathRow sourceId))).Nodup := by
  have hwalks : (walks db sourceId maxDepth).Nodup :=
    nodup_levels_grow ne_of_mem_moves ((List.nodup_dedup _).filter _)
  refine perm_completedPaths.nodup_iff.mpr ((hwalks.filter _).map_on fun t ht u hu heq => ?_)
  refine Trail.edges_injective ?_
  rw [← steps_of_mem_walks (List.mem_filter.mp ht).1, heq, steps_of_mem_walks (List.mem_filter.mp hu).1]

theorem mem_allPaths : path ∈ allPaths db sourceId targetId maxDepth ↔ Wanted db sourceId targetId maxDepth path := by
  unfold allPaths Wanted
  split_ifs
  · exact List.mem_singleton
  · rw [perm_completedPaths.mem_iff, simplePath_iff, List.mem_map]
    simp only [List.mem_filter, decide_eq_true_iff, and_assoc]

theorem pairwise_allPaths : (allPaths db sourceId targetId maxDepth).Pairwise fun p q => pathKey p < pathKey q := by
  unfold allPaths
  split_ifs
  · exact List.pairwise_singleton _ _
  · have hsorted : (completedPaths targetId
        (pathStart sourceId :: (walks db sourceId maxDepth).map (pathRow sourceId))).Pairwise
          fun p q => pathKey p ≤ pathKey q := by
      rw [completedPaths, List.pairwise_map]
      have hkey : ∀ t ∈ pathStart sourceId :: (walks db sourceId maxDepth).map (pathRow sourceId),
          pathKey t.path = t.sortKey := by
        intro t ht
        rcases List.mem_cons.mp ht with rfl | ht
        · rfl
        · obtain ⟨t, -, rfl⟩ := List.mem_map.mp ht
          simp [pathKey, PathRow.sortKey, pathRow, vertices]
      refine (List.pairwise_mergeSort (fun a b c hab hbc => ?_) (fun a b => ?_) _).imp_of_mem fun {t u} ht hu hle => ?_
      · exact decide_eq_true ((of_decide_eq_true hab).trans (of_decide_eq_true hbc))
      · simpa using le_total a.sortKey b.sortKey
      · rw [hkey t (List.mem_of_mem_filter (List.mem_mergeSort.mp ht)),
          hkey u (List.mem_of_mem_filter (List.mem_mergeSort.mp hu))]
        exact of_decide_eq_true hle
    refine (hsorted.and nodup_completedPaths).imp fun {p q} h => lt_of_le_of_ne h.1 fun heq => h.2 ?_
    exact pathKey_injective heq

end Paths

/-- The result of `find_paths`, whatever the links: the wanted paths, each once, in the order of their length and JSON text,
cut at the cap; and without the cap the paths back are the paths there, reversed. -/
theorem findPaths_lists_paths (db : Db) (sourceId targetId : String) (maxDepth maxResults : Option ℕ)
    (hpos : 1 ≤ maxDepth.getD findPathsDefaultDepth) (hmax : maxDepth.getD findPathsDefaultDepth ≤ 7) :
    let depth := maxDepth.getD findPathsDefaultDepth
    ∃ enough, ∃ there back : List (List String),
      (∀ fuel, enough ≤ fuel →
        findPaths db sourceId targetId maxDepth maxResults fuel = some (.ok (there.take (pathsCap maxResults))) ∧
        findPaths db targetId sourceId maxDepth maxResults fuel = some (.ok (back.take (pathsCap maxResults)))) ∧
      (∀ path, path ∈ there ↔ Wanted db sourceId targetId depth path) ∧
      there.Pairwise (fun p q => pathKey p < pathKey q) ∧
      back.Perm (there.map List.reverse) := by
  intro depth
  have hruns : ∀ a b fuel, (walks db a depth).length + 1 ≤ fuel →
      findPaths db a b maxDepth maxResults fuel = some (.ok ((allPaths db a b depth).take (pathsCap maxResults))) := by
    intro a b fuel hfuel
    unfold findPaths allPaths
    rw [if_neg (show ¬depth = 0 by omega), if_neg (show ¬findPathsMaxDepth < depth from not_lt.mpr hmax)]
    by_cases hab : a = b
    · have hcap : ∃ n, pathsCap maxResults = n + 1 := by
        refine Nat.exists_eq_succ_of_ne_zero ?_
        unfold pathsCap findPathsMaxLimit
        omega
      obtain ⟨n, hn⟩ := hcap
      rw [if_pos hab, if_pos hab, hn, List.take_succ_cons, List.take_nil]
    · rw [if_neg hab, if_neg hab, run_pathStart hpos hfuel]
      rfl
  refine ⟨max ((walks db sourceId depth).length + 1) ((walks db targetId depth).length + 1),
    allPaths db sourceId targetId depth, allPaths db targetId sourceId depth, fun fuel hfuel => ?_,
    fun path => mem_allPaths, pairwise_allPaths, ?_⟩
  · exact ⟨hruns _ _ _ (le_of_max_le_left hfuel), hruns _ _ _ (le_of_max_le_right hfuel)⟩
  · have hnodup : ∀ {a b}, (allPaths db a b depth).Nodup := fun {a b} =>
      pairwise_allPaths.imp fun hlt heq => absurd (heq ▸ hlt) (lt_irrefl _)
    refine (List.perm_ext_iff_of_nodup hnodup (hnodup.map List.reverse_injective)).mpr fun path => ?_
    rw [mem_allPaths, List.mem_map]
    constructor
    · intro h
      exact ⟨path.reverse, mem_allPaths.mpr (wanted_reverse.mpr h), List.reverse_reverse path⟩
    · rintro ⟨p, hp, rfl⟩
      exact wanted_reverse.mpr (mem_allPaths.mp hp)

theorem findPaths_roundTrip :
    ∃ enough, ∃ there back : List (List String),
      (∀ fuel, enough ≤ fuel →
        findPaths roundTrip "a" "gone" none (some 3) fuel = some (.ok (there.take (pathsCap (some 3)))) ∧
        findPaths roundTrip "gone" "a" none (some 3) fuel = some (.ok (back.take (pathsCap (some 3))))) ∧
      (∀ path, path ∈ there ↔ Wanted roundTrip "a" "gone" 4 path) ∧
      there.Pairwise (fun p q => pathKey p < pathKey q) ∧
      back.Perm (there.map List.reverse) :=
  findPaths_lists_paths roundTrip "a" "gone" none (some 3) (by decide) (by decide)

/-- Two links one way and one back are one hop. -/
example : findPaths roundTrip "a" "gone" none none 9 = some (.ok [["a", "b", "gone"]]) := by decide +kernel

end Kg

end AiMemory
