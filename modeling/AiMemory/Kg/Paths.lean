import AiMemory.Db.Chain
import AiMemory.Kg.Query
import AiMemory.Lib.Walks

/-!
# What the knowledge graph query finds

A row of the recursive table stands for a walk along the links that pass (`rowOf`), and the two members of the query do
to rows what `start` and `grow` do to walks. So the recursive table holds each simple walk of the source once, level by
level, and the query ends at the level of `max_depth`. `lists_paths_iff` says when it can run at all: each allowed agent is a bound
value of its own, and SQLite binds no more than its limit.
-/

namespace AiMemory

open Relational Recursion Walks Trail Validate

namespace Kg

/-! ## What it is asked for -/

/-- A path the query is asked for: links that pass, from the source, over no memory twice, to a memory that is there. -/
structure Admissible (db : Db) (sourceId : String) (maxDepth : ℕ) (validAt : Option String)
    (allowedAgents : Option (List String)) (ls : List LinkRow) : Prop where
  nonempty : ls ≠ []
  short : ls.length ≤ maxDepth
  stored : ∀ l ∈ ls, l ∈ db.links
  passes : ∀ l ∈ ls, Passes validAt allowedAgents l
  simple : Simple (fun l => l.sourceId) (fun l => l.targetId) sourceId ls
  present : ∀ l ∈ ls.getLast?, (db.get l.targetId).isSome

/-- The limit is not reached: there are no more such paths than rows that the query may return. -/
def LimitNotReached (db : Db) (sourceId : String) (maxDepth : ℕ) (validAt : Option String) (allowedAgents : Option (List String))
    (limit : Option ℕ) : Prop :=
  ∀ paths : List (List LinkRow), paths.Nodup → (∀ ls ∈ paths, Admissible db sourceId maxDepth validAt allowedAgents ls) →
    paths.length ≤ cap limit

/-- The row says what the path is. -/
structure Describes (db : Db) (sourceId : String) (ls : List LinkRow) (n : KgQueryNode) : Prop where
  depth : n.depth = ls.length
  path : n.path = "->".intercalate (sourceId :: ls.map fun l => l.targetId)
  target : ∃ l ∈ ls.getLast?, ∃ m ∈ db.get l.targetId, n.targetId = l.targetId ∧ n.relation = l.relation ∧
    n.validFrom = l.validFrom ∧ n.validUntil = l.validUntil ∧ n.observedBy = l.observedBy ∧
    n.title = m.title ∧ n.targetNamespace = m.ns

/-- The query ends, and its rows are the admissible paths, each of them once. -/
def ListsPaths (db : Db) (sourceId : String) (maxDepth : ℕ) (validAt : Option String) (allowedAgents : Option (List String))
    (limit : Option ℕ) : Prop :=
  ∃ enough rows,
    (∀ fuel, enough ≤ fuel → kgQuery db sourceId maxDepth validAt allowedAgents limit fuel = some (.ok rows)) ∧
    ∃ paths : List (List LinkRow), paths.Nodup ∧
      (∀ ls, ls ∈ paths ↔ Admissible db sourceId maxDepth validAt allowedAgents ls) ∧
      List.Forall₂ (Describes db sourceId) paths rows

/-- SQLite can bind the agents, with the other values of the statement. -/
def Bindable (validAt : Option String) (allowedAgents : Option (List String)) : Prop :=
  (allowedAgents.getD []).length + (if validAt.isSome then 2 else 0) + 3 ≤ sqliteVariableLimit

instance (validAt : Option String) (allowedAgents : Option (List String)) : Decidable (Bindable validAt allowedAgents) :=
  inferInstanceAs (Decidable (_ ≤ _))

/-! ## The recursive table -/

def rowOf (sourceId : String) (t : Trail LinkRow) : Traversal :=
  row t.last t.edges.length (sourceId :: t.edges.map fun l => l.targetId)

section Table

variable (db : Db) (sourceId : String) (maxDepth : ℕ) (validAt : Option String) (allowedAgents : Option (List String))
  (cap : ℕ)

def hops : List LinkRow := db.links.rows.filter (prepare sourceId maxDepth validAt allowedAgents cap).passes

def trails : List (Trail LinkRow) :=
  let edges := hops db sourceId maxDepth validAt allowedAgents cap
  levels (grow (fun l => l.sourceId) (fun l => l.targetId) edges sourceId maxDepth) maxDepth
    (start (fun l => l.sourceId) edges sourceId)

variable {db sourceId maxDepth validAt allowedAgents cap}

theorem mem_hops {l : LinkRow} :
    l ∈ hops db sourceId maxDepth validAt allowedAgents cap ↔ l ∈ db.links ∧ Passes validAt allowedAgents l := by
  rw [hops, List.mem_filter, passes_prepare]
  rfl

theorem nodup_hops : (hops db sourceId maxDepth validAt allowedAgents cap).Nodup :=
  (List.Nodup.of_map _ db.links.nodup).filter _

theorem anchor_eq : (prepare sourceId maxDepth validAt allowedAgents cap).anchor db =
    (start (fun l => l.sourceId) (hops db sourceId maxDepth validAt allowedAgents cap) sourceId).map
      (rowOf sourceId) := by
  unfold KgSql.anchor start hops
  rw [textAt_sourcePh, List.filter_filter, List.map_map]
  have hfilter : ∀ ml ∈ db.links.rows,
      decide (some sourceId = some ml.sourceId ∧ (prepare sourceId maxDepth validAt allowedAgents cap).passes ml) =
        (decide (ml.sourceId = sourceId) && (prepare sourceId maxDepth validAt allowedAgents cap).passes ml) := by
    intro ml _
    simp only [Option.some_inj, Bool.decide_and, Bool.decide_eq_true, eq_comm (a := sourceId)]
  rw [List.filter_congr hfilter]
  refine List.map_congr_left fun ml hml => ?_
  have hsrc : ml.sourceId = sourceId := by simpa using (Bool.and_eq_true_iff.mp (List.mem_filter.mp hml).2).1
  rw [hsrc]
  rfl

theorem extend_eq (t : Trail LinkRow) :
    (prepare sourceId maxDepth validAt allowedAgents cap).extend db (rowOf sourceId t) =
      (grow (fun l => l.sourceId) (fun l => l.targetId) (hops db sourceId maxDepth validAt allowedAgents cap) sourceId
        maxDepth t).map (rowOf sourceId) := by
  unfold KgSql.extend grow hops
  rw [intAt_maxDepthPh]
  split_ifs with hdepth
  · rw [List.filter_filter, List.map_map]
    have hfilter : ∀ ml ∈ db.links.rows,
        decide (ml.sourceId = (rowOf sourceId t).targetId ∧
          ((some maxDepth).any (fun n => decide ((rowOf sourceId t).depth < n)) ∧
            ml.targetId ∉ (rowOf sourceId t).path ∧
            (prepare sourceId maxDepth validAt allowedAgents cap).passes ml)) =
        (decide (ml.sourceId = t.last.targetId ∧ ml.targetId ∉ sourceId :: t.edges.map fun l => l.targetId) &&
          (prepare sourceId maxDepth validAt allowedAgents cap).passes ml) := by
      intro ml _
      simp [rowOf, row, hdepth, Bool.and_assoc]
    rw [List.filter_congr hfilter]
    refine List.map_congr_left fun ml _ => ?_
    simp [rowOf, row]
  · rw [List.map_nil, List.map_eq_nil_iff, List.filter_eq_nil_iff]
    intro ml _
    simp [rowOf, row, hdepth]

variable (hlinks : ∀ l ∈ db.links, Accepts (validateLink l.sourceId l.targetId l.relation))

include hlinks

/-- A link that passes `validate_link` joins two memories. -/
theorem ne_of_mem_hops : ∀ l ∈ hops db sourceId maxDepth validAt allowedAgents cap, l.sourceId ≠ l.targetId := by
  intro l hl
  have hvalid := hlinks l (mem_hops.mp hl).1
  simp only [validateLink, accepts_bind, accepts_bailIf, decide_eq_false_iff_not] at hvalid
  exact hvalid.2.2.2

theorem run_prepare (hmax : 1 ≤ maxDepth) {fuel : ℕ}
    (hfuel : (trails db sourceId maxDepth validAt allowedAgents cap).length ≤ fuel) :
    run ((prepare sourceId maxDepth validAt allowedAgents cap).extend db) fuel
        ((prepare sourceId maxDepth validAt allowedAgents cap).anchor db) =
      some ((trails db sourceId maxDepth validAt allowedAgents cap).map (rowOf sourceId)) := by
  have hempty : level ((prepare sourceId maxDepth validAt allowedAgents cap).extend db) maxDepth
      ((prepare sourceId maxDepth validAt allowedAgents cap).anchor db) = [] := by
    rw [anchor_eq, level_map extend_eq, level_grow_eq_nil (ne_of_mem_hops hlinks) hmax, List.map_nil]
  have hlevels : levels ((prepare sourceId maxDepth validAt allowedAgents cap).extend db) maxDepth
      ((prepare sourceId maxDepth validAt allowedAgents cap).anchor db) =
        (trails db sourceId maxDepth validAt allowedAgents cap).map (rowOf sourceId) := by
    rw [anchor_eq, levels_map extend_eq, trails]
  rw [← hlevels]
  refine run_eq_levels hempty ?_
  rwa [hlevels, List.length_map]

theorem mem_trails {t : Trail LinkRow} : t ∈ trails db sourceId maxDepth validAt allowedAgents cap ↔
    Simple (fun l => l.sourceId) (fun l => l.targetId) sourceId t.edges ∧
      (∀ l ∈ t.edges, l ∈ db.links ∧ Passes validAt allowedAgents l) ∧ t.edges.length ≤ maxDepth := by
  rw [trails, mem_levels_grow (ne_of_mem_hops hlinks)]
  simp only [List.subset_def, mem_hops]

theorem nodup_trails : (trails db sourceId maxDepth validAt allowedAgents cap).Nodup :=
  nodup_levels_grow (ne_of_mem_hops hlinks) nodup_hops

theorem admissible_iff {ls : List LinkRow} : Admissible db sourceId maxDepth validAt allowedAgents ls ↔
    ∃ t ∈ trails db sourceId maxDepth validAt allowedAgents cap, (db.get t.last.targetId).isSome ∧ t.edges = ls := by
  constructor
  · rintro ⟨hne, hshort, hstored, hpasses, hsimple, hpresent⟩
    obtain ⟨t, rfl⟩ := exists_edges_eq hne
    refine ⟨t, (mem_trails hlinks).mpr ⟨hsimple, fun l hl => ⟨hstored l hl, hpasses l hl⟩, hshort⟩, ?_, rfl⟩
    exact hpresent t.last (by rw [getLast?_edges]; rfl)
  · rintro ⟨t, ht, hpresent, rfl⟩
    obtain ⟨hsimple, hlinks, hshort⟩ := (mem_trails hlinks).mp ht
    refine ⟨edges_ne_nil, hshort, fun l hl => (hlinks l hl).1, fun l hl => (hlinks l hl).2, hsimple, ?_⟩
    intro l hl
    rw [getLast?_edges] at hl
    cases hl
    exact hpresent

end Table

/-! ## The outer query -/

section Select

variable {db : Db} {sourceId : String} {sql : KgSql} {ts : List (Trail LinkRow)}

def arrivals (db : Db) (ts : List (Trail LinkRow)) : List (Trail LinkRow × MemoryRow) :=
  ts.filterMap fun t => (db.get t.last.targetId).map fun m => (t, m)

theorem mem_arrivals {t : Trail LinkRow} {m : MemoryRow} :
    (t, m) ∈ arrivals db ts ↔ t ∈ ts ∧ db.get t.last.targetId = some m := by
  simp [arrivals, List.mem_filterMap]

theorem map_fst_arrivals : (arrivals db ts).map Prod.fst = ts.filter fun t => (db.get t.last.targetId).isSome := by
  induction ts with
  | nil => rfl
  | cons t ts ih =>
    unfold arrivals at ih ⊢
    cases h : db.get t.last.targetId with
    | none => rw [List.filterMap_cons, List.filter_cons, h]; exact ih
    | some m => rw [List.filterMap_cons, List.filter_cons, h]; exact congrArg (t :: ·) ih

theorem select_eq (sourceId : String) {cap : ℕ} (hcap : intAt sql.binds sql.limitPh = some cap) (hlen : (arrivals db ts).length ≤ cap) :
    ∃ found : List (Trail LinkRow × MemoryRow), found.Perm (arrivals db ts) ∧
      select sql db (ts.map (rowOf sourceId)) = found.map fun x => toNode (rowOf sourceId x.1) x.2 := by
  let le : Traversal × MemoryRow → Traversal × MemoryRow → Bool := fun a b => a.1.sortKey ≤ b.1.sortKey
  let f : Trail LinkRow × MemoryRow → Traversal × MemoryRow := fun x => (rowOf sourceId x.1, x.2)
  have hjoin : (ts.map (rowOf sourceId)).filterMap (joinTarget db) = (arrivals db ts).map f := by
    rw [List.filterMap_map, arrivals, List.map_filterMap]
    refine congrArg (ts.filterMap ·) (funext fun t => ?_)
    rw [Function.comp_apply, Option.map_map]
    rfl
  have hsort : ((arrivals db ts).mergeSort fun a b => le (f a) (f b)).map f = ((arrivals db ts).map f).mergeSort le := by
    refine List.map_mergeSort fun a _ b _ => ?_
    rfl
  unfold select
  rw [hcap, hjoin, Option.getD_some]
  have hshort : (((arrivals db ts).map f).mergeSort le).length ≤ cap := by
    rwa [List.length_mergeSort, List.length_map]
  refine ⟨(arrivals db ts).mergeSort fun a b => le (f a) (f b), List.mergeSort_perm _ _, ?_⟩
  show ((((arrivals db ts).map f).mergeSort le).take cap).map (fun x => toNode x.1 x.2) = _
  rw [List.take_of_length_le hshort, ← hsort, List.map_map]
  rfl

end Select

section Result

variable {db : Db} {sourceId : String} {maxDepth : ℕ} {validAt : Option String} {allowedAgents : Option (List String)}

theorem describes_toNode {t : Trail LinkRow} {m : MemoryRow} (hm : db.get t.last.targetId = some m) :
    Describes db sourceId t.edges (toNode (rowOf sourceId t) m) := by
  refine ⟨rfl, rfl, t.last, ?_, m, hm, rfl, rfl, rfl, rfl, rfl, rfl, rfl⟩
  rw [getLast?_edges]
  rfl

theorem not_admissible_of_no_agents {ls : List LinkRow} (h : Admissible db sourceId maxDepth validAt (some []) ls) :
    False := by
  obtain ⟨l, hl⟩ := List.exists_mem_of_ne_nil ls h.nonempty
  obtain ⟨agent, -, hagent⟩ := (h.passes l hl).trusted [] rfl
  cases hagent

variable {limit : Option ℕ}

theorem length_arrivals_le (cap' : ℕ)
    (hlinks : ∀ l ∈ db.links, Accepts (validateLink l.sourceId l.targetId l.relation))
    (hlimit : LimitNotReached db sourceId maxDepth validAt allowedAgents limit) :
    (arrivals db (trails db sourceId maxDepth validAt allowedAgents cap')).length ≤ cap limit := by
  let present := (trails db sourceId maxDepth validAt allowedAgents cap').filter fun t => (db.get t.last.targetId).isSome
  have hnodup : (present.map edges).Nodup := ((nodup_trails hlinks).filter _).map edges_injective
  have hlen := hlimit (present.map edges) hnodup fun ls hls => by
    obtain ⟨t, ht, rfl⟩ := List.mem_map.mp hls
    obtain ⟨ht, hpresent⟩ := List.mem_filter.mp ht
    exact (admissible_iff hlinks).mpr ⟨t, ht, hpresent, rfl⟩
  have hfst : (arrivals db (trails db sourceId maxDepth validAt allowedAgents cap')).map Prod.fst = present := map_fst_arrivals
  rwa [List.length_map, ← hfst, List.length_map] at hlen

theorem LimitNotReached.filtered (h : LimitNotReached db sourceId maxDepth none none limit) :
    LimitNotReached db sourceId maxDepth validAt allowedAgents limit :=
  fun paths hnodup hpaths => h paths hnodup fun ls hls =>
    { hpaths ls hls with passes := fun _ _ => ⟨nofun, nofun, nofun⟩ }

theorem limitNotReached_of_trails (cap' : ℕ)
    (hlinks : ∀ l ∈ db.links, Accepts (validateLink l.sourceId l.targetId l.relation))
    (hlen : (trails db sourceId maxDepth validAt allowedAgents cap').length ≤ cap limit) :
    LimitNotReached db sourceId maxDepth validAt allowedAgents limit := by
  intro paths hnodup hpaths
  have hsub : paths ⊆ (trails db sourceId maxDepth validAt allowedAgents cap').map edges := by
    intro ls hls
    obtain ⟨t, ht, -, rfl⟩ := (admissible_iff hlinks).mp (hpaths ls hls)
    exact List.mem_map_of_mem ht
  calc paths.length ≤ ((trails db sourceId maxDepth validAt allowedAgents cap').map edges).length :=
        (hnodup.subperm hsub).length_le
    _ ≤ cap limit := by rwa [List.length_map]

theorem kgQuery_of_not_bindable (db : Db) (sourceId : String) (limit : Option ℕ) (hpos : 1 ≤ maxDepth) (hmax : maxDepth ≤ 5)
    (hbind : ¬Bindable validAt allowedAgents) (fuel : ℕ) : kgQuery db sourceId maxDepth validAt allowedAgents limit fuel =
      some (.error s!"variable number must be between ?1 and ?{sqliteVariableLimit}") := by
  have hdepth : ¬kgQueryMaxSupportedDepth < maxDepth := not_lt.mpr hmax
  have hagents : allowedAgents ≠ some [] := by
    rintro rfl
    cases validAt <;> exact hbind (by simp [Bindable, sqliteVariableLimit])
  have hover : sqliteVariableLimit < (prepare sourceId maxDepth validAt allowedAgents (cap limit)).binds.length := by
    rw [length_binds]
    exact not_le.mp hbind
  rw [kgQuery, if_neg (Nat.one_le_iff_ne_zero.mp hpos), if_neg hdepth, if_neg hagents]
  exact if_pos hover

theorem kgQuery_of_bindable
    (hlinks : ∀ l ∈ db.links, Accepts (validateLink l.sourceId l.targetId l.relation))
    (hpos : 1 ≤ maxDepth) (hmax : maxDepth ≤ 5) (hagents : allowedAgents ≠ some []) (hbind : Bindable validAt allowedAgents)
    {fuel : ℕ} (hfuel : (trails db sourceId maxDepth validAt allowedAgents (cap limit)).length ≤ fuel) :
    kgQuery db sourceId maxDepth validAt allowedAgents limit fuel =
      some (.ok (select (prepare sourceId maxDepth validAt allowedAgents (cap limit)) db
        ((trails db sourceId maxDepth validAt allowedAgents (cap limit)).map (rowOf sourceId)))) := by
  have hdepth : ¬kgQueryMaxSupportedDepth < maxDepth := not_lt.mpr hmax
  have hfit : ¬sqliteVariableLimit < (prepare sourceId maxDepth validAt allowedAgents (cap limit)).binds.length := by
    rw [length_binds]
    exact not_lt.mpr hbind
  rw [kgQuery, if_neg (Nat.one_le_iff_ne_zero.mp hpos), if_neg hdepth, if_neg hagents]
  rw [if_neg hfit, run_prepare hlinks hpos hfuel]
  rfl

/-- On links that pass `validate_link`, where the limit is not reached, the query ends with the admissible paths, each of them once,
exactly if SQLite can bind the agents. -/
theorem lists_paths_iff (db : Db) (sourceId : String) (maxDepth : ℕ) (validAt : Option String)
    (allowedAgents : Option (List String)) (limit : Option ℕ)
    (hlinks : ∀ l ∈ db.links, Accepts (validateLink l.sourceId l.targetId l.relation))
    (hpos : 1 ≤ maxDepth) (hmax : maxDepth ≤ 5)
    (hlimit : LimitNotReached db sourceId maxDepth validAt allowedAgents limit) :
    ListsPaths db sourceId maxDepth validAt allowedAgents limit ↔ Bindable validAt allowedAgents := by
  constructor
  · rintro ⟨enough, rows, hrows, -⟩
    by_contra hbind
    have herror := kgQuery_of_not_bindable db sourceId limit hpos hmax hbind enough
    rw [hrows enough le_rfl] at herror
    cases herror
  · intro hbind
    by_cases hagents : allowedAgents = some []
    · subst hagents
      refine ⟨0, [], fun fuel _ => ?_, [], List.nodup_nil, fun ls => ?_, .nil⟩
      · have hdepth : ¬kgQueryMaxSupportedDepth < maxDepth := not_lt.mpr hmax
        rw [kgQuery, if_neg (Nat.one_le_iff_ne_zero.mp hpos), if_neg hdepth, if_pos rfl]
      · exact iff_of_false List.not_mem_nil not_admissible_of_no_agents
    · let ts := trails db sourceId maxDepth validAt allowedAgents (cap limit)
      refine ⟨ts.length, _, fun fuel hfuel => kgQuery_of_bindable hlinks hpos hmax hagents hbind hfuel, ?_⟩
      obtain ⟨found, hperm, hrows⟩ := select_eq sourceId intAt_limitPh
        (length_arrivals_le (cap limit) hlinks hlimit)
      have hfst : (found.map Prod.fst).Perm (ts.filter fun t => (db.get t.last.targetId).isSome) :=
        map_fst_arrivals ▸ hperm.map Prod.fst
      refine ⟨(found.map Prod.fst).map edges, ?_, fun ls => ?_, ?_⟩
      · have hnodup : (found.map Prod.fst).Nodup := hfst.nodup_iff.mpr ((nodup_trails hlinks).filter _)
        exact hnodup.map edges_injective
      · have hiff : Admissible db sourceId maxDepth validAt allowedAgents ls ↔
            ∃ t ∈ ts, (db.get t.last.targetId).isSome ∧ t.edges = ls := admissible_iff hlinks
        rw [hiff, List.mem_map]
        refine exists_congr fun t => ?_
        rw [hfst.mem_iff, List.mem_filter, and_assoc]
      · rw [hrows, List.map_map, List.forall₂_map_left_iff, List.forall₂_map_right_iff, List.forall₂_same]
        rintro ⟨t, m⟩ hx
        exact describes_toNode (mem_arrivals.mp (hperm.mem_iff.mp hx)).2

end Result

/-- A link between two memories, `related_to` or another relation. -/
def linkRow (sourceId targetId relation : String) : LinkRow where
  sourceId := sourceId
  targetId := targetId
  relation := relation
  createdAt := "2026-01-01T00:00:00+00:00"
  signature := none
  observedBy := none
  validFrom := none
  validUntil := none
  attestLevel := none

/-- Two memories with two links one way and one back, and a link to a memory that is gone. -/
def roundTrip : Db :=
  { Db.empty with
    memories := ⟨⟨[(Db.standardMemory "a" "x" (.obj [])).toRow, (Db.standardMemory "b" "y" (.obj [])).toRow],
      by decide⟩, by decide⟩
    links := ⟨[linkRow "a" "b" "related_to", linkRow "a" "b" "supersedes", linkRow "b" "a" "related_to",
      linkRow "b" "gone" "related_to"], by decide⟩ }

theorem limitNotReached_roundTrip : LimitNotReached roundTrip "a" 3 none none none :=
  limitNotReached_of_trails 0 (by decide) (by decide)

theorem lists_roundTrip : ListsPaths roundTrip "a" 3 none none none :=
  (lists_paths_iff roundTrip "a" 3 none none none (by decide) (by decide) (by decide) limitNotReached_roundTrip).mpr (by decide)

def observed : Db :=
  { roundTrip with links := ⟨[{ linkRow "a" "b" "related_to" with observedBy := some "bob" }], by decide⟩ }

/-- A crowd of agents, all of one name, of whom SQLite cannot bind the last. -/
def crowd : List String := List.replicate 32764 "bob"

/-- With the crowd allowed, the path along bob's link is not found. -/
theorem crowd_refused :
    (∀ l ∈ observed.links, Accepts (validateLink l.sourceId l.targetId l.relation)) ∧
    LimitNotReached observed "a" 1 none (some crowd) none ∧
    Admissible observed "a" 1 none (some crowd) observed.links.rows ∧
    ¬ListsPaths observed "a" 1 none (some crowd) none := by
  have hlinks : ∀ l ∈ observed.links, Accepts (validateLink l.sourceId l.targetId l.relation) := by decide
  have hover : ¬Bindable none (some crowd) := by
    rw [Bindable, Option.getD_some, crowd, List.length_replicate]
    decide
  refine ⟨hlinks, (limitNotReached_of_trails 0 hlinks (by decide)).filtered, ?_, ?_⟩
  · refine ⟨by decide, by decide, fun _ h => h, fun l hl => ⟨nofun, nofun, ?_⟩, ⟨by decide, .singleton _, by decide⟩, by decide⟩
    rintro agents ⟨⟩
    rw [List.mem_singleton.mp hl]
    exact ⟨"bob", rfl, List.mem_replicate.mpr ⟨by decide, rfl⟩⟩
  · rintro ⟨enough, rows, hrows, -⟩
    have hpos : 1 ≤ 1 := le_rfl
    have herror := kgQuery_of_not_bindable observed "a" none hpos (by decide) hover enough
    rw [hrows enough le_rfl] at herror
    cases herror

end Kg

end AiMemory
