import AiMemory.Kg.Paths

/-!
# The knowledge graph query of the Postgres store

`kg_query_cte` of `store/postgres.rs` on the same tables as `kg_query`. Its rows carry the path as a text, and a link is
left out when the id of its target, next to a separator, occurs anywhere in that text. That is so of every id of the
path, but an id may also occur inside another one, or across two.

The results are compared as sets of hits: target, relation, depth and the ids of the path. A row of the recursive table
has these ids beside the text that joins them.
-/

namespace AiMemory

open Relational Recursion Walks

structure KgQueryRow where
  targetId : String
  relation : String
  depth : ℕ
  path : String
  deriving DecidableEq

namespace Kg

/-! ## The statement -/

/-- A row of the recursive table, with the ids that its path joins. -/
structure CteRow where
  targetId : String
  relation : String
  depth : ℕ
  path : String
  ids : List String
  deriving DecidableEq

/-- `position(sub IN s) = 0`. -/
def absent (sub s : String) : Bool := ¬sub.toList <:+: s.toList

def offPath (id path : String) : Bool := absent ("->" ++ id) path && absent (id ++ "->") path

def cteAnchor (db : Db) (sourceId : String) : List CteRow :=
  (db.links.rows.filter fun ml => ml.sourceId = sourceId).map fun ml =>
    ⟨ml.targetId, ml.relation, 1, ml.sourceId ++ "->" ++ ml.targetId, [ml.sourceId, ml.targetId]⟩

def cteExtend (db : Db) (maxDepth : ℕ) (t : CteRow) : List CteRow :=
  (db.links.rows.filter fun ml => ml.sourceId = t.targetId ∧ t.depth < maxDepth ∧ offPath ml.targetId t.path).map
    fun ml => ⟨ml.targetId, ml.relation, t.depth + 1, t.path ++ "->" ++ ml.targetId, t.ids ++ [ml.targetId]⟩

def toKgQueryRow (t : CteRow) : KgQueryRow := ⟨t.targetId, t.relation, t.depth, t.path⟩

/-- `ORDER BY depth ASC, target_id ASC`. -/
def CteRow.sortKey (t : CteRow) : ℕ ×ₗ String := toLex (t.depth, t.targetId)

/-- `kg_query_cte`, with the ids of the paths. The query may take `fuel` rows from its queue. -/
def kgQueryCteRows (db : Db) (sourceId : String) (maxDepth fuel : ℕ) : Option (Except String (List CteRow)) :=
  if maxDepth = 0 then some (.error "max_depth must be >= 1")
  else if kgQueryMaxSupportedDepth < maxDepth then
    some (.error s!"max_depth={maxDepth} exceeds supported depth={kgQueryMaxSupportedDepth}")
  else
    (run (cteExtend db maxDepth) fuel (cteAnchor db sourceId)).map fun rows =>
      .ok (rows.mergeSort fun a b => a.sortKey ≤ b.sortKey)

def kgQueryCte (db : Db) (sourceId : String) (maxDepth fuel : ℕ) : Option (Except String (List KgQueryRow)) :=
  (kgQueryCteRows db sourceId maxDepth fuel).map (·.map (·.map toKgQueryRow))

/-! ## The query of SQLite, with the ids of the paths -/

/-- The rows that the outer `SELECT` turns into nodes. -/
def selectRows (sql : KgSql) (db : Db) (traversal : List Traversal) : List (Traversal × MemoryRow) :=
  ((traversal.filterMap (joinTarget db)).mergeSort fun a b => a.1.sortKey ≤ b.1.sortKey).take
    ((intAt sql.binds sql.limitPh).getD 0)

/-- `kg_query` without filters, before its rows become nodes. -/
def kgQueryRows (db : Db) (sourceId : String) (maxDepth : ℕ) (limit : Option ℕ) (fuel : ℕ) :
    Option (Except String (List (Traversal × MemoryRow))) :=
  if maxDepth = 0 then some (.error "max_depth must be >= 1")
  else if kgQueryMaxSupportedDepth < maxDepth then
    some (.error s!"max_depth={maxDepth} exceeds supported depth={kgQueryMaxSupportedDepth}")
  else
    let sql := prepare sourceId maxDepth none none (cap limit)
    (run (sql.extend db) fuel (sql.anchor db)).map fun traversal => .ok (selectRows sql db traversal)

theorem kgQuery_eq_rows (db : Db) (sourceId : String) (maxDepth : ℕ) (limit : Option ℕ) (fuel : ℕ) :
    kgQuery db sourceId maxDepth none none limit fuel =
      (kgQueryRows db sourceId maxDepth limit fuel).map (·.map (·.map fun x => toNode x.1 x.2)) := by
  unfold kgQuery kgQueryRows
  split_ifs with hzero hdepth hagents
  · rfl
  · rfl
  · cases hagents
  · simp only [Option.map_map]
    rfl

/-! ## Hits -/

/-- What both results say of a path. -/
structure Hit where
  targetId : String
  relation : String
  depth : ℕ
  ids : List String
  deriving DecidableEq

def Traversal.hit (t : Traversal) : Hit := ⟨t.targetId, t.relation, t.depth, t.path⟩

def CteRow.hit (t : CteRow) : Hit := ⟨t.targetId, t.relation, t.depth, t.ids⟩

def idsOf (sourceId : String) (ls : List LinkRow) : List String := sourceId :: ls.map fun l => l.targetId

/-- No id from the third on occurs, next to a separator, in the text of those before it. -/
def Unmixed (ids : List String) : Prop :=
  ∀ before id, before ++ [id] <+: ids → 2 ≤ before.length → offPath id ("->".intercalate before) = true

/-! ## Paths as texts -/

section Text

variable {ids : List String} {id : String}

theorem intercalate_concat (h : ids ≠ []) : "->".intercalate (ids ++ [id]) = "->".intercalate ids ++ "->" ++ id := by
  rw [String.intercalate_append_of_ne_nil h (List.cons_ne_nil id []), String.intercalate_singleton]

theorem not_offPath_of_mem (hmem : id ∈ ids) (hlen : 2 ≤ ids.length) :
    offPath id ("->".intercalate ids) = false := by
  obtain ⟨a, b, rfl⟩ := List.append_of_mem hmem
  rw [offPath, Bool.and_eq_false_iff]
  by_cases ha : a = []
  · subst ha
    have hb : b ≠ [] := by
      rintro rfl
      simp at hlen
    right
    rw [absent, decide_eq_false_iff_not, not_not, List.nil_append, String.intercalate_cons_of_ne_nil hb]
    exact ⟨[], ("->".intercalate b).toList, by simp⟩
  · have hfront : ∃ t, "->".intercalate (id :: b) = id ++ t := by
      by_cases hb : b = []
      · exact ⟨"", by rw [hb, String.intercalate_singleton, String.append_empty]⟩
      · exact ⟨"->" ++ "->".intercalate b, by rw [String.intercalate_cons_of_ne_nil hb, String.append_assoc]⟩
    obtain ⟨t, ht⟩ := hfront
    left
    rw [absent, decide_eq_false_iff_not, not_not, String.intercalate_append_of_ne_nil ha (List.cons_ne_nil id b), ht]
    exact ⟨("->".intercalate a).toList, t.toList, by simp⟩

theorem unmixed_pair {s t : String} : Unmixed [s, t] := by
  intro before id hprefix hlen
  have := hprefix.length_le
  simp only [List.length_append, List.length_cons, List.length_nil] at this
  omega

theorem unmixed_concat (hlen : 2 ≤ ids.length) :
    Unmixed (ids ++ [id]) ↔ Unmixed ids ∧ offPath id ("->".intercalate ids) = true := by
  constructor
  · exact fun h => ⟨fun before x hx => h before x (hx.trans (List.prefix_append ids [id])),
      h ids id (List.prefix_refl _) hlen⟩
  · rintro ⟨h, hlast⟩ before x hx hbefore
    rcases List.prefix_concat_iff.mp hx with heq | hx
    · obtain ⟨rfl, hxid⟩ := List.append_inj' heq rfl
      cases hxid
      exact hlast
    · exact h before x hx hbefore

end Text

/-! ## The recursive table -/

section Table

variable {db : Db} {sourceId : String} {maxDepth cap : ℕ} {t u : Trail LinkRow}

def cteRowOf (sourceId : String) (t : Trail LinkRow) : CteRow :=
  ⟨t.last.targetId, t.last.relation, t.edges.length, "->".intercalate (idsOf sourceId t.edges), idsOf sourceId t.edges⟩

def offTrail (sourceId : String) (t : Trail LinkRow) : Bool :=
  offPath t.last.targetId ("->".intercalate (idsOf sourceId t.before))

theorem idsOf_extend {l : LinkRow} : idsOf sourceId (t.extend l).edges = idsOf sourceId t.edges ++ [l.targetId] := by
  simp [idsOf]

theorem idsOf_ne_nil {ls : List LinkRow} : idsOf sourceId ls ≠ [] := List.cons_ne_nil _ _

theorem two_le_length_idsOf : 2 ≤ (idsOf sourceId t.edges).length := by
  have := t.length_edges_pos
  rw [idsOf, List.length_cons, List.length_map]
  omega

theorem hops_eq : hops db sourceId maxDepth none none cap = db.links.rows := by
  refine List.filter_eq_self.mpr fun l _ => passes_prepare.mpr ⟨?_, ?_, ?_⟩ <;> (intro x hx; cases hx)

theorem cteAnchor_eq : cteAnchor db sourceId =
    (start (fun l => l.sourceId) db.links.rows sourceId).map (cteRowOf sourceId) := by
  unfold cteAnchor start
  rw [List.map_map]
  refine List.map_congr_left fun ml hml => ?_
  have hsrc : ml.sourceId = sourceId := of_decide_eq_true (List.mem_filter.mp hml).2
  rw [hsrc]
  rfl

/-- The recursive member extends the walks by links that pass the tests. -/
theorem cteExtend_eq (t : Trail LinkRow) : cteExtend db maxDepth (cteRowOf sourceId t) =
    ((grow (fun l => l.sourceId) (fun l => l.targetId) db.links.rows sourceId maxDepth t).filter
      (offTrail sourceId)).map (cteRowOf sourceId) := by
  unfold cteExtend grow
  split_ifs with hdepth
  · rw [List.filter_map, List.filter_filter, List.map_map]
    have hfilter : ∀ ml ∈ db.links.rows,
        decide (ml.sourceId = (cteRowOf sourceId t).targetId ∧ (cteRowOf sourceId t).depth < maxDepth ∧
          offPath ml.targetId (cteRowOf sourceId t).path) =
        ((offTrail sourceId ∘ t.extend) ml &&
          decide (ml.sourceId = t.last.targetId ∧ ml.targetId ∉ sourceId :: t.edges.map fun l => l.targetId)) := by
      intro ml _
      have hoff : (offTrail sourceId ∘ t.extend) ml = offPath ml.targetId (cteRowOf sourceId t).path := rfl
      rw [hoff]
      cases hpass : offPath ml.targetId (cteRowOf sourceId t).path with
      | false => simp
      | true =>
        have hnew : ml.targetId ∉ idsOf sourceId t.edges := fun hmem => by
          have hfound := not_offPath_of_mem hmem two_le_length_idsOf
          rw [show offPath ml.targetId ("->".intercalate (idsOf sourceId t.edges)) = true from hpass] at hfound
          cases hfound
        simp only [and_true, Bool.true_and]
        refine decide_eq_decide.mpr (and_congr_right fun _ => iff_of_true hdepth hnew)
    rw [List.filter_congr hfilter]
    refine List.map_congr_left fun ml _ => ?_
    show _ = cteRowOf sourceId (t.extend ml)
    have hids : idsOf sourceId (t.extend ml).edges = idsOf sourceId t.edges ++ [ml.targetId] := idsOf_extend
    have hlength : (t.extend ml).edges.length = t.edges.length + 1 := by
      rw [Trail.edges_extend, List.length_append, List.length_singleton]
    unfold cteRowOf
    rw [hids, hlength, intercalate_concat idsOf_ne_nil, Trail.last_extend]
  · rw [List.filter_nil, List.map_nil, List.map_eq_nil_iff, List.filter_eq_nil_iff]
    intro ml _ h
    exact hdepth (of_decide_eq_true h).2.1

theorem unmixed_start : ∀ t ∈ start (fun l => l.sourceId) db.links.rows sourceId, Unmixed (idsOf sourceId t.edges) := by
  intro t ht
  obtain ⟨l, -, -, rfl⟩ := mem_start.mp ht
  exact unmixed_pair

theorem unmixed_grow (t : Trail LinkRow) :
    ∀ u ∈ grow (fun l => l.sourceId) (fun l => l.targetId) db.links.rows sourceId maxDepth t,
      (Unmixed (idsOf sourceId u.edges) ↔ Unmixed (idsOf sourceId t.edges) ∧ offTrail sourceId u = true) := by
  intro u hu
  obtain ⟨-, l, -, -, rfl⟩ := mem_grow.mp hu
  rw [idsOf_extend]
  exact unmixed_concat two_le_length_idsOf

def cteTrails (db : Db) (sourceId : String) (maxDepth : ℕ) : List (Trail LinkRow) :=
  levels (fun t => (grow (fun l => l.sourceId) (fun l => l.targetId) db.links.rows sourceId maxDepth t).filter
    (offTrail sourceId)) maxDepth (start (fun l => l.sourceId) db.links.rows sourceId)

theorem mem_cteTrails : t ∈ cteTrails db sourceId maxDepth ↔
    t ∈ trails db sourceId maxDepth none none cap ∧ Unmixed (idsOf sourceId t.edges) := by
  rw [cteTrails, mem_levels_filter unmixed_start unmixed_grow, trails, hops_eq]

variable (hlinks : ∀ l ∈ db.links, Accepts (Validate.validateLink l.sourceId l.targetId l.relation))

include hlinks

theorem run_cte (hmax : 1 ≤ maxDepth) {fuel : ℕ} (hfuel : (cteTrails db sourceId maxDepth).length ≤ fuel) :
    run (cteExtend db maxDepth) fuel (cteAnchor db sourceId) =
      some ((cteTrails db sourceId maxDepth).map (cteRowOf sourceId)) := by
  have hloop : ∀ l ∈ db.links.rows, l.sourceId ≠ l.targetId := by
    have hhops : ∀ l ∈ hops db sourceId maxDepth none none 0, l.sourceId ≠ l.targetId := ne_of_mem_hops hlinks
    rwa [hops_eq] at hhops
  have hempty : level (cteExtend db maxDepth) maxDepth (cteAnchor db sourceId) = [] := by
    rw [cteAnchor_eq, level_map cteExtend_eq, List.map_eq_nil_iff, List.eq_nil_iff_forall_not_mem]
    intro t ht
    have hin := ((mem_level_filter unmixed_start unmixed_grow).mp ht).1
    rw [level_grow_eq_nil hloop hmax] at hin
    cases hin
  have hlevels : levels (cteExtend db maxDepth) maxDepth (cteAnchor db sourceId) =
      (cteTrails db sourceId maxDepth).map (cteRowOf sourceId) := by
    rw [cteAnchor_eq, levels_map cteExtend_eq, cteTrails]
  rw [← hlevels]
  refine run_eq_levels hempty ?_
  rwa [hlevels, List.length_map]

end Table

/-! ## The two results -/

section Results

variable {db : Db} {sourceId : String} {maxDepth : ℕ} {ts : List (Trail LinkRow)} {h : Hit}

def arrivedRows (db : Db) (rows : List CteRow) : List CteRow := rows.filter fun t => (db.get t.targetId).isSome

def hitOf (sourceId : String) (t : Trail LinkRow) : Hit :=
  ⟨t.last.targetId, t.last.relation, t.edges.length, idsOf sourceId t.edges⟩

theorem mem_hits_select {sql : KgSql} {cap : ℕ} (hcap : intAt sql.binds sql.limitPh = some cap)
    (hlen : (arrivals db ts).length ≤ cap) :
    h ∈ (selectRows sql db (ts.map (rowOf sourceId))).map (fun x => x.1.hit) ↔
      ∃ t ∈ ts, (db.get t.last.targetId).isSome ∧ hitOf sourceId t = h := by
  have hjoin : ((ts.map (rowOf sourceId)).filterMap (joinTarget db)).length = (arrivals db ts).length := by
    rw [List.filterMap_map, arrivals, List.length_filterMap_eq_countP, List.length_filterMap_eq_countP]
    refine List.countP_congr fun t _ => ?_
    rw [Function.comp_apply, joinTarget, Option.isSome_map, Option.isSome_map]
    rfl
  have hshort : ((((ts.map (rowOf sourceId)).filterMap (joinTarget db)).mergeSort fun a b => a.1.sortKey ≤ b.1.sortKey)).length ≤
      cap := by rwa [List.length_mergeSort, hjoin]
  unfold selectRows
  rw [hcap, Option.getD_some, List.take_of_length_le hshort]
  simp only [List.mem_map, List.mem_mergeSort, List.mem_filterMap, joinTarget, Option.map_eq_some_iff]
  constructor
  · rintro ⟨_, ⟨_, ⟨t, ht, rfl⟩, m, hm, rfl⟩, rfl⟩
    exact ⟨t, ht, Option.isSome_of_mem hm, rfl⟩
  · rintro ⟨t, ht, hpresent, rfl⟩
    obtain ⟨m, hm⟩ := Option.isSome_iff_exists.mp hpresent
    exact ⟨(rowOf sourceId t, m), ⟨rowOf sourceId t, ⟨t, ht, rfl⟩, m, hm, rfl⟩, rfl⟩

theorem mem_hits_arrivedRows {le : CteRow → CteRow → Bool} :
    h ∈ (arrivedRows db ((ts.map (cteRowOf sourceId)).mergeSort le)).map CteRow.hit ↔
      ∃ t ∈ ts, (db.get t.last.targetId).isSome ∧ hitOf sourceId t = h := by
  simp only [arrivedRows, List.mem_map, List.mem_filter, List.mem_mergeSort]
  constructor
  · rintro ⟨_, ⟨⟨t, ht, rfl⟩, hpresent⟩, rfl⟩
    exact ⟨t, ht, hpresent, rfl⟩
  · rintro ⟨t, ht, hpresent, rfl⟩
    exact ⟨cteRowOf sourceId t, ⟨⟨t, ht, rfl⟩, hpresent⟩, rfl⟩

/-- On links that pass `validate_link`, both queries end. If there are no more paths than the limit of SQLite allows, its rows and
those of Postgres are the same hits exactly if no path mixes up its ids. -/
theorem same_hits_iff_unmixed (db : Db) (sourceId : String) (maxDepth : ℕ) (limit : Option ℕ)
    (hlinks : ∀ l ∈ db.links, Accepts (Validate.validateLink l.sourceId l.targetId l.relation))
    (hpos : 1 ≤ maxDepth) (hmax : maxDepth ≤ 5) :
    ∃ enough rows cteRows,
      (∀ fuel, enough ≤ fuel →
        kgQueryRows db sourceId maxDepth limit fuel = some (.ok rows) ∧
        kgQueryCteRows db sourceId maxDepth fuel = some (.ok cteRows)) ∧
      (∀ t ∈ cteRows, t.path = "->".intercalate t.ids) ∧
      (LimitNotReached db sourceId maxDepth none none limit →
        ((∀ h, h ∈ rows.map (fun x => x.1.hit) ↔ h ∈ (arrivedRows db cteRows).map CteRow.hit) ↔
          ∀ ls, Admissible db sourceId maxDepth none none ls → Unmixed (idsOf sourceId ls))) := by
  have hzero : maxDepth ≠ 0 := by omega
  have hdepth : ¬kgQueryMaxSupportedDepth < maxDepth := not_lt.mpr hmax
  let sql := prepare sourceId maxDepth none none (cap limit)
  let ts := trails db sourceId maxDepth none none (cap limit)
  let us := cteTrails db sourceId maxDepth
  refine ⟨max ts.length us.length, selectRows sql db (ts.map (rowOf sourceId)),
    (us.map (cteRowOf sourceId)).mergeSort fun a b => a.sortKey ≤ b.sortKey, fun fuel hfuel => ⟨?_, ?_⟩, ?_,
    fun hlimit => ?_⟩
  · rw [kgQueryRows, if_neg hzero, if_neg hdepth]
    simp only
    rw [run_prepare hlinks hpos ((le_max_left _ _).trans hfuel)]
    rfl
  · rw [kgQueryCteRows, if_neg hzero, if_neg hdepth, run_cte hlinks hpos ((le_max_right _ _).trans hfuel)]
    rfl
  · intro t ht
    obtain ⟨u, -, rfl⟩ := List.mem_map.mp (List.mem_mergeSort.mp ht)
    rfl
  · have hus : ∀ t, t ∈ us ↔ t ∈ ts ∧ Unmixed (idsOf sourceId t.edges) := fun t => mem_cteTrails
    have hrows : ∀ h, h ∈ (selectRows sql db (ts.map (rowOf sourceId))).map (fun x => x.1.hit) ↔
        ∃ t ∈ ts, (db.get t.last.targetId).isSome ∧ hitOf sourceId t = h := fun h =>
      mem_hits_select intAt_limitPh (length_arrivals_le (cap limit) hlinks hlimit)
    simp only [hrows, mem_hits_arrivedRows]
    constructor
    · intro hsame ls hls
      obtain ⟨t, ht, hpresent, rfl⟩ := (admissible_iff hlinks).mp hls
      obtain ⟨u, hu, -, hhit⟩ := (hsame (hitOf sourceId t)).mp ⟨t, ht, hpresent, rfl⟩
      have hids : idsOf sourceId u.edges = idsOf sourceId t.edges := congrArg Hit.ids hhit
      exact hids ▸ ((hus u).mp hu).2
    · intro hunmixed h
      refine exists_congr fun t => and_congr_left fun ⟨hpresent, _⟩ => ?_
      have hiff := hus t
      refine ⟨fun ht => hiff.mpr ⟨ht, ?_⟩, fun ht => (hiff.mp ht).1⟩
      exact hunmixed t.edges ((admissible_iff hlinks).mpr ⟨t, ht, hpresent, rfl⟩)

end Results

theorem same_hits_roundTrip :
    LimitNotReached roundTrip "a" 3 none none none ∧ ∃ enough rows cteRows,
      (∀ fuel, enough ≤ fuel →
        kgQueryRows roundTrip "a" 3 none fuel = some (.ok rows) ∧
        kgQueryCteRows roundTrip "a" 3 fuel = some (.ok cteRows)) ∧
      (∀ t ∈ cteRows, t.path = "->".intercalate t.ids) ∧
      ((∀ h, h ∈ rows.map (fun x => x.1.hit) ↔ h ∈ (arrivedRows roundTrip cteRows).map CteRow.hit) ↔
        ∀ ls, Admissible roundTrip "a" 3 none none ls → Unmixed (idsOf "a" ls)) := by
  obtain ⟨enough, rows, cteRows, hends, htexts, hsame⟩ :=
    same_hits_iff_unmixed roundTrip "a" 3 none (by decide) (by decide) (by decide)
  exact ⟨limitNotReached_roundTrip, enough, rows, cteRows, hends, htexts, hsame limitNotReached_roundTrip⟩

/-- A chain of three memories. The id of the last one begins that of the one before. -/
def nestedIds : Db :=
  { Db.empty with
    memories := ⟨⟨[(Db.standardMemory "b1" "x" (.obj [])).toRow, (Db.standardMemory "b" "y" (.obj [])).toRow],
      by decide⟩, by decide⟩
    links := ⟨[linkRow "a" "b1" "related_to", linkRow "b1" "b" "related_to"], by decide⟩ }

/-- The last link is lost on Postgres. -/
theorem nestedIds_lost :
    (∀ l ∈ nestedIds.links, Accepts (Validate.validateLink l.sourceId l.targetId l.relation)) ∧
    ∃ rows cteRows,
      kgQueryRows nestedIds "a" 2 none 3 = some (.ok rows) ∧
      kgQueryCteRows nestedIds "a" 2 3 = some (.ok cteRows) ∧
      rows.length < cap none ∧
      ⟨"b", "related_to", 2, ["a", "b1", "b"]⟩ ∈ rows.map (fun x => x.1.hit) ∧
      ⟨"b", "related_to", 2, ["a", "b1", "b"]⟩ ∉ (arrivedRows nestedIds cteRows).map CteRow.hit := by
  refine ⟨by decide, _, _, rfl, rfl, ?_, ?_, ?_⟩
  · rw [selectRows, List.length_take, List.length_mergeSort]
    decide
  · rw [selectRows, List.mergeSort_of_pairwise (by decide)]
    decide
  · rw [arrivedRows, List.mergeSort_of_pairwise (by decide)]
    decide

end Kg

end AiMemory
