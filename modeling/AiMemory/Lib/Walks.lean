import AiMemory.Lib.Recursion
import Mathlib.Data.List.Chain
import Mathlib.Data.List.Nodup

/-!
# Simple walks in a multigraph

A graph is a list of edges with two ends, `src` and `tgt`; several edges may join the same vertices. A walk is a list of
edges, `Simple` if it visits no vertex twice, the one it starts at included.

`grow` extends a walk by one edge to a vertex it has not visited, up to `max` edges. As the recursive member of a query
that starts with the edges that leave `v`, it lists the simple walks from `v` of one to `max` edges, each of them once
(`mem_levels_grow`, `nodup_levels_grow`), and its level `max` is empty (`level_grow_eq_nil`).
-/

namespace Walks

open Recursion

variable {ν ε : Type*}

/-- A walk from `v` that visits no vertex twice. -/
structure Simple (src tgt : ε → ν) (v : ν) (es : List ε) : Prop where
  starts : ∀ e ∈ es.head?, src e = v
  joined : es.IsChain fun a b => src b = tgt a
  distinct : (v :: es.map tgt).Nodup

/-- A walk of one edge or more, by its last edge and those before it. -/
@[ext] structure Trail (ε : Type*) where
  before : List ε
  last : ε

namespace Trail

def edges (t : Trail ε) : List ε := t.before ++ [t.last]

def single (e : ε) : Trail ε := ⟨[], e⟩

def extend (t : Trail ε) (e : ε) : Trail ε := ⟨t.edges, e⟩

variable {t u : Trail ε} {e f : ε}

@[simp] theorem edges_single : (single e).edges = [e] := rfl

@[simp] theorem last_single : (single e).last = e := rfl

@[simp] theorem edges_extend : (t.extend e).edges = t.edges ++ [e] := rfl

@[simp] theorem last_extend : (t.extend e).last = e := rfl

theorem edges_ne_nil : t.edges ≠ [] := by simp [edges]

@[simp] theorem getLast?_edges : t.edges.getLast? = some t.last := by simp [edges]

theorem length_edges_pos : 0 < t.edges.length := List.length_pos_iff.mpr edges_ne_nil

theorem edges_injective : Function.Injective (edges : Trail ε → List ε) := by
  intro t u h
  obtain ⟨hbefore, hlast⟩ := List.append_inj' h rfl
  exact Trail.ext hbefore (List.singleton_inj.mp hlast)

theorem single_injective : Function.Injective (single : ε → Trail ε) := fun _ _ h => congrArg last h

theorem extend_injective : Function.Injective t.extend := fun _ _ h => congrArg last h

theorem eq_of_extend_eq (h : t.extend e = u.extend f) : t = u := edges_injective (congrArg before h)

theorem exists_edges_eq {es : List ε} (h : es ≠ []) : ∃ t : Trail ε, t.edges = es :=
  ⟨⟨es.dropLast, es.getLast h⟩, List.dropLast_append_getLast h⟩

theorem single_or_extend (t : Trail ε) : (∃ e, t = single e) ∨ ∃ u e, t = extend u e := by
  obtain ⟨before, last⟩ := t
  by_cases h : before = []
  · subst h
    exact Or.inl ⟨last, rfl⟩
  · obtain ⟨u, rfl⟩ := exists_edges_eq h
    exact Or.inr ⟨u, last, rfl⟩

end Trail

/-! ## Simple walks, edge by edge -/

section Simple

variable {src tgt : ε → ν} {v : ν} {e : ε} {t : Trail ε}

theorem simple_single (hloop : src e ≠ tgt e) : Simple src tgt v [e] ↔ src e = v := by
  constructor
  · exact fun h => h.starts e rfl
  · rintro rfl
    exact ⟨fun f hf => by cases hf; rfl, List.isChain_singleton e, by simpa using hloop⟩

theorem simple_extend : Simple src tgt v (t.extend e).edges ↔
    Simple src tgt v t.edges ∧ src e = tgt t.last ∧ tgt e ∉ v :: t.edges.map tgt := by
  have hhead : (t.extend e).edges.head? = t.edges.head? := by
    rw [Trail.edges_extend, List.head?_append_of_ne_nil _ Trail.edges_ne_nil]
  have hjoined : ((t.extend e).edges.IsChain fun a b => src b = tgt a) ↔
      (t.edges.IsChain fun a b => src b = tgt a) ∧ src e = tgt t.last := by
    rw [Trail.edges_extend, List.isChain_append, Trail.getLast?_edges]
    simp
  have hdistinct : (v :: (t.extend e).edges.map tgt).Nodup ↔
      (v :: t.edges.map tgt).Nodup ∧ tgt e ∉ v :: t.edges.map tgt := by
    rw [Trail.edges_extend, List.map_append, ← List.cons_append, List.nodup_append_comm, List.map_singleton,
      List.singleton_append, List.nodup_cons, and_comm]
  constructor
  · rintro ⟨hs, hj, hd⟩
    rw [hhead] at hs
    rw [hjoined] at hj
    rw [hdistinct] at hd
    exact ⟨⟨hs, hj.1, hd.1⟩, hj.2, hd.2⟩
  · rintro ⟨⟨hs, hj, hd⟩, hsrc, htgt⟩
    exact ⟨hhead ▸ hs, hjoined.mpr ⟨hj, hsrc⟩, hdistinct.mpr ⟨hd, htgt⟩⟩

end Simple

/-! ## Walks along pairs of vertices -/

section Pairs

variable {a : ν} {p : List ν} {es : List (ν × ν)} {R : ν → ν → Prop}

def steps (p : List ν) : List (ν × ν) := p.zip p.tail

/-- The vertices of a walk from `a`. -/
def vertices (a : ν) (es : List (ν × ν)) : List ν := a :: es.map Prod.snd

theorem vertices_steps (a : ν) (p : List ν) : vertices a (steps (a :: p)) = a :: p := by
  rw [vertices, steps, List.tail_cons, List.map_snd_zip]
  exact Nat.le_succ _

theorem steps_vertices (hstarts : ∀ e ∈ es.head?, e.1 = a) (hjoined : es.IsChain fun e f => f.1 = e.2) :
    steps (vertices a es) = es := by
  induction es generalizing a with
  | nil => rfl
  | cons e es ih =>
    have hrest : steps (vertices e.2 es) = es :=
      ih (fun f hf => (List.isChain_cons.mp hjoined).1 f hf) hjoined.tail
    have hfirst : e.1 = a := hstarts e rfl
    show (a, e.2) :: steps (vertices e.2 es) = e :: es
    rw [hrest, ← hfirst]

theorem isChain_iff_steps : p.IsChain R ↔ ∀ e ∈ steps p, R e.1 e.2 := by
  induction p with
  | nil => simp [steps]
  | cons a p ih =>
    cases p with
    | nil => simp [steps]
    | cons b p =>
      rw [List.isChain_cons_cons, ih]
      show _ ↔ ∀ e ∈ (a, b) :: steps (b :: p), R e.1 e.2
      rw [List.forall_mem_cons]

theorem starts_steps : ∀ e ∈ (steps (a :: p)).head?, e.1 = a := by
  cases p with
  | nil => intro e he; cases he
  | cons b p => intro e he; cases he; rfl

theorem joined_steps : (steps p).IsChain fun e f => f.1 = e.2 := by
  induction p with
  | nil => exact List.isChain_nil
  | cons a p ih =>
    cases p with
    | nil => exact List.isChain_nil
    | cons b p =>
      show ((a, b) :: steps (b :: p)).IsChain _
      exact List.isChain_cons.mpr ⟨starts_steps, ih⟩

/-- The simple walks from `a` are the steps of the paths from `a` without repetition. -/
theorem simple_steps : Simple Prod.fst Prod.snd a (steps (a :: p)) ↔ (a :: p).Nodup := by
  have hvertices : a :: (steps (a :: p)).map Prod.snd = a :: p := vertices_steps a p
  exact ⟨fun h => hvertices ▸ h.distinct, fun h => ⟨starts_steps, joined_steps, hvertices.symm ▸ h⟩⟩

end Pairs

/-! ## Listing them -/

section Grow

variable [DecidableEq ν] (src tgt : ε → ν) (edges : List ε) (v : ν) (max : ℕ)

/-- The walks of one edge that leave `v`. -/
def start : List (Trail ε) := (edges.filter fun e => src e = v).map Trail.single

/-- The walks of one edge more, while there are less than `max`, to vertices not visited. -/
def grow (t : Trail ε) : List (Trail ε) :=
  if t.edges.length < max then
    (edges.filter fun e => src e = tgt t.last ∧ tgt e ∉ v :: t.edges.map tgt).map t.extend
  else []

variable {src tgt edges v max} {t u : Trail ε} {k : ℕ}

theorem mem_start : t ∈ start src edges v ↔ ∃ e ∈ edges, src e = v ∧ t = Trail.single e := by
  simp only [start, List.mem_map, List.mem_filter, decide_eq_true_eq, and_assoc, eq_comm (a := t)]

theorem mem_grow : u ∈ grow src tgt edges v max t ↔ t.edges.length < max ∧
    ∃ e ∈ edges, (src e = tgt t.last ∧ tgt e ∉ v :: t.edges.map tgt) ∧ u = t.extend e := by
  unfold grow
  split_ifs with h
  · simp only [List.mem_map, List.mem_filter, decide_eq_true_eq, and_assoc, eq_comm (a := u), h, true_and]
  · simp [h]

/-- Level `k` has the simple walks of `k + 1` edges. -/
theorem mem_level_grow (hloop : ∀ e ∈ edges, src e ≠ tgt e) (hk : k < max) :
    t ∈ level (grow src tgt edges v max) k (start src edges v) ↔
      Simple src tgt v t.edges ∧ t.edges ⊆ edges ∧ t.edges.length = k + 1 := by
  induction k generalizing t with
  | zero =>
    rw [level_zero, mem_start]
    constructor
    · rintro ⟨e, he, hsrc, rfl⟩
      exact ⟨(simple_single (hloop e he)).mpr hsrc, by simpa using he, rfl⟩
    · rintro ⟨hsimple, hsub, hlen⟩
      rcases t.single_or_extend with ⟨e, rfl⟩ | ⟨u, e, rfl⟩
      · have he : e ∈ edges := hsub List.mem_cons_self
        exact ⟨e, he, (simple_single (hloop e he)).mp hsimple, rfl⟩
      · have := u.length_edges_pos
        rw [Trail.edges_extend, List.length_append, List.length_singleton] at hlen
        omega
  | succ k ih =>
    rw [level_succ', List.mem_flatMap]
    constructor
    · rintro ⟨u, hu, ht⟩
      obtain ⟨hsimple, hsub, hlen⟩ := (ih (by omega)).mp hu
      obtain ⟨-, e, he, hnew, rfl⟩ := mem_grow.mp ht
      refine ⟨simple_extend.mpr ⟨hsimple, hnew⟩, ?_, by simp [hlen]⟩
      exact List.append_subset.mpr ⟨hsub, by simpa using he⟩
    · rintro ⟨hsimple, hsub, hlen⟩
      rcases t.single_or_extend with ⟨e, rfl⟩ | ⟨u, e, rfl⟩
      · simp at hlen
      · obtain ⟨husimple, hnew⟩ := simple_extend.mp hsimple
        rw [Trail.edges_extend, List.append_subset] at hsub
        rw [Trail.edges_extend, List.length_append, List.length_singleton] at hlen
        have hulen : u.edges.length = k + 1 := by omega
        refine ⟨u, (ih (by omega)).mpr ⟨husimple, hsub.1, hulen⟩, mem_grow.mpr ⟨by omega, e, ?_, hnew, rfl⟩⟩
        exact hsub.2 List.mem_cons_self

/-- No walk grows past `max` edges. -/
theorem level_grow_eq_nil (hloop : ∀ e ∈ edges, src e ≠ tgt e) (hmax : 1 ≤ max) :
    level (grow src tgt edges v max) max (start src edges v) = [] := by
  obtain ⟨k, rfl⟩ : ∃ k, max = k + 1 := ⟨max - 1, by omega⟩
  rw [level_succ', List.flatMap_eq_nil_iff]
  intro t ht
  have hlen := ((mem_level_grow hloop (Nat.lt_succ_self k)).mp ht).2.2
  exact if_neg (by omega)

/-- The levels have the simple walks of one to `max` edges. -/
theorem mem_levels_grow (hloop : ∀ e ∈ edges, src e ≠ tgt e) :
    t ∈ levels (grow src tgt edges v max) max (start src edges v) ↔
      Simple src tgt v t.edges ∧ t.edges ⊆ edges ∧ t.edges.length ≤ max := by
  rw [mem_levels]
  constructor
  · rintro ⟨k, hk, ht⟩
    obtain ⟨hsimple, hsub, hlen⟩ := (mem_level_grow hloop hk).mp ht
    exact ⟨hsimple, hsub, by omega⟩
  · rintro ⟨hsimple, hsub, hlen⟩
    have hpos := t.length_edges_pos
    have hk : t.edges.length - 1 < max := by omega
    exact ⟨t.edges.length - 1, hk, (mem_level_grow hloop hk).mpr ⟨hsimple, hsub, by omega⟩⟩

theorem nodup_grow (hedges : edges.Nodup) : (grow src tgt edges v max t).Nodup := by
  unfold grow
  split_ifs
  · exact (hedges.filter _).map Trail.extend_injective
  · exact List.nodup_nil

theorem nodup_level_grow (hedges : edges.Nodup) : (level (grow src tgt edges v max) k (start src edges v)).Nodup := by
  induction k with
  | zero => exact (hedges.filter _).map Trail.single_injective
  | succ k ih =>
    rw [level_succ', List.nodup_flatMap]
    refine ⟨fun t _ => nodup_grow hedges, ih.imp fun {t u} hne x ht hu => hne ?_⟩
    obtain ⟨-, e, -, -, rfl⟩ := mem_grow.mp ht
    obtain ⟨-, f, -, -, heq⟩ := mem_grow.mp hu
    exact Trail.eq_of_extend_eq heq

theorem nodup_levels_grow (hloop : ∀ e ∈ edges, src e ≠ tgt e) (hedges : edges.Nodup) :
    (levels (grow src tgt edges v max) max (start src edges v)).Nodup := by
  refine nodup_levels (fun k _ => nodup_level_grow hedges) fun j k t hjk hk hj hkt => ?_
  have hjlen := ((mem_level_grow hloop (hjk.trans hk)).mp hj).2.2
  have hklen := ((mem_level_grow hloop hk).mp hkt).2.2
  omega

end Grow

end Walks
