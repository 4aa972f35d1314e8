import AiMemory.Lib.Table
import Mathlib.Data.List.Forall2

/-!
# Tables row by row

Two tables with related rows, in the same order. If related rows have the same keys, the two answer alike for every key,
and a statement goes through on both or on neither, with related rows after it when the rows it writes are related.
-/

namespace Relational

variable {ρ σ κ ν : Type*}

section Lists

variable {R : ρ → σ → Prop} {rows : List ρ} {rows' : List σ}

theorem map_eq_of_forall₂ {α : Type*} {f : ρ → α} {g : σ → α} (h : List.Forall₂ R rows rows')
    (hfg : ∀ a b, R a b → f a = g b) : rows.map f = rows'.map g := by
  induction h with
  | nil => rfl
  | cons hab _ ih => rw [List.map_cons, List.map_cons, hfg _ _ hab, ih]

theorem exists_of_forall₂ (h : List.Forall₂ R rows rows') {b : σ} (hb : b ∈ rows') : ∃ a ∈ rows, R a b := by
  induction h with
  | nil => cases hb
  | @cons x y _ _ hxy _ ih =>
    rcases List.mem_cons.mp hb with rfl | hb
    · exact ⟨x, List.mem_cons_self, hxy⟩
    · obtain ⟨a, ha, hab⟩ := ih hb
      exact ⟨a, List.mem_cons_of_mem _ ha, hab⟩

theorem forall₂_of_mapM {g : ρ → Option σ} (h : rows.mapM g = some rows') :
    List.Forall₂ (fun x y => g x = some y) rows rows' := by
  induction rows generalizing rows' with
  | nil =>
    cases h
    exact .nil
  | cons x rows ih =>
    rw [List.mapM_cons] at h
    obtain ⟨y, hy, h⟩ := Option.bind_eq_some_iff.mp h
    obtain ⟨rest, hrest, h⟩ := Option.bind_eq_some_iff.mp h
    cases h
    exact .cons hy (ih hrest)

theorem mapM_eq_map {g : ρ → Option σ} {w : ρ → σ} (h : ∀ x ∈ rows, g x = some (w x)) : rows.mapM g = some (rows.map w) := by
  induction rows with
  | nil => rfl
  | cons x rows ih =>
    rw [List.mapM_cons, h x List.mem_cons_self, ih fun y hy => h y (List.mem_cons_of_mem _ hy)]
    rfl

theorem forall₂_map_of_mem {f : ρ → ρ} {g : σ → σ} (h : List.Forall₂ R rows rows')
    (hfg : ∀ a ∈ rows, ∀ b ∈ rows', R a b → R (f a) (g b)) : List.Forall₂ R (rows.map f) (rows'.map g) := by
  induction h with
  | nil => exact .nil
  | cons hab _ ih =>
    refine .cons (hfg _ List.mem_cons_self _ List.mem_cons_self hab) (ih fun a ha b hb => ?_)
    exact hfg a (List.mem_cons_of_mem _ ha) b (List.mem_cons_of_mem _ hb)

theorem forall₂_concat {a : ρ} {b : σ} (h : List.Forall₂ R rows rows') (hab : R a b) :
    List.Forall₂ R (rows ++ [a]) (rows' ++ [b]) := by
  induction h with
  | nil => exact .cons hab .nil
  | cons hxy _ ih => exact .cons hxy ih

theorem rel_none_iff {o : Option ρ} {o' : Option σ} (h : Option.Rel R o o') : o = none ↔ o' = none := by
  cases h <;> simp

theorem exists_of_rel_some {a : ρ} {o : Option σ} (h : Option.Rel R (some a) o) : ∃ b, o = some b ∧ R a b := by
  cases h with
  | some hab => exact ⟨_, rfl, hab⟩

theorem rel_imp {S : ρ → σ → Prop} {o : Option ρ} {o' : Option σ} (h : Option.Rel R o o') (hRS : ∀ a b, R a b → S a b) :
    Option.Rel S o o' := by
  cases h with
  | some hab => exact .some (hRS _ _ hab)
  | none => exact .none

theorem lookup_rel [DecidableEq κ] {key : ρ → κ} {key' : σ → κ} (h : List.Forall₂ R rows rows')
    (hkey : ∀ a b, R a b → key a = key' b) (k : κ) : Option.Rel R (lookup key k rows) (lookup key' k rows') := by
  induction h with
  | nil => exact .none
  | cons hab _ ih =>
    rw [lookup_cons, lookup_cons, hkey _ _ hab]
    split_ifs
    · exact .some hab
    · exact ih

end Lists

/-- Related rows, in the same order. -/
def Parallel {pk : ρ → κ} {uk : ρ → ν} {pk' : σ → κ} {uk' : σ → ν} (R : ρ → σ → Prop) (t : Indexed pk uk)
    (u : Indexed pk' uk') : Prop := List.Forall₂ R t.rows u.rows

namespace Parallel

variable {pk : ρ → κ} {uk : ρ → ν} {pk' : σ → κ} {uk' : σ → ν} {R : ρ → σ → Prop} {t : Indexed pk uk}
  {u : Indexed pk' uk'} {a : ρ} {b : σ}

theorem empty : Parallel R (Indexed.empty : Indexed pk uk) (Indexed.empty : Indexed pk' uk') := .nil

theorem find [DecidableEq κ] (h : Parallel R t u) (hkey : ∀ a b, R a b → pk a = pk' b) (k : κ) :
    Option.Rel R (t.find k) (u.find k) := lookup_rel h hkey k

theorem findBy [DecidableEq ν] (h : Parallel R t u) (hkey : ∀ a b, R a b → uk a = uk' b) (k : ν) :
    Option.Rel R (t.findBy k) (u.findBy k) := lookup_rel h hkey k

theorem insertNew? [DecidableEq κ] [DecidableEq ν] (h : Parallel R t u) (hpk : ∀ a b, R a b → pk a = pk' b) (huk : ∀ a b, R a b → uk a = uk' b)
    (ha : pk a = pk' b) (hb : uk a = uk' b) (hab : t.find (pk a) = none → t.findBy (uk a) = none → R a b) :
    Option.Rel (Parallel R) (t.insertNew? a) (u.insertNew? b) := by
  have hfree : (t.insertNew? a).isSome ↔ (u.insertNew? b).isSome := by
    rw [Indexed.insertNew?_isSome, Indexed.insertNew?_isSome, rel_none_iff (h.find hpk _), rel_none_iff (h.findBy huk _),
      ha, hb]
  cases ht : t.insertNew? a with
  | none =>
    rw [ht] at hfree
    rw [Option.not_isSome_iff_eq_none.mp fun hu => Bool.false_ne_true (hfree.mpr hu)]
    exact .none
  | some t' =>
    rw [ht] at hfree
    obtain ⟨u', hu⟩ := Option.isSome_iff_exists.mp (hfree.mp rfl)
    obtain ⟨hid, hkey⟩ := Indexed.insertNew?_isSome.mp (Option.isSome_of_mem ht)
    rw [hu]
    refine .some ?_
    unfold Parallel
    rw [Indexed.insertNew?_rows ht, Indexed.insertNew?_rows hu]
    exact forall₂_concat h (hab hid hkey)

/-- An update that moves related rows to the same entries of the unique index goes through on both tables or on
neither. -/
theorem map? [DecidableEq ν] (h : Parallel R t u) {f : ρ → ρ} {g : σ → σ} {hpk : ∀ r, pk (f r) = pk r} {hpk' : ∀ r, pk' (g r) = pk' r}
    (huk : ∀ a b, R a b → uk (f a) = uk' (g b))
    (hfg : (t.map? f hpk).isSome → ∀ a ∈ t.rows, ∀ b ∈ u.rows, R a b → R (f a) (g b)) :
    Option.Rel (Parallel R) (t.map? f hpk) (u.map? g hpk') := by
  have hkeys : (t.rows.map f).map uk = (u.rows.map g).map uk' := by
    rw [List.map_map, List.map_map]
    exact map_eq_of_forall₂ h huk
  by_cases hn : ((t.rows.map f).map uk).Nodup
  · have ht : t.map? f hpk = some ⟨_, hn⟩ := dif_pos hn
    have hu : u.map? g hpk' = some ⟨_, hkeys ▸ hn⟩ := dif_pos (hkeys ▸ hn)
    rw [ht, hu]
    exact .some (forall₂_map_of_mem h (hfg (Option.isSome_of_mem ht)))
  · have ht : t.map? f hpk = none := dif_neg hn
    have hu : u.map? g hpk' = none := dif_neg (hkeys ▸ hn)
    rw [ht, hu]
    exact .none

end Parallel

end Relational
