import AiMemory.Curator.Autonomy

/-!
# Three passes over one list

The forget pass and the priority feedback look at the candidates as they were read, not at the database. So a candidate may be
forgotten in favour of one that is forgotten too (`forgotten_justified_iff`).
-/

namespace AiMemory

open Relational

namespace Curator

section Forgetting

variable {c : Chrono} {entryText : RollbackEntry → String} {all : List Memory} {s : Passes} {db : Db} {i j : String}
  {x : Memory × Draw} {steps : List (Memory × Draw)} {mem : Memory}

/-! ## The forget pass -/

/-- The pass removes the id: a superseded candidate has it, and the deletion does not fail. -/
def Forgets (steps : List (Memory × Draw)) (all : List Memory) (i : String) : Prop :=
  ∃ x ∈ steps, x.1.id = i ∧ isSuperseded x.1 all ∧ x.2.writeFault = none

instance (steps : List (Memory × Draw)) (all : List Memory) (i : String) : Decidable (Forgets steps all i) :=
  inferInstanceAs (Decidable (∃ x ∈ steps, _))

theorem forget_cases (c : Chrono) (all : List Memory) (db : Db) (x : Memory × Draw) :
    (entryOf c all false db (.forget x.1, x.2) = none ∧ ¬(isSuperseded x.1 all ∧ x.2.writeFault = none) ∧
      (after c all false db (.forget x.1, x.2)).memories = db.memories) ∨
    (entryOf c all false db (.forget x.1, x.2) = some (.forget x.1) ∧ isSuperseded x.1 all ∧ x.2.writeFault = none ∧
      after c all false db (.forget x.1, x.2) = (db.delete x.1.id).1) := by
  unfold entryOf after attempt tryForget
  by_cases hsup : isSuperseded x.1 all
  · simp only [if_pos hsup, Bool.false_eq_true, if_false]
    cases hfault : x.2.writeFault with
    | some e =>
      refine Or.inl ⟨rfl, fun h => (by cases h.2), ?_⟩
      simp only
      split_ifs <;> rfl
    | none => exact Or.inr ⟨rfl, hsup, rfl, rfl⟩
  · refine Or.inl ⟨?_, fun h => hsup h.1, ?_⟩ <;> simp only [if_neg hsup]

theorem get_forget_eq_none_iff (hne : x.2.entryId ≠ i) : (act c entryText all false s (.forget x.1, x.2)).db.get i = none ↔
    s.db.get i = none ∨ x.1.id = i ∧ isSuperseded x.1 all ∧ x.2.writeFault = none := by
  rw [act_db]
  rcases forget_cases c all s.db x with ⟨hentry, hno, hmem⟩ | ⟨hentry, hsup, hfault, hafter⟩
  · rw [hentry]
    unfold Db.get
    rw [hmem]
    exact (or_iff_left fun h => hno h.2).symm
  · rw [hentry]
    simp only
    rw [get_record_eq_none_iff _ hne, hafter, Db.get_delete]
    by_cases hi : i = x.1.id
    · rw [if_pos hi]
      exact iff_of_true rfl (Or.inr ⟨hi.symm, hsup, hfault⟩)
    · rw [if_neg hi]
      exact (or_iff_left fun h => hi h.1.symm).symm

theorem mem_forget_iff {r : MemoryRow} (hns : isReserved r.ns = false) :
    r ∈ (act c entryText all false s (.forget x.1, x.2)).db.memories ↔
      r ∈ s.db.memories ∧ ¬(x.1.id = r.id ∧ isSuperseded x.1 all ∧ x.2.writeFault = none) := by
  have hne : r.ns ≠ "_curator/rollback" := fun h => by rw [h] at hns; revert hns; decide
  rw [act_db]
  rcases forget_cases c all s.db x with ⟨hentry, hno, hmem⟩ | ⟨hentry, hsup, hfault, hafter⟩
  · rw [hentry]
    show r ∈ (after c all false s.db (.forget x.1, x.2)).memories ↔ _
    rw [hmem]
    exact (and_iff_left fun h => hno h.2).symm
  · rw [hentry]
    simp only
    refine (record_sameIn _ hne r rfl).trans ?_
    rw [hafter]
    show r ∈ ((s.db.dropStandard x.1.id).deleteMemories fun r => r.id ≠ x.1.id).memories ↔ _
    rw [Db.mem_deleteMemories]
    simp only [decide_eq_true_eq, hsup, hfault, and_true]
    exact and_congr_right fun _ => not_congr eq_comm

theorem get_forgetPass_eq_none_iff (hne : ∀ x ∈ steps, x.2.entryId ≠ i) :
    (forgetPass c entryText all false steps s).db.get i = none ↔ s.db.get i = none ∨ Forgets steps all i := by
  unfold forgetPass
  induction steps generalizing s with
  | nil => exact (or_iff_left fun ⟨x, hx, _⟩ => absurd hx List.not_mem_nil).symm
  | cons x steps ih =>
    rw [List.map_cons, List.foldl_cons, ih fun y hy => hne y (List.mem_cons_of_mem x hy),
      get_forget_eq_none_iff (hne x List.mem_cons_self), or_assoc]
    simp only [Forgets, List.mem_cons, or_and_right, exists_or, exists_eq_left]

theorem mem_forgetPass_iff {r : MemoryRow} (hns : isReserved r.ns = false) :
    r ∈ (forgetPass c entryText all false steps s).db.memories ↔ r ∈ s.db.memories ∧ ¬Forgets steps all r.id := by
  unfold forgetPass
  induction steps generalizing s with
  | nil => exact (and_iff_left fun ⟨x, hx, _⟩ => absurd hx List.not_mem_nil).symm
  | cons x steps ih =>
    rw [List.map_cons, List.foldl_cons, ih, mem_forget_iff hns, and_assoc, ← not_or]
    simp only [Forgets, List.mem_cons, or_and_right, exists_or, exists_eq_left]

/-! ## The priority feedback -/

theorem update_priority (db : Db) (id now : String) (p : ℤ) :
    ∃ db' found changed, db.update id { priority := some p } now = .ok (db', found, changed) ∧
      ∀ i, db'.get i = (db.get i).map fun r => if i = id then applyUpdate { priority := some p } now r else r := by
  cases hget : db.get id with
  | none =>
    refine ⟨db, false, false, by unfold Db.update; rw [hget], fun i => ?_⟩
    by_cases hi : i = id
    · rw [hi, hget]
      rfl
    · simp only [if_neg hi, Option.map_id']
  | some existing =>
    have hfree : ¬db.Collides existing { priority := some p } := by
      rintro ⟨r, hr, hne, hkey⟩
      obtain ⟨hmem, -⟩ := Db.get_eq_some.mp hget
      exact hne (congrArg (fun r : MemoryRow => r.id) (Indexed.eq_of_uk hr hmem hkey))
    obtain ⟨db', changed, hu⟩ := (Db.update_isOk_iff now hget).mpr hfree
    exact ⟨db', true, changed, hu, Db.get_update hu⟩

theorem adjust_cases (c : Chrono) (all : List Memory) (db : Db) (x : Memory × Draw) :
    ∃ p : ℤ, ∀ i, (after c all false db (.adjust x.1, x.2)).get i =
      (db.get i).map fun r => if i = x.1.id ∧ priorityAfter c x.2.instant x.1 ≠ x.1.priority ∧ x.2.writeFault = none then
        applyUpdate { priority := some p } x.2.now r else r := by
  refine ⟨priorityAfter c x.2.instant x.1, fun i => ?_⟩
  unfold after attempt tryAdjust
  simp only
  by_cases hsame : priorityAfter c x.2.instant x.1 = x.1.priority
  · rw [if_pos hsame]
    simp [hsame]
  · rw [if_neg hsame]
    cases hfault : x.2.writeFault with
    | some e => simp
    | none =>
      obtain ⟨db', found, changed, hu, hget⟩ := update_priority db x.1.id x.2.now (priorityAfter c x.2.instant x.1)
      simp only [Bool.false_eq_true, if_false]
      rw [hu, hget]
      simp [hsame]

theorem get_adjust_eq_none_iff (hne : x.2.entryId ≠ i) :
    (act c entryText all false s (.adjust x.1, x.2)).db.get i = none ↔ s.db.get i = none := by
  obtain ⟨p, hafter⟩ := adjust_cases c all s.db x
  have hget : (after c all false s.db (.adjust x.1, x.2)).get i = none ↔ s.db.get i = none := by
    rw [hafter, Option.map_eq_none_iff]
  rw [act_db]
  cases entryOf c all false s.db (.adjust x.1, x.2) with
  | none => exact hget
  | some entry => exact (get_record_eq_none_iff entry hne).trans hget

theorem get_adjustPass_eq_none_iff (hne : ∀ x ∈ steps, x.2.entryId ≠ i) :
    (adjustPass c entryText all false steps s).db.get i = none ↔ s.db.get i = none := by
  unfold adjustPass
  induction steps generalizing s with
  | nil => rfl
  | cons x steps ih =>
    rw [List.map_cons, List.foldl_cons, ih fun y hy => hne y (List.mem_cons_of_mem x hy),
      get_adjust_eq_none_iff (hne x List.mem_cons_self)]

/-! ## What stays -/

/-- The metadata says that the memory was merged from the id. -/
def DerivedFrom (m : Memory) (j : String) : Prop :=
  match m.metadata.get "derived_from" with
  | some (.arr ids) => .str j ∈ ids
  | _ => False

instance (m : Memory) (j : String) : Decidable (DerivedFrom m j) := by
  unfold DerivedFrom
  split <;> infer_instance

/-- The id was merged into a live memory. -/
def MergedInto (db : Db) (j : String) : Prop := ∃ r ∈ db.memories, isReserved r.ns = false ∧ DerivedFrom r.toMemory j

theorem mergedInto_adjust : MergedInto (act c entryText all false s (.adjust x.1, x.2)).db j ↔ MergedInto s.db j := by
  obtain ⟨p, hafter⟩ := adjust_cases c all s.db x
  have hmap : MergedInto (after c all false s.db (.adjust x.1, x.2)) j ↔ MergedInto s.db j := by
    constructor
    · rintro ⟨r', hr', hns, hfrom⟩
      rw [mem_iff_get, hafter] at hr'
      obtain ⟨r, hr, heq⟩ := Option.map_eq_some_iff.mp hr'
      have hsame : r'.ns = r.ns ∧ r'.metadata = r.metadata := by
        rw [← heq]
        split_ifs <;> exact ⟨rfl, rfl⟩
      refine ⟨r, (Db.get_eq_some.mp hr).1, hsame.1 ▸ hns, ?_⟩
      unfold DerivedFrom at hfrom ⊢
      rwa [hsame.2] at hfrom
    · rintro ⟨r, hr, hns, hfrom⟩
      have hget := (hafter r.id).trans (congrArg _ (Db.get_of_mem hr))
      refine ⟨_, (Db.get_eq_some.mp hget).1, ?_⟩
      split_ifs <;> exact ⟨hns, hfrom⟩
  rw [act_db]
  cases entryOf c all false s.db (.adjust x.1, x.2) with
  | none => exact hmap
  | some entry =>
    refine Iff.trans (exists_congr fun r => ?_) hmap
    -- records are filed in a reserved namespace
    rw [and_comm, and_comm (a := r ∈ (after c all false s.db (.adjust x.1, x.2)).memories)]
    refine and_congr_right fun ⟨hns, _⟩ => record_sameIn entry ?_ r rfl
    rintro h
    rw [h] at hns
    revert hns
    decide

theorem mergedInto_adjustPass : MergedInto (adjustPass c entryText all false steps s).db j ↔ MergedInto s.db j := by
  unfold adjustPass
  induction steps generalizing s with
  | nil => rfl
  | cons x steps ih => rw [List.map_cons, List.foldl_cons, ih, mergedInto_adjust]

/-- The ids under `confirmed_contradictions`. -/
def contradictionIds (m : Memory) : List String := (confirmedContradictions m).filterMap Json.asStr

/-- What is known of an id when the forget pass begins: the last candidate with it, or else the live row. -/
def knownMemory (db : Db) (all : List Memory) (j : String) : Option Memory :=
  (all.reverse.find? fun m => m.id = j).or ((db.get j).map fun r => r.toMemory)

/-- The memory under the id is newer than the other and at least as confident. -/
def Outranks (db : Db) (all : List Memory) (j : String) (m : Memory) : Prop :=
  ∃ x ∈ knownMemory db all j, m.updatedAt < x.updatedAt ∧ m.confidence ≤ x.confidence

/-- Something that contradicts the memory and outranks it is live at the end, or was merged into what is. -/
def Justified (db : Db) (all : List Memory) (final : Db) (m : Memory) : Prop :=
  ∃ j ∈ contradictionIds m, Outranks db all j m ∧ (final.get j ≠ none ∨ MergedInto final j)

/-- The id is live when the forget pass begins and the pass does not remove it, or that holds of a memory that it was
merged into. -/
def Stays (db : Db) (steps : List (Memory × Draw)) (all : List Memory) (j : String) : Prop :=
  (db.get j ≠ none ∧ ¬Forgets steps all j) ∨
    ∃ r ∈ db.memories, isReserved r.ns = false ∧ DerivedFrom r.toMemory j ∧ ¬Forgets steps all r.id

def mentioned (all : List Memory) : List String := all.flatMap fun m => m.id :: contradictionIds m

/-- The ids of the records are new. -/
def FreshRecords (draws : Draws) (all : List Memory) : Prop :=
  ∀ k, (draws.forget k).entryId ∉ mentioned all ∧ (draws.adjust k).entryId ∉ mentioned all

theorem entryId_ne_of_mem_drawn {α : Type} {xs : List α} {draws : ℕ → Draw} {y : α × Draw}
    (h : ∀ k, (draws k).entryId ≠ i) (hy : y ∈ drawn xs draws) : y.2.entryId ≠ i := by
  obtain ⟨z, -, rfl⟩ := List.mem_map.mp hy
  exact h z.2

theorem stays_iff {draws : Draws} (hfresh : FreshRecords draws all) (hj : j ∈ mentioned all) :
    ((adjustPass c entryText all false (drawn all draws.adjust)
        (forgetPass c entryText all false (drawn all draws.forget) s)).db.get j ≠ none ∨
      MergedInto (adjustPass c entryText all false (drawn all draws.adjust)
        (forgetPass c entryText all false (drawn all draws.forget) s)).db j) ↔
      Stays s.db (drawn all draws.forget) all j := by
  have hforget : ∀ x ∈ drawn all draws.forget, x.2.entryId ≠ j := fun x =>
    entryId_ne_of_mem_drawn fun k h => (hfresh k).1 (h ▸ hj)
  have hadjust : ∀ x ∈ drawn all draws.adjust, x.2.entryId ≠ j := fun x =>
    entryId_ne_of_mem_drawn fun k h => (hfresh k).2 (h ▸ hj)
  rw [Ne, get_adjustPass_eq_none_iff hadjust, get_forgetPass_eq_none_iff hforget, not_or, mergedInto_adjustPass]
  refine or_congr Iff.rfl (exists_congr fun r => ?_)
  constructor
  · rintro ⟨hr, hns, hfrom⟩
    obtain ⟨hr, hno⟩ := (mem_forgetPass_iff hns).mp hr
    exact ⟨hr, hns, hfrom, hno⟩
  · rintro ⟨hr, hns, hfrom, hno⟩
    exact ⟨(mem_forgetPass_iff hns).mpr ⟨hr, hno⟩, hns, hfrom⟩

end Forgetting

def merged (c : Chrono) (entryText : RollbackEntry → String) (all : List Memory) (u : Unicode) (order : List String)
    (draws : Draws) (db : Db) : Passes :=
  consolidatePass c entryText all false (drawn (findConsolidationClusters u order all) draws.merge)
    { db, report := { clustersFormed := (findConsolidationClusters u order all).length } }

/-- Every memory that the forget pass removes is outranked by something that stays. -/
def ForgottenJustified (c : Chrono) (entryText : RollbackEntry → String) (all : List Memory) (u : Unicode)
    (order : List String) (draws : Draws) (db : Db) : Prop :=
  let start := (merged c entryText all u order draws db).db
  ∀ m ∈ all, isSuperseded m all → start.get m.id ≠ none →
    (forgetPass c entryText all false (drawn all draws.forget) (merged c entryText all u order draws db)).db.get m.id = none →
    Justified start all (runAutonomyPasses c entryText all false u order draws db).db m

/-- That is so exactly if every superseded candidate that is live when the forget pass begins, and whose deletion does not
fail, is outranked by something that is live then and not superseded itself, or was merged into what is. -/
theorem forgotten_justified_iff (c : Chrono) (entryText : RollbackEntry → String) {all : List Memory} (u : Unicode)
    (order : List String) {draws : Draws} (db : Db) (hfresh : FreshRecords draws all) :
    let start := (merged c entryText all u order draws db).db
    ForgottenJustified c entryText all u order draws db ↔
      ∀ m ∈ all, isSuperseded m all → start.get m.id ≠ none → Forgets (drawn all draws.forget) all m.id →
        ∃ j ∈ contradictionIds m, Outranks start all j m ∧ Stays start (drawn all draws.forget) all j := by
  refine forall_congr' fun m => forall_congr' fun hm => forall_congr' fun _ => forall_congr' fun hlive => ?_
  have hid : m.id ∈ mentioned all := List.mem_flatMap.mpr ⟨m, hm, List.mem_cons_self⟩
  have hforget : ∀ x ∈ drawn all draws.forget, x.2.entryId ≠ m.id := fun x =>
    entryId_ne_of_mem_drawn fun k h => (hfresh k).1 (h ▸ hid)
  rw [get_forgetPass_eq_none_iff hforget, or_iff_right hlive]
  refine imp_congr_right fun _ => exists_congr fun j => and_congr_right fun hj => and_congr_right fun _ => ?_
  exact stays_iff hfresh (List.mem_flatMap.mpr ⟨m, hm, List.mem_cons_of_mem _ hj⟩)

/-! ## Three notes -/

def stopped : Chrono where
  toRfc3339 _ := ""
  parseFromRfc3339 _ := none

def ascii : Unicode where
  isAlphanumeric := Char.isAlphanum
  toLowercase := String.toLower

def noteAt (id content updatedAt : String) (against : List String) : Memory where
  id
  tier := .mid
  ns := "notes"
  title := id
  content
  tags := []
  priority := 5
  confidence := 1
  source := "user"
  accessCount := 0
  createdAt := updatedAt
  updatedAt
  lastAccessedAt := none
  expiresAt := none
  metadata := .obj [("confirmed_contradictions", .arr (against.map .str))]

def lettered (letter : Char) (k : ℕ) : Draw :=
  let text := String.ofList (List.replicate (k + 1) letter)
  { summary := .error "no model", newId := text ++ "-new", now := text, instant := 0, entryId := text, entryTs := text }

def letteredDraws : Draws where
  merge := lettered 'x'
  forget := lettered 'y'
  adjust := lettered 'z'

def entryNamed : RollbackEntry → String
  | .consolidate .. => "merged"
  | .forget m => m.id
  | .priorityAdjust id .. => id

/-- The first note is contradicted by the second, and the second by the third. -/
def north : Memory := noteAt "a" "the north gate" "1" ["b"]

def south : Memory := noteAt "b" "a southern road" "2" ["c"]

def west : Memory := noteAt "c" "no western door" "3" []

theorem lettered_entryId_ne {letter : Char} {i : String} (h : letter ∉ i.toList) (k : ℕ) : (lettered letter k).entryId ≠ i := by
  intro heq
  have hlist : (String.ofList (List.replicate (k + 1) letter)).toList = i.toList := congrArg String.toList heq
  rw [String.toList_ofList] at hlist
  rw [← hlist] at h
  exact h (List.mem_replicate.mpr ⟨Nat.succ_ne_zero k, rfl⟩)

theorem freshRecords_lettered {all : List Memory} (h : ∀ i ∈ mentioned all, 'y' ∉ i.toList ∧ 'z' ∉ i.toList) :
    FreshRecords letteredDraws all := fun k =>
  ⟨fun hmem => lettered_entryId_ne (h _ hmem).1 k rfl, fun hmem => lettered_entryId_ne (h _ hmem).2 k rfl⟩

/-- Two notes, of which the second stays. -/
theorem pair_justified : ForgottenJustified stopped entryNamed [north, noteAt "b" "a southern road" "2" []] ascii ["notes"]
    letteredDraws (Db.empty.insertAll [north, noteAt "b" "a southern road" "2" []]) := by
  refine (forgotten_justified_iff stopped entryNamed ascii ["notes"] _ (freshRecords_lettered (by decide))).mpr ?_
  intro m hm hsup _ _
  rcases List.mem_cons.mp hm with rfl | hm
  · refine ⟨"b", by decide, ⟨noteAt "b" "a southern road" "2" [], by decide, by decide, by decide⟩, Or.inl ?_⟩
    decide +kernel
  · rw [List.mem_singleton] at hm
    subst hm
    exact absurd hsup (by decide)

/-- Of three notes the first is forgotten for the second, which is forgotten too. -/
theorem chain_unjustified : ¬ForgottenJustified stopped entryNamed [north, south, west] ascii ["notes"] letteredDraws
    (Db.empty.insertAll [north, south, west]) := by
  intro h
  let final := (runAutonomyPasses stopped entryNamed [north, south, west] false ascii ["notes"] letteredDraws
    (Db.empty.insertAll [north, south, west])).db
  have hgone : final.get "b" = none := by decide +kernel
  have hunmerged : ¬∃ r ∈ final.memories.rows, isReserved r.ns = false ∧ DerivedFrom r.toMemory "b" := by decide +kernel
  obtain ⟨j, hj, -, hstays⟩ := h north (by decide) (by decide) (by decide +kernel) (by decide +kernel)
  have hids : ∀ j ∈ contradictionIds north, j = "b" := by decide
  obtain rfl := hids j hj
  exact hstays.elim (absurd hgone) hunmerged

end Curator

end AiMemory
