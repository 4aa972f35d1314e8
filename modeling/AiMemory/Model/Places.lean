import AiMemory.Model.Json

/-!
# Places in a JSON value

A place is the keys on the way to a value; the items of an array are all at one place (`valuesAt`). Two questions are asked
of an edit of a value in which some objects carry a mark: are the values of a place still there (`Keeps`), and as many
objects as had nothing to do with the mark (`Spares`). For an edit at one key the second is a question about the value of
that key (`spares_update_iff`).
-/

namespace AiMemory

namespace Json

/-- A field taken out: `BTreeMap::remove`. -/
def removeField (k : String) (fs : List (String × Json)) : List (String × Json) := fs.filter fun f => f.1 ≠ k

section Fields

variable {k j : String} {v w : Json} {fs : List (String × Json)}

theorem getField_removeField : getField k (removeField k fs) = none := by
  induction fs with
  | nil => rfl
  | cons f fs ih =>
    by_cases h : f.1 = k
    · rw [removeField, List.filter_cons_of_neg (by simpa using h)]
      exact ih
    · rw [removeField, List.filter_cons_of_pos (by simpa using h), getField, if_neg h]
      exact ih

theorem getField_removeField_of_ne (hne : j ≠ k) : getField j (removeField k fs) = getField j fs := by
  induction fs with
  | nil => rfl
  | cons f fs ih =>
    by_cases h : f.1 = k
    · rw [removeField, List.filter_cons_of_neg (by simpa using h), getField,
        if_neg fun e => hne (e.symm.trans h)]
      exact ih
    · rw [removeField, List.filter_cons_of_pos (by simpa using h), getField, getField]
      exact if_congr Iff.rfl rfl ih

theorem removeField_of_none (h : getField k fs = none) : removeField k fs = fs := by
  refine List.filter_eq_self.mpr fun f hf => ?_
  induction fs with
  | nil => exact absurd hf List.not_mem_nil
  | cons g fs ih =>
    rw [getField] at h
    split at h
    · cases h
    · next hne =>
      rcases List.mem_cons.mp hf with rfl | hf
      · exact decide_eq_true hne
      · exact ih h hf

theorem removeField_setField (k : String) (v : Json) (fs : List (String × Json)) :
    removeField k (setField k v fs) = removeField k fs := by
  have hinsert : ∀ fs : List (String × Json), removeField k (insertField k v fs) = removeField k fs := by
    intro fs
    induction fs with
    | nil => simp [insertField, removeField]
    | cons f fs ih =>
      rw [insertField]
      split_ifs with h
      · exact List.filter_cons_of_neg (by simp)
      · by_cases hf : f.1 = k
        · rw [removeField, removeField, List.filter_cons_of_neg (by simpa using hf),
            List.filter_cons_of_neg (by simpa using hf)]
          exact ih
        · rw [removeField, removeField, List.filter_cons_of_pos (by simpa using hf),
            List.filter_cons_of_pos (by simpa using hf)]
          exact congrArg _ ih
  have hreplace : ∀ fs : List (String × Json), removeField k (replaceField k v fs) = removeField k fs := by
    intro fs
    induction fs with
    | nil => rfl
    | cons f fs ih =>
      rw [replaceField]
      by_cases hf : f.1 = k
      · rw [if_pos hf, removeField, removeField, List.filter_cons_of_neg (by simp),
          List.filter_cons_of_neg (by simpa using hf)]
      · rw [if_neg hf, removeField, removeField, List.filter_cons_of_pos (by simpa using hf),
          List.filter_cons_of_pos (by simpa using hf)]
        exact congrArg _ ih
  unfold setField
  split_ifs
  · exact hreplace fs
  · exact hinsert fs

theorem removeField_eq_iff : removeField k fs = fs ↔ getField k fs = none := by
  constructor
  · intro h
    rw [← h]
    exact getField_removeField
  · exact removeField_of_none

theorem removeField_eq_nil_iff : removeField k fs = [] ↔ ∀ f ∈ fs, f.1 = k := by
  simp [removeField, List.filter_eq_nil_iff]

theorem exists_getField_of_only (hne : fs ≠ []) (h : ∀ f ∈ fs, f.1 = k) : ∃ v, getField k fs = some v := by
  obtain ⟨f, fs, rfl⟩ := List.exists_cons_of_ne_nil hne
  exact ⟨f.2, if_pos (h f List.mem_cons_self)⟩

theorem eq_of_getField_of_only (h : ∀ f ∈ fs, f.1 = k) (hj : getField j fs = some v) : j = k := by
  by_contra hne
  rw [← getField_removeField_of_ne hne, removeField_eq_nil_iff.mpr h] at hj
  cases hj

theorem setField_eq_iff : setField k v fs = fs ↔ getField k fs = some v := by
  constructor
  · intro h
    have hget := getField_setField k v fs
    rwa [h] at hget
  · exact setField_self

end Fields

/-- A step to a place. -/
inductive Step where
  | key (k : String)
  | item
  deriving DecidableEq

/-- A value and a place in it, reached through objects that `through` holds of. -/
inductive At (through : Json → Prop) : Json → List Step → Json → Prop
  | here (v) : At through v [] v
  | field {fs k v p w} : through (.obj fs) → getField k fs = some v → At through v p w → At through (.obj fs) (.key k :: p) w
  | item {vs v p w} : v ∈ vs → At through v p w → At through (.arr vs) (.item :: p) w

/-- The values at a place, in their order, reached through objects that `through` holds of. -/
def valuesAt (through : Json → Prop) [DecidablePred through] : List Step → Json → List Json
  | [], v => [v]
  | .key k :: p, .obj fs =>
    if through (.obj fs) then
      match getField k fs with
      | some v => valuesAt through p v
      | none => []
    else []
  | .item :: p, .arr vs => vs.flatMap (valuesAt through p)
  | _ :: _, _ => []

def isArray : Json → Bool
  | .arr _ => true
  | _ => false

/-- The same value, or a container of the same kind. -/
def Alike (u w : Json) : Prop := u = w ∨ u.isObject ∧ w.isObject ∨ u.isArray ∧ w.isArray

instance : Std.Refl Alike := ⟨fun _ => Or.inl rfl⟩

/-- Whatever is in the one value is in the other, at its place: the values there are still there, in their order, among
others. -/
def Keeps (v w : Json) : Prop :=
  ∀ p, List.SublistForall₂ Alike (valuesAt (fun _ => True) p v) (valuesAt (fun _ => True) p w)

section Keeping

variable {fs gs : List (String × Json)} {vs ws : List Json} {v w : Json} {k : String}

theorem keeps_refl (v : Json) : Keeps v v := fun _ => (List.Sublist.refl _).sublistForall₂

theorem keeps_obj (h : ∀ k v, getField k fs = some v → ∃ w, getField k gs = some w ∧ Keeps v w) :
    Keeps (.obj fs) (.obj gs) := by
  rintro (_ | ⟨k | _, p⟩)
  · exact .cons (Or.inr (Or.inl ⟨rfl, rfl⟩)) .nil
  · cases hk : getField k fs with
    | none =>
      simp only [valuesAt, hk, if_true]
      exact .nil
    | some v =>
      obtain ⟨w, hw, hkeeps⟩ := h k v hk
      simp only [valuesAt, hk, hw, if_true]
      exact hkeeps p
  · exact .nil

theorem keeps_arr (h : vs.Sublist ws) : Keeps (.arr vs) (.arr ws) := by
  rintro (_ | ⟨k | _, p⟩)
  · exact .cons (Or.inr (Or.inr ⟨rfl, rfl⟩)) .nil
  · exact .nil
  · exact (h.flatMap _).sublistForall₂

theorem keeps_setField (h : ∀ v, getField k fs = some v → Keeps v w) : Keeps (.obj fs) (.obj (setField k w fs)) := by
  refine keeps_obj fun j v hv => ?_
  by_cases hj : j = k
  · subst hj
    exact ⟨w, getField_setField j w fs, h v hv⟩
  · exact ⟨v, (getField_setField_of_ne hj w fs).trans hv, keeps_refl v⟩

end Keeping

/-! ## Objects without the mark -/

section Marks

variable (marked : Json → Prop)

/-- The mark occurs in the value. -/
def Holds (v : Json) : Prop := ∃ p w, At (fun _ => True) v p w ∧ marked w

/-- In the value, and not inside a marked one, is an object in which the mark does not occur. -/
def Loose (v : Json) : Prop := ∃ p o, At (fun u => ¬marked u) v p o ∧ o.isObject ∧ ¬Holds marked o

variable {marked} {v : Json} {fs : List (String × Json)} {k : String}

theorem holds_of_marked (h : marked v) : Holds marked v := ⟨[], v, .here v, h⟩

theorem holds_obj (hk : getField k fs = some v) (h : Holds marked v) : Holds marked (.obj fs) := by
  obtain ⟨p, w, hw, hm⟩ := h
  exact ⟨_, w, .field trivial hk hw, hm⟩

theorem holds_arr {vs : List Json} (hv : v ∈ vs) (h : Holds marked v) : Holds marked (.arr vs) := by
  obtain ⟨p, w, hw, hm⟩ := h
  exact ⟨_, w, .item hv hw, hm⟩

theorem not_loose_of_marked (h : marked (.obj fs)) : ¬Loose marked (.obj fs) := by
  rintro ⟨p, o, _ | ⟨ht, -, -⟩ | _, -, hfree⟩
  · exact hfree (holds_of_marked h)
  · exact ht h

/-- An object without the mark is loose if the mark does not occur in it, or one of its values is. -/
theorem loose_obj_iff (h : ¬marked (.obj fs)) :
    Loose marked (.obj fs) ↔ ¬Holds marked (.obj fs) ∨ ∃ k v, getField k fs = some v ∧ Loose marked v := by
  constructor
  · rintro ⟨p, o, _ | ⟨-, hk, ho⟩ | _, hobj, hfree⟩
    · exact Or.inl hfree
    · exact Or.inr ⟨_, _, hk, _, o, ho, hobj, hfree⟩
  · rintro (hfree | ⟨k, v, hk, p, o, ho, hobj, hfree⟩)
    · exact ⟨[], _, .here _, rfl, hfree⟩
    · exact ⟨_, o, .field h hk ho, hobj, hfree⟩

/-- An object whose only field has a value is loose as that value is, and where the mark does not occur in it. -/
theorem loose_only_iff (hm : ¬marked (.obj fs)) (honly : ∀ f ∈ fs, f.1 = k) (hv : getField k fs = some v) :
    Loose marked (.obj fs) ↔ ¬Holds marked v ∨ Loose marked v := by
  have hvalue : ∀ {j u}, getField j fs = some u → u = v := by
    intro j u hj
    rw [eq_of_getField_of_only honly hj] at hj
    exact Option.some_inj.mp (hj.symm.trans hv)
  have hholds : Holds marked (.obj fs) ↔ Holds marked v := by
    refine ⟨?_, holds_obj hv⟩
    rintro ⟨p, w, _ | ⟨-, hj, hw⟩ | _, hmark⟩
    · exact absurd hmark hm
    · exact ⟨_, w, hvalue hj ▸ hw, hmark⟩
  rw [loose_obj_iff hm, hholds]
  refine or_congr_right ⟨?_, fun h => ⟨k, v, hv, h⟩⟩
  rintro ⟨j, u, hj, hu⟩
  exact hvalue hj ▸ hu

theorem not_holds_nil (hm : ¬marked (.obj [])) : ¬Holds marked (.obj []) := by
  rintro ⟨p, w, _ | ⟨-, hj, -⟩ | _, hmark⟩
  · exact hm hmark
  · cases hj

theorem loose_nil (hm : ¬marked (.obj [])) : Loose marked (.obj []) := ⟨[], _, .here _, rfl, not_holds_nil hm⟩

end Marks

/-! ## As many objects at every place -/

section Counting

variable {through : Json → Prop} [DecidablePred through] {v w : Json} {p : List Step}

theorem mem_valuesAt : w ∈ valuesAt through p v ↔ At through v p w := by
  induction p generalizing v with
  | nil =>
    rw [valuesAt, List.mem_singleton]
    constructor
    · rintro rfl
      exact .here w
    · rintro ⟨⟩
      rfl
  | cons s p ih =>
    constructor
    · intro h
      cases s <;> cases v <;> try exact absurd h List.not_mem_nil
      case key.obj k fs =>
        simp only [valuesAt] at h
        split_ifs at h with ht
        · split at h
          · next hk => exact .field ht hk (ih.mp h)
          · exact absurd h List.not_mem_nil
        · exact absurd h List.not_mem_nil
      case item.arr vs =>
        obtain ⟨u, hu, hw⟩ := List.mem_flatMap.mp h
        exact .item hu (ih.mp hw)
    · rintro (_ | ⟨ht, hk, hw⟩ | ⟨hu, hw⟩)
      · simp only [valuesAt, if_pos ht, hk]
        exact ih.mpr hw
      · exact List.mem_flatMap.mpr ⟨_, hu, ih.mpr hw⟩

theorem valuesAt_sublist (p : List Step) (v : Json) :
    (valuesAt through p v).Sublist (valuesAt (fun _ => True) p v) := by
  induction p generalizing v with
  | nil => exact List.Sublist.refl _
  | cons s p ih =>
    cases s <;> cases v <;> try exact List.Sublist.refl _
    case key.obj k fs =>
      simp only [valuesAt, if_true]
      split_ifs
      · split
        · exact ih _
        · exact List.Sublist.refl _
      · exact List.nil_sublist _
    case item.arr vs => exact List.Sublist.flatMap_right vs fun v _ => ih v

end Counting

section Sparing

variable (marked : Json → Prop) [DecidablePred marked]

open scoped Classical in
/-- How many objects are at a place in which the mark does not occur, and that are not inside a marked one. -/
noncomputable def freeAt (p : List Step) (v : Json) : ℕ :=
  (valuesAt (fun u => ¬marked u) p v).countP fun o => o.isObject ∧ ¬Holds marked o

def objectsAt (p : List Step) (v : Json) : ℕ := (valuesAt (fun _ => True) p v).countP isObject

/-- The objects of the one value in which the mark does not occur, and which are not inside a marked one, still have as many
objects at their place in the other. -/
def Spares (v w : Json) : Prop := ∀ p, freeAt marked p v ≤ objectsAt p w

/-- The same of a value that is taken out, or becomes another one. -/
def SparesAt (v : Json) : Option Json → Prop
  | none => ¬Loose marked v
  | some w => Spares marked v w

variable {marked} {v w : Json} {fs gs : List (String × Json)} {k : String}

theorem freeAt_le (p : List Step) (v : Json) : freeAt marked p v ≤ objectsAt p v := by
  classical
  exact (List.countP_mono_left fun o _ ho => (decide_eq_true_iff.mp ho).1).trans (valuesAt_sublist p v).countP_le

theorem loose_iff : Loose marked v ↔ ∃ p, 0 < freeAt marked p v := by
  classical
  constructor
  · rintro ⟨p, o, ho, hobj, hfree⟩
    exact ⟨p, List.countP_pos_iff.mpr ⟨o, mem_valuesAt.mpr ho, decide_eq_true_iff.mpr ⟨hobj, hfree⟩⟩⟩
  · rintro ⟨p, h⟩
    obtain ⟨o, ho, hfree⟩ := List.countP_pos_iff.mp h
    exact ⟨p, o, mem_valuesAt.mp ho, decide_eq_true_iff.mp hfree⟩

theorem freeAt_of_not_loose (h : ¬Loose marked v) (p : List Step) : freeAt marked p v = 0 :=
  Nat.eq_zero_of_not_pos fun hpos => h (loose_iff.mpr ⟨p, hpos⟩)

theorem freeAt_field (hm : ¬marked (.obj fs)) (hk : getField k fs = some v) (p : List Step) :
    freeAt marked (.key k :: p) (.obj fs) = freeAt marked p v := by
  simp only [freeAt, valuesAt, hm, hk, not_false_eq_true, if_true]

theorem freeAt_field_of_none (hk : getField k fs = none) (p : List Step) :
    freeAt marked (.key k :: p) (.obj fs) = 0 := by
  simp only [freeAt, valuesAt, hk, ite_self, List.countP_nil]

theorem objectsAt_field (hk : getField k fs = some v) (p : List Step) :
    objectsAt (.key k :: p) (.obj fs) = objectsAt p v := by
  simp only [objectsAt, valuesAt, hk, if_true]

theorem objectsAt_field_of_none (hk : getField k fs = none) (p : List Step) :
    objectsAt (.key k :: p) (.obj fs) = 0 := by
  simp only [objectsAt, valuesAt, hk, if_true, List.countP_nil]

theorem freeAt_cons (v : Json) (vs : List Json) (p : List Step) :
    freeAt marked (.item :: p) (.arr (v :: vs)) = freeAt marked p v + freeAt marked (.item :: p) (.arr vs) := by
  simp only [freeAt, valuesAt, List.flatMap_cons, List.countP_append]

theorem objectsAt_cons (v : Json) (vs : List Json) (p : List Step) :
    objectsAt (.item :: p) (.arr (v :: vs)) = objectsAt p v + objectsAt (.item :: p) (.arr vs) := by
  simp only [objectsAt, valuesAt, List.flatMap_cons, List.countP_append]

theorem spares_refl (v : Json) : Spares marked v v := fun p => freeAt_le p v

theorem spares_of_not_loose (h : ¬Loose marked v) (w : Json) : Spares marked v w := fun p => by
  rw [freeAt_of_not_loose h p]
  exact Nat.zero_le _

theorem spares_filter {vs : List Json} {keep : Json → Bool} (h : ∀ v ∈ vs, keep v = false → ¬Loose marked v) :
    Spares marked (.arr vs) (.arr (vs.filter keep)) := by
  rintro (_ | ⟨k | _, p⟩)
  · exact freeAt_le [] (.arr vs)
  · exact Nat.le_refl _
  · induction vs with
    | nil => exact Nat.le_refl _
    | cons v vs ih =>
      have hrest := ih fun u hu => h u (List.mem_cons_of_mem v hu)
      rw [freeAt_cons]
      by_cases hkeep : keep v = true
      · rw [List.filter_cons_of_pos hkeep, objectsAt_cons]
        exact Nat.add_le_add (freeAt_le p v) hrest
      · rw [List.filter_cons_of_neg hkeep,
          freeAt_of_not_loose (h v List.mem_cons_self (Bool.eq_false_iff.mpr hkeep)) p, Nat.zero_add]
        exact hrest

theorem spares_of_marked (h : marked (.obj fs)) (w : Json) : Spares marked (.obj fs) w :=
  spares_of_not_loose (not_loose_of_marked h) w

/-- An edit at one key spares what the edit of its value spares. -/
theorem spares_update_iff (hsame : ∀ j, j ≠ k → getField j gs = getField j fs) :
    Spares marked (.obj fs) (.obj gs) ↔
      marked (.obj fs) ∨ ∀ v, getField k fs = some v → SparesAt marked v (getField k gs) := by
  by_cases hm : marked (.obj fs)
  · exact iff_of_true (spares_of_marked hm _) (Or.inl hm)
  rw [or_iff_right hm]
  constructor
  · intro h v hv
    cases hw : getField k gs with
    | none =>
      intro hloose
      obtain ⟨p, hpos⟩ := loose_iff.mp hloose
      have hle := h (.key k :: p)
      rw [freeAt_field hm hv, objectsAt_field_of_none hw] at hle
      omega
    | some w =>
      intro p
      have hle := h (.key k :: p)
      rwa [freeAt_field hm hv, objectsAt_field hw] at hle
  · rintro h (_ | ⟨j | _, p⟩)
    · exact freeAt_le [] (.obj fs)
    · cases hv : getField j fs with
      | none =>
        rw [freeAt_field_of_none hv]
        exact Nat.zero_le _
      | some v =>
        rw [freeAt_field hm hv]
        by_cases hjk : j = k
        · subst hjk
          have hat := h v hv
          cases hw : getField j gs with
          | none =>
            rw [hw] at hat
            rw [freeAt_of_not_loose hat]
            exact Nat.zero_le _
          | some w =>
            rw [hw] at hat
            rw [objectsAt_field hw]
            exact hat p
        · rw [objectsAt_field ((hsame j hjk).trans hv)]
          exact freeAt_le p v
    · exact Nat.zero_le _

end Sparing

end Json

end AiMemory
