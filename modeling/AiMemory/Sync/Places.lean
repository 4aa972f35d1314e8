import AiMemory.Db.Convergence
import AiMemory.Sync.Records

/-!
# The memories of a push

What the memories of a body leave behind. A memory merges into the row of its title and namespace, makes that row, or is
refused because another row has its id; `placesAfter` says which, by ids and titles alone.
-/

namespace AiMemory

open Relational Convergence

/-! ## The memories of a body -/

/-- A memory this host merges, if its title and namespace are stored or its id is free. -/
def Host.CanMerge (h : Host) (m : Memory) : Prop := m.Valid h.rfc3339 ∧ h.insertFault m = false

instance (h : Host) (m : Memory) : Decidable (h.CanMerge m) := inferInstanceAs (Decidable (_ ∧ _))

def Host.merges (h : Host) (mems : List Memory) : List Memory := mems.filter fun m => h.CanMerge m

def ofKey (ms : List Memory) (k : String × String) : List Memory := ms.filter fun m => m.key = k

/-- The id of the row of a title and namespace, if it is stored or the first memory that has them makes it. -/
def rowId (db : Db) (ms : List Memory) (k : String × String) : Option String :=
  ((db.getKey k).map fun r => r.id).or ((ms.find? fun m => m.key = k).map fun m => m.id)

def Db.places (db : Db) : List (String × String × String) := db.memories.rows.map fun r => (r.id, r.key)

/-- A memory takes a place of its own if neither its id nor its title and namespace have one. -/
def place (ps : List (String × String × String)) (m : Memory) : List (String × String × String) :=
  if ps.any fun p => p.1 = m.id ∨ p.2 = m.key then ps else ps ++ [(m.id, m.key)]

/-- The places after the memories `ms`. -/
def placesAfter (db : Db) (ms : List Memory) : List (String × String × String) := ms.foldl place db.places

section Memories

variable {h : Host} {db : Db} {m : Memory} {ms : List Memory} {k : String × String} {r : MemoryRow} {i : String}

theorem mem_merges : m ∈ h.merges ms ↔ m ∈ ms ∧ h.CanMerge m := by
  simp [Host.merges, List.mem_filter]

theorem mem_ofKey : m ∈ ofKey ms k ↔ m ∈ ms ∧ m.key = k := by
  simp [ofKey, List.mem_filter]

theorem ofKey_cons_of_eq (hk : m.key = k) : ofKey (m :: ms) k = m :: ofKey ms k :=
  List.filter_cons_of_pos (by simpa using hk)

theorem ofKey_cons_of_ne (hk : m.key ≠ k) : ofKey (m :: ms) k = ofKey ms k :=
  List.filter_cons_of_neg (by simpa using hk)

theorem takeIn_eq_self (hm : ¬h.CanMerge m) : h.takeIn db m = db := by
  obtain ⟨id, hv, hf, -⟩ | ⟨he, -⟩ := takeIn_cases h db m
  · exact absurd ⟨hv, hf⟩ hm
  · exact he

theorem foldl_takeIn_merges (h : Host) (db : Db) (ms : List Memory) :
    ms.foldl h.takeIn db = (h.merges ms).foldl h.takeIn db := by
  induction ms generalizing db with
  | nil => rfl
  | cons m ms ih =>
    unfold Host.merges at ih ⊢
    rw [List.foldl_cons, ih]
    by_cases hm : h.CanMerge m
    · rw [List.filter_cons_of_pos (by simpa using hm), List.foldl_cons]
    · rw [List.filter_cons_of_neg (by simpa using hm), takeIn_eq_self hm]

/-- The three things a memory can do: merge into the row of its title and namespace, make that row, or be refused. -/
theorem takeIn_spec (hm : h.CanMerge m) (db : Db) :
    (∃ r, db.getKey m.key = some r ∧ db.insertIfNewer m = .ok (h.takeIn db m, r.id) ∧
      (h.takeIn db m).memories.rows = db.memories.rows.map fun x => if x.id = r.id then mergeNewer x m else x) ∨
    (db.getKey m.key = none ∧ db.get m.id = none ∧ db.insertIfNewer m = .ok (h.takeIn db m, m.id) ∧
      (h.takeIn db m).memories.rows = db.memories.rows ++ [m.toRow]) ∨
    (db.getKey m.key = none ∧ db.get m.id ≠ none ∧ h.takeIn db m = db) := by
  obtain ⟨id, -, -, hi⟩ | ⟨he, hskip⟩ := takeIn_cases h db m
  · obtain ⟨stored, hs, rfl, hdb⟩ | ⟨hnone, hget, rfl, t, ht, hdb⟩ := Db.insertOnConflict_cases hi
    · refine Or.inl ⟨stored, hs, hi, ?_⟩
      rw [hdb]
      rfl
    · refine Or.inr (Or.inl ⟨hnone, hget, hi, ?_⟩)
      rw [hdb]
      exact Indexed.insertNew?_rows ht
  · rcases hskip hm.1 with hfault | ⟨hkey, hid⟩
    · rw [hm.2] at hfault
      cases hfault
    · exact Or.inr (Or.inr ⟨hkey, hid, he⟩)

theorem getKey_takeIn_of_ne (hk : m.key ≠ k) : (h.takeIn db m).getKey k = db.getKey k := by
  obtain ⟨id, -, -, hi⟩ | ⟨he, -⟩ := takeIn_cases h db m
  · exact Db.getKey_insertOnConflict_of_ne hi (Ne.symm hk)
  · rw [he]

theorem getKey_takeIn_of_some (hm : h.CanMerge m) (hr : db.getKey m.key = some r) :
    (h.takeIn db m).getKey m.key = some (mergeNewer r m) := by
  obtain ⟨x, -, hi, -⟩ | ⟨hnone, -⟩ | ⟨hnone, -⟩ := takeIn_spec hm db
  · have hkey := Db.getKey_insertOnConflict hi
    rwa [hr] at hkey
  · rw [hr] at hnone
    cases hnone
  · rw [hr] at hnone
    cases hnone

theorem getKey_takeIn_of_none (hm : h.CanMerge m) (hnone : db.getKey m.key = none) :
    (h.takeIn db m).getKey m.key = if db.get m.id = none then some m.toRow else none := by
  obtain ⟨x, hx, -⟩ | ⟨-, hget, hi, -⟩ | ⟨-, hget, he⟩ := takeIn_spec hm db
  · rw [hnone] at hx
    cases hx
  · have hkey := Db.getKey_insertOnConflict hi
    rw [hnone] at hkey
    rw [if_pos hget]
    exact hkey
  · rw [if_neg hget, he, hnone]

/-! ### The rows of the titles -/

theorem getKey_foldl_of_some (hms : ∀ m ∈ ms, h.CanMerge m) (hr : db.getKey k = some r) :
    (ms.foldl h.takeIn db).getKey k = some ((ofKey ms k).foldl mergeNewer r) := by
  induction ms generalizing db r with
  | nil => exact hr
  | cons m ms ih =>
    have hrest : ∀ x ∈ ms, h.CanMerge x := fun x hx => hms x (List.mem_cons_of_mem m hx)
    by_cases hk : m.key = k
    · subst hk
      rw [List.foldl_cons, ih hrest (getKey_takeIn_of_some (hms m List.mem_cons_self) hr), ofKey_cons_of_eq rfl,
        List.foldl_cons]
    · rw [List.foldl_cons, ih hrest ((getKey_takeIn_of_ne hk).trans hr), ofKey_cons_of_ne hk]

theorem liveOn_foldl_takeIn (h : Host) (db : Db) (ms : List Memory) : db.LiveOn (ms.foldl h.takeIn db) :=
  Machine.foldl_induct (P := db.LiveOn) (fun d m _ hd => hd.trans (liveOn_takeIn h d m)) (.refl db)

/-- A memory that is refused does not make the row of its title later on: the row that has its id keeps its own title. -/
theorem id_ne_of_refused (hnone : db.getKey k = none) (htaken : db.get i ≠ none)
    (hr : (ms.foldl h.takeIn db).getKey k = some r) : r.id ≠ i := by
  intro hid
  obtain ⟨x, hmem, hxid⟩ := Db.get_ne_none_iff.mp htaken
  obtain ⟨x', hx', hid', hkey'⟩ := liveOn_foldl_takeIn h db ms x hmem
  obtain ⟨hrmem, hrkey⟩ := Db.getKey_eq_some.mp hr
  have hsame : x' = r := Indexed.eq_of_pk hx' hrmem (hid'.trans (hxid.trans hid.symm))
  have hxkey : x.key = k := hkey'.symm.trans ((congrArg (fun y : MemoryRow => y.key) hsame).trans hrkey)
  rw [← hxkey, Db.getKey_of_mem hmem] at hnone
  cases hnone

theorem rowId_takeIn_of_ne (hk : m.key ≠ k) : rowId (h.takeIn db m) ms k = rowId db (m :: ms) k := by
  unfold rowId
  rw [getKey_takeIn_of_ne hk, List.find?_cons_of_neg (by simpa using hk)]

theorem rowId_cons_self (hnone : db.getKey m.key = none) : rowId db (m :: ms) m.key = some m.id := by
  unfold rowId
  rw [hnone, List.find?_cons_of_pos (by simp)]
  rfl

/-- The row of a title and namespace that is stored, or that its first memory made, has all of its memories in it. -/
theorem getKey_foldl_of_rowId (hms : ∀ m ∈ ms, h.CanMerge m) (hr : (ms.foldl h.takeIn db).getKey k = some r)
    (hid : rowId db ms k = some r.id) : mergeAll (db.getKey k) (ofKey ms k) = some r := by
  induction ms generalizing db with
  | nil => exact hr
  | cons m ms ih =>
    have hm := hms m List.mem_cons_self
    have hrest : ∀ x ∈ ms, h.CanMerge x := fun x hx => hms x (List.mem_cons_of_mem m hx)
    cases hs : db.getKey k with
    | some stored =>
      rw [mergeAll_some, ← hr, getKey_foldl_of_some hms hs]
    | none =>
      rw [List.foldl_cons] at hr
      by_cases hk : m.key = k
      · subst hk
        have hmid : m.id = r.id := Option.some.inj ((rowId_cons_self hs).symm.trans hid)
        have hfree : db.get m.id = none := by
          by_contra htaken
          rw [← List.foldl_cons (f := h.takeIn)] at hr
          exact id_ne_of_refused hs htaken hr hmid.symm
        have hmade := getKey_takeIn_of_none hm hs
        rw [if_pos hfree] at hmade
        rw [ofKey_cons_of_eq rfl, mergeAll_none_cons, ← hr, getKey_foldl_of_some hrest hmade]
      · rw [ofKey_cons_of_ne hk, ← ih hrest hr ((rowId_takeIn_of_ne hk).trans hid), getKey_takeIn_of_ne hk, hs]

/-- The memories of a new title and namespace make their row under their id, if they all have that one and no memory of
another new title has it. -/
theorem getKey_foldl_of_free (hms : ∀ m ∈ ms, h.CanMerge m) (hkey : db.getKey k = none) (hget : db.get i = none)
    (hids : ∀ x ∈ ms, x.key = k → x.id = i) (halone : ∀ x ∈ ms, x.id = i → x.key = k ∨ db.getKey x.key ≠ none) :
    (ms.foldl h.takeIn db).getKey k = mergeAll none (ofKey ms k) := by
  induction ms generalizing db with
  | nil => exact hkey
  | cons m ms ih =>
    have hm := hms m List.mem_cons_self
    have hrest : ∀ x ∈ ms, h.CanMerge x := fun x hx => hms x (List.mem_cons_of_mem m hx)
    rw [List.foldl_cons]
    by_cases hk : m.key = k
    · subst hk
      have hmade := getKey_takeIn_of_none hm hkey
      rw [hids m List.mem_cons_self rfl, if_pos hget] at hmade
      rw [getKey_foldl_of_some hrest hmade, ofKey_cons_of_eq rfl, mergeAll_none_cons]
    · rw [ofKey_cons_of_ne hk]
      refine ih hrest ((getKey_takeIn_of_ne hk).trans hkey) ?_ (fun x hx => hids x (List.mem_cons_of_mem m hx))
        fun x hx hid => (halone x (List.mem_cons_of_mem m hx) hid).imp_right (liveOn_takeIn h db m).getKey_ne_none
      obtain ⟨r, -, hi, -⟩ | ⟨hnone, -, hi, -⟩ | ⟨-, -, he⟩ := takeIn_spec hm db
      · exact Db.get_insertOnConflict_eq_none hi hget fun hnone hid =>
          (halone m List.mem_cons_self hid).elim hk (absurd hnone)
      · exact Db.get_insertOnConflict_eq_none hi hget fun _ hid =>
          (halone m List.mem_cons_self hid).elim hk (absurd hnone)
      · rwa [he]

/-! ### The places -/

theorem mem_places : (i, k) ∈ db.places ↔ ∃ r, db.getKey k = some r ∧ r.id = i := by
  unfold Db.places
  rw [List.mem_map]
  constructor
  · rintro ⟨r, hr, he⟩
    cases he
    exact ⟨r, Db.getKey_of_mem hr, rfl⟩
  · rintro ⟨r, hr, rfl⟩
    obtain ⟨hmem, rfl⟩ := Db.getKey_eq_some.mp hr
    exact ⟨r, hmem, rfl⟩

theorem exists_mem_places : (∃ k, (i, k) ∈ db.places) ↔ db.get i ≠ none := by
  simp only [mem_places]
  rw [Option.ne_none_iff_exists']
  constructor
  · rintro ⟨k, r, hr, rfl⟩
    exact ⟨r, Db.get_of_mem (Db.getKey_eq_some.mp hr).1⟩
  · rintro ⟨r, hr⟩
    obtain ⟨hmem, rfl⟩ := Db.get_eq_some.mp hr
    exact ⟨r.key, r, Db.getKey_of_mem hmem, rfl⟩

theorem eq_of_mem_places {k' : String × String} (hk : (i, k) ∈ db.places) (hk' : (i, k') ∈ db.places) : k = k' := by
  obtain ⟨r, hr, hid⟩ := mem_places.mp hk
  obtain ⟨r', hr', hid'⟩ := mem_places.mp hk'
  obtain ⟨hmem, rfl⟩ := Db.getKey_eq_some.mp hr
  obtain ⟨hmem', rfl⟩ := Db.getKey_eq_some.mp hr'
  rw [Indexed.eq_of_pk hmem hmem' (hid.trans hid'.symm)]

theorem places_takeIn (hm : h.CanMerge m) (db : Db) : (h.takeIn db m).places = place db.places m := by
  have hany : (db.places.any fun p => p.1 = m.id ∨ p.2 = m.key) = true ↔ db.getKey m.key ≠ none ∨ db.get m.id ≠ none := by
    rw [List.any_eq_true, Option.ne_none_iff_exists', ← exists_mem_places]
    constructor
    · rintro ⟨⟨i, k⟩, hp, hor⟩
      rcases of_decide_eq_true hor with rfl | rfl
      · exact Or.inr ⟨k, hp⟩
      · obtain ⟨r, hr, -⟩ := mem_places.mp hp
        exact Or.inl ⟨r, hr⟩
    · rintro (⟨r, hr⟩ | ⟨k, hp⟩)
      · exact ⟨(r.id, m.key), mem_places.mpr ⟨r, hr, rfl⟩, by simp⟩
      · exact ⟨(m.id, k), hp, by simp⟩
  unfold place
  obtain ⟨r, hr, -, hrows⟩ | ⟨hnone, hget, -, hrows⟩ | ⟨-, hget, he⟩ := takeIn_spec hm db
  · rw [if_pos (hany.mpr (Or.inl (by rw [hr]; exact Option.some_ne_none r)))]
    unfold Db.places
    rw [hrows, List.map_map]
    refine List.map_congr_left fun x _ => ?_
    rw [Function.comp]
    split_ifs <;> rfl
  · rw [if_neg (fun hc => (hany.mp hc).elim (absurd hnone) (absurd hget))]
    unfold Db.places
    rw [hrows, List.map_append]
    rfl
  · rw [if_pos (hany.mpr (Or.inr hget)), he]

theorem places_foldl_takeIn (hms : ∀ m ∈ ms, h.CanMerge m) (db : Db) :
    (ms.foldl h.takeIn db).places = placesAfter db ms := by
  unfold placesAfter
  induction ms generalizing db with
  | nil => rfl
  | cons m ms ih =>
    rw [List.foldl_cons, ih (fun x hx => hms x (List.mem_cons_of_mem m hx)), places_takeIn (hms m List.mem_cons_self),
      List.foldl_cons]

theorem mem_placesAfter {p : String × String × String} (hp : p ∈ placesAfter db ms) :
    p ∈ db.places ∨ ∃ m ∈ ms, p = (m.id, m.key) := by
  refine Machine.foldl_induct (P := fun ps => p ∈ ps → p ∈ db.places ∨ ∃ m ∈ ms, p = (m.id, m.key))
    (fun ps m hm hps hp => ?_) Or.inl hp
  unfold place at hp
  split_ifs at hp
  · exact hps hp
  · exact (List.mem_append.mp hp).elim hps fun hnew => Or.inr ⟨m, hm, List.mem_singleton.mp hnew⟩

theorem places_subset (db : Db) (ms : List Memory) : db.places ⊆ placesAfter db ms :=
  Machine.foldl_induct (P := fun ps => db.places ⊆ ps) (fun ps m _ hps p hp => by
    unfold place
    split_ifs
    · exact hps hp
    · exact List.mem_append_left _ (hps hp)) fun _ hp => hp

variable {f : String → Bool}

/-- The ids that are kept have the places of before, if every memory with such an id finds its id or its title there. -/
theorem filter_placesAfter
    (hms : ∀ m ∈ ms, f m.id → ∃ p ∈ db.places, p.1 = m.id ∨ p.2 = m.key) :
    (placesAfter db ms).filter (fun p => f p.1) = db.places.filter fun p => f p.1 := by
  refine (Machine.foldl_induct (P := fun ps => db.places ⊆ ps ∧
    ps.filter (fun p => f p.1) = db.places.filter fun p => f p.1) (fun ps m hm hps => ?_) ⟨fun _ hp => hp, rfl⟩).2
  unfold place
  split_ifs with hany
  · exact hps
  · refine ⟨fun p hp => List.mem_append_left _ (hps.1 hp), ?_⟩
    have hout : f m.id = false := by
      by_contra hf
      obtain ⟨p, hp, hor⟩ := hms m hm (by simpa using hf)
      exact hany (List.any_eq_true.mpr ⟨p, hps.1 hp, decide_eq_true hor⟩)
    rw [List.filter_append, hps.2, List.filter_cons_of_neg (by simpa using hout), List.filter_nil, List.append_nil]

/-! ### The embeddings -/

def embeddingText (m : Memory) : String := m.title ++ " " ++ m.content

/-- The embedding a memory asks for: that of the row it is in, if it was taken in. -/
def Host.asks (h : Host) (db : Db) (m : Memory) : Option (String × String) :=
  if h.CanMerge m then ((h.takeIn db m).getKey m.key).map fun r => (r.id, embeddingText m) else none

theorem memory_embeddingRefresh (s : Push) (m : Memory) :
    (Push.memory h false s m).embeddingRefresh = s.embeddingRefresh ++ (h.asks s.db m).toList := by
  unfold Host.asks
  by_cases hm : h.CanMerge m
  · have hv : Accepts (Validate.validateMemory h.rfc3339 m) := hm.1
    have hins : h.insertIfNewer s.db m = s.db.insertIfNewer m := by
      unfold Host.insertIfNewer
      rw [hm.2]
      rfl
    rw [if_pos hm]
    unfold Push.memory
    simp only [hv, not_true, if_false, Bool.false_eq_true]
    obtain ⟨r, hr, hi, -⟩ | ⟨hnone, hget, hi, -⟩ | ⟨hnone, hget, he⟩ := takeIn_spec hm s.db
    · rw [getKey_takeIn_of_some hm hr]
      rw [hi] at hins
      split_ifs <;> rw [hins] <;> rfl
    · rw [getKey_takeIn_of_none hm hnone, if_pos hget]
      rw [hi] at hins
      split_ifs <;> rw [hins] <;> rfl
    · obtain ⟨e, herr⟩ : ∃ e, s.db.insertIfNewer m = .error e := Db.insertOnConflict_error_iff.mpr ⟨hnone, hget⟩
      rw [he, hnone]
      rw [herr] at hins
      split_ifs <;> rw [hins] <;> exact (List.append_nil _).symm
  · rw [if_neg hm]
    refine Eq.trans ?_ (List.append_nil _).symm
    unfold Push.memory
    by_cases hv : Accepts (Validate.validateMemory h.rfc3339 m)
    · simp only [hv, not_true, if_false, Bool.false_eq_true]
      have hf : h.insertFault m = true := by
        by_contra hf
        exact hm ⟨hv, by simpa using hf⟩
      have hins : ∃ e, h.insertIfNewer s.db m = .error e := ⟨_, if_pos hf⟩
      obtain ⟨e, he⟩ := hins
      split_ifs <;> rw [he] <;> rfl
    · rw [if_pos hv]
      rfl

/-- What a memory asks for, read off the rows at the end, up to rows that do not matter. -/
theorem filter_asks (hm : h.CanMerge m) (hnew : db.getKey m.key = none → ∀ r,
      (ms.foldl h.takeIn (h.takeIn db m)).getKey m.key = some r → f r.id → r.id = m.id) :
    ((h.asks db m).filter fun row => f row.1) =
      (((ms.foldl h.takeIn (h.takeIn db m)).getKey m.key).filter fun r => f r.id).map fun r =>
        (r.id, embeddingText m) := by
  unfold Host.asks
  rw [if_pos hm]
  cases hx : (h.takeIn db m).getKey m.key with
  | some x =>
    obtain ⟨hmem, hkey⟩ := Db.getKey_eq_some.mp hx
    obtain ⟨r, hr, hrid, hrkey⟩ := liveOn_foldl_takeIn h _ ms x hmem
    rw [← hkey, ← hrkey, Db.getKey_of_mem hr, Option.map_some, Option.filter_some, Option.filter_some, hrid]
    split_ifs
    · rw [Option.map_some, hrid]
    · rfl
  | none =>
    obtain ⟨r, hr, -⟩ | ⟨hnone, hget, -⟩ | ⟨hnone, htaken, he⟩ := takeIn_spec hm db
    · rw [getKey_takeIn_of_some hm hr] at hx
      cases hx
    · rw [getKey_takeIn_of_none hm hnone, if_pos hget] at hx
      cases hx
    · cases hr : (ms.foldl h.takeIn (h.takeIn db m)).getKey m.key with
      | none => rfl
      | some r =>
        have hlost : f r.id = false := by
          by_contra hf
          have hid := hnew hnone r hr (by simpa using hf)
          rw [he] at hr
          exact id_ne_of_refused hnone htaken hr hid
        rw [Option.filter_some_neg (by simpa using hlost)]
        rfl

/-- The embeddings the memories of a body ask for, up to rows that do not matter, where no title that does is made by a
memory that is not its first. -/
theorem embeddingRefresh_foldl_memory {s : Push} (hfirst : ∀ m ∈ h.merges ms, ∀ r,
      (ms.foldl h.takeIn s.db).getKey m.key = some r → f r.id → rowId s.db (h.merges ms) m.key = some r.id) :
    ((ms.foldl (Push.memory h false) s).embeddingRefresh.filter fun row => f row.1) =
      (s.embeddingRefresh.filter fun row => f row.1) ++ (h.merges ms).filterMap fun m =>
        (((ms.foldl h.takeIn s.db).getKey m.key).filter fun r => f r.id).map fun r => (r.id, embeddingText m) := by
  induction ms generalizing s with
  | nil => exact (List.append_nil _).symm
  | cons m ms ih =>
    rw [List.foldl_cons, List.foldl_cons]
    rw [List.foldl_cons] at hfirst
    by_cases hm : h.CanMerge m
    · have hcons : h.merges (m :: ms) = m :: h.merges ms := List.filter_cons_of_pos (by simpa using hm)
      rw [hcons] at hfirst ⊢
      have hself := hfirst m List.mem_cons_self
      rw [ih fun y hy r hr hf => ?_, memory_embeddingRefresh, List.filter_append, List.append_assoc,
        List.filterMap_cons, Push.memory_db, ← filter_asks hm fun hnone r hr hf =>
          (Option.some.inj ((rowId_cons_self hnone).symm.trans (hself r hr hf))).symm]
      · cases h.asks s.db m with
        | none => rfl
        | some row => cases hf : f row.1 <;> simp [Option.filter, hf]
      · rw [Push.memory_db] at hr ⊢
        by_cases hk : m.key = y.key
        · unfold rowId
          rw [← hk] at hr ⊢
          cases hx : (h.takeIn s.db m).getKey m.key with
          | some x =>
            obtain ⟨hmem, hkey⟩ := Db.getKey_eq_some.mp hx
            obtain ⟨r', hr', hrid, hrkey⟩ := liveOn_foldl_takeIn h _ ms x hmem
            rw [← hkey, ← hrkey, Db.getKey_of_mem hr', Option.some.injEq] at hr
            rw [← hr, hrid]
            rfl
          | none =>
            obtain ⟨x, hx', -⟩ | ⟨hnone, hget, -⟩ | ⟨hnone, htaken, he⟩ := takeIn_spec hm s.db
            · rw [getKey_takeIn_of_some hm hx'] at hx
              cases hx
            · rw [getKey_takeIn_of_none hm hnone, if_pos hget] at hx
              cases hx
            · have hid := Option.some.inj ((rowId_cons_self hnone).symm.trans (hself r hr hf))
              rw [he] at hr
              exact absurd hid.symm (id_ne_of_refused hnone htaken hr)
        · rw [rowId_takeIn_of_ne hk]
          exact hfirst y (List.mem_cons_of_mem m hy) r hr hf
    · have hcons : h.merges (m :: ms) = h.merges ms := List.filter_cons_of_neg (by simpa using hm)
      have hdb : (Push.memory h false s m).db = s.db := by rw [Push.memory_db, takeIn_eq_self hm]
      have hasks : (Push.memory h false s m).embeddingRefresh = s.embeddingRefresh := by
        rw [memory_embeddingRefresh, Host.asks, if_neg hm]
        exact List.append_nil _
      rw [hcons, takeIn_eq_self hm] at hfirst
      rw [hcons, ih (by rwa [hdb]), hasks, hdb, takeIn_eq_self hm]

/-- A memory writes the table `memories` only. -/
theorem takeIn_frame (h : Host) (db : Db) (m : Memory) :
    h.takeIn db m = { db with memories := (h.takeIn db m).memories } := by
  obtain ⟨id, -, -, hi⟩ | ⟨he, -⟩ := takeIn_cases h db m
  · exact Db.insertOnConflict_frame hi
  · rw [he]

theorem foldl_takeIn_frame (h : Host) (db : Db) (ms : List Memory) :
    ms.foldl h.takeIn db = { db with memories := (ms.foldl h.takeIn db).memories } := by
  refine Machine.foldl_induct (P := fun d : Db => d = { db with memories := d.memories }) (fun d m _ hd => ?_) rfl
  calc h.takeIn d m = { d with memories := (h.takeIn d m).memories } := takeIn_frame h d m
    _ = { db with memories := (h.takeIn d m).memories } := by
      generalize (h.takeIn d m).memories = memories
      rw [hd]

end Memories

end AiMemory
