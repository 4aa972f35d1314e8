import AiMemory.Db.Chain
import AiMemory.Db.LongTier
import AiMemory.Recall.Similarity

/-!
# One embedding width a namespace

`set_embedding` refuses a vector whose width is not that of the namespace. Rows with an embedding also enter a namespace
by `update`, which may rename it, and by `restore_archived`; neither looks at the width. So the rows of every namespace
keep one width along a run exactly when its moves and restores bring fitting rows (`widths_iff_meets`).
-/

namespace AiMemory

open Relational Recall LongTier

namespace Db

/-- A row that `dim_violations` counts. -/
def isDimViolation (r : MemoryRow) : Bool :=
  r.embedding.any fun blob =>
    let size : ℤ := blob.length
    4 ≤ size && (r.embeddingDim.isNone || r.embeddingDim.any fun dim =>
      (size % 4 = 0 && dim ≠ size / 4) || (size % 4 = 1 && dim ≠ (size - 1) / 4) || (size % 4 ∉ [0, 1]))

def dimViolations (db : Db) : ℕ := (db.memories.rows.filter isDimViolation).length

end Db

namespace Widths

/-- The operations of a run. -/
inductive Op (F : Type) where
  | insert (mem : Memory)
  | insertIfNewer (mem : Memory)
  | setEmbedding (id : String) (embedding : List F)
  | update (id : String) (u : UpdateMemory) (now : String)
  | archiveMemory (id : String) (reason : Option String) (now : String)
  | restoreArchived (id now : String)
  | promoteToNamespace (sourceId toNamespace newId now : String)
  | consolidate (ids : List String) (title summary ns : String) (tier : Tier)
      (source consolidatorAgentId newId now : String)
  | delete (id : String)

variable {F : Type} (toLeBytes : F → UInt8 × UInt8 × UInt8 × UInt8)

def step (db : Db) : Op F → Db
  | .insert mem => settle db (db.insert mem)
  | .insertIfNewer mem => settle db (db.insertIfNewer mem)
  | .setEmbedding id embedding =>
    match db.setEmbedding id (encodeEmbeddingBlob toLeBytes embedding) embedding.length with
    | .ok db' => db'
    | .error _ => db
  | .update id u now => settle db (db.update id u now)
  | .archiveMemory id reason now => (db.archiveMemory id reason now).1
  | .restoreArchived id now => settle db (db.restoreArchived id now)
  | .promoteToNamespace sourceId toNs newId now => settle db (db.promoteToNamespace sourceId toNs newId now)
  | .consolidate ids title summary ns tier source agent newId now =>
    settle db (db.consolidate ids title summary ns tier source agent newId now)
  | .delete id => (db.delete id).1

/-- The embedded rows of a namespace have one width. -/
def OneWidth (db : Db) : Prop :=
  ∀ r ∈ db.memories, ∀ r' ∈ db.memories, r.ns = r'.ns → ∀ d d', r.embeddingDim = some d → r'.embeddingDim = some d' →
    d = d'

/-- The property: one width a namespace, and every embedding has the width of its row. -/
structure Uniform (fromLeBytes : UInt8 → UInt8 → UInt8 → UInt8 → F) (db : Db) : Prop where
  oneWidth : OneWidth db
  decodes : ∀ r ∈ db.memories, ∀ blob, r.embedding = some blob → ∃ v, decodeEmbeddingBlob fromLeBytes blob = .ok v ∧
    (v ≠ [] → r.embeddingDim = some (v.length : ℤ))
  noViolations : db.dimViolations = 0

/-- A row of width `d` under `id` would fit into the namespace. -/
def Fits (db : Db) (id ns : String) (d : ℤ) : Prop :=
  ∀ r ∈ db.memories, r.id ≠ id → r.ns = ns → ∀ d', r.embeddingDim = some d' → d' = d

/-- An update that is not refused for its title leaves its row where it fits, and so does a restore that is not refused
for its id or its title. -/
def StepOk (db : Db) : Op F → Prop
  | .update id u _ => ∀ existing, db.get id = some existing → ¬db.Collides existing u →
      ∀ d, existing.embeddingDim = some d → Fits db id (u.ns.getD existing.ns) d
  | .restoreArchived id _ => ∀ a, db.archived.find id = some a → db.get id = none → db.getKey a.key = none →
      ∀ d, a.embeddingDim = some d → Fits db id a.ns d
  | _ => True

/-- The columns are those of no embedding, or those `set_embedding` writes. -/
def Written (embedding : Option (List UInt8)) (dim : Option ℤ) : Prop :=
  embedding = none ∧ dim = none ∨ ∃ v : List F, embedding = some (encodeEmbeddingBlob toLeBytes v) ∧
    dim = if v = [] then none else some (v.length : ℤ)

/-- The invariant of a run. -/
structure Inv (db : Db) : Prop where
  oneWidth : OneWidth db
  live : ∀ r ∈ db.memories, Written toLeBytes r.embedding r.embeddingDim
  archived : ∀ a ∈ db.archived, Written toLeBytes a.embedding a.embeddingDim

section Rows

variable {toLeBytes} {db db' : Db} {id now : String}

theorem written_none : Written toLeBytes none none := Or.inl ⟨rfl, rfl⟩

theorem not_isDimViolation {r : MemoryRow} (h : Written toLeBytes r.embedding r.embeddingDim) :
    Db.isDimViolation r = false := by
  rcases h with ⟨hemb, -⟩ | ⟨v, hemb, hdim⟩
  · rw [Db.isDimViolation, hemb]
    rfl
  · rw [Db.isDimViolation, hemb, hdim]
    by_cases hv : v = []
    · subst hv
      rfl
    · have hlen : ((encodeEmbeddingBlob toLeBytes v).length : ℤ) = 4 * v.length + 1 := by
        rw [length_encodeEmbeddingBlob]
        rfl
      have hmod : (4 * (v.length : ℤ) + 1) % 4 = 1 := by omega
      simp [if_neg hv, hlen, hmod]

theorem Inv.uniform (h : Inv toLeBytes db) (fromLeBytes : UInt8 → UInt8 → UInt8 → UInt8 → F) :
    Uniform fromLeBytes db where
  oneWidth := h.oneWidth
  decodes := by
    intro r hr blob hblob
    rcases h.live r hr with ⟨hemb, -⟩ | ⟨v, hemb, hdim⟩
    · rw [hemb] at hblob
      cases hblob
    · rw [hemb] at hblob
      cases hblob
      refine ⟨_, decode_encode toLeBytes v, fun hne => ?_⟩
      rw [List.length_map, hdim, if_neg (by rintro rfl; exact hne rfl)]
  noViolations := by
    rw [Db.dimViolations, List.length_eq_zero_iff, List.filter_eq_nil_iff]
    intro r hr
    rw [not_isDimViolation (h.live r hr)]
    exact Bool.false_ne_true

/-- Every row of `db'` has no embedding, or has the columns of a row of `db` in the same namespace. -/
def Carried (db db' : Db) : Prop :=
  ∀ x ∈ db'.memories, x.embedding = none ∧ x.embeddingDim = none ∨
    ∃ r ∈ db.memories, r.ns = x.ns ∧ r.embedding = x.embedding ∧ r.embeddingDim = x.embeddingDim

theorem Inv.carried (h : Inv toLeBytes db) (hc : Carried db db')
    (harch : ∀ a ∈ db'.archived, Written toLeBytes a.embedding a.embeddingDim) : Inv toLeBytes db' where
  oneWidth := by
    intro x hx y hy hns d d' hd hd'
    rcases hc x hx with ⟨-, hnone⟩ | ⟨r, hr, hrns, -, hrdim⟩
    · rw [hnone] at hd
      cases hd
    · rcases hc y hy with ⟨-, hnone⟩ | ⟨r', hr', hrns', -, hrdim'⟩
      · rw [hnone] at hd'
        cases hd'
      · exact h.oneWidth r hr r' hr' (hrns.trans (hns.trans hrns'.symm)) d d' (hrdim.trans hd) (hrdim'.trans hd')
  live := by
    intro x hx
    rcases hc x hx with ⟨hemb, hdim⟩ | ⟨r, hr, -, hemb, hdim⟩
    · rw [hemb, hdim]
      exact written_none
    · rw [← hemb, ← hdim]
      exact h.live r hr
  archived := harch

theorem Carried.refl (db : Db) : Carried db db := fun x hx => Or.inr ⟨x, hx, rfl, rfl, rfl⟩

/-- Every row of `db` but that of `id` is a row of `db'`, and `x` stands under `id`. -/
structure Replaces (db db' : Db) (id : String) (x : MemoryRow) : Prop where
  id_eq : x.id = id
  mem_iff : ∀ y, y ∈ db'.memories ↔ y = x ∨ y ∈ db.memories ∧ y.id ≠ id

theorem Replaces.oneWidth_iff {x : MemoryRow} (h : Replaces db db' id x) (hdb : OneWidth db) :
    OneWidth db' ↔ ∀ d, x.embeddingDim = some d → Fits db id x.ns d := by
  constructor
  · intro hdb' d hd r hr hid hns d' hd'
    exact hdb' r ((h.mem_iff r).mpr (Or.inr ⟨hr, hid⟩)) x ((h.mem_iff x).mpr (Or.inl rfl)) hns d' d hd' hd
  · intro hfits y hy z hz hns d d' hd hd'
    rcases (h.mem_iff y).mp hy with rfl | ⟨hy, hyid⟩
    · rcases (h.mem_iff z).mp hz with rfl | ⟨hz, hzid⟩
      · exact Option.some.inj (hd.symm.trans hd')
      · exact (hfits d hd z hz hzid hns.symm d' hd').symm
    · rcases (h.mem_iff z).mp hz with rfl | ⟨hz, hzid⟩
      · exact hfits d' hd' y hy hyid hns d hd
      · exact hdb y hy z hz hns d d' hd hd'

theorem Inv.replaces {x : MemoryRow} (h : Inv toLeBytes db) (hr : Replaces db db' id x)
    (hx : Written toLeBytes x.embedding x.embeddingDim) (hfits : ∀ d, x.embeddingDim = some d → Fits db id x.ns d)
    (harch : ∀ a ∈ db'.archived, a ∈ db.archived) : Inv toLeBytes db' where
  oneWidth := (hr.oneWidth_iff h.oneWidth).mpr hfits
  live := by
    intro y hy
    rcases (hr.mem_iff y).mp hy with rfl | ⟨hy, -⟩
    · exact hx
    · exact h.live y hy
  archived := fun a ha => h.archived a (harch a ha)

/-! ## The upserts, and what only takes rows away -/

theorem Inv.insertOnConflict {mem : Memory} {merge : MemoryRow → MemoryRow} {hid : ∀ r, (merge r).id = r.id}
    {hkey : ∀ r, (merge r).key = r.key} (h : Inv toLeBytes db)
    (hi : db.insertOnConflict mem merge hid hkey = .ok (db', id))
    (hcols : ∀ r, (merge r).embedding = r.embedding ∧ (merge r).embeddingDim = r.embeddingDim) :
    Inv toLeBytes db' := by
  refine h.carried (fun x hx => ?_) fun a ha => ?_
  · rcases Db.mem_insertOnConflict hi hx with hold | ⟨r, hr, -, rfl⟩ | rfl
    · exact Carried.refl db x hold
    · have hns : (merge r).ns = r.ns := congrArg Prod.snd (hkey r)
      exact Or.inr ⟨r, hr, hns.symm, (hcols r).1.symm, (hcols r).2.symm⟩
    · exact Or.inl ⟨rfl, rfl⟩
  · rw [Db.insertOnConflict_frame hi] at ha
    exact h.archived a ha

theorem Inv.delete (h : Inv toLeBytes db) (id : String) : Inv toLeBytes (db.delete id).1 :=
  h.carried (fun x hx => Carried.refl db x (Db.mem_deleteMemories.mp hx).1) h.archived

theorem Inv.archiveMemory {reason : Option String} (h : Inv toLeBytes db) :
    Inv toLeBytes (db.archiveMemory id reason now).1 := by
  unfold Db.archiveMemory
  split_ifs
  · exact h
  · refine h.carried (fun x hx => Carried.refl db x (Db.mem_deleteMemories.mp hx).1) fun a ha => ?_
    rcases Db.mem_archived_archiveWhere (fun _ => rfl) ha with hold | ⟨r, hr, rfl⟩
    · exact h.archived a hold
    · exact h.live r hr

theorem Inv.consolidate {ids : List String} {title summary ns source agent newId : String} {tier : Tier}
    (h : Inv toLeBytes db) (hc : db.consolidate ids title summary ns tier source agent newId now = .ok (db', id)) :
    Inv toLeBytes db' := by
  obtain ⟨c, t, ht, rfl⟩ := Db.consolidate_cases hc
  refine h.carried (fun x hx => ?_) fun a ha => ?_
  · rcases (Indexed.mem_insertNew? ht).mp (Db.mem_foldl_delete hx) with hold | rfl
    · exact Carried.refl db x hold
    · exact Or.inl ⟨rfl, rfl⟩
  · rw [Db.archived_foldl_delete] at ha
    exact h.archived a ha

/-! ## Rows that get a width or a namespace -/

theorem replaces_update {u : UpdateMemory} {existing : MemoryRow} {changed : Bool} (hget : db.get id = some existing)
    (hu : db.update id u now = .ok (db', true, changed)) : Replaces db db' id (applyUpdate u now existing) := by
  obtain ⟨hin, rfl⟩ := Db.get_eq_some.mp hget
  obtain ⟨hnone, -, -⟩ | ⟨e, he, -, -, hrows⟩ := Db.update_cases hu
  · rw [hget] at hnone
    cases hnone
  · refine ⟨rfl, fun y => ?_⟩
    rw [Indexed.mem_def, hrows, List.mem_map]
    constructor
    · rintro ⟨r, hr, rfl⟩
      split_ifs with hid
      · exact Or.inl (by rw [Indexed.eq_of_pk hr hin hid])
      · exact Or.inr ⟨hr, hid⟩
    · rintro (rfl | ⟨hy, hid⟩)
      · exact ⟨existing, hin, if_pos rfl⟩
      · exact ⟨y, hy, if_neg hid⟩

theorem replaces_restore {a : ArchivedRow} {t : Memories} (hnone : db.get id = none) (ha : db.archived.find id = some a)
    (ht : db.memories.insertNew? (restoreRow now a) = some t) (archived : Table fun a : ArchivedRow => a.id) :
    Replaces db { db with memories := t, archived } id (restoreRow now a) := by
  refine ⟨(Table.find_eq_some.mp ha).2, fun y => ?_⟩
  rw [Indexed.mem_insertNew? ht, or_comm]
  refine or_congr_right (and_iff_left_of_imp fun hy hid => ?_).symm
  rw [← hid, Db.get_of_mem hy] at hnone
  cases hnone

theorem replaces_writeEmbedding {r : MemoryRow} (hget : db.get id = some r) (blob : List UInt8) (dim : Option ℤ) :
    Replaces db (db.writeEmbedding id blob dim) id { r with embedding := some blob, embeddingDim := dim } := by
  obtain ⟨hin, rfl⟩ := Db.get_eq_some.mp hget
  refine ⟨rfl, fun y => ?_⟩
  rw [Db.writeEmbedding, Db.mem_updateRow]
  constructor
  · rintro ⟨r', hr', rfl⟩
    split_ifs with hid
    · exact Or.inl (by rw [Indexed.eq_of_pk hr' hin hid])
    · exact Or.inr ⟨hr', hid⟩
  · rintro (rfl | ⟨hy, hid⟩)
    · exact ⟨r, hin, if_pos rfl⟩
    · exact ⟨y, hy, if_neg hid⟩

theorem namespaceEmbeddingDim_of_mem (h : Inv toLeBytes db) {r : MemoryRow} (hr : r ∈ db.memories) {d : ℤ}
    (hd : r.embeddingDim = some d) : ∃ n, db.namespaceEmbeddingDim r.ns = some n ∧ (n : ℤ) = d := by
  obtain ⟨x, hx⟩ : ∃ x, db.memories.rows.find? (fun x => x.ns = r.ns ∧ x.embeddingDim.isSome) = some x :=
    Option.isSome_iff_exists.mp (List.find?_isSome.mpr ⟨r, hr, by simp [hd]⟩)
  have hxin : x ∈ db.memories := List.mem_of_find?_eq_some hx
  have hxp := List.find?_some hx
  simp only [Bool.decide_and, Bool.and_eq_true, decide_eq_true_eq, Bool.decide_eq_true] at hxp
  obtain ⟨d', hd'⟩ := Option.isSome_iff_exists.mp hxp.2
  have heq : d' = d := h.oneWidth x hxin r hr hxp.1 d' d hd' hd
  -- a width that was written is no negative number
  have hnonneg : 0 ≤ d' := by
    rcases h.live x hxin with ⟨-, hnone⟩ | ⟨v, -, hdim⟩
    · rw [hnone] at hd'
      cases hd'
    · rw [hdim] at hd'
      split_ifs at hd' with hv
      cases hd'
      exact Int.natCast_nonneg _
  refine ⟨d'.toNat, ?_, by rw [Int.toNat_of_nonneg hnonneg, heq]⟩
  rw [Db.namespaceEmbeddingDim, hx, Option.bind_some, hd', Option.bind_some, if_pos hnonneg]

theorem Inv.setEmbedding (h : Inv toLeBytes db) {v : List F}
    (hs : db.setEmbedding id (encodeEmbeddingBlob toLeBytes v) v.length = .ok db') : Inv toLeBytes db' := by
  cases hget : db.get id with
  | none =>
    obtain ⟨dim, rfl⟩ := Db.setEmbedding_eq_ok hs
    refine h.carried (fun x hx => ?_) h.archived
    obtain ⟨r, hr, rfl⟩ := Db.mem_updateRow.mp hx
    split_ifs with hid
    · rw [← hid, Db.get_of_mem hr] at hget
      cases hget
    · exact Carried.refl db r hr
  | some r =>
    unfold Db.setEmbedding at hs
    rw [hget, Option.map_some] at hs
    by_cases hv : v = []
    · subst hv
      rw [List.length_nil, if_pos rfl] at hs
      cases hs
      exact h.replaces (replaces_writeEmbedding hget _ _) (Or.inr ⟨[], rfl, rfl⟩) (fun d hd => nomatch hd)
        fun _ ha => ha
    · have hlen : v.length ≠ 0 := fun hzero => hv (List.length_eq_zero_iff.mp hzero)
      rw [if_neg hlen] at hs
      have hwritten : Written toLeBytes (some (encodeEmbeddingBlob toLeBytes v)) (some (v.length : ℤ)) :=
        Or.inr ⟨v, rfl, by rw [if_neg hv]⟩
      simp only at hs
      -- a row of the namespace that has a width makes it the established one
      have hestablished : ∀ x ∈ db.memories, x.ns = r.ns → ∀ d, x.embeddingDim = some d →
          ∃ n, db.namespaceEmbeddingDim r.ns = some n ∧ (n : ℤ) = d := by
        intro x hx hns d hd
        rw [← hns]
        exact namespaceEmbeddingDim_of_mem h hx hd
      cases hdim : db.namespaceEmbeddingDim r.ns with
      | none =>
        rw [hdim] at hs
        cases hs
        refine h.replaces (replaces_writeEmbedding hget _ _) hwritten (fun d hd x hx _ hns d' hd' => ?_) fun _ ha => ha
        obtain ⟨n, hn, -⟩ := hestablished x hx hns d' hd'
        rw [hdim] at hn
        cases hn
      | some established =>
        rw [hdim] at hs
        simp only at hs
        split_ifs at hs with heq
        cases hs
        refine h.replaces (replaces_writeEmbedding hget _ _) hwritten (fun d hd x hx _ hns d' hd' => ?_) fun _ ha => ha
        obtain ⟨n, hn, hnd⟩ := hestablished x hx hns d' hd'
        rw [hdim] at hn
        cases hn
        cases hd
        rw [← hnd, not_not.mp heq]

/-! ## Steps and runs -/

/-- Every operation that meets its condition keeps the invariant. -/
theorem Inv.step (op : Op F) (h : Inv toLeBytes db) (hok : StepOk db op) : Inv toLeBytes (step toLeBytes db op) := by
  cases op with
  | insert mem => exact settle_ind h fun db' id hi => h.insertOnConflict hi fun _ => ⟨rfl, rfl⟩
  | insertIfNewer mem => exact settle_ind h fun db' id hi => h.insertOnConflict hi fun _ => ⟨rfl, rfl⟩
  | setEmbedding id v =>
    unfold Widths.step
    simp only
    split
    · exact h.setEmbedding ‹_›
    · exact h
  | update id u now =>
    refine settle_ind h fun db' res hu => ?_
    obtain ⟨found, changed⟩ := res
    obtain ⟨-, -, rfl⟩ | ⟨existing, hget, rfl, hframe, -⟩ := Db.update_cases hu
    · exact h
    · refine h.replaces (replaces_update hget hu) (h.live existing (Db.get_eq_some.mp hget).1) ?_ fun a ha => ?_
      · exact hok existing hget ((Db.update_isOk_iff now hget).mp ⟨db', changed, hu⟩)
      · rwa [hframe] at ha
  | archiveMemory id reason now => exact h.archiveMemory
  | restoreArchived id now =>
    refine settle_ind h fun db' restored hr => ?_
    obtain ⟨-, -, rfl⟩ | ⟨a, t, ha, -, hnone, ht, rfl⟩ := Db.restoreArchived_cases hr
    · exact h
    · refine h.replaces (replaces_restore hnone ha ht _) (h.archived a (Table.find_mem ha)) ?_ fun _ hb =>
        (Table.mem_filter.mp hb).1
      exact hok a ha hnone (Indexed.insertNew?_isSome.mp (Option.isSome_iff_exists.mpr ⟨t, ht⟩)).2
  | promoteToNamespace sourceId toNs newId now =>
    refine settle_ind h fun db' id hp => ?_
    obtain ⟨source, db₁, -, -, -, hi, hframe⟩ := Db.promoteToNamespace_cases hp
    have h₁ : Inv toLeBytes db₁ := h.insertOnConflict hi fun _ => ⟨rfl, rfl⟩
    rw [hframe]
    exact ⟨h₁.oneWidth, h₁.live, h₁.archived⟩
  | consolidate ids title summary ns tier source agent newId now => exact settle_ind h fun db' id hc => h.consolidate hc
  | delete id => exact h.delete id

theorem not_oneWidth_step {op : Op F} (h : Inv toLeBytes db) (hbad : ¬StepOk db op) :
    ¬OneWidth (step toLeBytes db op) := by
  cases op with
  | update id u now =>
    rw [StepOk] at hbad
    push Not at hbad
    obtain ⟨existing, hget, hfree, d, hd, hnofit⟩ := hbad
    obtain ⟨db', changed, hu⟩ := (Db.update_isOk_iff now hget).mpr hfree
    have hstep : step toLeBytes db (.update id u now : Op F) = db' := by
      change settle db (db.update id u now) = db'
      rw [hu]
      rfl
    rw [hstep, (replaces_update hget hu).oneWidth_iff h.oneWidth]
    exact fun hall => hnofit (hall d hd)
  | restoreArchived id now =>
    rw [StepOk] at hbad
    push Not at hbad
    obtain ⟨a, ha, hnone, hfree, d, hd, hnofit⟩ := hbad
    have hid : a.id = id := (Table.find_eq_some.mp ha).2
    obtain ⟨t, ht⟩ := Option.isSome_iff_exists.mp
      ((Indexed.insertNew?_isSome (t := db.memories) (r := restoreRow now a)).mpr ⟨hid ▸ hnone, hfree⟩)
    have hstep : step toLeBytes db (.restoreArchived id now : Op F) =
        { db with memories := t, archived := db.archived.filter fun a => a.id ≠ id } := by
      unfold step Db.restoreArchived
      simp only [ha, hnone, ht]
      rfl
    rw [hstep, (replaces_restore hnone ha ht _).oneWidth_iff h.oneWidth]
    exact fun hall => hnofit (hall d hd)
  | _ => exact absurd trivial hbad

end Rows

/-- In a run from the empty database every namespace keeps one width exactly if every update and every restore that goes
through brings a row that fits. -/
theorem widths_iff_meets (fromLeBytes : UInt8 → UInt8 → UInt8 → UInt8 → F) (ops : List (Op F)) :
    (∀ db ∈ Machine.states (step toLeBytes) Db.empty ops, Uniform fromLeBytes db) ↔
      Machine.Meets (step toLeBytes) StepOk Db.empty ops := by
  have huniform : ∀ db, Inv toLeBytes db → Uniform fromLeBytes db := fun _ h => h.uniform fromLeBytes
  exact Machine.forall_states_iff_meets huniform
    (fun _ op h => h.step op) (fun _ _ h hbad hu => not_oneWidth_step h hbad hu.oneWidth)
    ⟨fun _ hr => absurd hr List.not_mem_nil, fun _ hr => absurd hr List.not_mem_nil,
      fun _ ha => absurd ha List.not_mem_nil⟩

/-- A memory with a vector of one component is moved to where one has two. -/
def moved : List (Op (UInt8 × UInt8 × UInt8 × UInt8)) :=
  [.insert (Db.standardMemory "m1" "a" (.obj [])), .setEmbedding "m1" [(0, 0, 128, 63)],
    .insert (Db.standardMemory "m2" "b" (.obj [])), .setEmbedding "m2" [(0, 0, 128, 63), (0, 0, 0, 0)],
    .update "m1" { title := some "moved", ns := some "b" } "2026-01-02T00:00:00+00:00"]

/-- The namespace `b` has two widths. -/
theorem move_mixes_widths :
    ((moved.foldl (step id) Db.empty).memories.rows.map fun r => (r.ns, r.embeddingDim)) =
        [("b", some 1), ("b", some 2)] ∧
      ¬∀ db ∈ Machine.states (step id) Db.empty moved, Uniform (fun a b c d => (a, b, c, d)) db := by
  have hrows : ((moved.foldl (step id) Db.empty).memories.rows.map fun r => (r.ns, r.embeddingDim)) =
      [("b", some 1), ("b", some 2)] := by decide
  refine ⟨hrows, fun h => ?_⟩
  have hwidth := (h _ Machine.foldl_mem_states).oneWidth
  have hin : ∀ p ∈ [("b", some (1 : ℤ)), ("b", some 2)], ∃ r ∈ (moved.foldl (step id) Db.empty).memories,
      (r.ns, r.embeddingDim) = p := fun p hp => List.mem_map.mp (hrows ▸ hp)
  obtain ⟨r, hr, hrp⟩ := hin _ List.mem_cons_self
  obtain ⟨r', hr', hrp'⟩ := hin _ (List.mem_cons_of_mem _ List.mem_cons_self)
  obtain ⟨hns, hd⟩ := Prod.mk.inj hrp
  obtain ⟨hns', hd'⟩ := Prod.mk.inj hrp'
  exact absurd (hwidth r hr r' hr' (hns.trans hns'.symm) 1 2 hd hd') (by decide)

end Widths

end AiMemory
