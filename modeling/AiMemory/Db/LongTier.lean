import AiMemory.Lib.Transitions
import AiMemory.Db.Archive
import AiMemory.Db.Consolidate

/-!
# Long-tier memories and their expiry

A memory of tier `long` is permanent: it should carry no `expires_at`, and `gc` should never take it.
Runs start from the empty database and mix every operation that can raise a tier or write an expiry.
Each of them clears the expiry when it makes a row `long`, except `update`, which sets tier and
expiry apart. So a run keeps long-tier memories permanent exactly when its updates do.
-/

namespace AiMemory

open Relational

namespace LongTier

/-- A memory that expires is not of tier `long`. -/
def Permanent (m : Memory) : Prop := m.tier = .long → m.expiresAt = none

/-- The operations of a run. A memory handed to an upsert is permanent when its tier is `long`. -/
inductive Op where
  | insert (mem : Memory) (h : Permanent mem)
  | insertIfNewer (mem : Memory) (h : Permanent mem)
  | update (id : String) (u : UpdateMemory) (now : String)
  | touch (id : String) (times : Db.TouchTimes)
  | consolidate (ids : List String) (title summary ns : String) (tier : Tier)
      (source consolidatorAgentId newId now : String)
  | promoteToNamespace (sourceId toNamespace newId now : String)
  | archiveMemory (id : String) (reason : Option String) (now : String)
  | restoreArchived (id now : String)
  | gc (archive : Bool) (now : String)

/-- The database after a call; a failed one leaves it as it was. -/
def settle {α : Type} (db : Db) : Except String (Db × α) → Db
  | .ok (db', _) => db'
  | .error _ => db

def step (db : Db) : Op → Db
  | .insert mem _ => settle db (db.insert mem)
  | .insertIfNewer mem _ => settle db (db.insertIfNewer mem)
  | .update id u now => settle db (db.update id u now)
  | .touch id times => db.touch id times
  | .consolidate ids title summary ns tier source agent newId now =>
    settle db (db.consolidate ids title summary ns tier source agent newId now)
  | .promoteToNamespace sourceId toNs newId now =>
    settle db (db.promoteToNamespace sourceId toNs newId now)
  | .archiveMemory id reason now => (db.archiveMemory id reason now).1
  | .restoreArchived id now => settle db (db.restoreArchived id now)
  | .gc archive now => (db.gc archive now).1

/-- The property: long-tier rows have no expiry, and no `gc` deletes one. -/
def NeverExpires (db : Db) : Prop :=
  (∀ r ∈ db.memories, r.tier = .long → r.expiresAt = none) ∧
    ∀ archive now, ∀ r ∈ db.memories, r.tier = .long → r ∈ (db.gc archive now).1.memories

/-- The update clears the expiry, or asks for none where there is none. -/
def ClearsExpiry (u : UpdateMemory) (existing : MemoryRow) : Prop :=
  u.expiresAt = some "" ∨ u.expiresAt = some "null" ∨ u.expiresAt = none ∧ existing.expiresAt = none

/-- An update that leaves its row in tier `long`, and is not refused for its title, clears the
expiry. -/
def StepOk (db : Db) : Op → Prop
  | .update id u _ => ∀ existing, db.get id = some existing → ¬db.Collides existing u →
      existing.tier = .long ∨ u.tier = some .long → ClearsExpiry u existing
  | _ => True

/-- The invariant of a run: live rows are permanent, and archived ones come back permanent. -/
structure Inv (db : Db) : Prop where
  live : ∀ r ∈ db.memories, Permanent r.toMemory
  archived : ∀ a ∈ db.archived, a.originalTier.getD .long = .long → a.originalExpiresAt = none

/-! ## Rows -/

theorem permanent_merge {stored : MemoryRow} {mem : Memory}
    (h : mergeTier stored.tier mem.tier = .long) : mergeExpiresAt stored mem = none := by
  unfold mergeExpiresAt
  refine if_pos ?_
  revert h
  cases stored.tier <;> cases mem.tier <;> decide

theorem permanent_touchRow {t : Db.TouchTimes} {r : MemoryRow} (h : Permanent r.toMemory) :
    Permanent (Db.touchRow t r).toMemory := by
  have hbump : Permanent (Db.bumpRow t r).toMemory := by
    intro htier
    have htier' : r.tier = .long := htier
    show ite _ _ _ = none
    rw [if_pos htier', h htier']
  have hpromote : Permanent (Db.promoteRow t.now (Db.bumpRow t r)).toMemory := by
    unfold Db.promoteRow
    split_ifs
    · exact fun _ => rfl
    · exact hbump
  unfold Db.touchRow Db.reinforceRow
  split_ifs
  · exact hpromote
  · exact hpromote

theorem effectiveTier_eq_long_iff {requested : Option Tier} {existing : Tier} :
    effectiveTier requested existing = .long ↔ existing = .long ∨ requested = some .long := by
  cases existing <;> rcases requested with _ | _ | _ | _ <;> simp [effectiveTier]

theorem effectiveExpiresAt_eq_none_iff {u : UpdateMemory} {existing : MemoryRow} :
    effectiveExpiresAt u.expiresAt existing.expiresAt = none ↔ ClearsExpiry u existing := by
  unfold effectiveExpiresAt ClearsExpiry
  cases u.expiresAt with
  | none => simp
  | some v => by_cases h : v = "" ∨ v = "null" <;> simp_all

/-- The row an update writes is permanent exactly when the update clears the expiry of a long row. -/
theorem permanent_applyUpdate_iff {u : UpdateMemory} {now : String} {existing : MemoryRow} :
    Permanent (applyUpdate u now existing).toMemory ↔
      (existing.tier = .long ∨ u.tier = some .long → ClearsExpiry u existing) := by
  unfold Permanent
  rw [← effectiveExpiresAt_eq_none_iff, ← effectiveTier_eq_long_iff]
  rfl

/-! ## One step -/

section Step

variable {db : Db}

/-- A state that was good and stays so where the call returns is good after the call. -/
theorem settle_ind {P : Db → Prop} {α : Type} {res : Except String (Db × α)} (h : P db)
    (hok : ∀ db' a, res = .ok (db', a) → P db') : P (settle db res) := by
  cases hres : res with
  | error e => exact h
  | ok p => exact hok p.1 p.2 hres

variable {db' : Db}

theorem Inv.of_live (h : Inv db) (harch : db'.archived = db.archived)
    (hlive : ∀ r ∈ db'.memories, Permanent r.toMemory) : Inv db' :=
  ⟨hlive, harch ▸ h.archived⟩

theorem Inv.insertOnConflict {mem : Memory} {merge : MemoryRow → MemoryRow}
    {hid : ∀ r, (merge r).id = r.id} {hkey : ∀ r, (merge r).key = r.key} {id : String} (h : Inv db)
    (hmem : Permanent mem) (hmerge : ∀ r, Permanent (merge r).toMemory)
    (hins : db.insertOnConflict mem merge hid hkey = .ok (db', id)) : Inv db' := by
  refine h.of_live (by rw [Db.insertOnConflict_frame hins]) fun x hx => ?_
  rcases Db.mem_insertOnConflict hins hx with hold | ⟨r, -, -, rfl⟩ | rfl
  · exact h.live x hold
  · exact hmerge r
  · exact hmem

theorem Inv.insert {mem : Memory} {id : String} (h : Inv db) (hmem : Permanent mem)
    (hins : db.insert mem = .ok (db', id)) : Inv db' :=
  h.insertOnConflict hmem (fun _ hlong => permanent_merge hlong) hins

theorem Inv.insertIfNewer {mem : Memory} {id : String} (h : Inv db) (hmem : Permanent mem)
    (hins : db.insertIfNewer mem = .ok (db', id)) : Inv db' :=
  h.insertOnConflict hmem (fun _ hlong => permanent_merge hlong) hins

theorem Inv.update {id now : String} {u : UpdateMemory} {res : Bool × Bool} (h : Inv db)
    (hok : StepOk db (.update id u now)) (hu : db.update id u now = .ok (db', res)) : Inv db' := by
  obtain ⟨-, -, rfl⟩ | ⟨existing, hg, hfound, hframe, hrows⟩ := Db.update_cases hu
  · exact h
  · have hfree : ¬db.Collides existing u := (Db.update_isOk_iff now hg).mp ⟨db', res.2, by rw [hu, ← hfound]⟩
    refine h.of_live (by rw [hframe]) fun x hx => ?_
    rw [Indexed.mem_def, hrows, List.mem_map] at hx
    obtain ⟨r, hr, rfl⟩ := hx
    split_ifs with hid
    · have : r = existing := Indexed.eq_of_pk hr (Db.get_eq_some.mp hg).1
        (hid.trans (Db.get_eq_some.mp hg).2.symm)
      subst this
      exact permanent_applyUpdate_iff.mpr (hok r hg hfree)
    · exact h.live r hr

theorem Inv.archiveWhere {sel : MemoryRow → Bool} {now reason : String} (h : Inv db) :
    Inv (db.archiveWhere sel (archiveRow now reason)) := by
  refine ⟨h.live, fun a ha => ?_⟩
  rcases Db.mem_archived_archiveWhere (fun _ => rfl) ha with hold | ⟨r, hr, rfl⟩
  · exact h.archived a hold
  · exact h.live r hr

theorem Inv.restore {id now : String} {b : Bool} (h : Inv db)
    (hr : db.restoreArchived id now = .ok (db', b)) : Inv db' := by
  obtain ⟨-, -, rfl⟩ | ⟨a, t, ha, -, -, ht, rfl⟩ := Db.restoreArchived_cases hr
  · exact h
  · refine ⟨fun x hx => ?_, fun y hy => h.archived y (Table.mem_filter.mp hy).1⟩
    rcases (Indexed.mem_insertNew? ht).mp hx with hold | rfl
    · exact h.live x hold
    · exact h.archived a (Table.find_mem ha)

/-- Every operation that meets its condition keeps the invariant. -/
theorem Inv.step (op : Op) (h : Inv db) (hok : StepOk db op) : Inv (step db op) := by
  cases op with
  | insert mem hmem => exact settle_ind h fun db' id hi => h.insert hmem hi
  | insertIfNewer mem hmem => exact settle_ind h fun db' id hi => h.insertIfNewer hmem hi
  | update id u now => exact settle_ind h fun db' res hu => h.update hok hu
  | touch id times =>
    refine h.of_live rfl fun x hx => ?_
    obtain ⟨r, hr, rfl⟩ := Db.mem_touch.mp hx
    split_ifs
    · exact permanent_touchRow (h.live r hr)
    · exact h.live r hr
  | consolidate ids title summary ns tier source agent newId now =>
    refine settle_ind h fun db' id hc => ?_
    obtain ⟨harch, hmem⟩ := Db.mem_consolidate hc
    refine h.of_live harch fun x hx => ?_
    rcases hmem x hx with hold | hnone
    · exact h.live x hold
    · exact fun _ => hnone
  | promoteToNamespace sourceId toNs newId now =>
    refine settle_ind h fun db' id hp => ?_
    obtain ⟨source, db₁, hs, -, -, hins, hframe⟩ := Db.promoteToNamespace_cases hp
    have hclone : Permanent (promotionClone source.toMemory toNs newId now) :=
      h.live source (Db.get_eq_some.mp hs).1
    have h₁ : Inv db₁ := h.insert hclone hins
    exact h₁.of_live (by rw [hframe]) (by rw [hframe]; exact h₁.live)
  | archiveMemory id reason now =>
    show Inv (db.archiveMemory id reason now).1
    unfold Db.archiveMemory
    split_ifs
    · exact h
    · have h₁ : Inv (db.archiveWhere (fun r => r.id = id) (archiveRow now (reason.getD "archive"))) :=
        h.archiveWhere
      exact ⟨fun x hx => h₁.live x (Db.mem_deleteMemories.mp hx).1, h₁.archived⟩
  | restoreArchived id now => exact settle_ind h fun db' b hr => h.restore hr
  | gc archive now =>
    refine ⟨fun x hx => h.live x (Db.mem_gc.mp hx).1, ?_⟩
    cases archive with
    | false => exact h.archived
    | true => exact h.archiveWhere.archived

theorem Inv.neverExpires (h : Inv db) : NeverExpires db := by
  refine ⟨h.live, fun archive now r hr hlong => Db.mem_gc.mpr ⟨hr, ?_⟩⟩
  unfold Db.isExpired
  rw [h.live r hr hlong]
  rfl

theorem not_neverExpires_step {op : Op} (hbad : ¬StepOk db op) : ¬NeverExpires (step db op) := by
  cases op with
  | update id u now =>
    simp only [StepOk, not_forall] at hbad
    obtain ⟨existing, hg, hfree, hlong, hclear⟩ := hbad
    obtain ⟨db', changed, hu⟩ := (Db.update_isOk_iff now hg).mpr hfree
    rintro ⟨hperm, -⟩
    obtain ⟨hc, -, -⟩ | ⟨e, -, -, -, hrows⟩ := Db.update_cases hu
    · rw [hg] at hc
      cases hc
    · have hmem : applyUpdate u now existing ∈ db'.memories := by
        rw [Indexed.mem_def, hrows, List.mem_map]
        exact ⟨existing, (Db.get_eq_some.mp hg).1, if_pos (Db.get_eq_some.mp hg).2⟩
      have hstep : step db (.update id u now) = db' := by
        show settle db (db.update id u now) = db'
        rw [hu]
        rfl
      rw [hstep] at hperm
      exact hclear (permanent_applyUpdate_iff.mp (hperm _ hmem) hlong)
  | _ => exact absurd trivial hbad

end Step

theorem inv_empty : Inv Db.empty :=
  ⟨fun _ h => absurd h (Indexed.not_mem_empty _), fun _ h => absurd h List.not_mem_nil⟩

/-! ## Runs -/

/-- In a run from the empty database no long-tier memory ever expires exactly when every update of a
long-tier row, or to tier `long`, clears the expiry. -/
theorem neverExpires_iff_updates_clear (ops : List Op) :
    (∀ db ∈ Machine.states step Db.empty ops, NeverExpires db) ↔
      Machine.Meets step StepOk Db.empty ops :=
  Machine.forall_states_iff_meets (fun _ h => h.neverExpires) (fun _ op h => h.step op)
    (fun _ _ _ => not_neverExpires_step) inv_empty

def draft : Memory where
  id := "m1"
  tier := .mid
  ns := "notes"
  title := "Standup"
  content := "moved to ten"
  tags := []
  priority := 5
  confidence := 1
  source := "user"
  accessCount := 0
  createdAt := "2026-01-01T00:00:00+00:00"
  updatedAt := "2026-01-01T00:00:00+00:00"
  lastAccessedAt := none
  expiresAt := some "2026-01-08T00:00:00+00:00"
  metadata := .obj []

/-- Stored, then promoted by `update` with `tier = long` and nothing else. -/
def promoteByUpdate : List Op :=
  [.insert draft (by intro h; cases h),
    .update "m1" { tier := some .long } "2026-01-02T00:00:00+00:00"]

/-- The promoted memory keeps its expiry, and `gc` deletes it once that has passed. -/
theorem promoted_by_update_expires :
    ¬(∀ db ∈ Machine.states step Db.empty promoteByUpdate, NeverExpires db) ∧
      ∃ r ∈ (promoteByUpdate.foldl step Db.empty).memories.rows, r.tier = .long ∧
        r ∉ ((promoteByUpdate.foldl step Db.empty).gc true "2026-01-09T00:00:00+00:00").1.memories.rows := by
  have hdel : ∃ r ∈ (promoteByUpdate.foldl step Db.empty).memories.rows, r.tier = .long ∧
      r ∉ ((promoteByUpdate.foldl step Db.empty).gc true
        "2026-01-09T00:00:00+00:00").1.memories.rows := by decide
  refine ⟨fun h => ?_, hdel⟩
  obtain ⟨r, hr, hlong, hout⟩ := hdel
  exact hout ((h _ Machine.foldl_mem_states).2 true _ r hr hlong)

end LongTier

end AiMemory
