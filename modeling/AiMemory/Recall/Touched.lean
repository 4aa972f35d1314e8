import AiMemory.Db.Chain
import AiMemory.Recall.Hybrid

/-!
# What is returned is touched

Both recalls end with a `touch` of every memory they return, and of no other. A touch sets the expiry of a short or mid
memory to the clock plus the extension of its tier, whatever it was before; tier and priority do not fall, and the
access count does not unless it was over its cap (`Touched`).
-/

namespace AiMemory

open Ranking

namespace Db

/-! ## One touch -/

/-- The reading that `touch` writes for a tier. -/
def TouchTimes.expires (t : TouchTimes) : Tier → String
  | .short => t.shortExpires
  | _ => t.midExpires

/-- What touches may make of a row. -/
structure Touched (t : TouchTimes) (r r' : MemoryRow) : Prop where
  expiry : r'.expiresAt = none ∨ r'.expiresAt = r.expiresAt ∨
    r.tier ≠ .long ∧ r.expiresAt.isSome ∧ r'.expiresAt = some (t.expires r.tier)
  tier : r.tier ≤ r'.tier
  promoted : r'.tier ≠ r.tier → r'.tier = .long
  priority : r.priority ≤ r'.priority
  priorityCap : r.priority ≤ 10 → r'.priority ≤ 10
  accessCount : r.accessCount ≤ 1000000 → r.accessCount ≤ r'.accessCount
  accessCountCap : r'.accessCount ≤ 1000000

section Touch

variable {t : TouchTimes} {r r' r'' : MemoryRow}

theorem touched_bumpRow : Touched t r (bumpRow t r) where
  expiry := by
    unfold bumpRow TouchTimes.expires
    cases r.tier <;> cases r.expiresAt <;> simp
  tier := le_rfl
  promoted h := absurd rfl h
  priority := le_rfl
  priorityCap h := h
  accessCount h := le_min (by omega) h
  accessCountCap := min_le_right _ _

theorem Tier.le_long (tier : Tier) : tier ≤ .long := by
  cases tier <;> decide

theorem Touched.promoteRow (h : Touched t r r') (now : String) : Touched t r (promoteRow now r') := by
  unfold Db.promoteRow
  split_ifs
  · exact ⟨Or.inl rfl, Tier.le_long _, fun _ => rfl, h.priority, h.priorityCap, h.accessCount, h.accessCountCap⟩
  · exact h

theorem Touched.reinforceRow (h : Touched t r r') : Touched t r (reinforceRow r') := by
  unfold Db.reinforceRow
  split_ifs
  · refine ⟨h.expiry, h.tier, h.promoted, ?_, fun _ => min_le_right _ _, h.accessCount, h.accessCountCap⟩
    have := h.priority
    show r.priority ≤ min (r'.priority + 1) 10
    omega
  · exact h

theorem touched_touchRow : Touched t r (touchRow t r) := (touched_bumpRow.promoteRow t.now).reinforceRow

/-- Touches at the same readings add up: a row whose expiry is set once more has the tier it had. -/
theorem Touched.trans (h : Touched t r r') (h' : Touched t r' r'') : Touched t r r'' where
  expiry := by
    rcases h'.expiry with hnone | hsame | ⟨hlong, hsome, hset⟩
    · exact Or.inl hnone
    · rw [hsame]
      exact h.expiry
    · have htier : r'.tier = r.tier := by
        by_contra hne
        exact hlong (h.promoted hne)
      have hbefore : r.expiresAt.isSome := by
        rcases h.expiry with hnone | hsame | ⟨-, hbefore, -⟩
        · rw [hnone] at hsome
          cases hsome
        · rwa [← hsame]
        · exact hbefore
      rw [htier] at hlong hset
      exact Or.inr (Or.inr ⟨hlong, hbefore, hset⟩)
  tier := h.tier.trans h'.tier
  promoted hne := by
    by_cases hsame : r'.tier = r.tier
    · exact h'.promoted (hsame.symm ▸ hne)
    · have hlong := h.promoted hsame
      exact le_antisymm (Tier.le_long _) (hlong ▸ h'.tier)
  priority := h.priority.trans h'.priority
  priorityCap hp := h'.priorityCap (h.priorityCap hp)
  accessCount hc := (h.accessCount hc).trans (h'.accessCount h.accessCountCap)
  accessCountCap := h'.accessCountCap

theorem touched_iterate {n : ℕ} (hn : n ≠ 0) : Touched t r ((touchRow t)^[n] r) := by
  induction n with
  | zero => exact absurd rfl hn
  | succ n ih =>
    rw [Function.iterate_succ_apply']
    by_cases h : n = 0
    · subst h
      exact touched_touchRow
    · exact (ih h).trans touched_touchRow

/-- The memory expires no earlier than before; without an expiry it never does. -/
def NotEarlier {τ : Type} [LE τ] (read : String → τ) (before after : Option String) : Prop :=
  ∀ e' ∈ after, ∃ e ∈ before, read e ≤ read e'

theorem Touched.notEarlier {τ : Type} [Preorder τ] {read : String → τ} (h : Touched t r r')
    (hread : r.tier ≠ .long → ∀ e ∈ r.expiresAt, read e ≤ read (t.expires r.tier)) :
    NotEarlier read r.expiresAt r'.expiresAt := by
  intro e' he'
  rcases h.expiry with hnone | hsame | ⟨hlong, hsome, hset⟩
  · rw [hnone] at he'
    cases he'
  · exact ⟨e', hsame ▸ he', le_rfl⟩
  · obtain ⟨e, he⟩ := Option.isSome_iff_exists.mp hsome
    rw [hset] at he'
    cases he'
    exact ⟨e, he, hread hlong e he⟩

end Touch

/-! ## The touches of a recall -/

def touchAll (db : Db) (times : String → TouchTimes) (ids : List String) : Db :=
  ids.foldl (fun db i => db.touch i (times i)) db

variable {τ : Type} [Preorder τ] {read : String → τ} {db : Db} {times : String → TouchTimes} {ids : List String}
  {i : String}

theorem get_touch {id : String} {t : TouchTimes} :
    (db.touch id t).get i = (db.get i).map fun r => if i = id then touchRow t r else r := get_updateRow i

theorem get_touchAll : (db.touchAll times ids).get i = (db.get i).map (touchRow (times i))^[ids.count i] := by
  induction ids generalizing db with
  | nil => exact Option.map_id'.symm
  | cons j ids ih =>
    have hcons : db.touchAll times (j :: ids) = (db.touch j (times j)).touchAll times ids := rfl
    rw [hcons, ih, get_touch, Option.map_map, List.count_cons]
    refine congrArg (Option.map · (db.get i)) (funext fun r => ?_)
    by_cases hij : i = j
    · subst hij
      simp [Function.iterate_succ_apply]
    · simp [hij, Ne.symm hij]

/-- The memories of `ids` are touched, and no other changes, comes or goes. An expiry is brought forward only if it was
later, as times are read, than the one written. -/
structure TouchedOnly (read : String → τ) (times : String → TouchTimes) (ids : List String) (db db' : Db) : Prop where
  same : ∀ i, i ∉ ids → db'.get i = db.get i
  gone : ∀ i, db.get i = none → db'.get i = none
  touched : ∀ i r, i ∈ ids → db.get i = some r → ∃ r', db'.get i = some r' ∧ Touched (times i) r r' ∧
    ((r.tier ≠ .long → ∀ e ∈ r.expiresAt, read e ≤ read ((times i).expires r.tier)) →
      NotEarlier read r.expiresAt r'.expiresAt)

theorem touchedOnly_touchAll : TouchedOnly read times ids db (db.touchAll times ids) where
  same i hi := by
    rw [get_touchAll, List.count_eq_zero_of_not_mem hi]
    exact Option.map_id'
  gone i hi := by rw [get_touchAll, hi]; rfl
  touched i r hi hr := by
    have htouched : Touched (times i) r ((touchRow (times i))^[ids.count i] r) :=
      touched_iterate (List.count_pos_iff.mpr hi).ne'
    rw [get_touchAll, hr]
    exact ⟨_, rfl, htouched, htouched.notEarlier⟩

end Db

/-! ## The keyword recall -/

namespace Recall

variable {F32 F64 : Type} [Arith F32] [Arith F64]

/-- The rows of the query of `recall`. -/
def recallRows (env : Env F32 F64) (store : Store F32 F64) (req : Request F32) : List MemoryRow :=
  (arrange env.ties (fun r => r.id) (fun r => ftsScore env store r.toMemory)
    (store.db.memories.rows.filter fun r =>
      ftsMatch env req r && sqlFilters env.now req r.toMemory)).take req.limit

def withScore (env : Env F32 F64) (store : Store F32 F64) (mem : Memory) : Except RecallError (Memory × F64) :=
  match ftsScore env store mem with
  | none => .error .nullScore
  | some score => .ok (mem, score)

/-- `recall`, which scores by keywords only: it reads neither the query's embedding nor the vector index. -/
def recallByKeyword (env : Env F32 F64) (store : Store F32 F64) (req : Request F32) (times : String → Db.TouchTimes) :
    Except RecallError ((List (Memory × F64) × BudgetOutcome) × Db) := do
  let results ← (recallRows env store req).mapM fun r => withScore env store r.toMemory
  let boosted :=
    match hierarchyActive req.ns, req.ns with
    | true, some anchor => applyProximityBoost results anchor
    | _, _ => results
  let budgeted := applyTokenBudget env boosted req.budgetTokens
  return (budgeted, budgeted.1.foldl (fun db r => db.touch r.1.id (times r.1.id)) store.db)

omit [Arith F64] in
theorem touchAll_eq {times : String → Db.TouchTimes} {db : Db} {rs : List (Memory × F64)} :
    rs.foldl (fun db r => db.touch r.1.id (times r.1.id)) db = db.touchAll times (rs.map fun r => r.1.id) := by
  rw [Db.touchAll, List.foldl_map]

/-- A touch, and both recalls, touch what is returned and leave everything else as it is. -/
theorem returned_touchedOnly {τ : Type} [Preorder τ] (read : String → τ) (env : Env F32 F64) (store : Store F32 F64)
    (req : Request F32) (times : String → Db.TouchTimes) :
    (∀ db id t, Db.TouchedOnly read (fun _ => t) [id] db (Db.touch db id t)) ∧
      (∀ out db', recallByKeyword env store req times = .ok (out, db') →
        Db.TouchedOnly read times (out.1.map fun r => r.1.id) store.db db') ∧
      (∀ recalled db', recallHybridWithTelemetry env store req times = .ok (recalled, db') →
        Db.TouchedOnly read times (recalled.memories.map fun r => r.1.id) store.db db') := by
  refine ⟨fun db id t => ?_, fun out db' h => ?_, fun recalled db' h => ?_⟩
  · exact (Db.touchedOnly_touchAll : Db.TouchedOnly read (fun _ => t) [id] db (db.touchAll (fun _ => t) [id]))
  · unfold recallByKeyword at h
    cases hrows : (recallRows env store req).mapM fun r => withScore env store r.toMemory with
    | error e =>
      rw [hrows] at h
      cases h
    | ok results =>
      rw [hrows] at h
      cases h
      rw [touchAll_eq]
      exact Db.touchedOnly_touchAll
  · unfold recallHybridWithTelemetry at h
    cases hkeyword : keywordStage env store req with
    | error e =>
      rw [hkeyword] at h
      cases h
    | ok keyword =>
      rw [hkeyword] at h
      cases h
      rw [touchAll_eq]
      exact Db.touchedOnly_touchAll

/-! ## An expiry brought forward -/

def shortRow : MemoryRow :=
  { (Db.standardMemory "m1" "notes" (.obj [])).toRow with
    tier := .short
    expiresAt := some "2026-01-01T06:00:00+00:00" }

def atOnce : Db.TouchTimes := ⟨"2026-01-01T00:00:00+00:00", "2026-01-01T01:00:00+00:00", "2026-01-02T00:00:00+00:00"⟩

/-- A touch with positive extensions can bring an expiry forward. -/
theorem touch_brings_forward : ¬∀ (db : Db) (t : Db.TouchTimes) (id : String) (r r' : MemoryRow),
    t.now < t.shortExpires → t.now < t.midExpires → db.get id = some r → (db.touch id t).get id = some r' →
      Db.NotEarlier (fun s => s) r.expiresAt r'.expiresAt := by
  intro h
  have hbefore : (Db.single shortRow).get "m1" = some shortRow := rfl
  have hafter : ((Db.single shortRow).touch "m1" atOnce).get "m1" = some (Db.touchRow atOnce shortRow) := rfl
  obtain ⟨e, he, hle⟩ := h _ atOnce "m1" _ _ (by decide) (by decide) hbefore hafter "2026-01-01T01:00:00+00:00" rfl
  cases he
  exact absurd hle (by decide)

end Recall

end AiMemory
