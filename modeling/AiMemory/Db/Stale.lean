import AiMemory.Db.Convergence
import AiMemory.Db.Inserts

/-!
# Stale writes

What `insert_if_newer` does to a row that is newer than the incoming memory, and what it does the second time. The columns that hold
the content of a memory are guarded by the newer-than test. Two things escape it: the expiry, which an incoming one replaces, and an
`agent_id` that SQL does not hand back as it was, which each write takes through SQL. `harmless_iff` says when neither happens.
-/

namespace AiMemory

open Relational Convergence

namespace Stale

/-- The database after `insert_if_newer`. -/
def after (db : Db) (m : Memory) : Db := settled db ((db.insertIfNewer m).map Prod.fst)

/-- What a stale write may do to a row: raise its tier, and with it take its expiry away. -/
structure Unharmed (r r' : MemoryRow) : Prop where
  content : r'.content = r.content
  tags : r'.tags = r.tags
  source : r'.source = r.source
  updatedAt : r'.updatedAt = r.updatedAt
  metadata : r'.metadata = r.metadata
  tier : r.tier ≤ r'.tier
  expiresAt : r'.expiresAt = r.expiresAt ∨ r'.tier = .long ∧ r'.expiresAt = none

/-- A memory older than the row of its title and namespace leaves it unharmed. -/
def SparesNewer (db : Db) (m : Memory) : Prop := ∀ r, db.getKey m.key = some r → m.updatedAt < r.updatedAt →
  ∃ r', (after db m).getKey m.key = some r' ∧ Unharmed r r'

/-- A second write of the memory changes nothing. -/
def Idempotent (db : Db) (m : Memory) : Prop := (after (after db m) m).getKey m.key = (after db m).getKey m.key

/-- A stale memory brings no other expiry, unless the row has none to lose, and no `agent_id` is stored that SQL changes. -/
def HarmlessTo (m : Memory) (r : MemoryRow) : Prop :=
  (m.expiresAt = none ∨ m.expiresAt = r.expiresAt ∨ r.tier = .long ∨ m.tier = .long) ∧ r.metadata.StableAt "agent_id"

/-- The condition of `harmless_iff`. -/
def Harmless (db : Db) (m : Memory) : Prop :=
  match db.getKey m.key with
  | some r => (m.updatedAt < r.updatedAt → HarmlessTo m r) ∧
    (agentId r.metadata = none → Supersedes r m → m.metadata.StableAt "agent_id")
  | none => db.get m.id = none → m.metadata.StableAt "agent_id" ∧ (m.tier = .long → m.expiresAt = none)

section Rows

variable {r : MemoryRow} {m : Memory} {j : Json}

theorem not_supersedes (h : m.updatedAt < r.updatedAt) : ¬Supersedes r m := by
  rintro (hlt | ⟨heq, -⟩)
  · exact lt_asymm h hlt
  · exact h.ne heq

theorem or_eq_right_iff {α : Type} {x y : Option α} : x.or y = y ↔ x = none ∨ x = y := by
  cases x with
  | none => simp
  | some a => simp

theorem unharmed_iff (h : m.updatedAt < r.updatedAt) : Unharmed r (mergeNewer r m) ↔ HarmlessTo m r := by
  have hno := not_supersedes h
  have hmeta : (mergeNewer r m).metadata = r.metadata ↔ r.metadata.StableAt "agent_id" := by
    rw [← keepAgentId_self_iff]
    show keepAgentId r.metadata (if Supersedes r m then m.metadata else r.metadata) = _ ↔ _
    rw [if_neg hno]
  have hexp : ((mergeNewer r m).expiresAt = r.expiresAt ∨ (mergeNewer r m).tier = .long ∧ (mergeNewer r m).expiresAt = none) ↔
      (m.expiresAt = none ∨ m.expiresAt = r.expiresAt ∨ r.tier = .long ∨ m.tier = .long) := by
    show (mergeExpiresAt r m = r.expiresAt ∨ mergeTier r.tier m.tier = .long ∧ mergeExpiresAt r m = none) ↔ _
    unfold mergeExpiresAt mergeTier
    by_cases hm : m.tier = .long
    · simp [hm]
    · by_cases hr : r.tier = .long
      · simp [hr]
      · have htier : (if m.tier = .mid then Tier.mid else r.tier) ≠ .long := by
          split_ifs
          · exact nofun
          · exact hr
        simp only [hm, hr, or_self, if_false, htier, false_and, or_false]
        exact or_eq_right_iff
  constructor
  · exact fun hu => ⟨hexp.mp hu.expiresAt, hmeta.mp hu.metadata⟩
  · rintro ⟨he, hs⟩
    exact ⟨if_neg hno, if_neg hno, if_neg hno, max_eq_left h.le, hmeta.mpr hs,
      (le_max_left _ _).trans (mergeTier_eq_max r.tier m.tier).ge, hexp.mpr he⟩

theorem supersedes_of_again (h : Supersedes (mergeNewer r m) m) : Supersedes r m := by
  rcases h with hlt | ⟨heq, hid⟩
  · exact Or.inl ((le_max_left _ _).trans_lt hlt)
  · rcases lt_or_eq_of_le ((le_max_left r.updatedAt m.updatedAt).trans heq.ge) with hlt | heq'
    · exact Or.inl hlt
    · exact Or.inr ⟨heq'.symm, hid⟩

theorem set_of_not_isObject {k : String} {v : Json} (h : ¬j.isObject) : j.set k v = j := by
  cases j with
  | obj fs => exact absurd rfl h
  | _ => rfl

theorem metadata_again_iff : keepAgentId (mergeNewer r m).metadata
    (if Supersedes (mergeNewer r m) m then m.metadata else (mergeNewer r m).metadata) = (mergeNewer r m).metadata ↔
      (agentId r.metadata = none → Supersedes r m → m.metadata.StableAt "agent_id") := by
  set x := if Supersedes r m then m.metadata else r.metadata with hx
  have hfirst : (mergeNewer r m).metadata = keepAgentId r.metadata x := rfl
  cases ha : agentId r.metadata with
  | none =>
    have hkept : (mergeNewer r m).metadata = x := by
      rw [hfirst]
      unfold keepAgentId
      rw [ha]
    have hsecond : (if Supersedes (mergeNewer r m) m then m.metadata else x) = x := by
      split_ifs with hagain
      · rw [hx, if_pos (supersedes_of_again hagain)]
      · rfl
    rw [hkept, hsecond, keepAgentId_self_iff, hx]
    split_ifs with hsup
    · exact ⟨fun h _ _ => h, fun h => h rfl hsup⟩
    · exact iff_of_true (Json.stableAt_of_extract_eq_none ha) fun _ h => absurd h hsup
  | some a =>
    have hkept : (mergeNewer r m).metadata = x.set "agent_id" a := by
      rw [hfirst]
      unfold keepAgentId
      rw [ha]
    refine iff_of_true ?_ nofun
    rw [hkept]
    have hset : (if Supersedes (mergeNewer r m) m then m.metadata else x.set "agent_id" a).set "agent_id" a = x.set "agent_id" a := by
      split_ifs with hagain
      · rw [hx, if_pos (supersedes_of_again hagain)]
      · exact Json.set_set _ _ _ _
    by_cases hobj : x.isObject
    · unfold keepAgentId
      rw [(agentId_set hobj ha).1]
      exact hset
    · have hplain : x.set "agent_id" a = x := set_of_not_isObject hobj
      have hnone : agentId x = none := by
        cases hax : agentId x with
        | none => rfl
        | some b => exact absurd (Json.isObject_of_extract hax) hobj
      unfold keepAgentId
      rw [hplain, hnone]
      split_ifs with hagain
      · rw [hx, if_pos (supersedes_of_again hagain)]
      · rfl

theorem mergeNewer_eq_self_iff : mergeNewer r m = r ↔
    (if Supersedes r m then m.content else r.content) = r.content ∧ (if Supersedes r m then m.tags else r.tags) = r.tags ∧
      max r.priority m.priority = r.priority ∧ max r.confidence m.confidence = r.confidence ∧
      (if Supersedes r m then m.source else r.source) = r.source ∧ mergeTier r.tier m.tier = r.tier ∧
      max r.updatedAt m.updatedAt = r.updatedAt ∧ max r.accessCount m.accessCount = r.accessCount ∧
      mergeExpiresAt r m = r.expiresAt ∧
      keepAgentId r.metadata (if Supersedes r m then m.metadata else r.metadata) = r.metadata := by
  constructor
  · intro h
    exact ⟨congrArg (fun r : MemoryRow => r.content) h, congrArg (fun r : MemoryRow => r.tags) h,
      congrArg (fun r : MemoryRow => r.priority) h, congrArg (fun r : MemoryRow => r.confidence) h,
      congrArg (fun r : MemoryRow => r.source) h, congrArg (fun r : MemoryRow => r.tier) h,
      congrArg (fun r : MemoryRow => r.updatedAt) h, congrArg (fun r : MemoryRow => r.accessCount) h,
      congrArg (fun r : MemoryRow => r.expiresAt) h, congrArg (fun r : MemoryRow => r.metadata) h⟩
  · rintro ⟨hcontent, htags, hpriority, hconfidence, hsource, htier, hupdated, haccess, hexpires, hmetadata⟩
    unfold mergeNewer
    rw [hcontent, htags, hpriority, hconfidence, hsource, htier, hupdated, haccess, hexpires, hmetadata]

theorem mergeNewer_again_iff : mergeNewer (mergeNewer r m) m = mergeNewer r m ↔
    (agentId r.metadata = none → Supersedes r m → m.metadata.StableAt "agent_id") := by
  have hcolumn : ∀ {α : Type} (x y : α), (if Supersedes (mergeNewer r m) m then x else if Supersedes r m then x else y) =
      if Supersedes r m then x else y := by
    intro α x y
    split_ifs with hagain hfirst
    · rfl
    · exact absurd (supersedes_of_again hagain) hfirst
    · rfl
    · rfl
  have htier : mergeTier (mergeTier r.tier m.tier) m.tier = mergeTier r.tier m.tier := by
    rw [mergeTier_eq_max, mergeTier_eq_max, max_assoc, max_self]
  have hexpires : mergeExpiresAt (mergeNewer r m) m = mergeExpiresAt r m := by
    show (if m.tier = .long ∨ mergeTier r.tier m.tier = .long then none else m.expiresAt.or (mergeExpiresAt r m)) = mergeExpiresAt r m
    unfold mergeExpiresAt
    have hlong : m.tier = .long ∨ mergeTier r.tier m.tier = .long ↔ m.tier = .long ∨ r.tier = .long := by
      cases r.tier <;> cases m.tier <;> decide
    simp only [hlong]
    split_ifs
    · rfl
    · rw [← Option.or_assoc, Option.or_self]
  rw [mergeNewer_eq_self_iff, ← metadata_again_iff]
  exact ⟨fun h => h.2.2.2.2.2.2.2.2.2, fun h => ⟨hcolumn _ _, hcolumn _ _, by show max (max _ _) _ = max _ _; rw [max_assoc, max_self],
    by show max (max _ _) _ = max _ _; rw [max_assoc, max_self], hcolumn _ _, htier,
    by show max (max _ _) _ = max _ _; rw [max_assoc, max_self], by show max (max _ _) _ = max _ _; rw [max_assoc, max_self],
    hexpires, h⟩⟩

theorem mergeNewer_toRow_iff : mergeNewer m.toRow m = m.toRow ↔
    m.metadata.StableAt "agent_id" ∧ (m.tier = .long → m.expiresAt = none) := by
  constructor
  · intro h
    have hno : ¬Supersedes m.toRow m := by
      rintro (hlt | ⟨-, hlt⟩)
      · exact lt_irrefl _ hlt
      · exact lt_irrefl _ hlt
    obtain ⟨-, -, -, -, -, -, -, -, -, hmetadata⟩ := mergeNewer_eq_self_iff.mp h
    rw [if_neg hno] at hmetadata
    have hs : m.metadata.StableAt "agent_id" := keepAgentId_self_iff.mp hmetadata
    have hexpires : (if m.tier = .long then none else m.expiresAt) = m.expiresAt :=
      congrArg (fun r : MemoryRow => r.expiresAt) ((mergeNewer_toRow hs).symm.trans h)
    exact ⟨hs, fun hlong => by rw [if_pos hlong] at hexpires; exact hexpires.symm⟩
  · rintro ⟨hs, hlong⟩
    rw [mergeNewer_toRow hs]
    have hexpires : (if m.tier = .long then none else m.expiresAt) = m.expiresAt := by
      split_ifs with h
      · exact (hlong h).symm
      · rfl
    rw [hexpires]
    rfl

end Rows

/-! ## On the database -/

section Writes

variable {db : Db} {m : Memory} {r : MemoryRow}

theorem getKey_after_of_some (h : db.getKey m.key = some r) : (after db m).getKey m.key = some (mergeNewer r m) := by
  have hok : ∃ db' id, db.insertIfNewer m = .ok (db', id) := by
    cases hi : db.insertIfNewer m with
    | ok x => exact ⟨x.1, x.2, rfl⟩
    | error e =>
      have hnone := (Db.insertOnConflict_error_iff.mp ⟨e, hi⟩).1
      rw [h] at hnone
      cases hnone
  obtain ⟨db', id, hi⟩ := hok
  have hget := Db.getKey_insertOnConflict hi
  rw [h] at hget
  unfold after
  rw [hi]
  exact hget

theorem getKey_after_of_none (h : db.getKey m.key = none) (hfree : db.get m.id = none) :
    (after db m).getKey m.key = some m.toRow := by
  have hok : ∃ db' id, db.insertIfNewer m = .ok (db', id) := Db.insertOnConflict_isOk hfree
  obtain ⟨db', id, hi⟩ := hok
  have hget := Db.getKey_insertOnConflict hi
  rw [h] at hget
  unfold after
  rw [hi]
  exact hget

theorem after_of_taken (h : db.getKey m.key = none) (htaken : db.get m.id ≠ none) : after db m = db := by
  have herror : ∃ e, db.insertIfNewer m = .error e := Db.insertOnConflict_error_iff.mpr ⟨h, htaken⟩
  obtain ⟨e, he⟩ := herror
  unfold after
  rw [he]
  rfl

theorem sparesNewer_iff : SparesNewer db m ↔ ∀ r, db.getKey m.key = some r → m.updatedAt < r.updatedAt → HarmlessTo m r := by
  refine forall_congr' fun r => imp_congr_right fun hr => imp_congr_right fun hlt => ?_
  rw [getKey_after_of_some hr, ← unharmed_iff hlt]
  exact ⟨fun ⟨r', heq, hu⟩ => Option.some.inj heq ▸ hu, fun hu => ⟨_, rfl, hu⟩⟩

/-- A stale memory leaves a newer row unharmed, and a memory written twice the row that it left the first time, unless an expiry is
replaced or an `agent_id` rewritten on its way through SQL. -/
theorem harmless_iff (db : Db) (m : Memory) : SparesNewer db m ∧ Idempotent db m ↔ Harmless db m := by
  rw [sparesNewer_iff]
  unfold Idempotent Harmless
  cases hr : db.getKey m.key with
  | some r =>
    have hsecond := getKey_after_of_some (getKey_after_of_some hr)
    rw [hsecond, getKey_after_of_some hr, Option.some.injEq, mergeNewer_again_iff]
    exact and_congr_left fun _ => ⟨fun h => h r rfl, fun h r' hr' => Option.some.inj hr' ▸ h⟩
  | none =>
    have hstale : ∀ r, (none : Option MemoryRow) = some r → m.updatedAt < r.updatedAt → HarmlessTo m r := nofun
    rw [and_iff_right hstale]
    by_cases hfree : db.get m.id = none
    · have hfirst := getKey_after_of_none hr hfree
      rw [getKey_after_of_some hfirst, hfirst, Option.some.injEq, mergeNewer_toRow_iff]
      exact (imp_iff_right hfree).symm
    · rw [after_of_taken hr hfree, after_of_taken hr hfree]
      exact iff_of_true rfl fun h => absurd h hfree

end Writes

/-- A note with an expiry, and an older copy of it that has another. -/
def dated (updatedAt expiresAt : String) : Memory where
  id := "a"
  tier := .mid
  ns := "notes"
  title := "gate"
  content := "the north gate"
  tags := []
  priority := 5
  confidence := 1
  source := "api"
  accessCount := 0
  createdAt := "2026-01-01T00:00:00Z"
  updatedAt
  lastAccessedAt := none
  expiresAt := some expiresAt
  metadata := .obj []

/-- The older copy shortens the life of the note. -/
theorem stale_expiry : ¬SparesNewer (Db.single (dated "2026-01-03T00:00:00Z" "2026-03-01T00:00:00Z").toRow)
    (dated "2026-01-02T00:00:00Z" "2026-02-01T00:00:00Z") := by
  rw [sparesNewer_iff]
  intro h
  have hspared := h (dated "2026-01-03T00:00:00Z" "2026-03-01T00:00:00Z").toRow (by decide) (by decide)
  exact absurd hspared.1 (by decide)

end Stale

end AiMemory
