import Mathlib.Data.List.Sort
import AiMemory.Db.Memories

/-!
# Sync watermarks

One row of `sync_state` for each pair of a local agent and a peer holds two watermarks:
`last_seen_at`, up to which the peer's memories were pulled, and `last_pushed_at`, up to which local
ones were pushed. `memories_updated_since` reads one page of memories above a watermark.
-/

namespace AiMemory

open Relational

namespace Db

/-- The row `sync_state_observe` leaves on a conflict. -/
def observeRow (seenAt now : String) (r : SyncStateRow) : SyncStateRow :=
  { r with
    lastSeenAt := if seenAt > r.lastSeenAt then seenAt else r.lastSeenAt
    lastPulledAt := now }

theorem observeRow_key (seenAt now : String) (r : SyncStateRow) :
    (observeRow seenAt now r).key = r.key := rfl

def syncStateObserve (db : Db) (agentId peerId seenAt now : String) : Db :=
  { db with
    syncState := db.syncState.upsert ⟨agentId, peerId, seenAt, now, none⟩ (observeRow seenAt now)
      (observeRow_key seenAt now) }

/-- `sync_state_load`, read at one peer. -/
def syncStateLoad (db : Db) (agentId peerId : String) : Option String :=
  (db.syncState.find (agentId, peerId)).map fun r => r.lastSeenAt

def syncStateLastPushed (db : Db) (agentId peerId : String) : Option String :=
  (db.syncState.find (agentId, peerId)).bind fun r => r.lastPushedAt

/-- The row `sync_state_record_push` leaves on a conflict. -/
def recordPushRow (pushedAt : String) (r : SyncStateRow) : SyncStateRow :=
  { r with
    lastPushedAt :=
      match r.lastPushedAt with
      | none => some pushedAt
      | some last => if pushedAt > last then some pushedAt else some last }

theorem recordPushRow_key (pushedAt : String) (r : SyncStateRow) :
    (recordPushRow pushedAt r).key = r.key := rfl

/-- `sync_state_record_push`: a fresh row takes the clock for both pull columns. -/
def syncStateRecordPush (db : Db) (agentId peerId pushedAt now : String) : Db :=
  { db with
    syncState := db.syncState.upsert ⟨agentId, peerId, now, now, some pushedAt⟩ (recordPushRow pushedAt)
      (recordPushRow_key pushedAt) }

/-- `memories_updated_since`: ties stand in table order. -/
def memoriesUpdatedSince (db : Db) (since : Option String) (limit : ℕ) : List Memory :=
  ((db.live.filter fun m => since.all (m.updatedAt > ·)).insertionSort
    fun a b => a.updatedAt ≤ b.updatedAt).take limit

variable {db : Db} {agentId peerId : String}

/-! ## The watermarks after each write -/

theorem syncStateLoad_observe (seenAt now a p : String) :
    (db.syncStateObserve agentId peerId seenAt now).syncStateLoad a p =
      if (a, p) = (agentId, peerId) then
        some (((db.syncStateLoad a p).map fun last => max last seenAt).getD seenAt)
      else db.syncStateLoad a p := by
  unfold syncStateObserve syncStateLoad
  rw [Table.find_upsert]
  show Option.map _ (if (a, p) = (agentId, peerId) then _ else _) = _
  split_ifs with h
  · cases db.syncState.find (a, p) with
    | none => rfl
    | some r =>
      simp only [Option.map_some, Option.getD_some, Option.some.injEq, observeRow, gt_iff_lt]
      rcases lt_or_ge r.lastSeenAt seenAt with hlt | hge
      · rw [if_pos hlt, max_eq_right hlt.le]
      · rw [if_neg (not_lt.mpr hge), max_eq_left hge]
  · rfl

theorem syncStateLastPushed_observe (seenAt now a p : String) :
    (db.syncStateObserve agentId peerId seenAt now).syncStateLastPushed a p =
      db.syncStateLastPushed a p := by
  unfold syncStateObserve syncStateLastPushed
  rw [Table.find_upsert]
  show Option.bind (if (a, p) = (agentId, peerId) then _ else _) _ = _
  split_ifs with h
  · cases db.syncState.find (a, p) <;> rfl
  · rfl

theorem syncStateLastPushed_recordPush (pushedAt now a p : String) :
    (db.syncStateRecordPush agentId peerId pushedAt now).syncStateLastPushed a p =
      if (a, p) = (agentId, peerId) then
        some (((db.syncStateLastPushed a p).map fun last => max last pushedAt).getD pushedAt)
      else db.syncStateLastPushed a p := by
  unfold syncStateRecordPush syncStateLastPushed
  rw [Table.find_upsert]
  show Option.bind (if (a, p) = (agentId, peerId) then _ else _) _ = _
  split_ifs with h
  · cases db.syncState.find (a, p) with
    | none => rfl
    | some r =>
      simp only [Option.map_some, Option.getD_some, Option.bind_some, recordPushRow]
      cases r.lastPushedAt with
      | none => rfl
      | some last =>
        simp only [Option.map_some, Option.getD_some, gt_iff_lt]
        rcases lt_or_ge last pushedAt with hlt | hge
        · rw [if_pos hlt, max_eq_right hlt.le]
        · rw [if_neg (not_lt.mpr hge), max_eq_left hge]
  · rfl

theorem syncStateLoad_recordPush (pushedAt now a p : String) :
    (db.syncStateRecordPush agentId peerId pushedAt now).syncStateLoad a p =
      if (a, p) = (agentId, peerId) then some ((db.syncStateLoad a p).getD now)
      else db.syncStateLoad a p := by
  unfold syncStateRecordPush syncStateLoad
  rw [Table.find_upsert]
  show Option.map _ (if (a, p) = (agentId, peerId) then _ else _) = _
  split_ifs with h
  · cases db.syncState.find (a, p) <;> rfl
  · rfl

theorem load_observe {seenAt now a p w : String}
    (hw : (db.syncStateObserve agentId peerId seenAt now).syncStateLoad a p = some w) :
    db.syncStateLoad a p = some w ∨ (a = agentId ∧ p = peerId ∧ w = seenAt) := by
  rw [syncStateLoad_observe] at hw
  split_ifs at hw with hpair
  · cases hpair
    cases hl : db.syncStateLoad agentId peerId with
    | none =>
      rw [hl] at hw
      cases hw
      exact Or.inr ⟨rfl, rfl, rfl⟩
    | some last =>
      rw [hl] at hw
      simp only [Option.map_some, Option.getD_some, Option.some.injEq] at hw
      rcases max_choice last seenAt with hmax | hmax
      · exact Or.inl (by rw [← hw, hmax])
      · exact Or.inr ⟨rfl, rfl, by rw [← hw, hmax]⟩
  · exact Or.inl hw

/-! ## Pages -/

section Page

variable {since : Option String} {limit : ℕ} {m : Memory}

theorem mem_memoriesUpdatedSince (h : m ∈ db.memoriesUpdatedSince since limit) :
    m ∈ db.live ∧ since.all (m.updatedAt > ·) :=
  List.mem_filter.mp ((List.mem_insertionSort _).mp (List.mem_of_mem_take h))

theorem le_of_not_mem_memoriesUpdatedSince (hm : m ∈ db.live) (hsince : since.all (m.updatedAt > ·))
    (hout : m ∉ db.memoriesUpdatedSince since limit) {x : Memory}
    (hx : x ∈ db.memoriesUpdatedSince since limit) : x.updatedAt ≤ m.updatedAt := by
  have hsorted := List.pairwise_insertionSort (fun a b : Memory => a.updatedAt ≤ b.updatedAt)
    (db.live.filter fun m => since.all (m.updatedAt > ·))
  have hmem : m ∈ (db.live.filter fun m => since.all (m.updatedAt > ·)).insertionSort
      fun a b => a.updatedAt ≤ b.updatedAt := (List.mem_insertionSort _).mpr (List.mem_filter.mpr ⟨hm, hsince⟩)
  rw [← List.take_append_drop limit (List.insertionSort _ _)] at hsorted hmem
  exact (List.pairwise_append.mp hsorted).2.2 x hx m ((List.mem_append.mp hmem).resolve_left hout)

theorem not_above_of_memoriesUpdatedSince_eq_nil (hlimit : 0 < limit)
    (hnil : db.memoriesUpdatedSince since limit = []) (hm : m ∈ db.live) :
    ∃ w, since = some w ∧ m.updatedAt ≤ w := by
  rcases List.take_eq_nil_iff.mp hnil with hzero | hempty
  · omega
  · have hnone : m ∉ db.live.filter fun m => since.all (m.updatedAt > ·) := by
      rw [← List.mem_insertionSort fun a b : Memory => a.updatedAt ≤ b.updatedAt, hempty]
      exact List.not_mem_nil
    rw [List.mem_filter, not_and] at hnone
    cases since with
    | none => exact absurd rfl (hnone hm)
    | some w => exact ⟨w, rfl, not_lt.mp fun hlt => hnone hm (decide_eq_true hlt)⟩

end Page

end Db

end AiMemory
