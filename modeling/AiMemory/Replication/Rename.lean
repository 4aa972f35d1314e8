import AiMemory.Replication.Federation
import AiMemory.Sync.Records

/-!
# A renamed memory on its way to a peer

`update` may change the title or the namespace of a memory, and the update handler then posts the row to
the peers, so that they see the update and not the row before it. A peer files it by title and namespace:
if it has the memory under the old ones, the id is taken and the write fails. `rename_reaches_iff` says
that a rename arrives only where it was known before.
-/

namespace AiMemory

open Relational

/-- The id of the memory stands for its title, namespace and content, and no longer for the old ones. -/
def StoredAs (db : Db) (m : Memory) (old : String × String) : Prop :=
  (∃ r, db.get m.id = some r ∧ r.key = m.key ∧ r.content = m.content) ∧
    ∀ r ∈ db.memories, r.id = m.id → r.key ≠ old

section Rename

variable {h : Host} {t : Tick} {header : Option String} {sender : String} {db : Db} {m : Memory}

theorem live_syncPush_storeBody : ((storeBody sender m).Accepted t header ∧
      (syncPush h t header (storeBody sender m) db).1.live = (h.takeIn db m).live) ∨
    (¬(storeBody sender m).Accepted t header ∧ (syncPush h t header (storeBody sender m) db).1 = db) := by
  obtain ⟨hacc, agent, hdb⟩ | hrej := syncPush_accepted h t header (storeBody sender m) db
  · refine Or.inl ⟨hacc, ?_⟩
    rw [hdb, Push.body_live]
    show (Push.memory h false _ m).db.live = _
    rw [Push.memory_db]
  · exact Or.inr hrej

variable {old : String × String}

theorem storedAs_of_live {db' : Db} (hlive : db'.live = db.live) :
    StoredAs db' m old ↔ StoredAs db m old := by
  have himp : ∀ {d d' : Db}, d'.live = d.live → StoredAs d m old → StoredAs d' m old := by
    rintro d d' hl ⟨⟨r, hr, hkey, hcontent⟩, hold⟩
    have hmap := Db.map_get d' m.id
    rw [hl, ← Db.map_get, hr] at hmap
    obtain ⟨r', hr', heq⟩ := Option.map_eq_some_iff.mp hmap
    refine ⟨⟨r', hr', ?_, ?_⟩, fun x hx hid => ?_⟩
    · exact (congrArg Memory.key heq).trans hkey
    · exact (congrArg Memory.content heq).trans hcontent
    · obtain ⟨y, hy, hyx⟩ := Db.mem_live.mp (hl ▸ Db.mem_live.mpr ⟨x, hx, rfl⟩)
      rw [← show y.key = x.key from congrArg Memory.key hyx]
      exact hold y hy ((congrArg Memory.id hyx).trans hid)
  exact ⟨himp hlive.symm, himp hlive⟩

theorem storedAs_iff_of_get {b : MemoryRow} (hb : db.get m.id = some b)
    (hold : m.key ≠ old) : StoredAs db m old ↔ b.key = m.key ∧ b.content = m.content := by
  constructor
  · rintro ⟨⟨r, hr, hkey, hcontent⟩, -⟩
    rw [hb] at hr
    cases hr
    exact ⟨hkey, hcontent⟩
  · rintro ⟨hkey, hcontent⟩
    refine ⟨⟨b, hb, hkey, hcontent⟩, fun r hr hri => ?_⟩
    have hget := Db.get_of_mem hr
    rw [hri, hb] at hget
    cases hget
    rw [hkey]
    exact hold

/-- A row whose id the node has is stored as itself exactly when the node already had it under that title and
namespace, and either its content as well or an older version that the write replaces. -/
theorem storedAs_takeIn_iff {b : MemoryRow} (hb : db.get m.id = some b)
    (hold : m.key ≠ old) : StoredAs (h.takeIn db m) m old ↔ b.key = m.key ∧
      (b.content = m.content ∨ m.Valid h.rfc3339 ∧ h.insertFault m = false ∧ b.updatedAt < m.updatedAt) := by
  obtain ⟨hmem, hid⟩ := Db.get_eq_some.mp hb
  obtain ⟨b', hmem', hid', hkey'⟩ := liveOn_takeIn h db m b hmem
  have hget' : (h.takeIn db m).get m.id = some b' := Db.get_eq_some.mpr ⟨hmem', hid'.trans hid⟩
  rw [storedAs_iff_of_get hget' hold, hkey']
  refine and_congr_right fun hkey => ?_
  have hstored : db.getKey m.key = some b := Db.getKey_eq_some.mpr ⟨hmem, hkey⟩
  have hsup : Supersedes b m ↔ b.updatedAt < m.updatedAt := by
    refine ⟨fun hs => hs.elim (fun hlt => hlt) fun hc => absurd hc.2 ?_, Or.inl⟩
    rw [hid]
    exact lt_irrefl _
  obtain ⟨id, hv, hf, hi⟩ | ⟨he, hskip⟩ := takeIn_cases h db m
  · have hmerged := Db.getKey_insertOnConflict hi
    rw [hstored, (Db.getKey_eq_some.mpr ⟨hmem', hkey'.trans hkey⟩)] at hmerged
    rw [show b' = mergeNewer b m from Option.some.inj hmerged]
    show (if Supersedes b m then m.content else b.content) = m.content ↔ _
    by_cases hlt : b.updatedAt < m.updatedAt
    · rw [if_pos (hsup.mpr hlt)]
      exact iff_of_true rfl (Or.inr ⟨hv, hf, hlt⟩)
    · rw [if_neg (mt hsup.mp hlt)]
      exact ⟨Or.inl, fun hc => hc.elim (fun hc => hc) fun hc => absurd hc.2.2 hlt⟩
  · have hsame : b' = b := Indexed.eq_of_pk (he ▸ hmem') hmem hid'
    rw [hsame]
    refine ⟨Or.inl, fun hc => hc.elim (fun hc => hc) fun ⟨hv, hf, _⟩ => ?_⟩
    rcases hskip hv with hfault | ⟨hnone, -⟩
    · rw [hf] at hfault
      cases hfault
    · rw [hnone] at hstored
      cases hstored

end Rename

/-- For a memory that two nodes hold and one renames: pushing the renamed row leaves it renamed on the other
exactly when the other already had it under the new title and namespace, with the new content or older than
the rename and open to the write. -/
theorem rename_reaches_iff (h : Host) (t : Tick) (header : Option String) (sender id now : String)
    (u : UpdateMemory) (here here' there : Db) (changed : Bool) (before after peerRow : MemoryRow)
    (hbefore : here.get id = some before) (hupdate : here.update id u now = .ok (here', true, changed))
    (hafter : here'.get id = some after) (hrename : after.key ≠ before.key)
    (hpeer : there.get id = some peerRow) :
    StoredAs (syncPush h t header (storeBody sender after.toMemory) there).1 after.toMemory before.key ↔
      peerRow.key = after.key ∧ (peerRow.content = after.content ∨
        (storeBody sender after.toMemory).Accepted t header ∧ after.toMemory.Valid h.rfc3339 ∧
          h.insertFault after.toMemory = false ∧ peerRow.updatedAt < now) := by
  have hnew : after.id = id ∧ after.updatedAt = now := by
    obtain ⟨hmem, hid⟩ := Db.get_eq_some.mp hafter
    refine ⟨hid, ?_⟩
    obtain ⟨hnone, -⟩ | ⟨e, -, -, -, hrows⟩ := Db.update_cases hupdate
    · rw [hnone] at hbefore
      cases hbefore
    · rw [Indexed.mem_def, hrows, List.mem_map] at hmem
      obtain ⟨r, -, hr⟩ := hmem
      split_ifs at hr with hri
      · rw [← hr]
        rfl
      · exact absurd (hr ▸ hid) hri
  have hget : there.get after.toMemory.id = some peerRow := hnew.1.symm ▸ hpeer
  obtain ⟨hrec, hlive⟩ | ⟨hrec, hsame⟩ := @live_syncPush_storeBody h t header sender there after.toMemory
  · rw [storedAs_of_live hlive, storedAs_takeIn_iff hget hrename, hnew.2]
    refine and_congr_right fun _ => or_congr_right ?_
    exact ⟨fun hc => ⟨hrec, hc⟩, fun hc => hc.2⟩
  · rw [hsame, storedAs_iff_of_get hget hrename]
    refine and_congr_right fun _ => ?_
    exact ⟨Or.inl, fun hc => hc.elim (fun hc => hc) fun hc => absurd hc.1 hrec⟩

def rota (title stamp : String) : MemoryRow := (note "m1" title stamp).toRow

/-- A rename that the peer had heard of before, through another node, arrives. -/
theorem rename_arrives :
    StoredAs (syncPush (plainHost ["2026-01-01T00:00:00+00:00", "2026-01-03T00:00:00+00:00"] fun _ => false)
      (tickAt "2026-01-03T00:00:00+00:00") none
      (storeBody "alice" { note "m1" "Roster" "2026-01-01T00:00:00+00:00" with
        content := "see the board", updatedAt := "2026-01-03T00:00:00+00:00" })
      (Db.single (rota "Roster" "2026-01-01T00:00:00+00:00"))).1
      { note "m1" "Roster" "2026-01-01T00:00:00+00:00" with
        content := "see the board", updatedAt := "2026-01-03T00:00:00+00:00" } ("Rota", "team") := by
  refine (rename_reaches_iff _ (tickAt "2026-01-03T00:00:00+00:00") none "alice" "m1" "2026-01-03T00:00:00+00:00"
    { title := some "Roster", content := some "see the board" } (Db.single (rota "Rota" "2026-01-01T00:00:00+00:00"))
    _ _ true (rota "Rota" "2026-01-01T00:00:00+00:00") _ (rota "Roster" "2026-01-01T00:00:00+00:00") rfl rfl rfl
    (by decide) rfl).mpr
    ⟨by decide, Or.inr ⟨⟨by decide, _, resolveHttpAgentId_none _⟩, by decide, rfl, by decide⟩⟩

/-- A rename that is news to the peer is lost: the peer answers 200 and keeps the old title. -/
theorem rename_lost :
    let before := rota "Rota" "2026-01-01T00:00:00+00:00"
    let after : MemoryRow := { rota "Roster" "2026-01-01T00:00:00+00:00" with updatedAt := "2026-01-03T00:00:00+00:00" }
    let host := plainHost ["2026-01-01T00:00:00+00:00", "2026-01-03T00:00:00+00:00"] fun _ => false
    let answer := syncPush host (tickAt "2026-01-03T00:00:00+00:00") none (storeBody "alice" after.toMemory)
      (Db.single before)
    ((Db.single before).update "m1" { title := some "Roster" } "2026-01-03T00:00:00+00:00").map
        (fun res => (res.1.get "m1", res.2.1)) = .ok (some after, true) ∧
      answer.2.isSuccess ∧ answer.1.get "m1" = some before ∧
      ¬StoredAs answer.1 after.toMemory before.key := by
  intro before after host answer
  have hget : answer.1.get "m1" = some before := by decide
  refine ⟨by decide, by decide, hget, ?_⟩
  rintro ⟨⟨r, hr, hkey, -⟩, -⟩
  rw [show after.toMemory.id = "m1" from rfl, hget] at hr
  cases hr
  revert hkey
  decide

end AiMemory
