import AiMemory.Cli.Sync
import AiMemory.Db.Archive
import AiMemory.Db.Chain
import AiMemory.Db.SyncState
import AiMemory.Kg.Query
import AiMemory.Lib.Timestamps

/-!
# Comparing times by their text

Every statement that compares two timestamps compares their texts: the expiry against the clock in `list`,
`export_all` and `gc`, the versions of a memory in `insert_if_newer`, the watermark in `sync_state_observe`, and the
validity of a link in `kg_query`. `Follows` says that they answer for the times that two texts stand for, and
`follows_iff` when they do.

What chrono reads is a parameter: it reads a text as the fields that are spelled in it.
-/

namespace AiMemory

open Relational Timestamps

/-! ## `list` -/

/-- The arguments of `list`. -/
structure ListQuery where
  ns : Option String
  tier : Option Tier
  limit : ℕ
  offset : ℕ
  minPriority : Option ℤ
  since : Option String
  until' : Option String
  tagsFilter : Option String
  agentId : Option String

def ListQuery.everything (limit : ℕ) : ListQuery := ⟨none, none, limit, 0, none, none, none, none, none⟩

namespace Db

/-- The generated column `agent_id_idx`, of type `TEXT`. -/
def agentIdIdx (m : Memory) : Option String :=
  (agentId m.metadata).map fun
    | .str s => s
    | value => String.ofList value.render

/-- The `WHERE` clause of `list`. -/
def listFilters (q : ListQuery) (now : String) (m : Memory) : Bool :=
  q.ns.all (m.ns = ·) && q.tier.all (m.tier = ·) && q.minPriority.all (· ≤ m.priority) && m.expiresAt.all (now < ·) &&
    q.since.all (· ≤ m.createdAt) && q.until'.all (m.createdAt ≤ ·) && q.tagsFilter.all (m.tags.contains ·) &&
    q.agentId.all fun a => agentIdIdx m = some a

/-- `ORDER BY priority DESC, updated_at DESC`. -/
def listBefore (a b : Memory) : Bool := b.priority < a.priority ∨ b.priority = a.priority ∧ b.updatedAt ≤ a.updatedAt

def list (db : Db) (q : ListQuery) (now : String) : List Memory :=
  (((db.live.filter (listFilters q now)).mergeSort listBefore).drop q.offset).take q.limit

variable {db : Db} {now : String} {limit : ℕ} {r : MemoryRow}

/-- Without filters, and with room for all, `list` has the memories that have not expired. -/
theorem mem_list_everything (hr : r ∈ db.memories) (hlimit : db.memories.rows.length ≤ limit) :
    r.toMemory ∈ db.list (.everything limit) now ↔ r.expiresAt.all (now < ·) := by
  have hlen : ((db.live.filter (listFilters (.everything limit) now)).mergeSort listBefore).length ≤ limit := by
    rw [List.length_mergeSort]
    exact (List.length_filter_le _ _).trans (by rwa [live, List.length_map])
  unfold list
  rw [show (ListQuery.everything limit).offset = 0 from rfl, show (ListQuery.everything limit).limit = limit from rfl,
    List.drop_zero, List.take_of_length_le hlen, List.mem_mergeSort, List.mem_filter,
    and_iff_right (mem_live.mpr ⟨r, hr, rfl⟩)]
  simp [listFilters, ListQuery.everything]

theorem toMemory_mem_exportAll (hr : r ∈ db.memories) :
    r.toMemory ∈ db.exportAll now ↔ r.expiresAt.all (now < ·) := by
  rw [mem_exportAll, and_iff_right (mem_live.mpr ⟨r, hr, rfl⟩)]
  rfl

theorem not_mem_gc_iff {archive : Bool} (hr : r ∈ db.memories) :
    r ∉ (db.gc archive now).1.memories ↔ r.expiresAt.any (· < now) := by
  rw [mem_gc, and_iff_right hr, Bool.not_eq_false]
  rfl

end Db

/-! ## What following the times means -/

/-- Wherever a function asks whether `s` comes before `t`, it answers whether the time `x` is before the time `y`. -/
structure Follows (s t : String) (x y : Instant) : Prop where
  list : ∀ (db : Db) (r : MemoryRow) (limit : ℕ), r ∈ db.memories → db.memories.rows.length ≤ limit →
    r.expiresAt = none ∨ r.expiresAt = some t →
      (r.toMemory ∈ db.list (.everything limit) s ↔ r.expiresAt = none ∨ x < y)
  exportAll : ∀ (db : Db) (r : MemoryRow), r ∈ db.memories → r.expiresAt = none ∨ r.expiresAt = some t →
    (r.toMemory ∈ db.exportAll s ↔ r.expiresAt = none ∨ x < y)
  gc : ∀ (db : Db) (r : MemoryRow) (archive : Bool), r ∈ db.memories → r.expiresAt = none ∨ r.expiresAt = some s →
    (r ∉ (db.gc archive t).1.memories ↔ r.expiresAt ≠ none ∧ x < y)
  /-- The incoming memory replaces the content of the stored one; its id does not decide a tie for it. -/
  insertIfNewer : ∀ (db db' : Db) (stored r : MemoryRow) (mem : Memory) (id : String),
    db.getKey mem.key = some stored → stored.updatedAt = s → mem.updatedAt = t → mem.id ≤ stored.id →
      mem.content ≠ stored.content → db.insertIfNewer mem = .ok (db', id) → db'.get stored.id = some r →
        (r.content = mem.content ↔ x < y)
  syncStateObserve : ∀ (db : Db) (agentId peerId now : String), db.syncStateLoad agentId peerId = some s →
    ((db.syncStateObserve agentId peerId t now).syncStateLoad agentId peerId ≠ some s ↔ x < y)
  /-- Each bound of a link, whatever the other one is. -/
  validFrom : ∀ (l : LinkRow) (sourceId : String) (depth cap : ℕ), l.validFrom = some t →
    ((Kg.prepare sourceId depth (some s) none cap).passes l ↔ y ≤ x ∧ l.validUntil.all (s < ·))
  validUntil : ∀ (l : LinkRow) (sourceId : String) (depth cap : ℕ), l.validUntil = some t →
    ((Kg.prepare sourceId depth (some s) none cap).passes l ↔ l.validFrom.any (· ≤ s) ∧ x < y)

section Follows

variable {s t : String} {x y : Instant}

theorem all_after_iff {o : Option String} (ho : o = none ∨ o = some t) :
    o.all (fun e => decide (s < e)) = true ↔ o = none ∨ s < t := by
  rcases ho with rfl | rfl
  · exact iff_of_true rfl (Or.inl rfl)
  · rw [or_iff_right (Option.some_ne_none t)]
    exact decide_eq_true_iff

theorem any_before_iff {o : Option String} (ho : o = none ∨ o = some s) :
    o.any (fun e => decide (e < t)) = true ↔ o ≠ none ∧ s < t := by
  rcases ho with rfl | rfl
  · exact iff_of_false Bool.false_ne_true fun h => h.1 rfl
  · rw [and_iff_right (Option.some_ne_none s)]
    exact decide_eq_true_iff

theorem passes_at_iff {l : LinkRow} {sourceId : String} {depth cap : ℕ} :
    (Kg.prepare sourceId depth (some s) none cap).passes l ↔ l.validFrom.any (· ≤ s) ∧ l.validUntil.all (s < ·) := by
  rw [Kg.passes_prepare, Option.any_eq_true, Option.all_eq_true]
  constructor
  · intro h
    obtain ⟨start, hstart, hle⟩ := h.started s rfl
    exact ⟨⟨start, hstart, decide_eq_true hle⟩, fun stop hstop => decide_eq_true (h.standing s rfl stop hstop)⟩
  · rintro ⟨⟨start, hstart, hle⟩, hstop⟩
    refine ⟨fun _ ht => ?_, fun _ ht stop hs => ?_, fun _ ht => by cases ht⟩
    · cases ht
      exact ⟨start, hstart, of_decide_eq_true hle⟩
    · cases ht
      exact of_decide_eq_true (hstop stop hs)

theorem content_insertIfNewer {db db' : Db} {stored r : MemoryRow} {mem : Memory} {id : String}
    (hkey : db.getKey mem.key = some stored) (hid : mem.id ≤ stored.id) (hcontent : mem.content ≠ stored.content)
    (hok : db.insertIfNewer mem = .ok (db', id)) (hr : db'.get stored.id = some r) :
    r.content = mem.content ↔ stored.updatedAt < mem.updatedAt := by
  have hstored : db.get stored.id = some stored := Db.get_of_mem (Db.getKey_eq_some.mp hkey).1
  have hmerged : db'.get stored.id = some (mergeNewer stored mem) := by
    rcases Db.insertOnConflict_cases hok with ⟨stored', hstored', -, rfl⟩ | ⟨hnone, -⟩
    · rw [hkey] at hstored'
      cases hstored'
      refine (Db.get_updateRow stored.id).trans ?_
      rw [hstored, Option.map_some, if_pos rfl]
    · rw [hkey] at hnone
      cases hnone
  rw [hmerged] at hr
  cases hr
  have htie : ¬(mem.updatedAt = stored.updatedAt ∧ stored.id < mem.id) := fun h => not_lt_of_ge hid h.2
  show (if Supersedes stored mem then mem.content else stored.content) = mem.content ↔ _
  by_cases hnewer : stored.updatedAt < mem.updatedAt
  · have hwins : Supersedes stored mem := Or.inl hnewer
    rw [if_pos hwins]
    exact iff_of_true rfl hnewer
  · have hloses : ¬Supersedes stored mem := fun h => h.elim hnewer htie
    rw [if_neg hloses]
    exact iff_of_false (Ne.symm hcontent) hnewer

/-- All of them follow the times as soon as one does: the order of the texts is that of the times. -/
theorem follows_iff_lt : Follows s t x y ↔ (s < t ↔ x < y) := by
  constructor
  · intro h
    let l : LinkRow :=
      { sourceId := "", targetId := "", relation := "", createdAt := "", signature := none, observedBy := none,
        validFrom := some s, validUntil := some t, attestLevel := none }
    have hstarted : l.validFrom.any (· ≤ s) := decide_eq_true le_rfl
    rw [← and_iff_right (a := l.validFrom.any (· ≤ s)) (b := x < y) hstarted, ← h.validUntil l "" 0 0 rfl, passes_at_iff,
      and_iff_right hstarted]
    exact decide_eq_true_iff.symm
  · intro h
    refine ⟨?_, ?_, ?_, ?_, ?_, ?_, ?_⟩
    · intro db r limit hr hlimit hexp
      rw [Db.mem_list_everything hr hlimit]
      rw [all_after_iff hexp, h]
    · intro db r hr hexp
      rw [Db.toMemory_mem_exportAll hr, all_after_iff hexp, h]
    · intro db r archive hr hexp
      rw [Db.not_mem_gc_iff hr, any_before_iff hexp, h]
    · intro db db' stored r mem id hkey hs ht hid hcontent hok hr
      rw [content_insertIfNewer hkey hid hcontent hok hr, hs, ht, h]
    · intro db agentId peerId now hload
      rw [Db.syncStateLoad_observe, if_pos rfl, hload, Option.map_some, Option.getD_some, ne_eq, Option.some_inj,
        max_eq_left_iff, not_le, h]
    · intro l sourceId depth cap hfrom
      rw [passes_at_iff, hfrom, ← not_lt (a := x), ← h, not_lt]
      exact and_congr_left fun _ => decide_eq_true_iff
    · intro l sourceId depth cap huntil
      rw [passes_at_iff, huntil, ← h]
      exact and_congr_right fun _ => decide_eq_true_iff

/-! ## When they follow -/

/-- Between two timestamps that chrono reads, the functions follow the times, whichever of them is asked to come first,
exactly when neither spelling misleads about the other. -/
theorem follows_iff (parse : String → Option Stamp) (hparse : ∀ s a, parse s = some a → a.text = s.toList)
    {s t : String} {a b : Stamp} (hs : parse s = some a) (ht : parse t = some b) :
    Follows s t a.instant b.instant ∧ Follows t s b.instant a.instant ↔ ¬Misleads a b ∧ ¬Misleads b a := by
  have htext : ∀ {s t a b}, parse s = some a → parse t = some b → (Misleads a b ↔ s < t ∧ b.instant ≤ a.instant) := by
    intro s t a b hs ht
    rw [misleads_iff, hparse s a hs, hparse t b ht, ← String.lt_iff_toList_lt]
  rw [follows_iff_lt, follows_iff_lt, htext hs ht, htext ht hs]
  constructor
  · rintro ⟨hab, hba⟩
    exact ⟨fun h => absurd (hab.mp h.1) (not_lt_of_ge h.2), fun h => absurd (hba.mp h.1) (not_lt_of_ge h.2)⟩
  · rintro ⟨hab, hba⟩
    rcases lt_trichotomy s t with hlt | rfl | hlt
    · have htime : a.instant < b.instant := lt_of_not_ge fun h => hab ⟨hlt, h⟩
      exact ⟨iff_of_true hlt htime, iff_of_false (not_lt_of_gt hlt) (not_lt_of_gt htime)⟩
    · have heq : a = b := Option.some_inj.mp (hs.symm.trans ht)
      subst heq
      exact ⟨iff_of_false (lt_irrefl _) (lt_irrefl _), iff_of_false (lt_irrefl _) (lt_irrefl _)⟩
    · have htime : b.instant < a.instant := lt_of_not_ge fun h => hba ⟨hlt, h⟩
      exact ⟨iff_of_false (not_lt_of_gt hlt) (not_lt_of_gt htime), iff_of_true hlt htime⟩

end Follows

/-! ## Two spellings -/

def readAmong (stamps : List Stamp) (s : String) : Option Stamp := stamps.find? fun a => String.ofList a.text = s

theorem text_of_readAmong {stamps : List Stamp} (s : String) (a : Stamp) (h : readAmong stamps s = some a) :
    a.text = s.toList := by
  have htext : String.ofList a.text = s := by simpa using List.find?_some h
  rw [← htext, String.toList_ofList]

namespace NewYear

def date : Date := ⟨2026, 1, 1, by decide, by decide, by decide, by decide⟩

/-- Eight o'clock, and half a second later, as a node prints them. -/
def eight : Stamp := ⟨date, .upperT, 8, 0, 0, [], .offset .plus 0 0⟩

def justAfterEight : Stamp := ⟨date, .upperT, 8, 0, 0, [5, 0, 0], .offset .plus 0 0⟩

def midnight : Stamp := ⟨date, .upperT, 9, 0, 0, [], .offset .plus 9 0⟩

def read : String → Option Stamp := readAmong [eight, justAfterEight, midnight]

theorem eight_plain : eight.Plain :=
  ⟨rfl, rfl, by decide, fun ds h => by simp [eight] at h⟩

theorem justAfterEight_plain : justAfterEight.Plain :=
  ⟨rfl, rfl, by decide, fun ds h => by
    have hlast := congrArg (fun l => l.reverse[2]?) h
    simp [justAfterEight] at hlast⟩

theorem follows_eight :
    Follows "2026-01-01T08:00:00+00:00" "2026-01-01T08:00:00.500+00:00" eight.instant justAfterEight.instant ∧
      Follows "2026-01-01T08:00:00.500+00:00" "2026-01-01T08:00:00+00:00" justAfterEight.instant eight.instant :=
  (follows_iff read text_of_readAmong (by decide +kernel) (by decide +kernel)).mpr
    ⟨not_misleads_of_plain eight_plain justAfterEight_plain, not_misleads_of_plain justAfterEight_plain eight_plain⟩

def nightly : Memory :=
  { Db.standardMemory "m1" "notes" (.obj []) with
    tier := .short
    content := "until midnight"
    createdAt := "2026-01-01T08:00:00+00:00"
    updatedAt := "2026-01-01T08:00:00+00:00"
    expiresAt := some "2026-01-01T09:00:00+09:00" }

/-- Eight hours after midnight, a valid memory that expired then is listed, and is not collected. -/
theorem nightly_outlives :
    nightly.Valid (fun s => (read s).isSome) ∧
      read "2026-01-01T09:00:00+09:00" = some midnight ∧ read "2026-01-01T08:00:00+00:00" = some eight ∧
      midnight.instant < eight.instant ∧
      nightly ∈ (Db.single nightly.toRow).list (.everything 10) "2026-01-01T08:00:00+00:00" ∧
      nightly.toRow ∈ ((Db.single nightly.toRow).gc true "2026-01-01T08:00:00+00:00").1.memories := by
  have hmem : nightly.toRow ∈ (Db.single nightly.toRow).memories := List.mem_singleton.mpr rfl
  refine ⟨by decide +kernel, by decide +kernel, by decide +kernel, ?_, ?_, ?_⟩
  · unfold Stamp.instant
    left
    show (1440 * (date.number : ℤ) + 60 * 9 + 0 - (60 * 9 + 0)) < 1440 * (date.number : ℤ) + 60 * 8 + 0 - (60 * 0 + 0)
    omega
  · exact (Db.mem_list_everything hmem (by decide)).mpr (by decide +kernel)
  · by_contra hgone
    exact absurd ((Db.not_mem_gc_iff hmem).mp hgone) (by decide +kernel)

end NewYear

end AiMemory
