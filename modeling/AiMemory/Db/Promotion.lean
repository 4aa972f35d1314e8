import AiMemory.Db.Chain
import AiMemory.Identity.Links

/-!
# Vertical promotion

`promote_to_namespace` clones a memory into an ancestor of its namespace and links the clone to it. The clone goes through the
upsert on title and namespace, so the promotion is a fan-out exactly when no memory of that title lives at the ancestor; else
that memory is overwritten and linked in the clone's place.
-/

namespace AiMemory

open Relational

namespace Db

variable {db db' db₁ : Db} {source : MemoryRow} {sourceId target newId now id : String}

def cloned (m : Memory) : String × String × List String × Tier × ℤ × ℚ × String × Option String × Json :=
  (m.title, m.content, m.tags, m.tier, m.priority, m.confidence, m.source, m.expiresAt, m.metadata)

/-- A promotion that changed no row, added one memory at a proper ancestor with the fields of the source, and one link from it to
the source. -/
structure FannedOut (db db' : Db) (source : MemoryRow) (target id : String) : Prop where
  proper : ProperAncestor target source.ns
  kept : ∀ r ∈ db.memories, r ∈ db'.memories
  clone : ∃ c : MemoryRow, c ∉ db.memories ∧ (∀ r, r ∈ db'.memories ↔ r ∈ db.memories ∨ r = c) ∧ c.id = id ∧ c.ns = target ∧
    cloned c.toMemory = cloned source.toMemory
  link : ∃ l : LinkRow, l ∉ db.links ∧ (∀ l', l' ∈ db'.links ↔ l' ∈ db.links ∨ l' = l) ∧ l.sourceId = id ∧
    l.targetId = source.id ∧ l.relation = "derived_from"

theorem properAncestor_iff {ns : String} :
    ProperAncestor target ns ↔ target ≠ "" ∧ target ≠ ns ∧ target ∈ namespaceAncestors ns := by
  by_cases hns : ns = ""
  · subst hns
    exact iff_of_false not_properAncestor_empty fun h => List.not_mem_nil h.2.2
  · rw [mem_namespaceAncestors hns]
    constructor
    · intro h
      have hne : target ≠ ns := by
        rintro rfl
        exact lt_irrefl _ h.length_lt
      exact ⟨h.1, hne, Or.inr h⟩
    · rintro ⟨-, hself, hmem⟩
      exact hmem.resolve_left hself

/-! ## What a promotion does -/

/-- Where no memory of that title lives at the ancestor, the clone is a new row and nothing else changes. -/
theorem insert_clone_of_free (hfree : db.getKey (source.title, target) = none)
    (h : db.insert (promotionClone source.toMemory target newId now) = .ok (db₁, id)) :
    id = newId ∧ db.get newId = none ∧ db₁.links = db.links ∧
      ∀ r, r ∈ db₁.memories ↔ r ∈ db.memories ∨ r = (promotionClone source.toMemory target newId now).toRow := by
  rcases insertOnConflict_cases h with ⟨stored, hs, -⟩ | ⟨-, hget, hid, t, ht, rfl⟩
  · exact absurd (hfree.symm.trans hs) (by simp)
  · exact ⟨hid, hget, rfl, fun r => Indexed.mem_insertNew? ht⟩

theorem createLink_of_free {s t rel : String} (hfree : db.links.find (s, t, rel) = none)
    (h : db.createLink s t rel now = .ok db') :
    ∃ l : LinkRow, l ∉ db.links ∧ (∀ l', l' ∈ db'.links ↔ l' ∈ db.links ∨ l' = l) ∧ l.sourceId = s ∧ l.targetId = t ∧
      l.relation = rel := by
  obtain ⟨-, rfl⟩ := createLink_eq_ok.mp h
  refine ⟨_, ?_, fun l' => mem_insertLink.trans (or_congr_right (and_iff_left hfree)), rfl, rfl, rfl⟩
  exact fun hmem => Table.find_eq_none.mp hfree _ hmem rfl

/-- Where a memory of that title lives at the ancestor, the upsert only rewrites it: no row is added. -/
theorem not_fannedOut_of_taken (htaken : db.getKey (source.title, target) ≠ none)
    (hi : db.insert (promotionClone source.toMemory target newId now) = .ok (db₁, id)) (hrows : db'.memories = db₁.memories) :
    ¬ FannedOut db db' source target id := by
  intro h
  obtain ⟨c, hnew, hmem, -⟩ := h.clone
  have hc : c ∈ db'.memories := (hmem c).mpr (Or.inr rfl)
  rcases insertOnConflict_cases hi with ⟨stored, -, -, rfl⟩ | ⟨hfree, -⟩
  · -- the row at the ancestor has the id of a row that was there, and that row is kept
    obtain ⟨r, hr, hcr⟩ := mem_updateRow.mp (hrows ▸ hc)
    have hid : c.id = r.id := by
      rw [← hcr]
      split_ifs <;> rfl
    have hkept : db'.get r.id = some r := get_of_mem (h.kept r hr)
    rw [← hid, get_of_mem hc] at hkept
    cases hkept
    exact hnew hr
  · exact htaken hfree

/-! ## When a promotion is a fan-out -/

/-- The clone is stored in any case when a memory of its title lives at the ancestor, and else when its id is free. -/
theorem promotion_goes_through (newId now : String) (hs : db.get sourceId = some source) (hproper : ProperAncestor target source.ns)
    (hstores : db.getKey (source.title, target) = none → db.get newId = none) :
    ∃ db₁ db' id, db.insert (promotionClone source.toMemory target newId now) = .ok (db₁, id) ∧
      db₁.createLink id sourceId "derived_from" now = .ok db' ∧
      db.promoteToNamespace sourceId target newId now = .ok (db', id) := by
  obtain ⟨hempty, hself, hanc⟩ := properAncestor_iff.mp hproper
  cases hi : db.insert (promotionClone source.toMemory target newId now) with
  | error e =>
    obtain ⟨hfree, hid⟩ := insertOnConflict_error_iff.mp ⟨e, hi⟩
    exact absurd (hstores hfree) hid
  | ok res =>
    obtain ⟨db₁, id⟩ := res
    have hl : db₁.createLink id sourceId "derived_from" now = .ok _ :=
      createLink_eq_ok.mpr ⟨checkEnds_of_insert hs hi, rfl⟩
    exact ⟨db₁, _, id, rfl, hl, promoteToNamespace_eq_ok.mpr ⟨hempty, source, db₁, hs, hself, hanc, hi, hl⟩⟩

/-- A promotion is a fan-out exactly when no memory with the title of the source lives at the ancestor and no link stands under
the id drawn for the clone. -/
theorem promotion_fans_out_iff (db : Db) (sourceId target newId now : String) :
    (∀ db' id, db.promoteToNamespace sourceId target newId now = .ok (db', id) →
      ∃ source, db.get sourceId = some source ∧ FannedOut db db' source target id) ↔
    ∀ source, db.get sourceId = some source → ProperAncestor target source.ns →
      db.getKey (source.title, target) = none ∧
      (db.get newId = none → db.links.find (newId, sourceId, "derived_from") = none) := by
  constructor
  · intro h source hs hproper
    have hfree : db.getKey (source.title, target) = none := by
      by_contra htaken
      obtain ⟨db₁, db', id, hi, hl, hp⟩ := promotion_goes_through newId now hs hproper (fun hfree => absurd hfree htaken)
      obtain ⟨source', hs', hfanned⟩ := h db' id hp
      cases hs.symm.trans hs'
      exact not_fannedOut_of_taken htaken hi (by rw [createLink_frame hl]) hfanned
    refine ⟨hfree, fun hget => ?_⟩
    obtain ⟨db₁, db', id, hi, hl, hp⟩ := promotion_goes_through newId now hs hproper (fun _ => hget)
    obtain ⟨source', hs', hfanned⟩ := h db' id hp
    obtain ⟨rfl, -, hsame, -⟩ := insert_clone_of_free hfree hi
    obtain ⟨-, rfl⟩ := createLink_eq_ok.mp hl
    obtain ⟨l, hnew, hmem, -⟩ := hfanned.link
    -- the link that was added can only be the row filed, and it was filed because its key was free
    rcases mem_insertLink.mp ((hmem l).mpr (Or.inr rfl)) with hold | ⟨-, hkey⟩
    · exact absurd (hsame ▸ hold) hnew
    · rw [hsame] at hkey
      exact hkey
  · intro h db' id hp
    obtain ⟨hempty, source, db₁, hs, hself, hanc, hi, hl⟩ := promoteToNamespace_eq_ok.mp hp
    have hproper := properAncestor_iff.mpr ⟨hempty, hself, hanc⟩
    obtain ⟨hfree, hlinks⟩ := h source hs hproper
    obtain ⟨rfl, hget, hsame, hmem⟩ := insert_clone_of_free hfree hi
    obtain ⟨l, hnew, hlmem, hl'⟩ := createLink_of_free (hsame.symm ▸ hlinks hget) hl
    rw [hsame] at hnew hlmem
    have hrows : db'.memories = db₁.memories := by rw [createLink_frame hl]
    rw [← hrows] at hmem
    refine ⟨source, hs, hproper, fun r hr => (hmem r).mpr (Or.inl hr), ⟨_, fun hc => ?_, hmem, rfl, rfl, rfl⟩, ?_⟩
    · have hlive := get_of_mem hc
      rw [show (promotionClone source.toMemory target id now).toRow.id = id from rfl, hget] at hlive
      cases hlive
    · rw [(get_eq_some.mp hs).2]
      exact ⟨l, hnew, hlmem, hl'⟩

/-- A memory of the namespace `a/b` and one of `a`, under one title. -/
def sameTitle : Db :=
  { Db.empty with
    memories := ⟨⟨[(standardMemory "m1" "a/b" (.obj [])).toRow,
      { (standardMemory "m2" "a" (.obj [])).toRow with content := "Ours" }], by decide⟩, by decide⟩ }

/-- Promoting the first to `a` overwrites the second and links it. -/
theorem promotion_overwrites :
    ∃ db', sameTitle.promoteToNamespace "m1" "a" "m3" "2026-01-02T00:00:00+00:00" = .ok (db', "m2") ∧
      (db'.get "m2").map (·.content) = some "" ∧
      ¬ ∃ source, sameTitle.get "m1" = some source ∧ FannedOut sameTitle db' source "a" "m2" := by
  refine ⟨_, rfl, by decide, ?_⟩
  rintro ⟨source, -, h⟩
  have hkept := get_of_mem (h.kept _ (List.mem_cons_of_mem _ List.mem_cons_self))
  have hcontent := congrArg (Option.map fun r => r.content) hkept
  revert hcontent
  decide

end Db

end AiMemory
