import AiMemory.Db.Links

/-!
# Promotion to an ancestor namespace, and consolidation

`promote_to_namespace` clones a memory into an ancestor of its namespace and links the clone back.
`consolidate` replaces several memories by one in a transaction; the new row has no expiry.
-/

namespace AiMemory

open Relational

/-- `{:?}` of a list of strings. -/
def debugStrings (l : List String) : String := "[" ++ ", ".intercalate (l.map String.quote) ++ "]"

/-- The clone `promote_to_namespace` inserts. -/
def promotionClone (source : Memory) (toNamespace newId now : String) : Memory :=
  { source with
    id := newId
    ns := toNamespace
    accessCount := 0
    createdAt := now
    updatedAt := now
    lastAccessedAt := none }

/-- What `consolidate` collects from the memories it replaces. -/
structure Consolidation where
  maxPriority : ℤ := 5
  allTags : List String := []
  totalAccess : ℤ := 0
  mergedMetadata : List (String × Json) := []
  sourceAgentIds : List String := []

def saturatingAdd (a b : ℤ) : ℤ := max (-2 ^ 63) (min (a + b) (2 ^ 63 - 1))

/-- One field of a source's metadata: `agent_id` is set apart, any other field overwrites. -/
def Consolidation.addField (c : Consolidation) (field : String × Json) : Consolidation :=
  if field.1 = "agent_id" then
    match field.2 with
    | .str aid =>
      if aid ∈ c.sourceAgentIds then c else { c with sourceAgentIds := c.sourceAgentIds ++ [aid] }
    | _ => c
  else { c with mergedMetadata := Json.setField field.1 field.2 c.mergedMetadata }

def Consolidation.add (c : Consolidation) (mem : Memory) : Consolidation :=
  let c := { c with
    maxPriority := max c.maxPriority mem.priority
    allTags := c.allTags ++ mem.tags
    totalAccess := saturatingAdd c.totalAccess mem.accessCount }
  match mem.metadata with
  | .obj fields => fields.foldl Consolidation.addField c
  | _ => c

def Consolidation.metadata (c : Consolidation) (ids : List String) (agentId : String) : Json :=
  let m := Json.setField "derived_from" (.arr (ids.map .str)) c.mergedMetadata
  let m := Json.setField "agent_id" (.str agentId) m
  .obj (if c.sourceAgentIds = [] then m
    else Json.setField "consolidated_from_agents" (.arr (c.sourceAgentIds.map .str)) m)

/-- The row `consolidate` inserts. -/
def Consolidation.row (c : Consolidation) (newId title summary ns : String) (tier : Tier)
    (source now : String) (metadata : Json) : MemoryRow where
  id := newId
  tier
  ns
  title
  content := summary
  tags := (c.allTags.insertionSort (· ≤ ·)).destutter (· ≠ ·)
  priority := c.maxPriority
  confidence := 1
  source
  accessCount := c.totalAccess
  createdAt := now
  updatedAt := now
  lastAccessedAt := none
  expiresAt := none
  metadata
  embedding := none
  embeddingDim := none

namespace Db

/-- `promote_to_namespace`: the id of the clone. Both ends of the link are live when it is written. -/
def promoteToNamespace (db : Db) (sourceId toNamespace newId now : String) :
    Except String (Db × String) :=
  if toNamespace = "" then .error "to_namespace cannot be empty"
  else
    match db.get sourceId with
    | none => .error s!"source memory not found: {sourceId}"
    | some source =>
      let ns := source.ns
      if toNamespace = ns then
        .error s!"to_namespace must be a proper ancestor of the memory's namespace (got self: {ns})"
      else if toNamespace ∉ namespaceAncestors ns then
        let ancestors := debugStrings (namespaceAncestors ns)
        .error s!"to_namespace '{toNamespace}' is not an ancestor of '{ns}' (ancestors: {ancestors})"
      else
        match db.insert (promotionClone source.toMemory toNamespace newId now) with
        | .error e => .error e
        | .ok (db, actualId) =>
          match db.createLink actualId sourceId "derived_from" now with
          | .error e => .error e
          | .ok db => .ok (db, actualId)

/-- The loop of `consolidate` over its sources. -/
def collect (db : Db) : List String → Consolidation → Except String Consolidation
  | [], c => .ok c
  | id :: ids, c =>
    match db.get id with
    | some mem => db.collect ids (c.add mem.toMemory)
    | none => .error s!"memory not found: {id}"

/-- `consolidate`: the id of the new memory. -/
def consolidate (db : Db) (ids : List String) (title summary ns : String) (tier : Tier)
    (source consolidatorAgentId newId now : String) : Except String (Db × String) :=
  match db.collect ids {} with
  | .error e => .error e
  | .ok c =>
    let metadata := c.metadata ids consolidatorAgentId
    match Validate.validateMetadata metadata with
    | .error _ => .error "merged metadata exceeds size limit"
    | .ok () =>
      match db.memories.insertNew? (c.row newId title summary ns tier source now metadata) with
      | none => .error "UNIQUE constraint failed"
      | some t => .ok (ids.foldl (fun db id => (db.delete id).1) { db with memories := t }, newId)

variable {db db' : Db}

/-- A promotion that goes through has stored the clone of a live memory at a proper ancestor and linked the two. -/
theorem promoteToNamespace_eq_ok {sourceId toNs newId now id : String} :
    db.promoteToNamespace sourceId toNs newId now = .ok (db', id) ↔ toNs ≠ "" ∧
    ∃ source db₁, db.get sourceId = some source ∧ toNs ≠ source.ns ∧ toNs ∈ namespaceAncestors source.ns ∧
      db.insert (promotionClone source.toMemory toNs newId now) = .ok (db₁, id) ∧
      db₁.createLink id sourceId "derived_from" now = .ok db' := by
  constructor
  · intro h
    unfold promoteToNamespace at h
    split_ifs at h with hempty
    cases hs : db.get sourceId with
    | none => rw [hs] at h; cases h
    | some source =>
      rw [hs] at h
      simp only at h
      split_ifs at h with hself hanc
      cases hi : db.insert (promotionClone source.toMemory toNs newId now) with
      | error e => rw [hi] at h; cases h
      | ok res =>
        obtain ⟨db₁, actualId⟩ := res
        rw [hi] at h
        simp only at h
        cases hl : db₁.createLink actualId sourceId "derived_from" now with
        | error e => rw [hl] at h; cases h
        | ok db₂ =>
          rw [hl] at h
          cases h
          exact ⟨hempty, source, db₁, rfl, hself, hanc, hi, hl⟩
  · rintro ⟨hempty, source, db₁, hs, hself, hanc, hi, hl⟩
    unfold promoteToNamespace
    simp only [if_neg hempty, hs, if_neg hself, not_not.mpr hanc, if_false, hi, hl]

theorem promoteToNamespace_cases {sourceId toNs newId now id : String}
    (h : db.promoteToNamespace sourceId toNs newId now = .ok (db', id)) :
    ∃ source db₁, db.get sourceId = some source ∧ toNs ≠ source.ns ∧
      toNs ∈ namespaceAncestors source.ns ∧
      db.insert (promotionClone source.toMemory toNs newId now) = .ok (db₁, id) ∧
      db' = { db₁ with links := db'.links } := by
  obtain ⟨-, source, db₁, hs, hself, hanc, hi, hl⟩ := promoteToNamespace_eq_ok.mp h
  exact ⟨source, db₁, hs, hself, hanc, hi, createLink_frame hl⟩

theorem checkEnds_of_insert {mem : Memory} {db₁ : Db} {id sourceId : String} {source : MemoryRow}
    (hs : db.get sourceId = some source) (hi : db.insert mem = .ok (db₁, id)) : db₁.checkEnds id sourceId = .ok () := by
  obtain ⟨clone, hlive⟩ := get_insertOnConflict_self hi
  obtain ⟨hmem, hid⟩ := get_eq_some.mp hs
  obtain ⟨stored, hstored, hsid, -⟩ := liveOn_insertOnConflict hi source hmem
  rw [checkEnds_eq_ok, hlive, show db₁.get sourceId = some stored from get_eq_some.mpr ⟨hstored, hsid.trans hid⟩]
  exact ⟨rfl, rfl⟩

/-- A promotion under a free id goes through exactly when it names a proper ancestor of the namespace of a live
memory. -/
theorem promoteToNamespace_isOk_iff {newId : String} (hget : db.get newId = none) (sourceId toNs now : String) :
    (∃ res, db.promoteToNamespace sourceId toNs newId now = .ok res) ↔ toNs ≠ "" ∧
      ∃ source, db.get sourceId = some source ∧ toNs ≠ source.ns ∧ toNs ∈ namespaceAncestors source.ns := by
  constructor
  · rintro ⟨⟨db', id⟩, h⟩
    obtain ⟨hempty, source, -, hs, hself, hanc, -⟩ := promoteToNamespace_eq_ok.mp h
    exact ⟨hempty, source, hs, hself, hanc⟩
  · rintro ⟨hempty, source, hs, hself, hanc⟩
    have hclone : db.get (promotionClone source.toMemory toNs newId now).id = none := hget
    obtain ⟨db₁, actualId, hi⟩ := insert_isOk hclone
    have hl : db₁.createLink actualId sourceId "derived_from" now = .ok _ :=
      createLink_eq_ok.mpr ⟨checkEnds_of_insert hs hi, rfl⟩
    exact ⟨_, promoteToNamespace_eq_ok.mpr ⟨hempty, source, db₁, hs, hself, hanc, hi, hl⟩⟩

variable {ids : List String}

theorem mem_foldl_delete {x : MemoryRow}
    (hx : x ∈ (ids.foldl (fun db id => (db.delete id).1) db).memories) : x ∈ db.memories := by
  induction ids generalizing db with
  | nil => exact hx
  | cons id ids ih => exact (mem_deleteMemories.mp (ih hx)).1

theorem archived_foldl_delete (ids : List String) :
    (ids.foldl (fun db id => (db.delete id).1) db).archived = db.archived := by
  induction ids generalizing db with
  | nil => rfl
  | cons id ids ih => exact ih

theorem get_of_collect {c c' : Consolidation} (h : db.collect ids c = .ok c') :
    ∀ id ∈ ids, db.get id ≠ none := by
  induction ids generalizing c with
  | nil => exact fun id hid => absurd hid List.not_mem_nil
  | cons x ids ih =>
    unfold collect at h
    cases hx : db.get x with
    | none => rw [hx] at h; cases h
    | some mem =>
      rw [hx] at h
      exact List.forall_mem_cons.mpr ⟨hx ▸ nofun, ih h⟩

theorem get_foldl_remove {f : Db → String → Db} (h : ∀ d id i, (f d id).get i = if i = id then none else d.get i)
    (ids : List String) (i : String) : (ids.foldl f db).get i = if i ∈ ids then none else db.get i := by
  induction ids generalizing db with
  | nil => rw [if_neg List.not_mem_nil, List.foldl_nil]
  | cons id ids ih =>
    rw [List.foldl_cons, ih, h]
    by_cases hi : i = id
    · simp [hi]
    · simp [hi]

theorem get_delete (db : Db) (id i : String) : (db.delete id).1.get i = if i = id then none else db.get i := by
  show ((db.dropStandard id).deleteMemories fun r => r.id ≠ id).get i = _
  rw [get_deleteMemories]
  show (db.get i).filter _ = _
  cases hr : db.get i with
  | none => rw [Option.filter_none, ite_self]
  | some r =>
    have hid : r.id = i := (get_eq_some.mp hr).2
    rw [Option.filter_some, hid]
    by_cases h : i = id <;> simp [h]

variable {title summary ns source agent newId now id : String} {tier : Tier}

/-- What a consolidation did: the sources were collected, a new row was added and the sources deleted. -/
theorem consolidate_spec
    (h : db.consolidate ids title summary ns tier source agent newId now = .ok (db', id)) :
    ∃ c t, db.collect ids {} = .ok c ∧
      db.memories.insertNew? (Consolidation.row c newId title summary ns tier source now (c.metadata ids agent)) = some t ∧
      db' = ids.foldl (fun db id => (db.delete id).1) { db with memories := t } ∧ id = newId := by
  unfold consolidate at h
  cases hc : db.collect ids {} with
  | error e => rw [hc] at h; cases h
  | ok c =>
    rw [hc] at h
    simp only at h
    cases hm : Validate.validateMetadata (c.metadata ids agent) with
    | error e => rw [hm] at h; cases h
    | ok u =>
      rw [hm] at h
      cases ht : db.memories.insertNew? (c.row newId title summary ns tier source now
        (c.metadata ids agent)) with
      | none => rw [ht] at h; cases h
      | some t =>
        rw [ht] at h
        cases h
        exact ⟨c, t, rfl, ht, rfl, rfl⟩

theorem consolidate_cases
    (h : db.consolidate ids title summary ns tier source agent newId now = .ok (db', id)) :
    ∃ c t, db.memories.insertNew? (Consolidation.row c newId title summary ns tier source now (c.metadata ids agent)) =
      some t ∧ db' = ids.foldl (fun db id => (db.delete id).1) { db with memories := t } := by
  obtain ⟨c, t, -, ht, hdb, -⟩ := consolidate_spec h
  exact ⟨c, t, ht, hdb⟩

theorem consolidate_id
    (h : db.consolidate ids title summary ns tier source agent newId now = .ok (db', id)) : id = newId := by
  obtain ⟨-, -, -, -, -, hid⟩ := consolidate_spec h
  exact hid

/-- A consolidation goes through when its sources are live, their metadata can be merged, and the new id, title and
namespace are free. -/
theorem consolidate_isOk_iff {title summary ns source agent newId now : String} :
    (∃ res, db.consolidate ids title summary ns tier source agent newId now = .ok res) ↔
      ∃ c, db.collect ids {} = .ok c ∧ Accepts (Validate.validateMetadata (c.metadata ids agent)) ∧
        db.get newId = none ∧ db.getKey (title, ns) = none := by
  unfold consolidate
  cases hc : db.collect ids {} with
  | error e => exact iff_of_false (fun ⟨_, h⟩ => by cases h) fun ⟨_, h, _⟩ => by cases h
  | ok c =>
    have hroom : (db.memories.insertNew? (c.row newId title summary ns tier source now (c.metadata ids agent))).isSome ↔
        db.get newId = none ∧ db.getKey (title, ns) = none := Indexed.insertNew?_isSome
    have hright : (∃ c', (Except.ok c : Except String Consolidation) = .ok c' ∧
        Accepts (Validate.validateMetadata (c'.metadata ids agent)) ∧ db.get newId = none ∧ db.getKey (title, ns) = none) ↔
        Accepts (Validate.validateMetadata (c.metadata ids agent)) ∧ db.get newId = none ∧ db.getKey (title, ns) = none :=
      ⟨fun ⟨_, hc', h⟩ => by cases hc'; exact h, fun h => ⟨c, rfl, h⟩⟩
    rw [hright, ← hroom]
    simp only
    cases hm : Validate.validateMetadata (c.metadata ids agent) with
    | error e => exact iff_of_false (fun ⟨_, h⟩ => by cases h) fun h => by cases h.1
    | ok u =>
      cases ht : db.memories.insertNew? (c.row newId title summary ns tier source now (c.metadata ids agent)) with
      | none => exact iff_of_false (fun ⟨_, h⟩ => by cases h) fun h => by cases h.2
      | some t => exact iff_of_true ⟨_, rfl⟩ ⟨rfl, rfl⟩

theorem mem_consolidate (h : db.consolidate ids title summary ns tier source agent newId now = .ok (db', id)) :
    db'.archived = db.archived ∧ ∀ x ∈ db'.memories, x ∈ db.memories ∨ x.expiresAt = none := by
  obtain ⟨c, t, ht, rfl⟩ := consolidate_cases h
  refine ⟨archived_foldl_delete ids, fun x hx => ?_⟩
  rcases (Indexed.mem_insertNew? ht).mp (mem_foldl_delete hx) with hold | rfl
  · exact Or.inl hold
  · exact Or.inr rfl

end Db

end AiMemory
