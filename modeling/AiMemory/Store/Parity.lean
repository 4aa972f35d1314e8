import AiMemory.Lib.Parallel
import AiMemory.Store.Postgres

/-!
# The two adapters side by side

`SqliteStore` and `PostgresStore` under the same calls. `Mirrors` says that a row of Postgres has what a row of SQLite
has, a time being the same when the texts stand for it. An upsert and an update keep this up under conditions on the call
and the row it meets: they are what the conflict rules and the update of the two statements do not share.
-/

namespace AiMemory

open Relational PostgresStore Validate

namespace Parity

/-! ## Calls -/

/-- A call of the trait that writes. -/
inductive Call where
  | store (memory : Memory)
  | update (id : String) (patch : UpdatePatch)

/-- A call, the clocks of the two backends, and whether the server fails. -/
structure Event where
  call : Call
  sqliteNow : String
  postgresNow : ℤ
  outage : Option String

def sqliteStep (db : Db) (e : Event) : Db :=
  match e.call with
  | .store memory => settled db ((SqliteStore.store db memory).map Prod.fst)
  | .update id patch => settled db (SqliteStore.update db id patch e.sqliteNow)

def postgresStep (P : Postgres) (pg : PgDb) (e : Event) : PgDb :=
  match e.call with
  | .store memory => settled pg ((store P pg memory e.outage).map Prod.fst)
  | .update id patch => settled pg (update P pg id patch e.postgresNow e.outage)

def sqliteRun (events : List Event) : Db := events.foldl sqliteStep Db.empty

def postgresRun (P : Postgres) (events : List Event) : PgDb := events.foldl (postgresStep P) Indexed.empty

/-- The call passes validation. -/
def Event.Valid (rfc3339 : Rfc3339) (e : Event) : Prop :=
  match e.call with
  | .store memory => memory.Valid rfc3339
  | .update _ patch => Accepts (validateUpdate rfc3339 patch.toUpdate)

/-! ## The same row -/

def timeOf (c : Chrono) (s : Option String) : Option ℤ := s.bind c.parseFromRfc3339

/-- The row of Postgres has the columns of the row of SQLite. -/
structure SameRow (c : Chrono) (r : MemoryRow) (p : PgRow) : Prop where
  id : r.id = p.id
  tier : r.tier = p.tier
  ns : r.ns = p.ns
  title : r.title = p.title
  content : r.content = p.content
  tags : r.tags = tagsOf p.tags
  priority : r.priority = p.priority
  confidence : r.confidence = p.confidence
  source : r.source = p.source
  expiresAt : timeOf c r.expiresAt = p.expiresAt.map fun t => 1000 * t
  metadata : r.metadata = p.metadata

/-- And its metadata is an object. -/
structure Mirrors (c : Chrono) (r : MemoryRow) (p : PgRow) : Prop extends SameRow c r p where
  object : r.metadata.isObject

variable {c : Chrono} {P : Postgres} {r stored : MemoryRow} {p : PgRow} {memory : Memory}

theorem SameRow.key (h : SameRow c r p) : r.key = p.key := Prod.ext h.title h.ns

/-! ## Where the statements differ -/

/-- `json_extract` and `?` see the same `agent_id`: SQL hands it back as it is, and a `null` is also the incoming one. -/
def SameAgentId (stored new : Json) : Prop :=
  stored.StableAt "agent_id" ∧ (stored.get "agent_id" = some .null → new.get "agent_id" = some .null)

/-- The upsert of SQLite leaves the expiry, which that of Postgres does not write. -/
def ExpiryStands (c : Chrono) (stored : MemoryRow) (memory : Memory) : Prop :=
  if memory.tier = .long ∨ stored.tier = .long then timeOf c stored.expiresAt = none
  else memory.expiresAt = none ∨ timeOf c memory.expiresAt = timeOf c stored.expiresAt

/-- The two conflict rules make the same of a stored row. -/
structure MergedAlike (c : Chrono) (stored : MemoryRow) (memory : Memory) : Prop where
  priority : stored.priority ≤ memory.priority
  confidence : stored.confidence ≤ memory.confidence
  source : memory.source = stored.source
  expiry : ExpiryStands c stored memory
  agentId : SameAgentId stored.metadata memory.metadata

/-- The expiry of a new row is a whole number of microseconds. -/
def InsertedAlike (c : Chrono) (memory : Memory) : Prop := ∀ t, timeOf c memory.expiresAt = some t → 1000 ∣ t

/-- A patch does not touch an `agent_id` that is there, which only the update of Postgres would keep. -/
def PatchedAlike (stored : MemoryRow) (patch : UpdatePatch) : Prop :=
  ∀ metadata, patch.metadata = some metadata →
    stored.metadata.get "agent_id" = none ∨ metadata.get "agent_id" = stored.metadata.get "agent_id"

/-- The server carries the statement out, and gives back the metadata as it is bound. -/
def Taken (P : Postgres) (outage : Option String) (metadata : Option Json) : Prop :=
  outage = none ∧ ∀ j, metadata = some j → P.jsonb j = some j

/-- The call does the same on both backends, as far as it writes on SQLite. -/
def Event.Alike (P : Postgres) (db : Db) (e : Event) : Prop :=
  match e.call with
  | .store memory =>
    match db.getKey memory.key with
    | some stored => Taken P e.outage memory.metadata ∧ MergedAlike P.toChrono stored memory
    | none => db.get memory.id = none → Taken P e.outage memory.metadata ∧ InsertedAlike P.toChrono memory
  | .update id patch => ∀ stored, db.get id = some stored → ¬db.Collides stored patch.toUpdate →
      Taken P e.outage patch.metadata ∧ PatchedAlike stored patch

/-! ## Values -/

theorem nul_notMem_of_trim {s : String} (h : isCleanString (trim s)) : Char.ofNat 0 ∉ s.toList := by
  intro hmem
  have htrim : Char.ofNat 0 ∈ trim s := mem_trim (by decide) hmem
  unfold isCleanString at h
  rw [Bool.not_eq_true', List.any_eq_false] at h
  exact absurd (h _ htrim) (by decide)

theorem jsonb_tagsJson {tags : List String} (h : Accepts (validateTags tags)) :
    P.jsonb (tagsJson tags) = some (tagsJson tags) := by
  unfold tagsJson
  rw [P.jsonb_strings, if_neg]
  rw [Bool.not_eq_true, List.any_eq_false]
  intro s hs
  rw [List.contains_iff_mem]
  refine nul_notMem_of_trim ?_
  simp only [validateTags, accepts_bind, accepts_bailIf] at h
  have heach := h.2
  clear h
  induction tags with
  | nil => cases hs
  | cons tag tags ih =>
    simp only [validateEachTag, validateTag, accepts_bind, accepts_bailIf, Bool.not_eq_false'] at heach
    rcases List.mem_cons.mp hs with rfl | hs
    · exact heach.1.2.2
    · exact ih hs heach.2

theorem mergeTier_eq_tierRank (stored excluded : Tier) :
    mergeTier stored excluded = if tierRank stored ≤ tierRank excluded then excluded else stored := by
  cases stored <;> cases excluded <;> decide

theorem effectiveTier_eq_tierRank (requested : Option Tier) (existing : Tier) : effectiveTier requested existing =
    requested.elim existing fun tier => if tierRank existing ≤ tierRank tier then tier else existing := by
  cases requested with
  | none => rfl
  | some tier => cases existing <;> cases tier <;> decide

theorem set_eq_self_iff {j v : Json} {k : String} (hj : j.isObject) : j.set k v = j ↔ j.get k = some v := by
  constructor
  · intro h
    calc j.get k = (j.set k v).get k := by rw [h]
      _ = some v := Json.get_set hj
  · intro h
    cases j with
    | obj fs => exact congrArg Json.obj (Json.setField_self h)
    | _ => cases hj

/-- The metadata of an object with the `agent_id` of another. -/
def carryAgentId (stored new : Json) : Json := (stored.get "agent_id").elim new (new.set "agent_id")

theorem isObject_carryAgentId {stored new : Json} (h : new.isObject) : (carryAgentId stored new).isObject := by
  unfold carryAgentId
  cases stored.get "agent_id" with
  | none => exact h
  | some a => exact (Json.isObject_set new "agent_id" a).trans h

theorem mergeMetadata_eq {stored new : Json} (hs : stored.isObject) (hn : new.isObject) :
    mergeMetadata stored new = .ok (carryAgentId stored new) := by
  cases stored with
  | obj fs =>
    cases new with
    | obj gs =>
      have hhas : (Json.obj fs).hasKey "agent_id" = ((Json.obj fs).get "agent_id").isSome := rfl
      unfold mergeMetadata carryAgentId
      rw [hhas]
      cases (Json.obj fs).get "agent_id" <;> rfl
    | _ => cases hn
  | _ => cases hs

/-- What SQLite makes of them is the same, but for what SQL changes and for `null`. -/
theorem keepAgentId_eq_carry_iff {stored new : Json} (hn : new.isObject) :
    keepAgentId stored new = carryAgentId stored new ↔ SameAgentId stored new := by
  unfold keepAgentId carryAgentId SameAgentId agentId Json.extract Json.StableAt
  cases ha : stored.get "agent_id" with
  | none => simp
  | some a =>
    rw [Option.bind_some, Option.elim_some]
    cases hv : a.throughSql with
    | none =>
      have hnull : a = .null := Json.throughSql_eq_none.mp hv
      subst hnull
      simp [Json.SqlStable, hv, eq_comm (a := new), set_eq_self_iff hn]
    | some v =>
      have hne : a ≠ .null := fun h => by simp [h, Json.throughSql] at hv
      have hstable : a.SqlStable ↔ v = a := by simp [Json.SqlStable, hv]
      simp [hne, hstable, Json.set_inj hn]

theorem carryAgentId_eq_self_iff {stored new : Json} (hn : new.isObject) : new = carryAgentId stored new ↔
    stored.get "agent_id" = none ∨ new.get "agent_id" = stored.get "agent_id" := by
  unfold carryAgentId
  cases stored.get "agent_id" with
  | none => simp
  | some a =>
    rw [Option.elim_some, eq_comm, set_eq_self_iff hn]
    simp

/-! ## Rows -/

theorem timeOf_mergeExpiresAt_iff :
    timeOf c (mergeExpiresAt stored memory) = timeOf c stored.expiresAt ↔ ExpiryStands c stored memory := by
  unfold ExpiryStands mergeExpiresAt
  split_ifs
  · exact eq_comm
  · cases memory.expiresAt <;> simp

/-- The new rows of both backends are the same exactly if `TIMESTAMPTZ` keeps the expiry. -/
theorem sameRow_insert_iff {createdAt updatedAt : ℤ} : SameRow P.toChrono memory.toRow
    (valuesRow P memory createdAt updatedAt (tagsJson memory.tags) memory.metadata) ↔
      InsertedAlike P.toChrono memory := by
  have hexpiry : timeOf P.toChrono memory.expiresAt =
      (parseRfc3339Opt P memory.expiresAt).map (fun t => 1000 * t) ↔ InsertedAlike P.toChrono memory := by
    show _ = ((timeOf P.toChrono memory.expiresAt).map P.micros).map (fun t => 1000 * t) ↔ _
    unfold InsertedAlike
    cases timeOf P.toChrono memory.expiresAt with
    | none => simp
    | some t =>
      rw [Option.map_some, Option.map_some, Option.some_inj]
      constructor
      · intro h t' ht'
        cases ht'
        exact Dvd.intro _ h.symm
      · intro h
        obtain ⟨us, rfl⟩ := h t rfl
        rw [P.micros_whole]
  rw [← hexpiry]
  exact ⟨fun h => h.expiresAt, fun h => ⟨rfl, rfl, rfl, rfl, rfl, (tagsOf_tagsJson _).symm, rfl, rfl, rfl, h, rfl⟩⟩

/-- The merged rows are the same exactly if the conflict rules make the same of the stored one. -/
theorem sameRow_merge_iff {createdAt updatedAt : ℤ} (hrow : SameRow P.toChrono stored p)
    (hobject : memory.metadata.isObject) :
    SameRow P.toChrono (upsertRow stored memory)
      (conflictRow
        (valuesRow P memory createdAt updatedAt (tagsJson memory.tags) memory.metadata)
        (carryAgentId stored.metadata memory.metadata) p) ↔ MergedAlike P.toChrono stored memory := by
  constructor
  · intro h
    refine ⟨max_eq_right_iff.mp h.priority, max_eq_right_iff.mp h.confidence, h.source.trans hrow.source.symm, ?_,
      (keepAgentId_eq_carry_iff hobject).mp h.metadata⟩
    exact timeOf_mergeExpiresAt_iff.mp (h.expiresAt.trans hrow.expiresAt.symm)
  · intro h
    refine
      { id := hrow.id
        tier := ?_
        ns := hrow.ns
        title := hrow.title
        content := rfl
        tags := (tagsOf_tagsJson _).symm
        priority := max_eq_right h.priority
        confidence := max_eq_right h.confidence
        source := h.source.trans hrow.source
        expiresAt := (timeOf_mergeExpiresAt_iff.mpr h.expiry).trans hrow.expiresAt
        metadata := (keepAgentId_eq_carry_iff hobject).mpr h.agentId }
    show mergeTier stored.tier memory.tier = if tierRank p.tier ≤ tierRank memory.tier then memory.tier else p.tier
    rw [mergeTier_eq_tierRank, hrow.tier]

def carryPatch (stored : Json) (patch : UpdatePatch) : Json := patch.metadata.elim stored (carryAgentId stored)

/-- The patched rows are the same exactly if the patch leaves the `agent_id`. -/
theorem sameRow_patch_iff {patch : UpdatePatch} {sqliteNow : String} {now : ℤ} (hrow : SameRow P.toChrono stored p)
    (hobject : ∀ metadata, patch.metadata = some metadata → metadata.isObject) :
    SameRow P.toChrono (applyUpdate patch.toUpdate sqliteNow stored)
      (patchRow patch (patch.tags.map tagsJson) (carryPatch stored.metadata patch) now p) ↔
        PatchedAlike stored patch := by
  have hmetadata : patch.metadata.getD stored.metadata = carryPatch stored.metadata patch ↔
      PatchedAlike stored patch := by
    unfold carryPatch PatchedAlike
    cases hm : patch.metadata with
    | none => simp
    | some metadata =>
      rw [Option.getD_some, Option.elim_some, carryAgentId_eq_self_iff (hobject metadata hm)]
      simp
  rw [← hmetadata]
  constructor
  · exact fun h => h.metadata
  · intro h
    refine
      { id := hrow.id
        tier := ?_
        ns := congrArg patch.ns.getD hrow.ns
        title := congrArg patch.title.getD hrow.title
        content := congrArg patch.content.getD hrow.content
        tags := ?_
        priority := congrArg patch.priority.getD hrow.priority
        confidence := congrArg patch.confidence.getD hrow.confidence
        source := hrow.source
        expiresAt := hrow.expiresAt
        metadata := h }
    · show effectiveTier patch.tier stored.tier = patch.tier.elim p.tier _
      rw [effectiveTier_eq_tierRank, hrow.tier]
    · show patch.tags.getD stored.tags = tagsOf ((patch.tags.map tagsJson).getD p.tags)
      cases patch.tags with
      | none => exact hrow.tags
      | some tags => exact (tagsOf_tagsJson tags).symm

/-! ## One call -/

section Step

variable {db : Db} {pg : PgDb} {e : Event}

theorem excludedRow_eq (hvalid : memory.Valid P.rfc3339) (hkept : P.jsonb memory.metadata = some memory.metadata) :
    ∃ createdAt updatedAt, excludedRow P memory =
      .ok (valuesRow P memory createdAt updatedAt (tagsJson memory.tags) memory.metadata) := by
  simp only [Memory.Valid, validateMemory, accepts_bind, accepts_bailIf, Bool.not_eq_false'] at hvalid
  obtain ⟨-, -, -, -, -, htags, -, -, -, hcreated, hupdated, -⟩ := hvalid
  obtain ⟨createdAt, hcreated⟩ := Option.isSome_iff_exists.mp hcreated
  obtain ⟨updatedAt, hupdated⟩ := Option.isSome_iff_exists.mp hupdated
  exact ⟨createdAt, updatedAt, excludedRow_eq_ok.mpr
    ⟨createdAt, updatedAt, _, _, hcreated, hupdated, jsonb_tagsJson htags, hkept, rfl⟩⟩

section Store

variable {outage : Option String} (h : Parallel (Mirrors P.toChrono) db.memories pg)

include h

theorem rel_getKey (key : String × String) : Option.Rel (Mirrors P.toChrono) (db.getKey key) (pg.findBy key) :=
  h.findBy (fun _ _ hab => hab.key) key

theorem rel_get (id : String) : Option.Rel (Mirrors P.toChrono) (db.get id) (pg.find id) :=
  h.find (fun _ _ hab => hab.id) id

/-- Both backends merge into the row of the title and namespace. -/
theorem parallel_merge {stored : MemoryRow} (hvalid : memory.Valid P.rfc3339)
    (hs : db.getKey memory.key = some stored) (hkept : P.jsonb memory.metadata = some memory.metadata)
    (halike : MergedAlike P.toChrono stored memory) :
    Parallel (Mirrors P.toChrono) (settled db ((SqliteStore.store db memory).map Prod.fst)).memories
      (settled pg ((store P pg memory none).map Prod.fst)) := by
  obtain ⟨createdAt, updatedAt, hbound⟩ := excludedRow_eq hvalid hkept
  have hfind := rel_getKey h memory.key
  rw [hs] at hfind
  obtain ⟨p, hp, hrow⟩ := exists_of_rel_some hfind
  obtain ⟨hstored, -⟩ := Db.getKey_eq_some.mp hs
  have hmerged : mergeMetadata p.metadata memory.metadata = .ok (carryAgentId stored.metadata memory.metadata) := by
    rw [← hrow.metadata]
    exact mergeMetadata_eq hrow.object hvalid.isObject
  let excluded := valuesRow P memory createdAt updatedAt (tagsJson memory.tags) memory.metadata
  have hstored' : pg.findBy excluded.key = some p := hp
  obtain ⟨pg', hupsert, hrows⟩ := upsert_of_stored hstored' hmerged
  have hpg : store P pg memory none = .ok (pg', p.id) :=
    store_eq_ok.mpr ⟨rfl, _, hbound, hupsert⟩
  rw [SqliteStore.store_of_stored hs, hpg]
  unfold Parallel
  show List.Forall₂ _ _ pg'.rows
  rw [hrows]
  refine forall₂_map_of_mem h fun a ha b hb hab => ?_
  by_cases ha' : a.id = stored.id
  · obtain rfl := Indexed.eq_of_pk ha hstored ha'
    rw [if_pos rfl, if_pos (hab.id.symm.trans hrow.id)]
    have hsame : SameRow P.toChrono (upsertRow a memory)
        (conflictRow excluded (carryAgentId a.metadata memory.metadata) b) :=
      (sameRow_merge_iff hab.toSameRow hvalid.isObject).mpr halike
    exact ⟨hsame, hsame.metadata ▸ isObject_carryAgentId hvalid.isObject⟩
  · rw [if_neg ha', if_neg fun hb' => ha' (hab.id.trans (hb'.trans hrow.id.symm))]
    exact hab

theorem parallel_append (hvalid : memory.Valid P.rfc3339) (hs : db.getKey memory.key = none)
    (hfree : db.get memory.id = none) (hkept : P.jsonb memory.metadata = some memory.metadata)
    (halike : InsertedAlike P.toChrono memory) :
    Parallel (Mirrors P.toChrono) (settled db ((SqliteStore.store db memory).map Prod.fst)).memories
      (settled pg ((store P pg memory none).map Prod.fst)) := by
  obtain ⟨createdAt, updatedAt, hbound⟩ := excludedRow_eq hvalid hkept
  have hfind := rel_getKey h memory.key
  rw [hs] at hfind
  have hp : pg.findBy memory.key = none := (rel_none_iff hfind).mp rfl
  have hrow : Mirrors P.toChrono memory.toRow
      (valuesRow P memory createdAt updatedAt (tagsJson memory.tags) memory.metadata) :=
    ⟨sameRow_insert_iff.mpr halike, hvalid.isObject⟩
  have hrel := h.insertNew? (fun _ _ hab => hab.id) (fun _ _ hab => hab.key) hrow.id hrow.key fun _ _ => hrow
  obtain ⟨t, ht, hsqlite⟩ := SqliteStore.store_of_free hs hfree
  rw [ht] at hrel
  obtain ⟨t', ht', hparallel⟩ := exists_of_rel_some hrel
  have hpg := store_eq_ok.mpr ⟨rfl, _, hbound, upsert_of_new hp ht'⟩
  rw [hsqlite, hpg]
  exact hparallel

theorem parallel_refused (hs : db.getKey memory.key = none) (htaken : db.get memory.id ≠ none) :
    Parallel (Mirrors P.toChrono) (settled db ((SqliteStore.store db memory).map Prod.fst)).memories
      (settled pg ((store P pg memory outage).map Prod.fst)) := by
  have hfind := rel_getKey h memory.key
  rw [hs] at hfind
  have hp : pg.findBy memory.key = none := (rel_none_iff hfind).mp rfl
  obtain ⟨e, hsqlite⟩ := SqliteStore.store_of_taken hs htaken
  have hpg : settled pg ((store P pg memory outage).map Prod.fst) = pg := by
    refine settled_map fun pg' id hok => ?_
    obtain ⟨-, excluded, hbound, hupsert⟩ := store_eq_ok.mp hok
    obtain ⟨createdAt, updatedAt, tags, metadata, -, -, -, -, rfl⟩ := excludedRow_eq_ok.mp hbound
    rcases upsert_eq_ok hupsert with ⟨stored, _, hstored, -⟩ | ⟨-, -, hroom⟩
    · cases hp.symm.trans hstored
    · have hfree := (Indexed.insertNew?_isSome.mp (Option.isSome_of_mem hroom)).1
      exact htaken ((rel_none_iff (rel_get h memory.id)).mpr hfree)
  rw [hsqlite, hpg]
  exact h

theorem parallel_store (hvalid : memory.Valid P.rfc3339)
    (hmerge : ∀ stored, db.getKey memory.key = some stored →
      Taken P outage memory.metadata ∧ MergedAlike P.toChrono stored memory)
    (hinsert : db.getKey memory.key = none → db.get memory.id = none →
      Taken P outage memory.metadata ∧ InsertedAlike P.toChrono memory) :
    Parallel (Mirrors P.toChrono) (settled db ((SqliteStore.store db memory).map Prod.fst)).memories
      (settled pg ((store P pg memory outage).map Prod.fst)) := by
  cases hs : db.getKey memory.key with
  | some stored =>
    obtain ⟨⟨rfl, hkept⟩, halike⟩ := hmerge stored hs
    exact parallel_merge h hvalid hs (hkept _ rfl) halike
  | none =>
    by_cases hfree : db.get memory.id = none
    · obtain ⟨⟨rfl, hkept⟩, halike⟩ := hinsert hs hfree
      exact parallel_append h hvalid hs hfree (hkept _ rfl) halike
    · exact parallel_refused h hs hfree

end Store

variable {id sqliteNow : String} {patch : UpdatePatch} {now : ℤ} {outage : Option String}

/-- The rows that an update leaves on SQLite, if no two of them have one title and namespace. -/
def patched (db : Db) (id : String) (patch : UpdatePatch) (now : String) : Option Memories :=
  db.memories.map? (fun r => if r.id = id then applyUpdate patch.toUpdate now r else r)
    (by intro r; split_ifs <;> rfl)

/-- `db::update` of a stored row. -/
theorem update_eq (hs : db.get id = some stored) :
    (∃ t changed, patched db id patch sqliteNow = some t ∧
      db.update id patch.toUpdate sqliteNow = .ok ({ db with memories := t }, true, changed)) ∨
    (patched db id patch sqliteNow = none ∧ ∃ e, db.update id patch.toUpdate sqliteNow = .error e) := by
  have hpatched : db.memories.map? (fun r => if r.id = id then applyUpdate patch.toUpdate sqliteNow r else r) _ =
    patched db id patch sqliteNow := rfl
  unfold Db.update
  simp only [hs]
  rw [hpatched]
  cases patched db id patch sqliteNow with
  | some t => exact Or.inl ⟨t, _, rfl, rfl⟩
  | none =>
    refine Or.inr ⟨rfl, ?_⟩
    simp only
    split <;> exact ⟨_, rfl⟩

theorem sqliteUpdate_memories (hs : db.get id = some stored) :
    (settled db (SqliteStore.update db id patch sqliteNow)).memories =
      (patched db id patch sqliteNow).getD db.memories := by
  unfold SqliteStore.update
  obtain ⟨t, changed, ht, hok⟩ | ⟨ht, e, herror⟩ := update_eq hs
  · rw [ht, hok]
    rfl
  · rw [ht, herror]
    rfl

theorem patched_isSome_iff (hs : db.get id = some stored) :
    (patched db id patch sqliteNow).isSome ↔ ¬db.Collides stored patch.toUpdate := by
  rw [← Db.update_isOk_iff sqliteNow hs]
  obtain ⟨t, changed, ht, hok⟩ | ⟨ht, e, herror⟩ := update_eq hs
  · rw [ht, hok]
    exact iff_of_true rfl ⟨_, _, rfl⟩
  · rw [ht, herror]
    refine iff_of_false Bool.false_ne_true ?_
    rintro ⟨db', changed, hok⟩
    cases hok

theorem bind_patch (hvalid : Accepts (validateUpdate P.rfc3339 patch.toUpdate))
    (hkept : ∀ metadata, patch.metadata = some metadata → P.jsonb metadata = some metadata) :
    bindOptional P (patch.tags.map tagsJson) = .ok (patch.tags.map tagsJson) ∧
      bindOptional P patch.metadata = .ok patch.metadata := by
  simp only [validateUpdate, accepts_bind] at hvalid
  have htags : Accepts (ifSome validateTags patch.tags) := hvalid.2.2.2.1
  constructor
  · cases ht : patch.tags with
    | none => rfl
    | some tags =>
      rw [ht] at htags
      simp [bindOptional, bindJson, jsonb_tagsJson htags, Except.map]
  · cases hm : patch.metadata with
    | none => rfl
    | some metadata => simp [bindOptional, bindJson, hkept metadata hm, Except.map]

theorem isObject_of_validateUpdate (hvalid : Accepts (validateUpdate P.rfc3339 patch.toUpdate))
    (metadata : Json) (hm : patch.metadata = some metadata) : metadata.isObject := by
  simp only [validateUpdate, accepts_bind] at hvalid
  have hobject : Accepts (ifSome validateMetadata patch.metadata) := hvalid.2.2.2.2.2.2.2
  rw [hm] at hobject
  simp only [ifSome, validateMetadata, accepts_bind, accepts_bailIf, Bool.not_eq_false'] at hobject
  exact hobject.1

section Update

variable (h : Parallel (Mirrors P.toChrono) db.memories pg)

theorem key_update (tags : Option Json) (merged : Json) (a : MemoryRow) (b : PgRow) (hab : Mirrors P.toChrono a b) :
    (if a.id = id then applyUpdate patch.toUpdate sqliteNow a else a).key =
      (if b.id = id then patchRow patch tags merged now b else b).key := by
  by_cases ha : a.id = id
  · rw [if_pos ha, if_pos (hab.id.symm.trans ha)]
    exact Prod.ext (congrArg patch.title.getD hab.title) (congrArg patch.ns.getD hab.ns)
  · rw [if_neg ha, if_neg fun hb => ha (hab.id.trans hb)]
    exact hab.key

include h

theorem rel_patched (hs : db.get id = some stored)
    (hobject : ∀ metadata, patch.metadata = some metadata → metadata.isObject) (hpatch : PatchedAlike stored patch) :
    Option.Rel (Parallel (Mirrors P.toChrono)) (patched db id patch sqliteNow)
      (patchWhere pg id patch (patch.tags.map tagsJson) (carryPatch stored.metadata patch) now) := by
  obtain ⟨hmem, hid⟩ := Db.get_eq_some.mp hs
  refine h.map? (key_update _ _) fun _ a ha b hb hab => ?_
  by_cases ha' : a.id = id
  · obtain rfl := Indexed.eq_of_pk ha hmem (ha'.trans hid.symm)
    rw [if_pos ha', if_pos (hab.id.symm.trans ha')]
    refine ⟨(sameRow_patch_iff hab.toSameRow hobject).mpr hpatch, ?_⟩
    show (patch.metadata.getD a.metadata).isObject
    cases hm : patch.metadata with
    | none => exact hab.object
    | some metadata => exact hobject metadata hm
  · rw [if_neg ha', if_neg fun hb' => ha' (hab.id.trans hb')]
    exact hab

theorem parallel_missing (hs : db.get id = none) :
    Parallel (Mirrors P.toChrono) (settled db (SqliteStore.update db id patch sqliteNow)).memories
      (settled pg (update P pg id patch now outage)) := by
  have hfind := rel_get h id
  rw [hs] at hfind
  have hsqlite : SqliteStore.update db id patch sqliteNow = .error (.notFound id) := by
    unfold SqliteStore.update Db.update
    rw [hs]
    rfl
  have hpg : ∀ pg', update P pg id patch now outage ≠ .ok pg' := by
    intro pg' hok
    obtain ⟨-, _, _, r, _, -, -, hr, -⟩ := update_eq_ok.mp hok
    cases ((rel_none_iff hfind).mp rfl).symm.trans hr
  rw [hsqlite, settled_eq hpg]
  exact h

theorem parallel_collision (hs : db.get id = some stored) (hcol : db.Collides stored patch.toUpdate) :
    Parallel (Mirrors P.toChrono) (settled db (SqliteStore.update db id patch sqliteNow)).memories
      (settled pg (update P pg id patch now outage)) := by
  have hnone : patched db id patch sqliteNow = none :=
    Option.not_isSome_iff_eq_none.mp fun hsome => (patched_isSome_iff hs).mp hsome hcol
  have hpg : ∀ pg', update P pg id patch now outage ≠ .ok pg' := by
    intro pg' hok
    obtain ⟨-, tags, _, r, merged, -, -, -, -, hmap⟩ := update_eq_ok.mp hok
    have hrel : Option.Rel (Parallel (Mirrors P.toChrono)) (patched db id patch sqliteNow)
        (patchWhere pg id patch tags merged now) :=
      h.map? (key_update tags merged) fun hsome => absurd hcol ((patched_isSome_iff hs).mp hsome)
    cases ((rel_none_iff hrel).mp hnone).symm.trans hmap
  rw [sqliteUpdate_memories hs, hnone, settled_eq hpg]
  exact h

theorem parallel_patch (hvalid : Accepts (validateUpdate P.rfc3339 patch.toUpdate))
    (hs : db.get id = some stored) (hcol : ¬db.Collides stored patch.toUpdate)
    (hkept : ∀ metadata, patch.metadata = some metadata → P.jsonb metadata = some metadata)
    (hpatch : PatchedAlike stored patch) :
    Parallel (Mirrors P.toChrono) (settled db (SqliteStore.update db id patch sqliteNow)).memories
      (settled pg (update P pg id patch now none)) := by
  have hfind := rel_get h id
  rw [hs] at hfind
  obtain ⟨p, hp, hrow⟩ := exists_of_rel_some hfind
  obtain ⟨htags, hmetadata⟩ := bind_patch hvalid hkept
  have hobject := isObject_of_validateUpdate hvalid
  have hmerged : patch.metadata.elim (.ok p.metadata) (mergeMetadata p.metadata) =
      .ok (carryPatch stored.metadata patch) := by
    unfold carryPatch
    rw [← hrow.metadata]
    cases hm : patch.metadata with
    | none => rfl
    | some metadata => exact mergeMetadata_eq hrow.object (hobject metadata hm)
  have hrel : Option.Rel (Parallel (Mirrors P.toChrono)) (patched db id patch sqliteNow)
      (patchWhere pg id patch (patch.tags.map tagsJson) (carryPatch stored.metadata patch) now) :=
    rel_patched h hs hobject hpatch
  obtain ⟨t, ht⟩ := Option.isSome_iff_exists.mp ((patched_isSome_iff hs).mpr hcol)
  rw [ht] at hrel
  obtain ⟨t', ht', hparallel⟩ := exists_of_rel_some hrel
  have hpg : update P pg id patch now none = .ok t' :=
    update_eq_ok.mpr ⟨rfl, _, _, p, _, htags, hmetadata, hp, hmerged, ht'⟩
  rw [sqliteUpdate_memories hs, ht, hpg]
  exact hparallel

theorem parallel_update (hvalid : Accepts (validateUpdate P.rfc3339 patch.toUpdate))
    (halike : ∀ stored, db.get id = some stored → ¬db.Collides stored patch.toUpdate →
      Taken P outage patch.metadata ∧ PatchedAlike stored patch) :
    Parallel (Mirrors P.toChrono) (settled db (SqliteStore.update db id patch sqliteNow)).memories
      (settled pg (update P pg id patch now outage)) := by
  cases hs : db.get id with
  | none => exact parallel_missing h hs
  | some stored =>
    by_cases hcol : db.Collides stored patch.toUpdate
    · exact parallel_collision h hs hcol
    · obtain ⟨⟨rfl, hkept⟩, hpatch⟩ := halike stored hs hcol
      exact parallel_patch h hvalid hs hcol hkept hpatch

end Update

theorem parallel_step (h : Parallel (Mirrors P.toChrono) db.memories pg) (hvalid : e.Valid P.rfc3339)
    (halike : e.Alike P db) : Parallel (Mirrors P.toChrono) (sqliteStep db e).memories (postgresStep P pg e) := by
  obtain ⟨call, sqliteNow, postgresNow, outage⟩ := e
  cases call with
  | store memory =>
    have halike' : match db.getKey memory.key with
        | some stored => Taken P outage memory.metadata ∧ MergedAlike P.toChrono stored memory
        | none => db.get memory.id = none → Taken P outage memory.metadata ∧ InsertedAlike P.toChrono memory := halike
    refine parallel_store h hvalid (fun stored hs => ?_) fun hs => ?_
    · rwa [hs] at halike'
    · rwa [hs] at halike'
  | update id patch => exact parallel_update h hvalid halike

end Step

/-! ## Runs -/

section Run

variable {events : List Event}

theorem parallel_run (hvalid : ∀ e ∈ events, e.Valid P.rfc3339)
    (halike : ∀ before e, before ++ [e] <+: events → e.Alike P (sqliteRun before)) (before : List Event)
    (hbefore : before <+: events) :
    Parallel (Mirrors P.toChrono) (sqliteRun before).memories (postgresRun P before) := by
  induction before using List.reverseRecOn with
  | nil => exact Parallel.empty
  | append_singleton before e ih =>
    unfold sqliteRun postgresRun
    rw [List.foldl_append, List.foldl_append]
    have hmem : e ∈ events := hbefore.subset (List.mem_append_right before (List.mem_singleton_self e))
    exact parallel_step (ih ((List.prefix_append before [e]).trans hbefore)) (hvalid e hmem) (halike before e hbefore)

end Run

/-- A server for times at eight o'clock on New Year's Day, and for flat metadata. -/
def newYear : Postgres where
  toRfc3339 t := if t = 1767254400000000000 then "2026-01-01T08:00:00+00:00" else ""
  parseFromRfc3339 s := if s = "2026-01-01T08:00:00+00:00" then some 1767254400000000000 else none
  reads_back := by
    intro t t' h
    by_cases ht : t = 1767254400000000000
    · simp only [ht, if_true, Option.some_inj] at h
      rw [ht, h]
    · simp [ht] at h
  micros t := t / 1000
  micros_whole t := Int.mul_ediv_cancel_left t (by decide)
  jsonb
    | .arr items =>
      if items.any fun item => item.asStr.any fun s => s.toList.contains (Char.ofNat 0) then none else some (.arr items)
    | j => some j
  jsonb_strings ss := by simp only [List.any_map, Function.comp_def, Json.asStr, Option.any_some]
  parseError _ := "input contains invalid characters"
  describe
    | .jsonb => "invalid input syntax for type json"
    | .notNull => "null value in column \"metadata\" violates not-null constraint"
    | .unique constraint => s!"duplicate key value violates unique constraint {constraint}"
    | .outage text => text

def plan (id : String) (priority : ℤ) : Memory :=
  { Db.standardMemory id "work" (.obj [("agent_id", .str "alice")]) with
    title := "plan"
    content := "ship it"
    priority
    createdAt := "2026-01-01T08:00:00+00:00"
    updatedAt := "2026-01-01T08:00:00+00:00" }

def storePlan (id : String) (priority : ℤ) : Event :=
  ⟨.store (plan id priority), "2026-01-01T08:00:00+00:00", 1767254400000000, none⟩

theorem raisedPlan_valid : ∀ e ∈ [storePlan "m1" 3, storePlan "m2" 7], e.Valid newYear.rfc3339 := by
  have hm1 : (plan "m1" 3).Valid newYear.rfc3339 := by decide
  have hm2 : (plan "m2" 7).Valid newYear.rfc3339 := by decide
  exact List.forall_mem_cons.mpr ⟨hm1, List.forall_mem_singleton.mpr hm2⟩

theorem raisedPlan_alike : ∀ before e, before ++ [e] <+: [storePlan "m1" 3, storePlan "m2" 7] →
    e.Alike newYear (sqliteRun before) := by
  intro before e hprefix
  match before with
  | [] =>
    obtain ⟨rfl, -⟩ := List.cons_prefix_cons.mp hprefix
    have hnew : (sqliteRun []).getKey (plan "m1" 3).key = none := rfl
    simp only [Event.Alike, storePlan, hnew]
    exact fun _ => ⟨⟨rfl, fun _ hj => by cases hj; rfl⟩, fun t ht => by cases ht⟩
  | [x] =>
    obtain ⟨rfl, hrest⟩ := List.cons_prefix_cons.mp hprefix
    obtain ⟨rfl, -⟩ := List.cons_prefix_cons.mp hrest
    have hstored : (sqliteRun [storePlan "m1" 3]).getKey (plan "m2" 7).key = some (plan "m1" 3).toRow := by
      decide
    simp only [Event.Alike, storePlan] at hstored ⊢
    rw [hstored]
    refine ⟨⟨rfl, fun _ hj => by cases hj; rfl⟩, by decide, by decide, rfl, ?_, by decide, fun h => absurd h (by decide)⟩
    have hlong : (plan "m2" 7).tier = .long := rfl
    unfold ExpiryStands
    rw [if_pos (Or.inl hlong)]
    rfl
  | x :: y :: rest =>
    obtain ⟨-, hprefix⟩ := List.cons_prefix_cons.mp hprefix
    obtain ⟨-, hprefix⟩ := List.cons_prefix_cons.mp hprefix
    exact absurd (List.prefix_nil.mp hprefix) (by simp)

end Parity

end AiMemory
