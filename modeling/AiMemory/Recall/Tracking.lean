import AiMemory.Http.Gate
import AiMemory.Identity.Provenance
import AiMemory.Recall.Retained

/-!
# The vector index and the table

A daemon keeps the ids of its embedded rows twice: in the table `memories` and in the vector index. `create_memory`,
`update_memory` and `sync_push` write both. No other handler touches the index: a row that is deleted, archived, forgotten,
swept or consolidated away with its embedding stays indexed, and one that comes back from the archive with its embedding is
missing. `create_memory` and `update_memory` index a vector that the table refused, `sync_push` one whose row it has just
removed, and a full index evicts its oldest entry.

In a run that does none of this the index holds the ids of the live rows with an embedding, after every request
(`tracks_of_meets`).
-/

namespace AiMemory

open Relational Machine MemoryApi Recall Validate Coexist

namespace Tracking

/-- The database and the vector index of a daemon. -/
structure Served where
  db : Db
  index : IndexState (List UInt8)

def Served.empty : Served := ⟨Db.empty, .empty⟩

/-- The embedding of a text, when there is a model and it succeeds. -/
def embedding (model : Option Embedder) (text : String) : Option (List UInt8) := model.bind fun e => e.embed text

def reindex (index : IndexState (List UInt8)) (entry : String × List UInt8) : IndexState (List UInt8) :=
  (index.remove entry.1).insert entry.1 entry.2

/-! ## The handlers -/

section Handlers

variable (app : App)

/-- `create_memory`: the vector goes into the index whether or not the table took it. -/
def createMemory (t : Draw app.chrono) (header : Option String) (body : CreateMemory) (s : Served) : Served :=
  match MemoryApi.createMemory app t header body s.db, embedding app.embedder (body.title ++ " " ++ body.content) with
  | (db, .ok (.done mem)), some vec => ⟨db, s.index.insert mem.id vec⟩
  | (db, _), _ => ⟨db, s.index⟩

/-- `update_memory`, likewise when the title or the content is set. -/
def updateMemory (t : Draw app.chrono) (id : String) (body : UpdateMemory) (s : Served) : Served :=
  match MemoryApi.updateMemory app t id body s.db with
  | (db, .ok (some mem)) =>
    if body.title.isSome ∨ body.content.isSome then
      match embedding app.embedder (mem.title ++ " " ++ mem.content) with
      | some vec => ⟨db, reindex s.index (mem.id, vec)⟩
      | none => ⟨db, s.index⟩
    else ⟨db, s.index⟩
  | (db, _) => ⟨db, s.index⟩

def restoreArchive (id now : String) (db : Db) : Db :=
  match validateId id with
  | .error _ => db
  | .ok () => settled db ((db.restoreArchived id now).map Prod.fst)

/-- One refreshed embedding of a push, with the `hnsw_updates` so far. -/
def refreshRow (e : Embedder) (s : Db × List (String × List UInt8)) (row : String × String) :
    Db × List (String × List UInt8) :=
  match e.embed row.2 with
  | none => s
  | some vec =>
    match s.1.setEmbedding row.1 vec e.dim with
    | .ok db => (db, s.2 ++ [(row.1, vec)])
    | .error _ => s

def hnswUpdates (h : Host) (t : Tick) (agent : String) (b : SyncPushBody) (db : Db) : List (String × List UInt8) :=
  let s := Push.observed t agent b (Push.records h t b db)
  match h.embedder with
  | some e => if b.dryRun then [] else (s.embeddingRefresh.foldl (refreshRow e) (s.db, [])).2
  | none => []

/-- `sync_push`: the index is written after the lock of the database is released. -/
def syncPush (h : Host) (t : Tick) (header : Option String) (b : SyncPushBody) (s : Served) : Served where
  db := (AiMemory.syncPush h t header b s.db).1
  index :=
    match b.check, resolveHttpAgentId header t.requestId with
    | .ok (), .ok agent => (hnswUpdates h t agent b s.db).foldl reindex s.index
    | _, _ => s.index

end Handlers

/-- The requests that write memories. -/
inductive Request (app : App) where
  | createMemory (t : Draw app.chrono) (header : Option String) (body : CreateMemory)
  | updateMemory (t : Draw app.chrono) (id : String) (body : UpdateMemory)
  | deleteMemory (t : Draw app.chrono) (header : Option String) (id : String)
  | consolidateMemories (t : Draw app.chrono) (header : Option String) (body : ConsolidateBody)
  | archiveByIds (t : Draw app.chrono) (ids : List String) (reason : Option String)
  | restoreArchive (id now : String)
  | forgetMemories (t : Draw app.chrono) (body : ForgetQuery)
  | runGc (now : String)
  | syncPush (t : Tick) (header : Option String) (body : SyncPushBody)

section Conditions

variable {app : App} (h : Host)

def step (s : Served) : Request app → Served
  | .createMemory t header body => Tracking.createMemory app t header body s
  | .updateMemory t id body => Tracking.updateMemory app t id body s
  | .deleteMemory t header id => { s with db := (MemoryApi.deleteMemory app t header id s.db).1 }
  | .consolidateMemories t header body => { s with db := (MemoryApi.consolidateMemories app t header body s.db).1 }
  | .archiveByIds t ids reason => { s with db := (MemoryApi.archiveByIds app t ids reason s.db).1 }
  | .restoreArchive id now => { s with db := Tracking.restoreArchive id now s.db }
  | .forgetMemories t body => { s with db := (MemoryApi.forgetMemories app t body s.db).1 }
  | .runGc now => { s with db := (s.db.gc app.archiveOnGc now).1 }
  | .syncPush t header body => Tracking.syncPush h t header body s

/-- A live row of the id has an embedding. -/
def Embedded (db : Db) (id : String) : Prop := ∃ r, db.get id = some r ∧ r.embedding.isSome

/-- The index holds an entry of the id. -/
def Holds (index : IndexState (List UInt8)) (id : String) : Prop := ∃ vec, (id, vec) ∈ index.allEntries

/-- The index holds the ids of the live rows with an embedding. -/
def Tracks (s : Served) : Prop := ∀ id, Holds s.index id ↔ Embedded s.db id

/-! ## When the index keeps track -/

/-- The vectors of the model fit those of a namespace and of a row that joins it, whichever row SQLite answers from. -/
def Fits (e : Embedder) (db : Db) (ns id : String) : Prop :=
  e.dim = 0 ∨ ∀ r ∈ db.memories, r.ns = ns ∨ r.id = id → ∀ d, r.embeddingDim = some d → d = e.dim

/-- After an insertion every other id still has an entry: what is evicted, if anything, has a newer one. -/
def Room (index : IndexState (List UInt8)) (id : String) : Prop :=
  ∀ entry ∈ index.allEntries, entry.1 ≠ id →
    ∃ kept ∈ index.allEntries.drop (index.allEntries.length + 1 - maxEntries), kept.1 = entry.1

def landing (db : Db) (mem : Memory) : String := ((db.getKey mem.key).map fun r => r.id).getD mem.id

/-- The row under the id, if any, has no embedding and none of the titles and namespaces. -/
def Spares (keys : List (String × String)) (db : Db) (id : String) : Prop :=
  ∀ r, db.get id = some r → r.embedding = none ∧ r.key ∉ keys

/-- An archived row that can be restored has no embedding. -/
def RestoresBare (db : Db) (id : String) : Prop :=
  ∀ a, db.archived.find id = some a → db.get id = none → db.getKey a.key = none → a.embedding = none

/-- The titles and namespaces of the memories that a push may write. -/
def pushed (h : Host) (b : SyncPushBody) : List (String × String) :=
  (b.memories.filter fun mem => decide (mem.Valid h.rfc3339)).map fun mem => mem.key

/-- What a record of a push needs: it takes away no row that has an embedding or that the push writes one for, and brings
back none with an embedding. -/
def EntryOk (keys : List (String × String)) (db : Db) : Push.Entry → Prop
  | .deletion id | .archive id => Accepts (validateId id) → Spares keys db id
  | .restore id => Accepts (validateId id) → RestoresBare db id
  | .decision dec => Accepts (validateId dec.id) → dec.approved → ∀ pa, db.getPendingAction dec.id = some pa →
      pa.status = "pending" → pa.actionType = "delete" → ∀ id, pa.memoryId = some id → Spares keys db id
  | _ => True

/-- What a request needs: it takes away no row with an embedding and brings back none, the table does not refuse its vector,
and the index has room for it. -/
def StepOk (e : Embedder) (s : Served) : Request app → Prop
  | .createMemory t header body => ∀ mem, app.prepare t header body s.db = .ok mem →
      s.db.enforceGovernance app.mode .store mem.ns ((Db.ownerOf mem).getD "") none none (app.memoryToValue mem) (t.newId 1)
        t.now.text = .ok (s.db, .allow) →
      (Embedded s.db (landing s.db mem) ∨ Fits e s.db mem.ns (landing s.db mem)) ∧ Room s.index (landing s.db mem)
  | .updateMemory _ id body => body.title.isSome ∨ body.content.isSome → ∀ target, resolveRow s.db id = .ok target →
      ¬s.db.Collides target body →
      (target.embedding.isSome ∨ Fits e s.db (body.ns.getD target.ns) target.id) ∧
        Room (s.index.remove target.id) target.id
  | .deleteMemory t header id => ∀ target agentId, resolveRow s.db id = .ok target →
      resolveHttpAgentId header t.requestId = .ok agentId →
      s.db.enforceGovernance app.mode .delete target.ns agentId (some target.id) (Db.ownerOf target.toMemory)
        (.obj [("id", .str target.id), ("title", .str target.title)]) (t.newId 0) t.now.text = .ok (s.db, .allow) →
      target.embedding = none
  | .consolidateMemories t header body => ∀ agentId, Accepts (validateConsolidate body.ids body.title body.summary
        body.ns) → resolveBodyAgentId body.agentId header t.requestId = .ok agentId →
      (∃ res, s.db.consolidate body.ids body.title body.summary body.ns (body.tier.getD .long) "consolidation" agentId
        (t.newId 0) t.now.text = .ok res) →
      ∀ id ∈ body.ids, Spares [] s.db id
  | .archiveByIds _ ids _ => ArchiveAccepts ids → ∀ id ∈ ids, Spares [] s.db id
  | .restoreArchive id _ => Accepts (validateId id) → RestoresBare s.db id
  | .forgetMemories _ body => ¬(body.pattern.isNone ∧ body.ns.isNone ∧ body.tier.isNone) → ∀ r ∈ s.db.memories,
      Db.forgetSelects app.fts body.ns body.pattern body.tier r → r.embedding = none
  | .runGc now => ∀ r ∈ s.db.memories, Db.isExpired now r → r.embedding = none
  | .syncPush t header body => body.Accepted t header → body.dryRun = false →
      Meets (onEntry h t) (EntryOk (pushed h body)) s.db (Push.entries body) ∧
        s.index.allEntries.length + body.memories.length ≤ maxEntries

end Conditions

/-! ## The entries of the index -/

section Index

variable {index : IndexState (List UInt8)} {id i : String} {vec : List UInt8} {entry : String × List UInt8}

theorem holds_insert (hroom : Room index id) : Holds (index.insert id vec) i ↔ i = id ∨ Holds index i := by
  have hlen : (index.allEntries ++ [(id, vec)]).length = index.allEntries.length + 1 := by
    rw [List.length_append, List.length_singleton]
  have hle : index.allEntries.length + 1 - maxEntries ≤ index.allEntries.length := by
    have := maxEntries_pos
    omega
  unfold Holds
  rw [allEntries_insert, lastOnes, hlen, List.drop_append_of_le_length hle]
  simp only [List.mem_append, List.mem_singleton, Prod.mk.injEq]
  constructor
  · rintro ⟨x, hold | ⟨hi, -⟩⟩
    · exact Or.inr ⟨x, List.mem_of_mem_drop hold⟩
    · exact Or.inl hi
  · rintro (hi | ⟨x, hx⟩)
    · exact ⟨vec, Or.inr ⟨hi, rfl⟩⟩
    · by_cases hi : i = id
      · exact ⟨vec, Or.inr ⟨hi, rfl⟩⟩
      · obtain ⟨⟨k, v⟩, hkept, hk⟩ := hroom _ hx hi
        cases (show k = i from hk)
        exact ⟨v, Or.inl hkept⟩

theorem holds_remove : Holds (index.remove id) i ↔ i ≠ id ∧ Holds index i := by
  simp only [Holds, IndexState.remove, List.mem_filter, decide_eq_true_eq]
  constructor
  · rintro ⟨x, hx, hne⟩
    exact ⟨hne, x, hx⟩
  · rintro ⟨hne, x, hx⟩
    exact ⟨x, hx, hne⟩

theorem holds_reindex (hroom : Room (index.remove entry.1) entry.1) :
    Holds (reindex index entry) i ↔ i = entry.1 ∨ Holds index i := by
  rw [reindex, holds_insert hroom, holds_remove]
  by_cases hi : i = entry.1 <;> simp [hi]

theorem room_of_lt (h : index.allEntries.length < maxEntries) : Room index id := by
  intro entry hentry _
  rw [Nat.sub_eq_zero_of_le h, List.drop_zero]
  exact ⟨entry, hentry, rfl⟩

theorem length_remove_le : (index.remove id).allEntries.length ≤ index.allEntries.length := List.length_filter_le _ _

theorem length_reindex_le : (reindex index entry).allEntries.length ≤ index.allEntries.length + 1 := by
  have hremoved : (index.remove entry.1).allEntries.length ≤ index.allEntries.length := length_remove_le
  rw [reindex, allEntries_insert, lastOnes, List.length_drop, List.length_append, List.length_singleton]
  omega

theorem holds_foldl_reindex {entries : List (String × List UInt8)}
    (hroom : index.allEntries.length + entries.length ≤ maxEntries) :
    Holds (entries.foldl reindex index) i ↔ Holds index i ∨ ∃ e ∈ entries, e.1 = i := by
  induction entries generalizing index with
  | nil => simp
  | cons e entries ih =>
    rw [List.length_cons] at hroom
    have hone : (index.remove e.1).allEntries.length < maxEntries := by
      have hremoved : (index.remove e.1).allEntries.length ≤ index.allEntries.length := length_remove_le
      omega
    have hrest : (reindex index e).allEntries.length + entries.length ≤ maxEntries := by
      have hinserted : (reindex index e).allEntries.length ≤ index.allEntries.length + 1 := length_reindex_le
      omega
    rw [List.foldl_cons, ih hrest, holds_reindex (room_of_lt hone), List.exists_mem_cons_iff, eq_comm, or_assoc]
    exact or_left_comm

end Index

/-! ## The rows of the table -/

/-- A write that leaves the ids with an embedding as they are, and the rows of the given titles and namespaces live. -/
structure Keeps (keys : List (String × String)) (db db' : Db) : Prop where
  embedded : ∀ i, Embedded db' i ↔ Embedded db i
  live : ∀ i r, db.get i = some r → r.key ∈ keys → ∃ r', db'.get i = some r' ∧ r'.key = r.key

section Table

variable {keys : List (String × String)} {db db' db₁ : Db} {id i : String} {mem : Memory}

theorem Keeps.of_memories (h : db'.memories = db.memories) : Keeps keys db db' := by
  have hget : ∀ i, db'.get i = db.get i := fun i => by
    unfold Db.get
    rw [h]
  refine ⟨fun i => ?_, fun i r hr _ => ⟨r, (hget i).trans hr, rfl⟩⟩
  unfold Embedded
  rw [hget]

theorem Keeps.trans (h : Keeps keys db db₁) (h' : Keeps keys db₁ db') : Keeps keys db db' where
  embedded i := (h'.embedded i).trans (h.embedded i)
  live i r hr hkey := by
    obtain ⟨r₁, hr₁, hkey₁⟩ := h.live i r hr hkey
    obtain ⟨r', hr', hkey'⟩ := h'.live i r₁ hr₁ (hkey₁ ▸ hkey)
    exact ⟨r', hr', hkey'.trans hkey₁⟩

theorem keeps_of_map {f : String → MemoryRow → MemoryRow} (hget : ∀ i, db'.get i = (db.get i).map (f i))
    (hembedding : ∀ i r, (f i r).embedding = r.embedding) (hkey : ∀ i r, r.key ∈ keys → (f i r).key = r.key) :
    Keeps keys db db' where
  embedded i := by
    unfold Embedded
    rw [hget]
    cases db.get i with
    | none => simp
    | some r => simp [hembedding]
  live i r hr hk := ⟨f i r, by rw [hget, hr]; rfl, hkey i r hk⟩

theorem keeps_of_removed (h : ∀ i, db'.get i = db.get i ∨ db'.get i = none ∧ Spares keys db i) : Keeps keys db db' where
  embedded i := by
    unfold Embedded
    rcases h i with hsame | ⟨hnone, hspares⟩
    · rw [hsame]
    · rw [hnone]
      refine iff_of_false (fun ⟨r, hr, _⟩ => by cases hr) fun ⟨r, hr, hsome⟩ => ?_
      rw [(hspares r hr).1] at hsome
      cases hsome
  live i r hr hkey := by
    rcases h i with hsame | ⟨-, hspares⟩
    · exact ⟨r, hsame.trans hr, rfl⟩
    · exact absurd hkey (hspares r hr).2

theorem keeps_insertNew {r : MemoryRow} {t : Indexed (fun r : MemoryRow => r.id) fun r => r.key}
    (ht : db.memories.insertNew? r = some t) (hbare : r.embedding = none) : Keeps keys db { db with memories := t } := by
  have hget : ∀ i, ({ db with memories := t } : Db).get i = (db.get i).or (if r.id = i then some r else none) :=
    fun i => Indexed.find_insertNew? ht i
  refine ⟨fun i => ?_, fun i x hx _ => ⟨x, by rw [hget, hx]; rfl, rfl⟩⟩
  unfold Embedded
  rw [hget]
  cases hx : db.get i with
  | some x => rfl
  | none =>
    rw [Option.none_or]
    refine iff_of_false (fun ⟨y, hy, hsome⟩ => ?_) fun ⟨y, hy, _⟩ => by cases hy
    split_ifs at hy
    cases hy
    rw [hbare] at hsome
    cases hsome

theorem keeps_insertOnConflict {merge : MemoryRow → MemoryRow} {hid : ∀ r, (merge r).id = r.id}
    {hkey : ∀ r, (merge r).key = r.key} (hembedding : ∀ r, (merge r).embedding = r.embedding)
    (h : db.insertOnConflict mem merge hid hkey = .ok (db', id)) : Keeps keys db db' := by
  obtain ⟨stored, -, -, rfl⟩ | ⟨-, -, -, t, ht, rfl⟩ := Db.insertOnConflict_cases h
  · refine keeps_of_map (f := fun i r => if i = stored.id then merge r else r) Db.get_updateRow (fun i r => ?_) fun i r _ => ?_
    · split_ifs
      · exact hembedding r
      · rfl
    · split_ifs
      · exact hkey r
      · rfl
  · exact keeps_insertNew ht rfl

theorem keeps_insert (h : db.insert mem = .ok (db', id)) : Keeps keys db db' := by
  have hmerge : ∀ r, (upsertRow r mem).embedding = r.embedding := fun _ => rfl
  exact keeps_insertOnConflict hmerge h

theorem keeps_insertIfNewer (h : db.insertIfNewer mem = .ok (db', id)) : Keeps keys db db' := by
  have hmerge : ∀ r, (mergeNewer r mem).embedding = r.embedding := fun _ => rfl
  exact keeps_insertOnConflict hmerge h

theorem keeps_takeIn {h : Host} : Keeps keys db (h.takeIn db mem) := by
  obtain ⟨id, -, -, hi⟩ | ⟨he, -⟩ := takeIn_cases h db mem
  · exact keeps_insertIfNewer hi
  · rw [he]
    exact Keeps.of_memories rfl

theorem keeps_delete (h : Spares keys db id) : Keeps keys db (db.delete id).1 := by
  refine keeps_of_removed fun i => ?_
  rw [Db.get_delete]
  split_ifs with hi
  · exact Or.inr ⟨rfl, hi ▸ h⟩
  · exact Or.inl rfl

theorem keeps_archiveMemory {reason : Option String} {now : String} (h : Spares keys db id) :
    Keeps keys db (db.archiveMemory id reason now).1 := by
  refine keeps_of_removed fun i => ?_
  rw [Gate.get_archiveMemory]
  split_ifs with hi
  · exact Or.inr ⟨rfl, hi ▸ h⟩
  · exact Or.inl rfl

theorem keeps_deleteMemories {keep : MemoryRow → Bool}
    (h : ∀ r ∈ db.memories, keep r = false → r.embedding = none ∧ r.key ∉ keys) : Keeps keys db (db.deleteMemories keep) := by
  refine keeps_of_removed fun i => ?_
  rw [Db.get_deleteMemories]
  cases hr : db.get i with
  | none => exact Or.inl rfl
  | some r =>
    rw [Option.filter_some]
    cases hkeep : keep r with
    | true => exact Or.inl rfl
    | false =>
      refine Or.inr ⟨rfl, fun x hx => ?_⟩
      cases hr.symm.trans hx
      exact h r (Db.get_eq_some.mp hr).1 hkeep

theorem keeps_restoreArchived {now : String} {restored : Bool} (hbare : RestoresBare db id)
    (h : db.restoreArchived id now = .ok (db', restored)) : Keeps keys db db' := by
  obtain ⟨-, -, rfl⟩ | ⟨a, t, ha, -, hget, ht, rfl⟩ := Db.restoreArchived_cases h
  · exact Keeps.of_memories rfl
  · have hsome : (db.memories.insertNew? (restoreRow now a)).isSome := by rw [ht]; rfl
    obtain ⟨-, hkey⟩ := Indexed.insertNew?_isSome.mp hsome
    exact (keeps_insertNew ht (hbare a ha hget hkey)).trans (Keeps.of_memories rfl)

theorem keeps_update {u : UpdateMemory} {now : String} {found changed : Bool}
    (hkey : ∀ r : MemoryRow, r.key ∈ keys → (applyUpdate u now r).key = r.key)
    (h : db.update id u now = .ok (db', found, changed)) : Keeps keys db db' := by
  rcases Db.update_cases h with ⟨-, -, rfl⟩ | ⟨existing, -, rfl, -⟩
  · exact Keeps.of_memories rfl
  · refine keeps_of_map (f := fun i r => if i = id then applyUpdate u now r else r) (Db.get_update h) (fun i r => ?_)
      fun i r hr => ?_
    · split_ifs <;> rfl
    · split_ifs
      · exact hkey r hr
      · rfl

end Table

/-! ## A push -/

section Pushes

variable {keys : List (String × String)} {h : Host} {t : Tick} {db db' : Db} {b : SyncPushBody} {e : Embedder}
  {mem : Memory} {id i : String} {rows : List (String × String)}

theorem keeps_promoteToNamespace {sourceId toNs newId now : String}
    (hp : db.promoteToNamespace sourceId toNs newId now = .ok (db', id)) : Keeps keys db db' := by
  obtain ⟨source, db₁, -, -, -, hi, he⟩ := Db.promoteToNamespace_cases hp
  rw [he]
  exact (keeps_insert hi).trans (Keeps.of_memories rfl)

theorem keeps_executePendingAction {x : Db.Execution} {res : Option String}
    (hok : ∀ pa, db.getPendingAction id = some pa → pa.actionType = "delete" → ∀ mid, pa.memoryId = some mid →
      Spares keys db mid) (he : db.executePendingAction x id = .ok (db', res)) : Keeps keys db db' := by
  obtain ⟨pa, hpa, -, ⟨-, mem, actualId, -, -, hi⟩ | ⟨hkind, mid, hmid, rfl⟩ | ⟨-, mid, toNs, cloneId, -, -, hp⟩ |
    ⟨-, mid, ⟨found, changed⟩, -, -, hu⟩ | ⟨-, rfl⟩⟩ := Db.executePendingAction_spec he
  · exact keeps_insert hi
  · exact keeps_delete (hok pa hpa hkind mid hmid)
  · exact keeps_promoteToNamespace hp
  · exact keeps_update (fun _ _ => rfl) hu
  · exact Keeps.of_memories rfl

theorem keeps_decide {dec : PendingDecision} (hvalid : Accepts (validateId dec.id))
    (hok : EntryOk keys db (.decision dec)) : Keeps keys db (Push.decide h t db dec).1 := by
  unfold Push.decide
  cases hd : db.decidePendingAction dec.id dec.approved dec.decider t.now with
  | mk db₁ changed =>
    have hmem : db₁.memories = db.memories := by cases hd; rfl
    have hdecided : Keeps keys db db₁ := Keeps.of_memories hmem
    cases changed with
    | false => exact hdecided
    | true =>
      simp only
      split_ifs with happ
      · split
        · rename_i hx
          refine hdecided.trans (keeps_executePendingAction (fun pa hpa hkind mid hmid => ?_) hx)
          obtain ⟨pa₀, hpa₀, hkind₀, -, hmid₀⟩ := Provenance.getPendingAction_decide hd hpa
          have hpending : pa₀.status = "pending" := by
            have hany : ((db.pending.find dec.id).any fun r => r.status = "pending") = true := (Prod.ext_iff.mp hd).2
            obtain ⟨row, hrow, rfl⟩ := Option.map_eq_some_iff.mp hpa₀
            rw [hrow] at hany
            exact of_decide_eq_true hany
          have hspares := hok hvalid happ pa₀ hpa₀ hpending (hkind₀ ▸ hkind) mid (hmid₀ ▸ hmid)
          intro r hr
          unfold Db.get at hr
          rw [hmem] at hr
          exact hspares r hr
        · exact hdecided
      · exact hdecided

theorem onLink_memories (l : MemoryLink) : (Push.onLink h t db l).memories = db.memories := by
  unfold Push.onLink
  split_ifs
  · split
    · rfl
    · split
      · rename_i hl
        rw [Db.createLinkInbound_frame hl]
      · rfl
  · rfl

/-- One record. -/
theorem keeps_onEntry {en : Push.Entry} (hok : EntryOk keys db en) : Keeps keys db (onEntry h t db en) := by
  cases en with
  | memory mem => exact keeps_takeIn
  | deletion id =>
    show Keeps keys db (Push.onDeletion db id)
    unfold Push.onDeletion
    split_ifs with hv
    · exact keeps_delete (hok hv)
    · exact Keeps.of_memories rfl
  | archive id =>
    show Keeps keys db (Push.onArchive t db id)
    unfold Push.onArchive
    split_ifs with hv
    · exact keeps_archiveMemory (hok hv)
    · exact Keeps.of_memories rfl
  | restore id =>
    show Keeps keys db (Push.onRestore t db id)
    unfold Push.onRestore
    split_ifs with hv
    · split
      · rename_i hr
        exact keeps_restoreArchived (hok hv) hr
      · exact Keeps.of_memories rfl
    · exact Keeps.of_memories rfl
  | link l => exact Keeps.of_memories (onLink_memories l)
  | pending pa =>
    refine Keeps.of_memories ?_
    show (Push.onPending db pa).memories = db.memories
    unfold Push.onPending
    split_ifs <;> rfl
  | decision dec =>
    show Keeps keys db (Push.onDecision h t db dec)
    unfold Push.onDecision
    split_ifs with hv
    · exact keeps_decide hv hok
    · exact Keeps.of_memories rfl
  | namespaceMeta entry => exact Keeps.of_memories (Push.onNamespaceMeta_memories t db entry)
  | namespaceMetaClear ns =>
    refine Keeps.of_memories ?_
    show (Push.onNamespaceMetaClear db ns).memories = db.memories
    unfold Push.onNamespaceMetaClear
    split_ifs <;> rfl

theorem keeps_entries {es : List Push.Entry} (hok : Meets (onEntry h t) (EntryOk keys) db es) :
    Keeps keys db (es.foldl (onEntry h t) db) := by
  induction es generalizing db with
  | nil => exact Keeps.of_memories rfl
  | cons en es ih => exact (keeps_onEntry hok.1).trans (ih hok.2)

/-! ### The rows to refresh -/

/-- The refreshed rows are live, under titles and namespaces of the push. -/
def Written (keys : List (String × String)) (db : Db) (rows : List (String × String)) : Prop :=
  ∀ row ∈ rows, ∃ r, db.get row.1 = some r ∧ r.key ∈ keys

theorem Written.keeps (hw : Written keys db rows) (hk : Keeps keys db db') : Written keys db' rows := by
  intro row hrow
  obtain ⟨r, hr, hkey⟩ := hw row hrow
  obtain ⟨r', hr', hkey'⟩ := hk.live row.1 r hr hkey
  exact ⟨r', hr', hkey' ▸ hkey⟩

theorem get_landing {merge : MemoryRow → MemoryRow} {hid : ∀ r, (merge r).id = r.id} {hkey : ∀ r, (merge r).key = r.key}
    (hi : db.insertOnConflict mem merge hid hkey = .ok (db', id)) :
    id = landing db mem ∧ ∃ r, db'.get id = some r ∧ r.key = mem.key := by
  unfold landing
  obtain ⟨stored, hs, rfl, rfl⟩ | ⟨hs, -, rfl, t, ht, rfl⟩ := Db.insertOnConflict_cases hi
  · obtain ⟨hmem, hk⟩ := Db.getKey_eq_some.mp hs
    refine ⟨by rw [hs]; rfl, merge stored, ?_, (hkey stored).trans hk⟩
    exact Db.get_eq_some.mpr ⟨Db.mem_updateRow.mpr ⟨stored, hmem, if_pos rfl⟩, hid stored⟩
  · refine ⟨by rw [hs]; rfl, mem.toRow, ?_, rfl⟩
    exact Db.get_eq_some.mpr ⟨(Indexed.mem_insertNew? ht).mpr (Or.inr rfl), rfl⟩

theorem written_memory {s : Push} (hw : Written keys s.db s.embeddingRefresh)
    (hkey : mem.Valid h.rfc3339 → mem.key ∈ keys) :
    Written keys (Push.memory h false s mem).db (Push.memory h false s mem).embeddingRefresh ∧
      (Push.memory h false s mem).embeddingRefresh.length ≤ s.embeddingRefresh.length + 1 := by
  unfold Push.memory
  by_cases hv : Accepts (validateMemory h.rfc3339 mem)
  · simp only [hv, not_true, if_false, Bool.false_eq_true]
    generalize hs : (if s.latestSeen.all (mem.updatedAt > ·) then { s with latestSeen := some mem.updatedAt } else s) = s'
    have hdb : s'.db = s.db := by rw [← hs]; split_ifs <;> rfl
    have hrows : s'.embeddingRefresh = s.embeddingRefresh := by rw [← hs]; split_ifs <;> rfl
    rw [← hdb, ← hrows] at hw
    rw [← hrows]
    cases hi : h.insertIfNewer s'.db mem with
    | error err => exact ⟨hw, Nat.le_succ _⟩
    | ok res =>
      obtain ⟨db₁, actualId⟩ := res
      unfold Host.insertIfNewer at hi
      split_ifs at hi
      obtain ⟨-, r, hr, hrkey⟩ := get_landing hi
      refine ⟨fun row hrow => ?_, by rw [List.length_append, List.length_singleton]⟩
      rcases List.mem_append.mp hrow with hold | hnew
      · exact hw.keeps (keeps_insertIfNewer hi) row hold
      · rw [List.mem_singleton.mp hnew]
        exact ⟨r, hr, hrkey ▸ hkey hv⟩
  · rw [if_pos hv]
    exact ⟨hw, Nat.le_succ _⟩

theorem written_memories {mems : List Memory} {s : Push} (hw : Written keys s.db s.embeddingRefresh)
    (hkeys : ∀ mem ∈ mems, mem.Valid h.rfc3339 → mem.key ∈ keys) :
    Written keys (mems.foldl (Push.memory h false) s).db (mems.foldl (Push.memory h false) s).embeddingRefresh ∧
      (mems.foldl (Push.memory h false) s).embeddingRefresh.length ≤ s.embeddingRefresh.length + mems.length := by
  induction mems generalizing s with
  | nil => exact ⟨hw, le_rfl⟩
  | cons mem mems ih =>
    obtain ⟨hone, hlen⟩ := written_memory hw (hkeys mem List.mem_cons_self)
    obtain ⟨hall, hlen'⟩ := ih hone fun x hx => hkeys x (List.mem_cons_of_mem mem hx)
    refine ⟨hall, ?_⟩
    rw [List.foldl_cons, List.length_cons]
    omega

theorem mem_pushed (hm : mem ∈ b.memories) (hv : mem.Valid h.rfc3339) : mem.key ∈ pushed h b :=
  List.mem_map_of_mem (List.mem_filter.mpr ⟨hm, decide_eq_true hv⟩)

/-- What the records of a push leave: the embedded ids as they were, and live rows to refresh. -/
theorem records_spec (hdry : b.dryRun = false) (hok : Meets (onEntry h t) (EntryOk (pushed h b)) db (Push.entries b)) :
    Keeps (pushed h b) db (Push.records h t b db).db ∧
      Written (pushed h b) (Push.records h t b db).db (Push.records h t b db).embeddingRefresh ∧
      (Push.records h t b db).embeddingRefresh.length ≤ b.memories.length := by
  have hnone : Written (pushed h b) db [] := fun row hrow => absurd hrow List.not_mem_nil
  obtain ⟨hwritten, hlen⟩ := written_memories (s := { db }) hnone fun mem hm hv => mem_pushed (h := h) hm hv
  obtain ⟨rest, hes, -, -⟩ := Provenance.entries_eq b
  have hmems : ∀ d, (b.memories.map Push.Entry.memory).foldl (onEntry h t) d = b.memories.foldl h.takeIn d :=
    fun d => List.foldl_map
  have hrest : Meets (onEntry h t) (EntryOk (pushed h b)) (b.memories.foldl h.takeIn db) rest := by
    rw [hes, meets_append, hmems] at hok
    exact hok.2
  rw [Push.records_embeddingRefresh, hdry, Provenance.records_db hdry]
  refine ⟨keeps_entries hok, ?_, by simpa using hlen⟩
  rw [hes, List.foldl_append, hmems]
  rw [Push.foldl_memory_db] at hwritten
  exact hwritten.keeps (keeps_entries hrest)

/-! ### Refreshing them -/

theorem embedded_writeEmbedding {blob : List UInt8} {d : Option ℤ} {r : MemoryRow} (hlive : db.get id = some r) :
    Embedded (db.writeEmbedding id blob d) i ↔ i = id ∨ Embedded db i := by
  unfold Embedded Db.writeEmbedding
  rw [Db.get_updateRow]
  by_cases hi : i = id
  · simp [hi, hlive]
  · simp [hi]

theorem live_get_writeEmbedding {blob : List UInt8} {d : Option ℤ} (h : ∃ r, db.get i = some r) :
    ∃ r, (db.writeEmbedding id blob d).get i = some r := by
  obtain ⟨r, hr⟩ := h
  unfold Db.writeEmbedding
  exact ⟨_, by rw [Db.get_updateRow, hr]; rfl⟩

theorem foldl_refreshRow_fst (e : Embedder) (rows : List (String × String)) (s : Db × List (String × List UInt8)) :
    (rows.foldl (refreshRow e) s).1 = rows.foldl (Push.refresh e) s.1 := by
  induction rows generalizing s with
  | nil => rfl
  | cons row rows ih =>
    rw [List.foldl_cons, ih, List.foldl_cons]
    congr 1
    unfold refreshRow Push.refresh
    cases e.embed row.2 with
    | none => rfl
    | some vec =>
      simp only
      cases s.1.setEmbedding row.1 vec e.dim <;> rfl

theorem embedded_refreshRows {P : String → Prop} (hembed : ∀ text, (e.embed text).isSome) {s : Db × List (String × List UInt8)}
    (hlive : ∀ row ∈ rows, ∃ r, s.1.get row.1 = some r) (hs : ∀ i, Embedded s.1 i ↔ P i ∨ ∃ u ∈ s.2, u.1 = i) :
    (∀ i, Embedded (rows.foldl (refreshRow e) s).1 i ↔ P i ∨ ∃ u ∈ (rows.foldl (refreshRow e) s).2, u.1 = i) ∧
      (rows.foldl (refreshRow e) s).2.length ≤ s.2.length + rows.length := by
  induction rows generalizing s with
  | nil => exact ⟨hs, le_rfl⟩
  | cons row rows ih =>
    obtain ⟨r, hr⟩ := hlive row List.mem_cons_self
    obtain ⟨vec, hvec⟩ := Option.isSome_iff_exists.mp (hembed row.2)
    cases hset : s.1.setEmbedding row.1 vec e.dim with
    | error err =>
      have hskip : refreshRow e s row = s := by simp [refreshRow, hvec, hset]
      rw [List.foldl_cons, hskip, List.length_cons]
      obtain ⟨hall, hlen⟩ := ih (fun x hx => hlive x (List.mem_cons_of_mem row hx)) hs
      exact ⟨hall, by omega⟩
    | ok db₁ =>
      have hstep : refreshRow e s row = (db₁, s.2 ++ [(row.1, vec)]) := by simp [refreshRow, hvec, hset]
      obtain ⟨d, rfl⟩ := Db.setEmbedding_eq_ok hset
      rw [List.foldl_cons, hstep, List.length_cons]
      obtain ⟨hall, hlen⟩ := ih (s := (s.1.writeEmbedding row.1 vec d, s.2 ++ [(row.1, vec)]))
        (fun x hx => live_get_writeEmbedding (hlive x (List.mem_cons_of_mem row hx))) (fun i => by
          rw [embedded_writeEmbedding hr, hs]
          simp only [List.mem_append, List.mem_singleton, or_and_right, exists_or, exists_eq_left]
          rw [eq_comm, or_comm, or_assoc])
      refine ⟨hall, hlen.trans ?_⟩
      rw [List.length_append, List.length_singleton]
      omega

/-- A push keeps the index in step. -/
theorem tracks_syncPush {header : Option String} {s : Served} (hhost : h.embedder = some e)
    (hembed : ∀ text, (e.embed text).isSome) (hs : Tracks s)
    (hok : b.Accepted t header → b.dryRun = false →
      Meets (onEntry h t) (EntryOk (pushed h b)) s.db (Push.entries b) ∧
        s.index.allEntries.length + b.memories.length ≤ maxEntries) : Tracks (syncPush h t header b s) := by
  unfold syncPush
  cases hcheck : b.check with
  | error err =>
    have hdb : (AiMemory.syncPush h t header b s.db).1 = s.db := by simp [AiMemory.syncPush, hcheck]
    rw [hdb]
    exact hs
  | ok u =>
    cases hagent : resolveHttpAgentId header t.requestId with
    | error err =>
      have hdb : (AiMemory.syncPush h t header b s.db).1 = s.db := by simp [AiMemory.syncPush, hcheck, hagent]
      rw [hdb]
      exact hs
    | ok agent =>
      have hdb : (AiMemory.syncPush h t header b s.db).1 = (Push.body h t agent b s.db).db := by
        simp [AiMemory.syncPush, hcheck, hagent]
      rw [hdb]
      show Tracks ⟨(Push.body h t agent b s.db).db, (hnswUpdates h t agent b s.db).foldl reindex s.index⟩
      have hobs : (Push.observed t agent b (Push.records h t b s.db)).db.memories = (Push.records h t b s.db).db.memories ∧
          (Push.observed t agent b (Push.records h t b s.db)).embeddingRefresh =
            (Push.records h t b s.db).embeddingRefresh := by
        unfold Push.observed
        split
        · split_ifs <;> exact ⟨rfl, rfl⟩
        · exact ⟨rfl, rfl⟩
      cases hdry : b.dryRun with
      | true =>
        have hsame : (Push.body h t agent b s.db).db = s.db := by
          rw [Push.body_dry agent hdry, (Push.records_spec b s.db).2, hdry]
          rfl
        rw [hsame]
        unfold hnswUpdates
        rw [hhost, hdry]
        exact hs
      | false =>
        obtain ⟨hmeets, hroom⟩ := hok ⟨hcheck, agent, hagent⟩ hdry
        obtain ⟨hkeeps, hwritten, hlen⟩ := records_spec hdry hmeets
        have hbody : (Push.body h t agent b s.db).db = ((Push.records h t b s.db).embeddingRefresh.foldl (refreshRow e)
            ((Push.observed t agent b (Push.records h t b s.db)).db, [])).1 := by
          rw [foldl_refreshRow_fst]
          unfold Push.body
          rw [hhost]
          simp only [hdry, Bool.false_eq_true, if_false]
          rw [hobs.2]
        have hupdates : hnswUpdates h t agent b s.db = ((Push.records h t b s.db).embeddingRefresh.foldl (refreshRow e)
            ((Push.observed t agent b (Push.records h t b s.db)).db, [])).2 := by
          unfold hnswUpdates
          rw [hhost]
          simp only [hdry, Bool.false_eq_true, if_false]
          rw [hobs.2]
        have hrefreshed : Keeps (pushed h b) (Push.records h t b s.db).db
            (Push.observed t agent b (Push.records h t b s.db)).db := Keeps.of_memories hobs.1
        obtain ⟨hall, hcount⟩ := embedded_refreshRows (P := Embedded s.db) hembed
          (s := ((Push.observed t agent b (Push.records h t b s.db)).db, []))
          (fun row hrow => ((hwritten.keeps hrefreshed) row hrow).imp fun r hr => hr.1)
          fun i => by rw [hrefreshed.embedded, hkeeps.embedded]; simp
        rw [hbody, hupdates]
        intro i
        show Holds _ i ↔ Embedded _ i
        rw [hall, ← hs i]
        refine holds_foldl_reindex ?_
        rw [List.length_nil, Nat.zero_add] at hcount
        omega

end Pushes

/-! ## The other requests -/

section Requests

variable {app : App} {h : Host} {e : Embedder} {db db' : Db} {s : Served} {id i text : String} {r : MemoryRow}

theorem Tracks.of_keeps {keys : List (String × String)} (hs : Tracks s) (hk : Keeps keys s.db db') :
    Tracks { s with db := db' } := fun i => (hs i).trans (hk.embedded i).symm

theorem spares_nil_iff : Spares [] db id ↔ ¬Embedded db id := by
  constructor
  · rintro hspares ⟨r, hr, hsome⟩
    rw [(hspares r hr).1] at hsome
    cases hsome
  · intro hnone r hr
    refine ⟨?_, List.not_mem_nil⟩
    by_contra hsome
    exact hnone ⟨r, hr, Option.isSome_iff_ne_none.mpr hsome⟩

/-- `set_embedding` takes a vector that fits the rows of the namespace. -/
theorem setEmbedding_of_fits (vec : List UInt8) (hget : db.get id = some r) (hfits : e.dim = 0 ∨
    ∀ x ∈ db.memories, x.ns = r.ns → ∀ d, x.embeddingDim = some d → d = e.dim) :
    ∃ db', db.setEmbedding id vec e.dim = .ok db' := by
  rcases Push.setEmbedding_spec db id vec e.dim with ⟨hset, -⟩ | ⟨err, r', -, hr', hdim, hno⟩
  · exact ⟨_, hset⟩
  · cases hget.symm.trans hr'
    have hdims := hfits.resolve_left hdim
    unfold Push.dimOf at hno
    cases hfind : db.memories.rows.find? fun x => x.ns = r.ns ∧ x.embeddingDim.isSome with
    | none =>
      rw [hfind] at hno
      cases hno
    | some x =>
      obtain ⟨hns, hsome⟩ : x.ns = r.ns ∧ x.embeddingDim.isSome := by simpa using List.find?_some hfind
      obtain ⟨d, hd⟩ := Option.isSome_iff_exists.mp hsome
      have hsame := hdims x (List.mem_of_find?_eq_some hfind) hns d hd
      rw [hfind] at hno
      simp [hd, hsame] at hno

theorem embedded_refresh (happ : app.embedder = some e) (hembed : ∀ text, (e.embed text).isSome)
    (hget : db.get id = some r) (hfits : Embedded db id ∨ e.dim = 0 ∨
      ∀ x ∈ db.memories, x.ns = r.ns → ∀ d, x.embeddingDim = some d → d = e.dim) :
    Embedded (app.refresh db id text) i ↔ i = id ∨ Embedded db i := by
  obtain ⟨vec, hvec⟩ := Option.isSome_iff_exists.mp (hembed text)
  unfold App.refresh
  rw [happ]
  simp only [hvec]
  cases hset : db.setEmbedding id vec e.dim with
  | ok db₁ =>
    obtain ⟨d, rfl⟩ := Db.setEmbedding_eq_ok hset
    exact embedded_writeEmbedding hget
  | error err =>
    -- the table refuses the vector, but the row has one
    rcases hfits with hheld | hfits
    · refine (or_iff_right_of_imp ?_).symm
      rintro rfl
      exact hheld
    · obtain ⟨db', hok⟩ := setEmbedding_of_fits vec hget hfits
      cases hset.symm.trans hok

variable {t : Draw app.chrono} {header : Option String}

theorem tracks_createMemory {body : CreateMemory}
    (happ : app.embedder = some e) (hembed : ∀ text, (e.embed text).isSome) (hs : Tracks s)
    (hok : StepOk h e s (.createMemory t header body)) : Tracks (createMemory app t header body s) := by
  obtain ⟨vec, hvec⟩ := Option.isSome_iff_exists.mp (hembed (body.title ++ " " ++ body.content))
  have hembedding : embedding app.embedder (body.title ++ " " ++ body.content) = some vec := by
    rw [embedding, happ, Option.bind_some, hvec]
  unfold createMemory
  rw [hembedding]
  rcases createMemory_cases app t header body s.db with ⟨hdb, r, hr⟩ | ⟨mem, -, hr, hqueue⟩ |
    ⟨mem, db₁, id, hprep, hgate, hi, heq⟩
  · generalize MemoryApi.createMemory app t header body s.db = res at hdb hr
    obtain ⟨db', reply⟩ := res
    cases hr
    have hkeeps : Keeps [] s.db db' := Keeps.of_memories (by rw [show db' = s.db from hdb])
    exact hs.of_keeps hkeeps
  · obtain ⟨-, row, table, -, -, -, -, -, -, hdb⟩ := Db.queuePendingAction_eq_ok hqueue
    generalize MemoryApi.createMemory app t header body s.db = res at hdb hr
    obtain ⟨db', reply⟩ := res
    cases hr
    have hkeeps : Keeps [] s.db db' := Keeps.of_memories (by rw [show db' = _ from hdb])
    exact hs.of_keeps hkeeps
  · rw [heq]
    obtain ⟨hid, r, hget, hkey⟩ := get_landing hi
    have hkeeps : Keeps [] s.db db₁ := keeps_insert hi
    obtain ⟨hfits, hroom⟩ := hok mem hprep hgate
    rw [← hid] at hfits hroom
    have hns : r.ns = mem.ns := congrArg Prod.snd hkey
    intro i
    show Holds (s.index.insert id vec) i ↔ Embedded (app.refresh db₁ id _) i
    rw [holds_insert hroom, hs i, embedded_refresh happ hembed hget, hkeeps.embedded]
    refine hfits.imp (hkeeps.embedded id).mpr fun hfits => hfits.imp_right fun hdims x hx hxns d hd => ?_
    rcases Db.mem_insertOnConflict hi hx with hold | ⟨stored, hstored, hskey, rfl⟩ | rfl
    · exact hdims x hold (Or.inl (hxns.trans hns)) d hd
    · exact hdims stored hstored (Or.inl (congrArg Prod.snd hskey)) d hd
    · cases hd

/-- What `update_memory` can do: refuse, or update a row and, when the title or the content is set, its embedding. -/
theorem updateMemory_spec (app : App) (t : Draw app.chrono) (id : String) (u : UpdateMemory) (db : Db) :
    (∃ refusal, MemoryApi.updateMemory app t id u db = (db, .error refusal)) ∨
    ∃ target db₁ changed mem, resolveRow db id = .ok target ∧
      db.update target.id { u with metadata := u.metadata.map (preserveAgentId target.metadata) } t.now.text =
        .ok (db₁, true, changed) ∧ mem.id = target.id ∧
      MemoryApi.updateMemory app t id u db = (if u.title.isSome ∨ u.content.isSome then
        app.refresh db₁ target.id (mem.title ++ " " ++ mem.content) else db₁, .ok (some mem)) := by
  unfold MemoryApi.updateMemory
  cases validateId id with
  | error err => exact Or.inl ⟨_, rfl⟩
  | ok a =>
    simp only
    cases validateUpdate app.chrono.rfc3339 u with
    | error err => exact Or.inl ⟨_, rfl⟩
    | ok a =>
      simp only
      cases hrow : resolveRow db id with
      | error refusal => exact Or.inl ⟨refusal, rfl⟩
      | ok target =>
        simp only
        have hget := get_resolveRow hrow
        cases hu : db.update target.id { u with metadata := u.metadata.map (preserveAgentId target.metadata) }
          t.now.text with
        | error msg =>
          left
          simp only
          split_ifs
          · exact ⟨_, rfl⟩
          · exact ⟨_, rfl⟩
        | ok res =>
          obtain ⟨db₁, found, changed⟩ := res
          rcases Db.update_cases hu with ⟨hnone, -, -⟩ | ⟨existing, -, rfl, -, -⟩
          · rw [hget] at hnone
            cases hnone
          · have hrow₁ := Db.get_update hu target.id
            rw [hget, Option.map_some, if_pos rfl] at hrow₁
            refine Or.inr ⟨target, db₁, changed, (applyUpdate { u with
              metadata := u.metadata.map (preserveAgentId target.metadata) } t.now.text target).toMemory, rfl, hu, rfl, ?_⟩
            simp only [hrow₁, Option.map_some]

theorem tracks_updateMemory {u : UpdateMemory} (happ : app.embedder = some e)
    (hembed : ∀ text, (e.embed text).isSome) (hs : Tracks s) (hok : StepOk h e s (.updateMemory t id u)) :
    Tracks (updateMemory app t id u s) := by
  unfold updateMemory
  rcases updateMemory_spec app t id u s.db with ⟨refusal, heq⟩ | ⟨target, db₁, changed, mem, hrow, hu, hmid, heq⟩ <;>
    rw [heq]
  · exact hs
  have hget := get_resolveRow hrow
  have hkeeps : Keeps [] s.db db₁ := keeps_update (fun r hr => absurd hr List.not_mem_nil) hu
  simp only
  split_ifs with hset
  · obtain ⟨vec, hvec⟩ := Option.isSome_iff_exists.mp (hembed (mem.title ++ " " ++ mem.content))
    rw [embedding, happ, Option.bind_some, hvec]
    have hfree : ¬s.db.Collides target { u with metadata := u.metadata.map (preserveAgentId target.metadata) } :=
      (Db.update_isOk_iff t.now.text hget).mp ⟨db₁, changed, hu⟩
    obtain ⟨hfits, hroom⟩ := hok hset target hrow hfree
    have hrow₁ := Db.get_update hu target.id
    rw [hget, Option.map_some, if_pos rfl] at hrow₁
    intro i
    show Holds (reindex s.index (mem.id, vec)) i ↔ Embedded (app.refresh db₁ target.id _) i
    rw [hmid, holds_reindex hroom, hs i, embedded_refresh happ hembed hrow₁, hkeeps.embedded]
    refine hfits.imp (fun hsome => (hkeeps.embedded target.id).mpr ⟨target, hget, hsome⟩) fun hfits =>
      hfits.imp_right fun hdims x hx hns d hd => ?_
    -- the rows of the namespace are those that were there, and the row that joins them
    rcases Db.update_cases hu with ⟨-, hc, -⟩ | ⟨-, -, -, -, hrows⟩
    · cases hc
    · rw [Indexed.mem_def, hrows] at hx
      obtain ⟨r, hr, rfl⟩ := List.mem_map.mp hx
      split_ifs at hns hd with hid
      · exact hdims r hr (Or.inr hid) d hd
      · exact hdims r hr (Or.inl hns) d hd
  · exact hs.of_keeps hkeeps

/-- What `delete_memory` does to the rows: nothing, or it deletes one when the gate allows. -/
theorem deleteMemory_spec (app : App) (t : Draw app.chrono) (header : Option String) (id : String) (db : Db) :
    (MemoryApi.deleteMemory app t header id db).1.memories = db.memories ∨
    ∃ target agentId, resolveRow db id = .ok target ∧ resolveHttpAgentId header t.requestId = .ok agentId ∧
      db.enforceGovernance app.mode .delete target.ns agentId (some target.id) (Db.ownerOf target.toMemory)
        (.obj [("id", .str target.id), ("title", .str target.title)]) (t.newId 0) t.now.text = .ok (db, .allow) ∧
      (MemoryApi.deleteMemory app t header id db).1 = (db.delete target.id).1 := by
  unfold MemoryApi.deleteMemory
  cases validateId id with
  | error err => exact Or.inl rfl
  | ok a =>
    simp only
    cases hrow : resolveRow db id with
    | error refusal => exact Or.inl rfl
    | ok target =>
      simp only
      cases hagent : resolveHttpAgentId header t.requestId with
      | error err => exact Or.inl rfl
      | ok agentId =>
        simp only
        cases hgate : db.enforceGovernance app.mode .delete target.ns agentId (some target.id)
          (Db.ownerOf target.toMemory) (.obj [("id", .str target.id), ("title", .str target.title)]) (t.newId 0)
          t.now.text with
        | error err => exact Or.inl rfl
        | ok res =>
          obtain ⟨db', d⟩ := res
          rcases Db.enforceGovernance_cases hgate with ⟨rfl, hd⟩ | ⟨rfl, hqueue⟩
          · cases d with
            | pending id => exact absurd rfl (hd id)
            | deny reason => exact Or.inl rfl
            | allow =>
              refine Or.inr ⟨target, agentId, rfl, rfl, hgate, ?_⟩
              simp only
              cases hdel : db'.delete target.id with
              | mk db₁ found => cases found <;> rfl
          · obtain ⟨-, row, table, -, -, -, -, -, -, rfl⟩ := Db.queuePendingAction_eq_ok hqueue
            exact Or.inl rfl

theorem keeps_deleteMemory
    (hok : StepOk h e s (.deleteMemory t header id)) : Keeps [] s.db (MemoryApi.deleteMemory app t header id s.db).1 := by
  rcases deleteMemory_spec app t header id s.db with hsame | ⟨target, agentId, hrow, hagent, hgate, heq⟩
  · exact Keeps.of_memories hsame
  · rw [heq]
    refine keeps_delete fun r hr => ?_
    cases (get_resolveRow hrow).symm.trans hr
    exact ⟨hok target agentId hrow hagent hgate, List.not_mem_nil⟩

theorem keeps_foldl_remove {f : Db → String → Db} (hf : ∀ d id i, (f d id).get i = if i = id then none else d.get i)
    {ids : List String} (h : ∀ id ∈ ids, Spares [] db id) : Keeps [] db (ids.foldl f db) := by
  refine keeps_of_removed fun i => ?_
  rw [Db.get_foldl_remove hf]
  split_ifs with hi
  · exact Or.inr ⟨rfl, h i hi⟩
  · exact Or.inl rfl

theorem keeps_consolidateMemories {body : ConsolidateBody}
    (hok : StepOk h e s (.consolidateMemories t header body)) :
    Keeps [] s.db (MemoryApi.consolidateMemories app t header body s.db).1 := by
  rcases consolidateMemories_cases app t header body s.db with ⟨hsame, -⟩ | ⟨agentId, id, hvalid, hagent, hc⟩
  · rw [hsame]
    exact Keeps.of_memories rfl
  · obtain ⟨c, table, ht, heq⟩ := Db.consolidate_cases hc
    have hnew : Keeps [] s.db { s.db with memories := table } := keeps_insertNew ht rfl
    rw [heq]
    refine hnew.trans (keeps_foldl_remove (fun d id i => Db.get_delete d id i) fun id hid => ?_)
    rw [spares_nil_iff, hnew.embedded, ← spares_nil_iff]
    exact hok agentId hvalid hagent ⟨_, hc⟩ id hid

theorem keeps_archiveByIds {ids : List String} {reason : Option String}
    (hok : StepOk h e s (.archiveByIds t ids reason)) :
    Keeps [] s.db (MemoryApi.archiveByIds app t ids reason s.db).1 := by
  rcases archiveByIds_fst app t ids reason s.db with ⟨-, hsame⟩ | ⟨haccepts, heq⟩
  · rw [hsame]
    exact Keeps.of_memories rfl
  · rw [heq]
    exact keeps_foldl_remove (fun d id i => Gate.get_archiveMemory d id _ _ i) (hok haccepts)

theorem keeps_restoreArchive {now : String} (hok : Accepts (validateId id) → RestoresBare s.db id) :
    Keeps [] s.db (restoreArchive id now s.db) := by
  unfold restoreArchive
  cases hvalid : validateId id with
  | error err => exact Keeps.of_memories rfl
  | ok u =>
    cases hr : s.db.restoreArchived id now with
    | error err => exact Keeps.of_memories rfl
    | ok res => exact keeps_restoreArchived (hok hvalid) hr

theorem keeps_forgetMemories {body : ForgetQuery} (hok : StepOk h e s (.forgetMemories t body)) :
    Keeps [] s.db (MemoryApi.forgetMemories app t body s.db).1 := by
  unfold MemoryApi.forgetMemories
  cases hf : s.db.forget app.fts body.ns body.pattern body.tier app.archiveOnGc t.now.text with
  | error err => exact Keeps.of_memories rfl
  | ok res =>
    obtain ⟨db', n⟩ := res
    have hfilter : ¬(body.pattern.isNone ∧ body.ns.isNone ∧ body.tier.isNone) := by
      intro hnone
      rw [Db.forget, if_pos hnone] at hf
      cases hf
    rw [Db.forget_eq_ok hf]
    have hmem : (if app.archiveOnGc then s.db.archiveWhere (Db.forgetSelects app.fts body.ns body.pattern body.tier)
        (forgetRow t.now.text) else s.db).memories = s.db.memories := by split_ifs <;> rfl
    refine (Keeps.of_memories hmem).trans (keeps_deleteMemories fun r hr hselected => ⟨?_, List.not_mem_nil⟩)
    rw [hmem] at hr
    exact hok hfilter r hr (by simpa using hselected)

theorem keeps_gc {archive : Bool} {now : String}
    (hok : ∀ r ∈ db.memories, Db.isExpired now r → r.embedding = none) : Keeps [] db (db.gc archive now).1 := by
  have hmem : (if archive then db.archiveWhere (Db.isExpired now) (archiveRow now "ttl_expired") else db).memories =
      db.memories := by split_ifs <;> rfl
  refine (Keeps.of_memories hmem).trans ((keeps_deleteMemories fun r hr hexpired => ⟨?_, List.not_mem_nil⟩).trans
    (Keeps.of_memories rfl))
  rw [hmem] at hr
  exact hok r hr (by simpa using hexpired)

theorem tracks_step (happ : app.embedder = some e) (hhost : h.embedder = some e)
    (hembed : ∀ text, (e.embed text).isSome) (request : Request app) (hok : StepOk h e s request) (hs : Tracks s) :
    Tracks (step h s request) := by
  cases request with
  | createMemory t header body => exact tracks_createMemory happ hembed hs hok
  | updateMemory t id body => exact tracks_updateMemory happ hembed hs hok
  | deleteMemory t header id => exact hs.of_keeps (keeps_deleteMemory hok)
  | consolidateMemories t header body => exact hs.of_keeps (keeps_consolidateMemories hok)
  | archiveByIds t ids reason => exact hs.of_keeps (keeps_archiveByIds hok)
  | restoreArchive id now => exact hs.of_keeps (keeps_restoreArchive hok)
  | forgetMemories t body => exact hs.of_keeps (keeps_forgetMemories hok)
  | runGc now => exact hs.of_keeps (keeps_gc hok)
  | syncPush t header body => exact tracks_syncPush hhost hembed hs hok

/-- With an embedder that always succeeds, in every run of requests that each take away no row with an embedding and bring
back none, whose vectors the table takes and the index has room for: the ids of the index are, in every state, those of the
live rows with an embedding. -/
theorem tracks_of_meets (happ : app.embedder = some e) (hhost : h.embedder = some e)
    (hembed : ∀ text, (e.embed text).isSome) {requests : List (Request app)} (hs : Tracks s)
    (hmeets : Meets (step h) (StepOk h e) s requests) : ∀ s' ∈ states (step h) s requests, Tracks s' :=
  forall_states_of_meets (fun _ request hs hok => tracks_step happ hhost hembed request hok hs) hs hmeets

end Requests

/-! ## A small daemon -/

def model : Embedder := ⟨1, fun _ => some [0, 0, 128, 63]⟩

def node : App := { MemoryApi.node with embedder := some model }

def host : Host := { plainHost (hours.map Prod.snd) (fun _ => false) with embedder := some model }

def store : Request node :=
  .createMemory (draw nine ["m-1", "p-1"]) none (request "notes" "Plan" "draft" "alice")

def edit : Request node := .updateMemory (draw ten ["p-3"]) "m-1" { content := some "final" }

/-- A push of another memory, with a deletion of one that is not there. -/
def incoming : Request node :=
  .syncPush (tickAt "2026-03-02T10:00:00+00:00") (some "relay") {
    senderAgentId := "relay"
    memories := [note "m-2" "Agenda" "2026-03-02T09:00:00+00:00"]
    deletions := ["m-9"] }

def remove : Request node := .deleteMemory (draw ten ["p-2"]) (some "alice") "m-1"

theorem tracks_empty : Tracks .empty := fun i =>
  iff_of_false (fun ⟨vec, hvec⟩ => absurd hvec List.not_mem_nil) fun ⟨r, hr, _⟩ => by cases hr

/-- A memory is stored and updated, and another one comes in. -/
theorem tracks_of_meets_store : Meets (step host) (StepOk host model) .empty [store, edit, incoming] ∧
    (∀ s ∈ states (step host) .empty [store, edit, incoming], Tracks s) ∧
    ([store, edit, incoming].foldl (step host) .empty).index.allEntries.map Prod.fst = ["m-1", "m-2"] := by
  have hmeets : Meets (step host) (StepOk host model) .empty [store, edit, incoming] := by
    refine ⟨fun mem _ _ => ⟨Or.inr (Or.inr fun r hr => absurd hr List.not_mem_nil), ?_⟩,
      fun _ target htarget _ => ?_, fun _ _ => ⟨⟨trivial, fun _ r hr => ?_, trivial⟩, by decide⟩,
      trivial⟩
    · exact fun entry hentry => absurd hentry List.not_mem_nil
    · have hstored : (resolveRow (step host .empty store).db "m-1").map (fun r => (r.id, r.embedding.isSome)) =
          .ok ("m-1", true) := by decide
      rw [htarget] at hstored
      obtain ⟨hid, hembedded⟩ := Prod.mk.inj (Except.ok.inj hstored)
      rw [hid]
      exact ⟨Or.inl hembedded, room_of_lt (by decide)⟩
    · have hnone : (onEntry host (tickAt "2026-03-02T10:00:00+00:00") ([store, edit].foldl (step host) .empty).db
          (.memory (note "m-2" "Agenda" "2026-03-02T09:00:00+00:00"))).get "m-9" = none := by decide
      cases hnone.symm.trans hr
  exact ⟨hmeets, tracks_of_meets rfl rfl (fun _ => rfl) tracks_empty hmeets, by decide⟩

/-- A memory is stored and deleted: its id stays in the index. -/
theorem deleted_stays_indexed : Tracks .empty ∧ ¬∀ s ∈ states (step host) .empty [store, remove], Tracks s := by
  refine ⟨tracks_empty, fun hall => ?_⟩
  have hlast := hall ([store, remove].foldl (step host) .empty) foldl_mem_states
  obtain ⟨r, hr, -⟩ := (hlast "m-1").mp ⟨[0, 0, 128, 63], by decide⟩
  have hgone : ([store, remove].foldl (step host) .empty).db.get "m-1" = none := by decide
  rw [hgone] at hr
  cases hr

end Tracking

end AiMemory
