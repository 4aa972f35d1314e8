import AiMemory.Http.Gate
import AiMemory.Identity.Provenance

/-!
# Deletions between two nodes

Two nodes send each other what `create_memory`, `bulk_create` and `update_memory` stored. A memory that arrives is merged into
the row of its title and namespace, which keeps its id; a deletion or an archival travels by id. A title and namespace that is
stored first on one node, and sent under the id of its row, has one id on both for good (`under_states`), so a removal reaches
the other node (`removal_reaches`). Two nodes that came to a title on their own do not agree on it (`copies_of_two_survive`).
-/

namespace AiMemory

open Relational Machine MemoryApi Validate

namespace Mesh

inductive Node where
  | left
  | right
  deriving DecidableEq

def Node.other : Node → Node
  | left => right
  | right => left

/-- The databases of two nodes, and the memories they sent, each with its receiver. A message may arrive late, more than once or
never. -/
structure Pair where
  db : Node → Db
  stores : List (Node × Memory) := []

def Pair.empty : Pair := { db := fun _ => Db.empty }

/-! ## Messages -/

/-- The body of `broadcast_store_quorum`. -/
def storeBody (sender : String) (mem : Memory) : SyncPushBody := { senderAgentId := sender, memories := [mem] }

/-- The body of `broadcast_delete_quorum`. -/
def deletionBody (sender id : String) : SyncPushBody := { senderAgentId := sender, memories := [], deletions := [id] }

/-- The body of `broadcast_archive_quorum`. -/
def archiveBody (sender id : String) : SyncPushBody := { senderAgentId := sender, memories := [], archives := [id] }

/-- What `create_memory` sends: the memory under the id of its row. -/
def createdMemories : Except Refusal (Outcome Memory) → List Memory
  | .ok (.done mem) => [mem]
  | _ => []

/-- What `bulk_create` sends: each created memory, under the id that was drawn for it. -/
def bulkMemories : Except Refusal (List Memory × List String) → List Memory
  | .ok (created, _) => created
  | .error _ => []

/-- What `update_memory` sends: the row afterwards. -/
def updatedMemories : Except Refusal (Option Memory) → List Memory
  | .ok (some mem) => [mem]
  | _ => []

/-- A node's database after a request, and what it sends to the other. -/
def Pair.write (s : Pair) (n : Node) (db : Db) (sent : List Memory) : Pair where
  db := Function.update s.db n db
  stores := s.stores ++ sent.map fun mem => (n.other, mem)

/-- The steps: a request at a node, or the arrival of a memory that was sent. -/
inductive Op (app : Node → App) where
  | createMemory (n : Node) (t : Draw (app n).chrono) (header : Option String) (body : CreateMemory)
  | bulkCreate (n : Node) (t : Draw (app n).chrono) (bodies : List CreateMemory)
  | updateMemory (n : Node) (t : Draw (app n).chrono) (id : String) (body : UpdateMemory)
  | deliver (i : ℕ) (t : Tick) (header : Option String) (sender : String)

section Run

variable {app : Node → App} (h : Node → Host)

def step (s : Pair) : Op app → Pair
  | .createMemory n t header body =>
    let (db, reply) := MemoryApi.createMemory (app n) t header body (s.db n)
    s.write n db (createdMemories reply)
  | .bulkCreate n t bodies =>
    let (db, reply) := MemoryApi.bulkCreate (app n) t bodies (s.db n)
    s.write n db (bulkMemories reply)
  | .updateMemory n t id body =>
    let (db, reply) := MemoryApi.updateMemory (app n) t id body (s.db n)
    s.write n db (updatedMemories reply)
  | .deliver i t header sender =>
    match s.stores[i]? with
    | some (n, mem) => s.write n (syncPush (h n) t header (storeBody sender mem) (s.db n)).1 []
    | none => s

end Run

/-! ## Removals -/

/-- The two requests that remove a row of known id. -/
inductive Removal (app : App) where
  | deleteMemory (t : Draw app.chrono) (header : Option String)
  | archiveByIds (t : Draw app.chrono) (ids : List String) (reason : Option String)

section Removals

variable {app : App} {db : Db} {id : String} {k : String × String}

/-- The message that follows when the request removed the row `id`. -/
def Removal.message (sender id : String) (db : Db) : Removal app → Option SyncPushBody
  | .deleteMemory t header =>
    match (MemoryApi.deleteMemory app t header id db).2 with
    | .ok (.done removed) => some (deletionBody sender removed)
    | _ => none
  | .archiveByIds t ids reason =>
    match (MemoryApi.archiveByIds app t ids reason db).2 with
    | .ok (archived, _) => if id ∈ archived then some (archiveBody sender id) else none
    | .error _ => none

theorem deleteMemory_done {t : Draw app.chrono} {header : Option String} {removed : String}
    (h : (MemoryApi.deleteMemory app t header id db).2 = .ok (.done removed)) :
    Accepts (validateId id) ∧ ∃ target, resolveRow db id = .ok target ∧ removed = target.id := by
  unfold MemoryApi.deleteMemory at h
  cases hid : validateId id with
  | error e => rw [hid] at h; cases h
  | ok u =>
    rw [hid] at h
    simp only at h
    refine ⟨rfl, ?_⟩
    cases hrow : resolveRow db id with
    | error r => rw [hrow] at h; cases h
    | ok target =>
      rw [hrow] at h
      simp only at h
      refine ⟨target, rfl, ?_⟩
      cases hagent : resolveHttpAgentId header t.requestId with
      | error e => rw [hagent] at h; cases h
      | ok agentId =>
        rw [hagent] at h
        simp only at h
        split at h
        · cases h
        · cases h
        · cases h
        · split at h
          · cases h
            rfl
          · cases h

theorem mem_of_archived {reason now : String} {ids : List String} {s : Db × List String × List String}
    (h : id ∈ (ids.foldl (archiveItem reason now) s).2.1) : id ∈ s.2.1 ∨ id ∈ ids := by
  induction ids generalizing s with
  | nil => exact Or.inl h
  | cons x ids ih =>
    rcases ih h with hbefore | hrest
    · unfold archiveItem at hbefore
      split at hbefore
      · rcases List.mem_append.mp hbefore with hold | hnew
        · exact Or.inl hold
        · exact Or.inr (List.mem_singleton.mp hnew ▸ List.mem_cons_self)
      · exact Or.inl hbefore
    · exact Or.inr (List.mem_cons_of_mem x hrest)

theorem archiveByIds_archived {t : Draw app.chrono} {ids archived missing : List String} {reason : Option String}
    (h : (MemoryApi.archiveByIds app t ids reason db).2 = .ok (archived, missing)) (hid : id ∈ archived) :
    Accepts (validateId id) := by
  unfold MemoryApi.archiveByIds at h
  split_ifs at h
  cases hcheck : checkIds ids with
  | error r => rw [hcheck] at h; cases h
  | ok u =>
    rw [hcheck] at h
    cases h
    rcases mem_of_archived hid with hnone | hasked
    · cases hnone
    · exact checkIds_eq_ok.mp hcheck id hasked

theorem message_eq_some {removal : Removal app} {sender : String} {r : MemoryRow} {b : SyncPushBody}
    (hr : db.get r.id = some r) (h : removal.message sender r.id db = some b) :
    Accepts (validateId r.id) ∧ (b = deletionBody sender r.id ∨ b = archiveBody sender r.id) := by
  unfold Removal.message at h
  cases removal with
  | deleteMemory t header =>
    simp only at h
    split at h
    · rename_i hdone
      obtain ⟨hid, target, hrow, rfl⟩ := deleteMemory_done hdone
      unfold resolveRow Db.resolveId at hrow
      rw [hr] at hrow
      cases hrow
      cases h
      exact ⟨hid, Or.inl rfl⟩
    · cases h
  | archiveByIds t ids reason =>
    simp only at h
    split at h
    · rename_i harchived
      split_ifs at h with hid
      cases h
      exact ⟨archiveByIds_archived harchived hid, Or.inr rfl⟩
    · cases h

/-! ## Arrivals -/

def rowAt (db : Db) (k : String × String) : Option String := (db.getKey k).map fun r => r.id

theorem mem_rowAt {j : String} : j ∈ rowAt db k ↔ ∃ r ∈ db.memories, r.key = k ∧ r.id = j := by
  unfold rowAt
  simp only [Option.mem_def, Option.map_eq_some_iff, Db.getKey_eq_some, and_assoc]

theorem rowAt_eq_none : rowAt db k = none ↔ db.getKey k = none := Option.map_eq_none_iff

theorem rowAt_of_live (h : db'.live = db.live) (k : String × String) : rowAt db' k = rowAt db k := by
  have hid : ∀ d : Db, rowAt d k = ((d.getKey k).map fun r => r.toMemory).map fun m => m.id := fun d => by
    rw [rowAt, Option.map_map]
    rfl
  rw [hid, hid, Db.map_getKey, Db.map_getKey, h]

theorem rowAt_deleteMemories (db : Db) (id : String) (k : String × String) :
    rowAt (db.deleteMemories fun r => r.id ≠ id) k = (rowAt db k).filter (· ≠ id) := by
  rw [rowAt, rowAt, Db.getKey_deleteMemories, Option.filter_map]
  rfl

theorem rowAt_archiveMemory (db : Db) (id : String) (reason : Option String) (now : String) (k : String × String) :
    rowAt (db.archiveMemory id reason now).1 k = (rowAt db k).filter (· ≠ id) := by
  unfold Db.archiveMemory
  split_ifs with hnone
  · cases hj : rowAt db k with
    | none => rfl
    | some j =>
      have hne : j ≠ id := by
        obtain ⟨r, hr, -, rfl⟩ := mem_rowAt.mp hj
        rintro rfl
        rw [Db.get_of_mem hr] at hnone
        cases hnone
      rw [Option.filter_some, if_pos (decide_eq_true hne)]
  · exact rowAt_deleteMemories _ id k

theorem rowAt_removed {h : Host} {t : Tick} {header : Option String} {sender : String} {b : SyncPushBody}
    (hid : Accepts (validateId id)) (hb : b = deletionBody sender id ∨ b = archiveBody sender id)
    (hacc : b.Accepted t header) (k : String × String) :
    rowAt (syncPush h t header b db).1 k = (rowAt db k).filter (· ≠ id) := by
  obtain ⟨-, agent, hdb⟩ | ⟨hnot, -⟩ := syncPush_accepted h t header b db
  · have hdry : b.dryRun = false := by rcases hb with rfl | rfl <;> rfl
    rw [hdb, rowAt_of_live (Push.body_live ..), Provenance.records_db hdry]
    rcases hb with rfl | rfl
    · show rowAt (Push.onDeletion db id) k = _
      rw [Push.onDeletion, if_pos hid]
      exact rowAt_deleteMemories db id k
    · show rowAt (Push.onArchive t db id) k = _
      rw [Push.onArchive, if_pos hid]
      exact rowAt_archiveMemory db id _ _ k
  · exact absurd hacc hnot

end Removals

/-! ## One id for a title and namespace -/

/-- Rows and messages of the title and namespace have the id `i`. -/
structure Under (k : String × String) (i : String) (s : Pair) : Prop where
  rows : ∀ n, ∀ j ∈ rowAt (s.db n) k, j = i
  stores : ∀ p ∈ s.stores, p.2.key = k → p.2.id = i

/-- No node has the title and namespace, and none has sent it. -/
def Unheard (k : String × String) (s : Pair) : Prop := (∀ n, (s.db n).getKey k = none) ∧ ∀ p ∈ s.stores, p.2.key ≠ k

/-- A request stores the title and namespace where its node has them, or before any node has them; a batch stores them
before any node has them, under one id. -/
def Op.FirstStored {app : Node → App} (k : String × String) (s : Pair) : Op app → Prop
  | .createMemory n t header body =>
    ∀ mem, (app n).prepare t header body (s.db n) = .ok mem → mem.key = k → (s.db n).getKey k ≠ none ∨ Unheard k s
  | .bulkCreate n t bodies =>
    ∀ mem ∈ (app n).bulkMemories t bodies, mem.key = k →
      Unheard k s ∧ ∀ mem' ∈ (app n).bulkMemories t bodies, mem'.key = k → mem'.id = mem.id
  | .updateMemory n _ id body =>
    ∀ target, resolveRow (s.db n) id = .ok target → (body.title.getD target.title, body.ns.getD target.ns) = k →
      target.key = k ∨ Unheard k s
  | .deliver .. => True

section Ids

variable {db db' : Db} {mem : Memory} {k : String × String} {i id : String} {s : Pair}

theorem rowAt_insertOnConflict {merge : MemoryRow → MemoryRow} {hid : ∀ r, (merge r).id = r.id}
    {hkey : ∀ r, (merge r).key = r.key} (h : db.insertOnConflict mem merge hid hkey = .ok (db', id)) (k : String × String) :
    rowAt db' k = if mem.key = k then some id else rowAt db k := by
  split_ifs with hk
  · subst hk
    rw [rowAt, Db.getKey_insertOnConflict h]
    obtain ⟨stored, hs, rfl, -⟩ | ⟨hnone, -, rfl, -⟩ := Db.insertOnConflict_cases h
    · rw [hs]
      exact congrArg some (hid stored)
    · rw [hnone]
      rfl
  · rw [rowAt, Db.getKey_insertOnConflict_of_ne h (Ne.symm hk)]
    rfl

theorem id_insertOnConflict {merge : MemoryRow → MemoryRow} {hid : ∀ r, (merge r).id = r.id}
    {hkey : ∀ r, (merge r).key = r.key} (h : db.insertOnConflict mem merge hid hkey = .ok (db', id)) :
    id ∈ rowAt db mem.key ∨ db.getKey mem.key = none ∧ id = mem.id := by
  obtain ⟨stored, hs, rfl, -⟩ | ⟨hnone, -, rfl, -⟩ := Db.insertOnConflict_cases h
  · exact .inl (by rw [rowAt, hs]; rfl)
  · exact .inr ⟨hnone, rfl⟩

theorem rowAt_refresh (app : App) (db : Db) (id text : String) (k : String × String) :
    rowAt (app.refresh db id text) k = rowAt db k := by
  rcases refresh_eq app db id text with h | ⟨blob, dim, h⟩
  · rw [h]
  · rw [h]
    exact rowAt_of_live (Db.live_writeEmbedding db id blob dim) k

theorem Unheard.under (h : Unheard k s) (i : String) : Under k i s where
  rows n j hj := by
    rw [rowAt, h.1 n] at hj
    cases hj
  stores p hp hk := absurd hk (h.2 p hp)

theorem Under.write {n : Node} {sent : List Memory} (h : Under k i s) (hrow : ∀ j ∈ rowAt db k, j = i)
    (hsent : ∀ m ∈ sent, m.key = k → m.id = i) : Under k i (s.write n db sent) where
  rows n' j hj := by
    by_cases hn : n' = n
    · subst hn
      have hdb : (s.write n' db sent).db n' = db := Function.update_self ..
      exact hrow j (hdb ▸ hj)
    · have hdb : (s.write n db sent).db n' = s.db n' := Function.update_of_ne hn ..
      exact h.rows n' j (hdb ▸ hj)
  stores p hp hk := by
    rcases List.mem_append.mp hp with hp | hp
    · exact h.stores p hp hk
    · obtain ⟨m, hm, rfl⟩ := List.mem_map.mp hp
      exact hsent m hm hk

end Ids

section Steps

variable {app : Node → App} {h : Node → Host} {s : Pair} {k : String × String} {i : String} {n : Node}

variable {t : Draw (app n).chrono}

theorem under_createMemory {header : Option String} {body : CreateMemory} (hs : Under k i s)
    (hop : (Op.createMemory n t header body).FirstStored k s) : ∃ j, Under k j (step h s (.createMemory n t header body)) := by
  show ∃ j, Under k j (s.write n (createMemory (app n) t header body (s.db n)).1
    (createdMemories (createMemory (app n) t header body (s.db n)).2))
  obtain ⟨hdb, r, hr⟩ | ⟨mem, -, hr, hqueue⟩ | ⟨mem, db₁, id, hprep, -, hins, hres⟩ :=
    createMemory_cases (app n) t header body (s.db n)
  · rw [hdb, hr]
    exact ⟨i, hs.write (hs.rows n) (List.forall_mem_nil _)⟩
  · obtain ⟨-, row, table, -, -, -, -, -, -, hdb⟩ := Db.queuePendingAction_eq_ok hqueue
    rw [hdb, hr]
    exact ⟨i, hs.write (hs.rows n) (List.forall_mem_nil _)⟩
  · rw [hres]
    have hrow := rowAt_insertOnConflict hins k
    by_cases hk : mem.key = k
    · rw [if_pos hk] at hrow
      obtain hheld | ⟨hnone, -⟩ := id_insertOnConflict hins
      · refine ⟨i, hs.write (fun j hj => ?_) fun m hm _ => ?_⟩
        · rw [rowAt_refresh, hrow] at hj
          cases hj
          exact hs.rows n id (hk ▸ hheld)
        · obtain rfl := List.mem_singleton.mp hm
          exact hs.rows n id (hk ▸ hheld)
      · have hunheard := (hop mem hprep hk).resolve_left (not_not.mpr (hk ▸ hnone))
        refine ⟨id, (hunheard.under id).write (fun j hj => ?_) fun m hm _ => ?_⟩
        · rw [rowAt_refresh, hrow] at hj
          cases hj
          rfl
        · obtain rfl := List.mem_singleton.mp hm
          rfl
    · rw [if_neg hk] at hrow
      refine ⟨i, hs.write (fun j hj => hs.rows n j ?_) fun m hm hm' => ?_⟩
      · rwa [rowAt_refresh, hrow] at hj
      · obtain rfl := List.mem_singleton.mp hm
        exact absurd hm' hk

variable {db : Db}

theorem rowAt_insertAll {mems : List Memory} {j : String} (hj : j ∈ rowAt (db.insertAll mems) k) :
    j ∈ rowAt db k ∨ ∃ mem ∈ mems, mem.key = k ∧ j = mem.id := by
  induction mems generalizing db with
  | nil => exact .inl hj
  | cons m mems ih =>
    rcases @ih (db.insertOrSkip m) hj with hrow | ⟨mem, hmem, hk, hid⟩
    · rcases Db.insertOrSkip_cases db m with ⟨id, hi⟩ | ⟨hskip, -, -⟩
      · rw [rowAt_insertOnConflict hi] at hrow
        split_ifs at hrow with hk
        · cases hrow
          rcases id_insertOnConflict hi with hheld | ⟨-, hid⟩
          · exact .inl (hk ▸ hheld)
          · exact .inr ⟨m, List.mem_cons_self, hk, hid⟩
        · exact .inl hrow
      · rw [hskip] at hrow
        exact .inl hrow
    · exact .inr ⟨mem, List.mem_cons_of_mem m hmem, hk, hid⟩

theorem mem_bulkMemories {bodies : List CreateMemory} :
    ∀ m ∈ bulkMemories (bulkCreate (app n) t bodies db).2, m ∈ (app n).bulkMemories t bodies := by
  unfold bulkCreate App.bulkMemories
  split_ifs
  · exact List.forall_mem_nil _
  · refine foldl_induct (P := fun s : Db × List Memory × List String => ∀ m ∈ s.2.1, m ∈ _) (fun s item hitem hs => ?_)
      (List.forall_mem_nil _)
    obtain ⟨body, j⟩ := item
    simp only [App.bulkItem]
    cases hv : validateCreate (app n).chrono t.now.instant body with
    | error e => exact hs
    | ok u =>
      have hmade : (app n).memory t.now (t.newId j) body.title body.metadata body ∈ bodies.zipIdx.filterMap fun item =>
          if Accepts (validateCreate (app n).chrono t.now.instant item.1) then
            some ((app n).memory t.now (t.newId item.2) item.1.title item.1.metadata item.1)
          else none := List.mem_filterMap.mpr ⟨(body, j), hitem, if_pos hv⟩
      simp only
      split
      · intro m hm
        rcases List.mem_append.mp hm with hm | hm
        · exact hs m hm
        · exact List.mem_singleton.mp hm ▸ hmade
      · exact hs

theorem under_bulkCreate {bodies : List CreateMemory} (hs : Under k i s)
    (hop : (Op.bulkCreate n t bodies).FirstStored k s) : ∃ j, Under k j (step h s (.bulkCreate n t bodies)) := by
  show ∃ j, Under k j (s.write n (bulkCreate (app n) t bodies (s.db n)).1
    (bulkMemories (bulkCreate (app n) t bodies (s.db n)).2))
  rw [bulkCreate_fst]
  by_cases hnone : ∃ mem ∈ (app n).bulkMemories t bodies, mem.key = k
  · obtain ⟨mem, hmem, hk⟩ := hnone
    obtain ⟨hunheard, hone⟩ := hop mem hmem hk
    refine ⟨mem.id, (hunheard.under mem.id).write (fun j hj => ?_) fun m hm hm' => hone m (mem_bulkMemories m hm) hm'⟩
    obtain hold | ⟨m, hm, hm', rfl⟩ := rowAt_insertAll hj
    · rw [rowAt, hunheard.1 n] at hold
      cases hold
    · exact hone m hm hm'
  · refine ⟨i, hs.write (fun j hj => ?_) fun m hm hm' => absurd ⟨m, mem_bulkMemories m hm, hm'⟩ hnone⟩
    obtain hold | ⟨m, hm, hm', -⟩ := rowAt_insertAll hj
    · exact hs.rows n j hold
    · exact absurd ⟨m, hm, hm'⟩ hnone

variable {u : UpdateMemory}

/-- A row that an update leaves has the title and namespace it had, or is the target under those of the request. -/
theorem rowAt_updateMemory {id : String} {j : String}
    (hj : j ∈ rowAt (updateMemory (app n) t id u db).1 k) :
    j ∈ rowAt db k ∨ ∃ target, resolveRow db id = .ok target ∧
      (u.title.getD target.title, u.ns.getD target.ns) = k ∧ j = target.id := by
  obtain ⟨he, -⟩ | ⟨target, db₁, changed, -, -, hrow, hu, hdb⟩ := updateMemory_cases (app n) t id u db
  · rw [he] at hj
    exact .inl hj
  · have hj₁ : j ∈ rowAt db₁ k := by
      rcases hdb with he | ⟨text, he⟩
      · rwa [he] at hj
      · rwa [he, rowAt_refresh] at hj
    obtain ⟨r, hr, hk, rfl⟩ := mem_rowAt.mp hj₁
    rcases Db.update_cases hu with ⟨-, hc, -⟩ | ⟨-, -, -, -, hrows⟩
    · cases hc
    · obtain ⟨old, hold, rfl⟩ := List.mem_map.mp (hrows ▸ Indexed.mem_def.mp hr)
      split_ifs at hk ⊢ with hid
      · obtain rfl : old = target := by
          have hget := Db.get_of_mem hold
          rw [hid, get_resolveRow hrow] at hget
          exact (Option.some_inj.mp hget).symm
        exact .inr ⟨old, hrow, hk, rfl⟩
      · exact .inl (mem_rowAt.mpr ⟨old, hold, hk, rfl⟩)

theorem mem_updatedMemories {id : String} :
    ∀ m ∈ updatedMemories (updateMemory (app n) t id u db).2, ∃ target, resolveRow db id = .ok target ∧
      m.key = (u.title.getD target.title, u.ns.getD target.ns) ∧ m.id = target.id := by
  unfold updateMemory
  cases hid : validateId id with
  | error e => exact List.forall_mem_nil _
  | ok _ =>
    simp only
    cases hvalid : validateUpdate (app n).chrono.rfc3339 u with
    | error e => exact List.forall_mem_nil _
    | ok _ =>
      simp only
      cases hrow : resolveRow db id with
      | error r => exact List.forall_mem_nil _
      | ok target =>
        simp only
        split
        · exact List.forall_mem_nil _
        · rename_i db₁ changed hu
          rw [Db.get_update hu, get_resolveRow hrow, Option.map_some, if_pos rfl]
          intro m hm
          obtain rfl := List.mem_singleton.mp hm
          exact ⟨target, rfl, rfl, rfl⟩
        · split_ifs <;> exact List.forall_mem_nil _

theorem under_updateMemory {id : String} (hs : Under k i s)
    (hop : (Op.updateMemory n t id u).FirstStored k s) : ∃ j, Under k j (step h s (.updateMemory n t id u)) := by
  show ∃ j, Under k j (s.write n (updateMemory (app n) t id u (s.db n)).1
    (updatedMemories (updateMemory (app n) t id u (s.db n)).2))
  cases htarget : resolveRow (s.db n) id with
  | error r =>
    refine ⟨i, hs.write (fun j hj => ?_) fun m hm => ?_⟩
    · obtain hold | ⟨target, hrow, -⟩ := rowAt_updateMemory hj
      · exact hs.rows n j hold
      · cases htarget.symm.trans hrow
    · obtain ⟨target, hrow, -⟩ := mem_updatedMemories m hm
      cases htarget.symm.trans hrow
  | ok target =>
    have hrow : ∀ j ∈ rowAt (updateMemory (app n) t id u (s.db n)).1 k,
        j ∈ rowAt (s.db n) k ∨ (u.title.getD target.title, u.ns.getD target.ns) = k ∧ j = target.id := by
      intro j hj
      obtain hold | ⟨target', h', hkey, hid⟩ := rowAt_updateMemory hj
      · exact .inl hold
      · cases htarget.symm.trans h'
        exact .inr ⟨hkey, hid⟩
    have hsent : ∀ m ∈ updatedMemories (updateMemory (app n) t id u (s.db n)).2,
        m.key = (u.title.getD target.title, u.ns.getD target.ns) ∧ m.id = target.id := by
      intro m hm
      obtain ⟨target', h', hm⟩ := mem_updatedMemories m hm
      cases htarget.symm.trans h'
      exact hm
    by_cases hk : (u.title.getD target.title, u.ns.getD target.ns) = k
    · rcases hop target htarget hk with hheld | hunheard
      · have hid : target.id = i :=
          hs.rows n target.id (mem_rowAt.mpr ⟨target, (Db.get_eq_some.mp (get_resolveRow htarget)).1, hheld, rfl⟩)
        refine ⟨i, hs.write (fun j hj => ?_) fun m hm _ => (hsent m hm).2.trans hid⟩
        rcases hrow j hj with hold | ⟨-, rfl⟩
        · exact hs.rows n j hold
        · exact hid
      · refine ⟨target.id, (hunheard.under target.id).write (fun j hj => ?_) fun m hm _ => (hsent m hm).2⟩
        rcases hrow j hj with hold | ⟨-, hid⟩
        · exact (hunheard.under target.id).rows n j hold
        · exact hid
    · refine ⟨i, hs.write (fun j hj => ?_) fun m hm hm' => absurd ((hsent m hm).1.symm.trans hm') hk⟩
      rcases hrow j hj with hold | ⟨hk', -⟩
      · exact hs.rows n j hold
      · exact absurd hk' hk

theorem rowAt_storeBody {h : Host} {t : Tick} {header : Option String} {sender : String} {mem : Memory} {j : String}
    (hj : j ∈ rowAt (syncPush h t header (storeBody sender mem) db).1 k) : j ∈ rowAt db k ∨ mem.key = k ∧ j = mem.id := by
  obtain ⟨-, agent, hdb⟩ | ⟨-, hdb⟩ := syncPush_accepted h t header (storeBody sender mem) db
  · have hlive : (syncPush h t header (storeBody sender mem) db).1.live = (h.takeIn db mem).live := by
      rw [hdb, Push.body_live, Provenance.records_db (by rfl)]
      rfl
    rw [rowAt_of_live hlive] at hj
    obtain ⟨id, -, -, hi⟩ | ⟨hskip, -⟩ := takeIn_cases h db mem
    · rw [rowAt_insertOnConflict hi] at hj
      split_ifs at hj with hk
      · cases hj
        rcases id_insertOnConflict hi with hheld | ⟨-, hid⟩
        · exact .inl (hk ▸ hheld)
        · exact .inr ⟨hk, hid⟩
      · exact .inl hj
    · rw [hskip] at hj
      exact .inl hj
  · rw [hdb] at hj
    exact .inl hj

theorem Under.step (hs : Under k i s) {op : Op app} (hop : op.FirstStored k s) : ∃ j, Under k j (step h s op) := by
  cases op with
  | createMemory n t header body => exact under_createMemory hs hop
  | bulkCreate n t bodies => exact under_bulkCreate hs hop
  | updateMemory n t id u => exact under_updateMemory hs hop
  | deliver index t header sender =>
    refine ⟨i, ?_⟩
    unfold Mesh.step
    simp only
    split
    · rename_i n mem hmem
      refine hs.write (fun j hj => ?_) (List.forall_mem_nil _)
      rcases rowAt_storeBody hj with hold | ⟨hk, rfl⟩
      · exact hs.rows n j hold
      · exact hs.stores (n, mem) (List.mem_of_getElem? hmem) hk
    · exact hs

theorem under_states {s₀ : Pair} (hs₀ : Under k i s₀) {ops : List (Op app)} (hops : Meets (step h) (fun s op => op.FirstStored k s) s₀ ops) :
    ∀ s ∈ states (step h) s₀ ops, ∃ j, Under k j s := by
  have hstep (s : Pair) (op : Op app) (hs : ∃ j, Under k j s) (hop : op.FirstStored k s) : ∃ j, Under k j (step h s op) :=
    hs.elim fun _ hs => hs.step hop
  exact forall_states_of_meets hstep ⟨i, hs₀⟩ hops

end Steps

/-- A title and namespace that two nodes have from one of them: after any exchange of stores that stores it first on one node,
the removal of its row by id on either, once the message gets through, leaves the other without a row of it. -/
theorem removal_reaches (app : Node → App) (h : Node → Host) (k : String × String) (i : String) (s₀ : Pair) (hs₀ : Under k i s₀)
    (ops : List (Op app)) (hops : Meets (step h) (fun s op => op.FirstStored k s) s₀ ops) :
    ∀ s ∈ states (step h) s₀ ops, ∀ n r, (s.db n).getKey k = some r →
      ∀ (removal : Removal (app n)) sender b, removal.message sender r.id (s.db n) = some b →
      ∀ t header, b.Accepted t header → (syncPush (h n.other) t header b (s.db n.other)).1.getKey k = none := by
  intro s hs n r hr removal sender b hmessage t header hacc
  obtain ⟨i, hunder⟩ := under_states hs₀ hops s hs
  have hmem := Db.getKey_eq_some.mp hr
  obtain ⟨hid, hb⟩ := message_eq_some (Db.get_of_mem hmem.1) hmessage
  have hri : r.id = i := hunder.rows n r.id (mem_rowAt.mpr ⟨r, hmem.1, hmem.2, rfl⟩)
  rw [← rowAt_eq_none, rowAt_removed hid hb hacc, hri, Option.filter_eq_none_iff]
  intro j hj
  rw [hunder.rows n.other j hj]
  simp

/-! ## Two small nodes -/

def apps (_ : Node) : App := node

def hosts (_ : Node) : Host := plainHost (hours.map Prod.snd) fun _ => false

/-- A request of the left node, and one of the right node for the same memory. -/
def atLeft : Op apps := .createMemory .left (draw nine ["m-1", "p-1"]) none (request "notes" "Plan" "draft" "alice")

def atRight : Op apps := .createMemory .right (draw nine ["m-2", "p-2"]) none (request "notes" "Plan" "draft" "alice")

def arrives (i : ℕ) : Op apps := .deliver i (tickAt "2026-03-02T10:00:00+00:00") (some "relay") "relay"

def edited : Op apps := .updateMemory .right (draw ten ["p-4"]) "m-1" { content := some "final" }

def removal : Removal (apps .left) := .deleteMemory (draw ten ["p-3"]) (some "alice")

/-- One node stored the memory, the other got it and sent it back updated. -/
def exchanged : Pair := [atLeft, arrives 0, edited, arrives 1, arrives 0].foldl (step hosts) .empty

def crossed : Pair := [atLeft, atRight, arrives 0, arrives 1].foldl (step hosts) .empty

theorem accepted_deletion : (deletionBody "relay" "m-1").Accepted (tickAt "2026-03-02T11:00:00+00:00") (some "relay") :=
  ⟨by decide, "relay", by decide⟩

theorem removal_reaches_exchanged : ∃ r, (exchanged.db .left).getKey ("Plan", "notes") = some r ∧ r.content = "final" ∧
    rowAt (exchanged.db .right) ("Plan", "notes") = some r.id ∧
    removal.message "relay" r.id (exchanged.db .left) = some (deletionBody "relay" "m-1") ∧
    (syncPush (hosts .right) (tickAt "2026-03-02T11:00:00+00:00") (some "relay") (deletionBody "relay" "m-1")
      (exchanged.db .right)).1.getKey ("Plan", "notes") = none := by
  have hleft : ((exchanged.db .left).getKey ("Plan", "notes")).map (fun r => (r.id, r.content)) = some ("m-1", "final") := by
    decide
  have hright : rowAt (exchanged.db .right) ("Plan", "notes") = some "m-1" := by decide
  obtain ⟨r, hr, hrow⟩ := Option.map_eq_some_iff.mp hleft
  obtain ⟨hid, hcontent⟩ := Prod.mk.inj hrow
  have hdone : (MemoryApi.deleteMemory (apps .left) (draw ten ["p-3"]) (some "alice") "m-1" (exchanged.db .left)).2 =
      .ok (.done "m-1") := by decide
  have hmessage : removal.message "relay" r.id (exchanged.db .left) = some (deletionBody "relay" "m-1") := by
    rw [hid]
    unfold removal Removal.message
    simp only [hdone]
  have hunheard : Unheard ("Plan", "notes") Pair.empty := ⟨fun _ => rfl, List.forall_mem_nil _⟩
  refine ⟨r, hr, hcontent, hid ▸ hright, hmessage, ?_⟩
  exact removal_reaches apps hosts ("Plan", "notes") "m-1" .empty (hunheard.under _) [atLeft, arrives 0, edited, arrives 1, arrives 0]
    ⟨fun _ _ _ => .inr hunheard, trivial, fun _ _ hk => .inl hk, trivial, trivial, trivial⟩ exchanged foldl_mem_states .left r hr removal "relay" _ hmessage _ _
    accepted_deletion

/-- The two rows of a title that both nodes came to keep their ids, and the deletion of one leaves the other. -/
theorem copies_of_two_survive : ∃ r r', crossed ∈ states (step hosts) .empty [atLeft, atRight, arrives 0, arrives 1] ∧
    (crossed.db .left).getKey ("Plan", "notes") = some r ∧ (crossed.db .right).getKey ("Plan", "notes") = some r' ∧
    r.content = r'.content ∧ removal.message "relay" r.id (crossed.db .left) = some (deletionBody "relay" r.id) ∧
    (deletionBody "relay" r.id).Accepted (tickAt "2026-03-02T11:00:00+00:00") (some "relay") ∧
    (syncPush (hosts .right) (tickAt "2026-03-02T11:00:00+00:00") (some "relay") (deletionBody "relay" r.id)
      (crossed.db .right)).1.getKey ("Plan", "notes") ≠ none := by
  have hleft : ((crossed.db .left).getKey ("Plan", "notes")).map (fun r => (r.id, r.content)) = some ("m-1", "draft") := by
    decide
  have hright : ((crossed.db .right).getKey ("Plan", "notes")).map (fun r => (r.id, r.content)) = some ("m-2", "draft") := by
    decide
  obtain ⟨r, hr, hrow⟩ := Option.map_eq_some_iff.mp hleft
  obtain ⟨r', hr', hrow'⟩ := Option.map_eq_some_iff.mp hright
  rw [Prod.mk.injEq] at hrow hrow'
  have hdone : (MemoryApi.deleteMemory (apps .left) (draw ten ["p-3"]) (some "alice") "m-1" (crossed.db .left)).2 =
      .ok (.done "m-1") := by decide
  have hsurvives : (syncPush (hosts .right) (tickAt "2026-03-02T11:00:00+00:00") (some "relay") (deletionBody "relay" "m-1")
      (crossed.db .right)).1.getKey ("Plan", "notes") ≠ none := by decide
  refine ⟨r, r', foldl_mem_states, hr, hr', hrow.2.trans hrow'.2.symm, ?_, ?_, ?_⟩
  · rw [hrow.1]
    unfold removal Removal.message
    simp only [hdone]
  · rw [hrow.1]
    exact accepted_deletion
  · rw [hrow.1]
    exact hsurvives

end Mesh

end AiMemory
