import AiMemory.Curator.Passes
import AiMemory.Http.Memories
import AiMemory.Sync.Coexist

/-!
# Provenance

`metadata.agent_id` says who wrote a memory first, and should never change. Its writers see to that in ways of their own: the
upserts with a JSON expression, `update_memory` with `preserve_agent_id`, the curator with a snapshot it read earlier, the
archive with a list of columns. `forget` archives without the metadata, so what it archives comes back from
`restore_archived` without an owner; `provenance_kept` says which steps of a run have to be looked at.
-/

namespace AiMemory

open Relational Machine Coexist MemoryApi

namespace Provenance

/-- The memory is there, live or archived. -/
def Held (i : String) (db : Db) : Prop := db.get i ≠ none ∨ db.archived.find i ≠ none

/-- The memory names the agent: its row does, and while it is archived its copy. -/
structure Names (i a : String) (db : Db) : Prop where
  live : ∀ r, db.get i = some r → Db.ownerOf r.toMemory = some a
  archived : db.get i = none → ∀ x, db.archived.find i = some x → Db.ownerOf x.toMemory = some a

/-! ## Conditions on the writers -/

/-- An upsert that merges into a row with an owner brings an object as metadata. -/
def Merges (db : Db) (mem : Memory) : Prop :=
  ∀ r, db.getKey mem.key = some r → Db.ownerOf r.toMemory ≠ none → mem.metadata.isObject

/-- An upsert that files a row under the id of an archived copy brings its owner. -/
def Refiles (db : Db) (mem : Memory) : Prop := db.getKey mem.key = none →
  ∀ x, db.archived.find mem.id = some x → Db.ownerOf x.toMemory ≠ none → Db.ownerOf mem = Db.ownerOf x.toMemory

/-- The id is neither live nor archived. -/
def Unused (db : Db) (id : String) : Prop := db.get id = none ∧ db.archived.find id = none

/-- A deletion leaves no archived copy with another owner than the row has. -/
def Deletes (db : Db) (id : String) : Prop := ∀ r x, db.get id = some r → db.archived.find id = some x →
  Db.ownerOf r.toMemory ≠ none → Db.ownerOf x.toMemory = Db.ownerOf r.toMemory

/-- An archived copy with an owner passes the check on its metadata. -/
def Restores (db : Db) (id : String) : Prop := ∀ x, db.archived.find id = some x →
  Db.ownerOf x.toMemory ≠ none → Accepts (Validate.validateMetadata x.metadata)

/-- A `forget` selects no row with an owner. -/
def Forgets (fts : Fts) (db : Db) (ns pattern : Option String) (tier : Option Tier) : Prop :=
  ∀ r ∈ db.memories, Db.forgetSelects fts ns pattern tier r → Db.ownerOf r.toMemory = none

/-- A snapshot names the owner of the row it is written over. -/
def Snapshots (db : Db) (mem : Memory) : Prop :=
  ∀ r, db.get mem.id = some r → Db.ownerOf r.toMemory ≠ none → Db.ownerOf mem = Db.ownerOf r.toMemory

/-- What an executed action needs: of a store and of a clone, that it merges; of a deletion, that it deletes. -/
structure Executes (x : Db.Execution) (db : Db) (pa : PendingAction) : Prop where
  store : pa.actionType = "store" → ∀ mem, x.memoryFromValue pa.payload = .ok mem → Merges db mem
  delete : pa.actionType = "delete" → ∀ mid, pa.memoryId = some mid → Deletes db mid
  promote : pa.actionType = "promote" → ∀ mid toNs source, pa.memoryId = some mid →
    (pa.payload.get "to_namespace").bind Json.asStr = some toNs → db.get mid = some source →
    Merges db (promotionClone source.toMemory toNs x.newId x.now)

/-- What a record of a push needs. -/
def EntryOk (h : Host) (t : Tick) (db : Db) : Push.Entry → Prop
  | .memory mem => mem.Valid h.rfc3339 → h.insertFault mem = false → Refiles db mem
  | .deletion id => Deletes db id
  | .restore id => Restores db id
  | .decision dec => dec.approved = true → ∀ pa, db.getPendingAction dec.id = some pa →
      Executes ⟨h.memoryFromValue, t.newId dec.id, t.now⟩ db pa
  | _ => True

/-! ## What one write keeps -/

section Writes

variable {db db' : Db} {i a : String} {mem : Memory}

theorem Names.of_live (h : Names i a db) (hlive : db'.live = db.live) (harch : db'.archived = db.archived) : Names i a db' where
  live r' hr' := by
    have hmap := Db.map_get db' i
    rw [hlive, ← Db.map_get, hr'] at hmap
    obtain ⟨r, hr, heq⟩ := Option.map_eq_some_iff.mp hmap.symm
    have hsame : r.toMemory = r'.toMemory := heq
    exact hsame ▸ h.live r hr
  archived hnone x hx := h.archived ((Db.get_eq_none_iff_of_live hlive).mp hnone) x (harch ▸ hx)

/-- A write in place: the rows stay under their ids, and the row of the memory keeps its owner. -/
theorem Names.of_map {f : MemoryRow → MemoryRow} (h : Names i a db) (hget : db'.get i = (db.get i).map f)
    (harch : db'.archived = db.archived)
    (hf : ∀ r, db.get i = some r → Db.ownerOf r.toMemory = some a → Db.ownerOf (f r).toMemory = some a) : Names i a db' where
  live r' hr' := by
    rw [hget] at hr'
    obtain ⟨r, hr, rfl⟩ := Option.map_eq_some_iff.mp hr'
    exact hf r hr (h.live r hr)
  archived hnone x hx := by
    rw [hget, Option.map_eq_none_iff] at hnone
    exact h.archived hnone x (harch ▸ hx)

theorem extract_of_ownerOf {m : Memory} (h : Db.ownerOf m = some a) : agentId m.metadata = some (.str a) := by
  obtain ⟨v, hv, hstr⟩ := Option.bind_eq_some_iff.mp h
  cases v with
  | str s =>
    cases hstr
    unfold agentId Json.extract
    rw [hv]
    rfl
  | _ => cases hstr

theorem ownerOf_keepAgentId {m : Memory} {r : MemoryRow} (howner : Db.ownerOf r.toMemory = some a)
    (hm : m.metadata = keepAgentId r.metadata mem.metadata) (hobj : mem.metadata.isObject) : Db.ownerOf m = some a := by
  unfold Db.ownerOf
  rw [hm, keepAgentId, extract_of_ownerOf howner]
  show ((mem.metadata.set "agent_id" (.str a)).get "agent_id").bind Json.asStr = some a
  rw [Json.get_set hobj]
  rfl

variable {id : String}

theorem held_insertOnConflict {merge : MemoryRow → MemoryRow} {hid : ∀ r, (merge r).id = r.id}
    {hkey : ∀ r, (merge r).key = r.key} (h : Held i db)
    (hi : db.insertOnConflict mem merge hid hkey = .ok (db', id)) : Held i db' := by
  rcases h with h | h
  · exact Or.inl ((Db.liveOn_insertOnConflict hi).get_ne_none h)
  · exact Or.inr (by rw [Db.insertOnConflict_frame hi]; exact h)

/-- An upsert keeps the name when its merge does, and when a row that it files under this id names the agent. -/
theorem names_insertOnConflict {merge : MemoryRow → MemoryRow} {hid : ∀ r, (merge r).id = r.id}
    {hkey : ∀ r, (merge r).key = r.key} (h : Names i a db)
    (hi : db.insertOnConflict mem merge hid hkey = .ok (db', id))
    (hmerge : ∀ r, db.getKey mem.key = some r → Db.ownerOf r.toMemory = some a → Db.ownerOf (merge r).toMemory = some a)
    (hnew : db.getKey mem.key = none → mem.id = i → Db.ownerOf mem = some a) : Names i a db' := by
  rcases Db.insertOnConflict_cases hi with ⟨stored, hs, -, rfl⟩ | ⟨hs, -, -, t, ht, rfl⟩
  · refine h.of_map (Db.get_updateRow i) rfl fun r hr howner => ?_
    split_ifs with hri
    · obtain ⟨hmem, hrid⟩ := Db.get_eq_some.mp hr
      obtain rfl : r = stored := Indexed.eq_of_pk hmem (Db.getKey_eq_some.mp hs).1 (hrid.trans hri)
      exact hmerge r hs howner
    · exact howner
  · have hget : ({ db with memories := t } : Db).get i = (db.get i).or (if mem.id = i then some mem.toRow else none) :=
      Indexed.find_insertNew? ht i
    constructor
    · intro r hr
      rw [hget, Option.or_eq_some_iff] at hr
      rcases hr with hr | ⟨-, hr⟩
      · exact h.live r hr
      · split_ifs at hr with hmi
        cases hr
        exact hnew hs hmi
    · intro hnone
      rw [hget, Option.or_eq_none_iff] at hnone
      exact h.archived hnone.1

theorem ownerOf_refiled (hheld : Held i db) (h : Names i a db) (hrefiles : Refiles db mem)
    (hfree : db.getKey mem.key = none) (hget : db.get mem.id = none) (hid : mem.id = i) : Db.ownerOf mem = some a := by
  subst hid
  obtain ⟨x, hx⟩ := Option.ne_none_iff_exists'.mp (hheld.resolve_left (not_not.mpr hget))
  have howner := h.archived hget x hx
  rw [hrefiles hfree x hx (by rw [howner]; exact nofun), howner]

theorem names_insert (h : Names i a db) (hi : db.insert mem = .ok (db', id)) (hmerges : Merges db mem)
    (hnew : db.getKey mem.key = none → mem.id = i → Db.ownerOf mem = some a) : Names i a db' :=
  names_insertOnConflict h hi (fun r hr howner =>
    ownerOf_keepAgentId howner rfl (hmerges r hr (by rw [howner]; exact nofun))) hnew

theorem names_insertIfNewer (h : Names i a db) (hi : db.insertIfNewer mem = .ok (db', id))
    (hobj : mem.metadata.isObject) (hnew : db.getKey mem.key = none → mem.id = i → Db.ownerOf mem = some a) :
    Names i a db' := by
  refine names_insertOnConflict h hi (fun r hr howner => ?_) hnew
  by_cases hs : Supersedes r mem
  · exact ownerOf_keepAgentId howner (congrArg (keepAgentId r.metadata) (if_pos hs)) hobj
  · have hself : (keepAgentId r.metadata (if Supersedes r mem then mem.metadata else r.metadata)) =
        keepAgentId r.metadata r.toMemory.metadata := congrArg (keepAgentId r.metadata) (if_neg hs)
    exact ownerOf_keepAgentId howner hself (Json.isObject_of_extract (extract_of_ownerOf howner))

theorem names_insertOrSkip (hheld : Held i db) (h : Names i a db) (hmerges : Merges db mem) (hrefiles : Refiles db mem) :
    Names i a (db.insertOrSkip mem) := by
  rcases Db.insertOrSkip_cases db mem with ⟨id, hi⟩ | ⟨he, -, -⟩
  · refine names_insert h hi hmerges fun hfree hid => ?_
    rcases Db.insertOnConflict_cases hi with ⟨stored, hs, -⟩ | ⟨-, hget, -⟩
    · rw [hfree] at hs
      cases hs
    · exact ownerOf_refiled hheld h hrefiles hfree hget hid
  · rwa [he]

theorem held_insertOrSkip (hheld : Held i db) : Held i (db.insertOrSkip mem) := by
  rcases Db.insertOrSkip_cases db mem with ⟨id, hi⟩ | ⟨he, -, -⟩
  · exact held_insertOnConflict hheld hi
  · rwa [he]

theorem names_update {id now : String} {u : UpdateMemory} {found changed : Bool} (h : Names i a db)
    (hu : db.update id u now = .ok (db', found, changed))
    (hmeta : ∀ m r, u.metadata = some m → db.get id = some r → Db.ownerOf r.toMemory ≠ none →
      (m.get "agent_id").bind Json.asStr = Db.ownerOf r.toMemory) : Names i a db' := by
  rcases Db.update_cases hu with ⟨-, -, rfl⟩ | ⟨existing, hexisting, rfl, hframe, -⟩
  · exact h
  · refine h.of_map (Db.get_update hu i) (by rw [hframe]) fun r hr howner => ?_
    split_ifs with hid
    · subst hid
      cases hm : u.metadata with
      | none =>
        show ((u.metadata.getD r.metadata).get "agent_id").bind Json.asStr = some a
        rw [hm]
        exact howner
      | some m =>
        show ((u.metadata.getD r.metadata).get "agent_id").bind Json.asStr = some a
        rw [hm, Option.getD_some, hmeta m r hm hr (by rw [howner]; exact nofun), howner]
    · exact howner

theorem names_delete (h : Names i a db) (hdeletes : Deletes db id) : Names i a (db.delete id).1 where
  live r hr := by
    rw [Db.get_delete] at hr
    split_ifs at hr
    exact h.live r hr
  archived hnone x hx := by
    rw [Db.get_delete] at hnone
    by_cases hid : i = id
    · subst hid
      cases hr : db.get i with
      | none => exact h.archived hr x hx
      | some r =>
        have howner := h.live r hr
        rw [hdeletes r x hr hx (by rw [howner]; exact nofun), howner]
    · rw [if_neg hid] at hnone
      exact h.archived hnone x hx

theorem names_archived (sel : MemoryRow → Bool) (mk : MemoryRow → ArchivedRow) (hmk : ∀ r, (mk r).id = r.id)
    (hmeta : ∀ r, sel r → Db.ownerOf r.toMemory = some a → Db.ownerOf (mk r).toMemory = some a) (h : Names i a db)
    (hget : db'.get i = (db.get i).filter fun r => !sel r) (harch : db'.archived = (db.archiveWhere sel mk).archived) :
    Names i a db' where
  live r hr := by
    rw [hget, Option.filter_eq_some_iff] at hr
    exact h.live r hr.1
  archived hnone x hx := by
    rw [harch, Db.find_archived_archiveWhere hmk] at hx
    rw [hget] at hnone
    cases hr : db.get i with
    | none =>
      rw [hr] at hx
      exact h.archived hr x hx
    | some r =>
      rw [hr] at hx hnone
      have hsel : sel r = true := by simpa using hnone
      rw [Option.filter_some, if_pos hsel] at hx
      cases hx
      exact hmeta r hsel (h.live r hr)

theorem names_archiveMemory {id now : String} {reason : Option String} (h : Names i a db) :
    Names i a (db.archiveMemory id reason now).1 := by
  unfold Db.archiveMemory
  split_ifs
  · exact h
  · refine names_archived (fun r => r.id = id) (archiveRow now (reason.getD "archive")) (fun _ => rfl)
      (fun _ _ howner => howner) h ?_ rfl
    refine Db.get_deleteMemories.trans ?_
    simp only [ne_eq, decide_not]
    rfl

theorem names_gc {now : String} (h : Names i a db) : Names i a (db.gc true now).1 :=
  names_archived (Db.isExpired now) (archiveRow now "ttl_expired") (fun _ => rfl) (fun _ _ howner => howner) h
    Db.get_deleteMemories rfl

theorem names_forget {fts : Fts} {ns pattern : Option String} {tier : Option Tier} {now : String} {n : ℕ} (h : Names i a db)
    (hforgets : Forgets fts db ns pattern tier) (hf : db.forget fts ns pattern tier true now = .ok (db', n)) :
    Names i a db' := by
  rw [Db.forget_eq_ok hf]
  have hget : ((if true then db.archiveWhere (Db.forgetSelects fts ns pattern tier) (forgetRow now) else db).deleteMemories
      fun r => !Db.forgetSelects fts ns pattern tier r).get i = (db.get i).filter
        fun r => !Db.forgetSelects fts ns pattern tier r := Db.get_deleteMemories
  constructor
  · intro r hr
    rw [hget, Option.filter_eq_some_iff] at hr
    exact h.live r hr.1
  · intro hnone x hx
    rw [hget] at hnone
    have hx' : (((db.get i).filter (Db.forgetSelects fts ns pattern tier)).map (forgetRow now)).or
      (db.archived.find i) = some x := (Db.find_archived_archiveWhere (fun _ => rfl) i).symm.trans hx
    cases hr : db.get i with
    | none =>
      rw [hr] at hx'
      exact h.archived hr x hx'
    | some r =>
      -- a row with an owner is not selected
      rw [hr] at hnone
      have hsel : Db.forgetSelects fts ns pattern tier r = true := by simpa using hnone
      have howner := h.live r hr
      rw [hforgets r (Db.get_eq_some.mp hr).1 hsel] at howner
      cases howner

theorem names_restoreArchived {id now : String} {restored : Bool} (h : Names i a db) (hrestores : Restores db id)
    (hr : db.restoreArchived id now = .ok (db', restored)) : Names i a db' := by
  rcases Db.restoreArchived_cases hr with ⟨-, -, rfl⟩ | ⟨x, t, hx, -, hnone, ht, rfl⟩
  · exact h
  · have hxid : (restoreRow now x).id = id := (Table.find_eq_some.mp hx).2
    have hget : t.find i = (db.get i).or (if id = i then some (restoreRow now x) else none) := by
      rw [Indexed.find_insertNew? ht, hxid]
      rfl
    constructor
    · intro r hr
      have hr' : t.find i = some r := hr
      rw [hget, Option.or_eq_some_iff] at hr'
      rcases hr' with hr' | ⟨-, hr'⟩
      · exact h.live r hr'
      · split_ifs at hr' with hid
        cases hr'
        subst hid
        have howner := h.archived hnone x hx
        have hvalid := hrestores x hx (by rw [howner]; exact nofun)
        unfold restoreRow Db.ownerOf
        rw [if_pos hvalid]
        exact howner
    · intro hnone' y hy
      have hnone'' : t.find i = none := hnone'
      rw [hget, Option.or_eq_none_iff] at hnone''
      refine h.archived hnone''.1 y ?_
      have hy' : (db.archived.filter fun b => b.id ≠ id).find i = some y := hy
      rw [Table.find_filter, Option.filter_eq_some_iff] at hy'
      exact hy'.1

/-- An executed action keeps the name of every memory but the one it may create. -/
theorem names_execute {x : Db.Execution} {res : Option String} (h : Names i a db) (hne : x.newId ≠ i)
    (hok : ∀ pa, db.getPendingAction id = some pa → Executes x db pa) (he : db.executePendingAction x id = .ok (db', res)) :
    Names i a db' := by
  obtain ⟨pa, hpa, -, ⟨hkind, mem, actualId, hmem, -, hi⟩ | ⟨hkind, mid, hmid, rfl⟩ |
    ⟨hkind, mid, toNs, cloneId, hmid, hns, hp⟩ | ⟨-, mid, res, -, -, hu⟩ | ⟨-, rfl⟩⟩ := Db.executePendingAction_spec he
  · exact names_insert h hi ((hok pa hpa).store hkind mem hmem) fun _ hid => absurd hid hne
  · exact names_delete h ((hok pa hpa).delete hkind mid hmid)
  · obtain ⟨source, db₁, hs, -, -, hi, hframe⟩ := Db.promoteToNamespace_cases hp
    have hclone := names_insert h hi ((hok pa hpa).promote hkind mid toNs source hmid hns hs) fun _ hid => absurd hid hne
    exact hclone.of_live (by rw [hframe]; rfl) (by rw [hframe])
  · exact names_update h hu fun m r hm => by cases hm
  · exact h

end Writes

/-! ## A push -/

section Pushes

variable {h : Host} {t : Tick} {db : Db} {i a : String}

theorem getPendingAction_decide {db₁ : Db} {id decidedBy now : String} {approve changed : Bool} {pa : PendingAction}
    (hd : db.decidePendingAction id approve decidedBy now = (db₁, changed)) (hpa : db₁.getPendingAction id = some pa) :
    ∃ pa₀, db.getPendingAction id = some pa₀ ∧ pa.actionType = pa₀.actionType ∧ pa.payload = pa₀.payload ∧
      pa.memoryId = pa₀.memoryId := by
  cases hd
  unfold Db.getPendingAction at hpa
  rw [Db.find_updatePending, Option.map_map] at hpa
  obtain ⟨r, hr, rfl⟩ := Option.map_eq_some_iff.mp hpa
  refine ⟨r.toPendingAction, by rw [Db.getPendingAction, hr]; rfl, ?_⟩
  simp only [Function.comp_apply]
  split_ifs <;> exact ⟨rfl, rfl, rfl⟩

theorem Executes.decided {x : Db.Execution} {db₁ : Db} {pa pa₀ : PendingAction} (hx : Executes x db pa₀)
    (hmem : db₁.memories = db.memories) (harch : db₁.archived = db.archived) (hkind : pa.actionType = pa₀.actionType)
    (hpayload : pa.payload = pa₀.payload) (hid : pa.memoryId = pa₀.memoryId) : Executes x db₁ pa where
  store hk mem hm := by
    unfold Merges Db.getKey
    rw [hmem]
    exact hx.store (hkind ▸ hk) mem (hpayload ▸ hm)
  delete hk mid hm := by
    unfold Deletes Db.get
    rw [hmem, harch]
    exact hx.delete (hkind ▸ hk) mid (hid ▸ hm)
  promote hk mid toNs source hm hns hs := by
    unfold Merges Db.getKey
    rw [hmem]
    have hs' : db.get mid = some source := by
      unfold Db.get at hs ⊢
      rwa [← hmem]
    exact hx.promote (hkind ▸ hk) mid toNs source (hid ▸ hm) (hpayload ▸ hns) hs'

theorem names_decide {dec : PendingDecision} (hn : Names i a db) (hne : t.newId dec.id ≠ i)
    (hok : EntryOk h t db (.decision dec)) : Names i a (Push.decide h t db dec).1 := by
  unfold Push.decide
  cases hd : db.decidePendingAction dec.id dec.approved dec.decider t.now with
  | mk db₁ changed =>
    have hmem : db₁.memories = db.memories := by cases hd; rfl
    have harch : db₁.archived = db.archived := by cases hd; rfl
    have hdecided : Names i a db₁ := hn.of_live (by unfold Db.live; rw [hmem]) harch
    cases changed with
    | false => exact hdecided
    | true =>
      simp only
      split_ifs with happ
      · split
        · rename_i hx
          refine names_execute hdecided hne (fun pa hpa => ?_) hx
          obtain ⟨pa₀, hpa₀, hkind, hpayload, hid⟩ := getPendingAction_decide hd hpa
          exact (hok happ pa₀ hpa₀).decided hmem harch hkind hpayload hid
        · exact hdecided
      · exact hdecided

theorem names_takeIn {mem : Memory} (hheld : Held i db) (hn : Names i a db) (hok : EntryOk h t db (.memory mem)) :
    Names i a (h.takeIn db mem) := by
  rcases takeIn_cases h db mem with ⟨id, hv, hf, hi⟩ | ⟨he, -⟩
  · refine names_insertIfNewer hn hi hv.isObject fun hfree hid => ?_
    rcases Db.insertOnConflict_cases hi with ⟨stored, hs, -⟩ | ⟨-, hget, -⟩
    · rw [hfree] at hs
      cases hs
    · exact ownerOf_refiled hheld hn (hok hv hf) hfree hget hid
  · rwa [he]

theorem held_takeIn {mem : Memory} (hheld : Held i db) : Held i (h.takeIn db mem) := by
  rcases takeIn_cases h db mem with ⟨id, -, -, hi⟩ | ⟨he, -⟩
  · exact held_insertOnConflict hheld hi
  · rwa [he]

/-- A record that is no memory keeps the name, unless it creates the memory anew. -/
theorem names_onEntry {e : Push.Entry} (hn : Names i a db) (hmemory : ∀ mem, e ≠ .memory mem)
    (hne : ∀ dec, e = .decision dec → t.newId dec.id ≠ i) (hok : EntryOk h t db e) :
    Names i a (onEntry h t db e) := by
  cases e with
  | memory mem => exact absurd rfl (hmemory mem)
  | deletion id =>
    show Names i a (Push.onDeletion db id)
    unfold Push.onDeletion
    split_ifs
    · exact names_delete hn hok
    · exact hn
  | archive id =>
    show Names i a (Push.onArchive t db id)
    unfold Push.onArchive
    split_ifs
    · exact names_archiveMemory hn
    · exact hn
  | restore id =>
    show Names i a (Push.onRestore t db id)
    unfold Push.onRestore
    split_ifs
    · cases hr : db.restoreArchived id t.now with
      | error e => exact hn
      | ok res => exact names_restoreArchived hn hok hr
    · exact hn
  | link l =>
    show Names i a (Push.onLink h t db l)
    unfold Push.onLink
    split_ifs
    · split
      · exact hn
      · split
        · rename_i hl
          rw [Db.createLinkInbound_frame hl]
          exact hn.of_live rfl rfl
        · exact hn
    · exact hn
  | pending pa =>
    show Names i a (Push.onPending db pa)
    unfold Push.onPending
    split_ifs
    · exact hn.of_live rfl rfl
    · exact hn
  | decision dec =>
    show Names i a (Push.onDecision h t db dec)
    unfold Push.onDecision
    split_ifs
    · exact names_decide hn (hne dec rfl) hok
    · exact hn
  | namespaceMeta x =>
    show Names i a (Push.onNamespaceMeta t db x)
    unfold Push.onNamespaceMeta Db.setNamespaceStandard
    split_ifs <;> exact hn.of_live rfl rfl
  | namespaceMetaClear ns =>
    show Names i a (Push.onNamespaceMetaClear db ns)
    unfold Push.onNamespaceMetaClear
    split_ifs <;> exact hn.of_live rfl rfl

theorem entries_eq (b : SyncPushBody) : ∃ rest, Push.entries b = b.memories.map .memory ++ rest ∧
    (∀ e ∈ rest, ∀ mem, e ≠ .memory mem) ∧ ∀ dec, .decision dec ∈ rest → dec ∈ b.pendingDecisions := by
  refine ⟨b.deletions.map .deletion ++ (b.archives.map .archive ++ (b.restores.map .restore ++ (b.links.map .link ++
    (b.pendings.map .pending ++ (b.pendingDecisions.map .decision ++ (b.namespaceMeta.map .namespaceMeta ++
      b.namespaceMetaClears.map .namespaceMetaClear)))))), ?_, ?_, ?_⟩
  · simp only [Push.entries, List.append_assoc]
  · simp only [List.mem_append, List.mem_map]
    grind
  · simp

variable {b : SyncPushBody}

theorem records_db (hd : b.dryRun = false) (db : Db) :
    (Push.records h t b db).db = (Push.entries b).foldl (onEntry h t) db := by
  rw [Push.records_eq_foldl, hd]
  generalize Push.entries b = es
  generalize hs : ({ db } : Push) = s
  obtain rfl : s.db = db := by rw [← hs]
  clear hs
  induction es generalizing s with
  | nil => rfl
  | cons e es ih => rw [List.foldl_cons, ih, entry_db, List.foldl_cons]

/-- What a push needs: its records do, and the ids drawn for its decisions are unused. -/
def PushOk (h : Host) (t : Tick) (header : Option String) (b : SyncPushBody) (db : Db) : Prop :=
  b.Accepted t header → b.dryRun = false →
    Meets (onEntry h t) (EntryOk h t) db (Push.entries b) ∧ ∀ dec ∈ b.pendingDecisions, Unused db (t.newId dec.id)

theorem ne_of_unused {id : String} (hheld : Held i db) (hunused : Unused db id) : id ≠ i := by
  rintro rfl
  exact hheld.elim (absurd hunused.1) (absurd hunused.2)

theorem names_records (hheld : Held i db) (hn : Names i a db)
    (hok : Meets (onEntry h t) (EntryOk h t) db (Push.entries b))
    (hunused : ∀ dec ∈ b.pendingDecisions, Unused db (t.newId dec.id)) :
    Names i a ((Push.entries b).foldl (onEntry h t) db) := by
  obtain ⟨rest, hes, hmemory, hdec⟩ := entries_eq b
  rw [hes] at hok ⊢
  rw [List.foldl_append]
  obtain ⟨hmems, hrest⟩ := meets_append.mp hok
  -- the memories of the body keep the memory where it is
  have hfirst : Held i ((b.memories.map Push.Entry.memory).foldl (onEntry h t) db) ∧
      Names i a ((b.memories.map Push.Entry.memory).foldl (onEntry h t) db) := by
    clear hes hunused hdec hrest hok
    generalize b.memories = mems at hmems ⊢
    induction mems generalizing db with
    | nil => exact ⟨hheld, hn⟩
    | cons mem mems ih => exact ih (held_takeIn hheld) (names_takeIn hheld hn hmems.1) hmems.2
  have hne : ∀ dec, Push.Entry.decision dec ∈ rest → t.newId dec.id ≠ i := fun dec hd =>
    ne_of_unused hheld (hunused dec (hdec dec hd))
  clear hes hunused hdec hmems hok
  generalize (b.memories.map Push.Entry.memory).foldl (onEntry h t) db = db₁ at hfirst hrest ⊢
  replace hfirst := hfirst.2
  induction rest generalizing db₁ with
  | nil => exact hfirst
  | cons e rest ih =>
    refine ih (fun e he => hmemory e (List.mem_cons_of_mem _ he)) (fun dec hd => hne dec (List.mem_cons_of_mem _ hd)) _ hrest.2 ?_
    refine names_onEntry hfirst (hmemory e List.mem_cons_self) (fun dec he => ?_) hrest.1
    exact hne dec (he ▸ List.mem_cons_self)

theorem names_syncPush {header : Option String} (hheld : Held i db) (hn : Names i a db)
    (hok : PushOk h t header b db) : Names i a (syncPush h t header b db).1 := by
  obtain ⟨hacc, agent, hdb⟩ | ⟨-, hdb⟩ := syncPush_accepted h t header b db
  · rw [hdb]
    cases hd : b.dryRun with
    | true =>
      rw [Push.body_dry agent hd, (Push.records_spec b db).2, hd]
      exact hn
    | false =>
      obtain ⟨hmeets, hunused⟩ := hok hacc hd
      have hrecords : Names i a (Push.records h t b db).db := by
        rw [records_db hd]
        exact names_records hheld hn hmeets hunused
      refine hrecords.of_live (Push.body_live agent b db) ?_
      rw [(Push.body_tables hd agent db).1, (Push.records_spec b db).2, hd]
      rfl
  · rw [hdb]
    exact hn

end Pushes

/-! ## Runs -/

open MemoryApi Curator

/-- The database, and the candidates of the curator's cycle. -/
structure State where
  db : Db
  candidates : List Memory := []

/-- The steps: requests, sweeps, and what the curator does in a cycle. Other steps may come between two of the curator's. -/
inductive Op (app : App) where
  | createMemory (t : Draw app.chrono) (header : Option String) (body : CreateMemory)
  | bulkCreate (t : Draw app.chrono) (bodies : List CreateMemory)
  | importMemories (t : Draw app.chrono) (mems : List Memory) (links : List MemoryLink)
  | updateMemory (t : Draw app.chrono) (id : String) (body : UpdateMemory)
  | syncPush (t : Tick) (header : Option String) (body : SyncPushBody)
  | executePendingAction (pendingId newId now : String)
  | archiveMemory (id : String) (reason : Option String) (now : String)
  | gc (now : String)
  | forget (ns pattern : Option String) (tier : Option Tier) (now : String)
  | restoreArchived (id now : String)
  | collect (cfg : CuratorConfig) (midNow longNow : String)
  | autoTag (mem : Memory) (tags : List String) (curatedAt now : String)
  | contradict (mem : Memory) (againstId now : String)
  | consolidate (cluster : List Memory) (summary : Except String String) (newId now entryId entryNow : String)
  | forgetSuperseded (mem : Memory) (entryId entryNow : String)
  | adjustPriority (mem : Memory) (now : ℤ) (updateNow entryId entryNow : String)
  | report (content id ts : String)

section Run

variable {app : App} (h : Host) (entryText : RollbackEntry → String)

def recorded (db : Db) (entry : Option RollbackEntry) (id ts : String) : Db :=
  match entry with
  | none => db
  | some entry => settled db (persistRollbackEntry db entry (entryText entry) id ts)

def step (s : State) : Op app → State
  | .createMemory t header body => { s with db := (createMemory app t header body s.db).1 }
  | .bulkCreate t bodies => { s with db := (bulkCreate app t bodies s.db).1 }
  | .importMemories t mems links => { s with db := (importMemories app t mems links s.db).1 }
  | .updateMemory t id body => { s with db := (updateMemory app t id body s.db).1 }
  | .syncPush t header body => { s with db := (AiMemory.syncPush h t header body s.db).1 }
  | .executePendingAction pendingId newId now =>
    { s with
      db := settled s.db ((s.db.executePendingAction ⟨app.memoryFromValue, newId, now⟩ pendingId).map Prod.fst) }
  | .archiveMemory id reason now => { s with db := (s.db.archiveMemory id reason now).1 }
  | .gc now => { s with db := (s.db.gc true now).1 }
  | .forget ns pattern tier now => { s with db := settled s.db ((s.db.forget app.fts ns pattern tier true now).map Prod.fst) }
  | .restoreArchived id now => { s with db := settled s.db ((s.db.restoreArchived id now).map Prod.fst) }
  | .collect cfg midNow longNow =>
    { s with candidates := (collectCandidates cfg midNow longNow s.db).filter (needsCuration cfg) }
  | .autoTag mem tags curatedAt now =>
    if mem ∈ s.candidates then { s with db := settled s.db (persistAutoTags s.db mem tags curatedAt now) } else s
  | .contradict mem againstId now =>
    if mem ∈ s.candidates then { s with db := settled s.db (persistContradiction s.db mem againstId now) } else s
  | .consolidate cluster summary newId now entryId entryNow =>
    if ∀ mem ∈ cluster, mem ∈ s.candidates then
      match consolidateCluster s.db cluster summary newId now with
      | .ok (db, entry) => { s with db := recorded entryText db entry entryId entryNow }
      | .error _ => s
    else s
  | .forgetSuperseded mem entryId entryNow =>
    if mem ∈ s.candidates then
      let (db, entry) := forgetIfSuperseded s.db mem s.candidates
      { s with db := recorded entryText db entry entryId entryNow }
    else s
  | .adjustPriority mem now updateNow entryId entryNow =>
    if mem ∈ s.candidates then
      match applyPriorityFeedback app.chrono s.db mem now updateNow with
      | .ok (db, entry) => { s with db := recorded entryText db entry entryId entryNow }
      | .error _ => s
    else s
  | .report content id ts => { s with db := settled s.db (persistSelfReport s.db content id ts) }

/-- What a step needs for every memory to keep its agent. -/
def StepOk (s : State) : Op app → Prop
  | .createMemory t _ _ => Unused s.db (t.newId 0)
  | .bulkCreate t bodies => ∀ mem ∈ app.bulkMemories t bodies, Unused s.db mem.id
  | .importMemories _ mems _ => Meets Db.insertOrSkip Refiles s.db (app.importable mems)
  | .syncPush t header body => PushOk h t header body s.db
  | .executePendingAction pendingId newId now => Unused s.db newId ∧
      ∀ pa, s.db.getPendingAction pendingId = some pa → Executes ⟨app.memoryFromValue, newId, now⟩ s.db pa
  | .forget ns pattern tier _ => Forgets app.fts s.db ns pattern tier
  | .restoreArchived id _ => Restores s.db id
  | .autoTag mem _ _ _ => mem ∈ s.candidates → Snapshots s.db mem
  | .contradict mem _ _ => mem ∈ s.candidates → Snapshots s.db mem
  | .consolidate cluster _ newId _ entryId _ =>
      Unused s.db newId ∧ Unused s.db entryId ∧ ∀ mem ∈ cluster, Deletes s.db mem.id
  | .forgetSuperseded mem entryId _ =>
      Unused s.db entryId ∧ (mem ∈ s.candidates → isSuperseded mem s.candidates → Deletes s.db mem.id)
  | .adjustPriority _ _ _ entryId _ => Unused s.db entryId
  | .report _ id _ => Unused s.db id
  | _ => True

/-- Followed by its id, a memory keeps its agent for as long as it is live or archived. -/
def Immutable (s : State) (ops : List (Op app)) : Prop :=
  ∀ before middle after, ops = before ++ middle ++ after → ∀ i r a,
    (before.foldl (step h entryText) s).db.get i = some r → Db.ownerOf r.toMemory = some a →
    (∀ s' ∈ states (step h entryText) (before.foldl (step h entryText) s) middle, Held i s'.db) →
    ∀ r', ((before ++ middle).foldl (step h entryText) s).db.get i = some r' → Db.ownerOf r'.toMemory = some a

/-! ## What one step keeps -/

variable {h entryText} {db db' : Db} {i a : String}

theorem names_refresh (hn : Names i a db) (id text : String) : Names i a (app.refresh db id text) := by
  obtain ⟨f, hf, hget⟩ := get_refresh app db id text
  refine hn.of_map (hget i) (by rw [refresh_frame]) fun r _ howner => ?_
  split_ifs
  · rwa [hf]
  · exact howner

variable {t : Draw app.chrono}

theorem names_createMemory {header : Option String} {body : CreateMemory} (hheld : Held i db)
    (hn : Names i a db) (hunused : Unused db (t.newId 0)) : Names i a (createMemory app t header body db).1 := by
  obtain ⟨he, -⟩ | ⟨mem, -, -, hq⟩ | ⟨mem, db₁, id, hprep, -, hi, he⟩ := createMemory_cases app t header body db
  · rwa [he]
  · obtain ⟨-, row, tab, -, -, -, -, -, -, he⟩ := Db.queuePendingAction_eq_ok hq
    rw [he]
    exact hn.of_live rfl rfl
  · obtain ⟨agentId, metadata, title, hvalid, -, hmeta, -, rfl⟩ := prepare_eq_ok hprep
    have hobj := isObject_createMetadata (isObject_of_validateCreate hvalid) hmeta
    have hstored := names_insert hn hi (fun _ _ _ => hobj) fun _ hid => absurd hid (ne_of_unused hheld hunused)
    rw [he]
    exact names_refresh hstored id _

theorem names_bulkCreate {bodies : List CreateMemory} (hheld : Held i db) (hn : Names i a db)
    (hunused : ∀ mem ∈ app.bulkMemories t bodies, Unused db mem.id) :
    Names i a (bulkCreate app t bodies db).1 := by
  rw [bulkCreate_fst]
  have hne : ∀ mem ∈ app.bulkMemories t bodies, mem.id ≠ i ∧ mem.metadata.isObject := by
    intro mem hmem
    refine ⟨ne_of_unused hheld (hunused mem hmem), ?_⟩
    unfold App.bulkMemories at hmem
    split_ifs at hmem
    · cases hmem
    · obtain ⟨item, -, hitem⟩ := List.mem_filterMap.mp hmem
      split_ifs at hitem with hvalid
      cases hitem
      exact isObject_of_validateCreate hvalid
  refine Machine.foldl_induct (P := Names i a) (fun d mem hmem hd => ?_) hn
  obtain ⟨hid, hobj⟩ := hne mem hmem
  rcases Db.insertOrSkip_cases d mem with ⟨id, hi⟩ | ⟨he, -, -⟩
  · exact names_insert hd hi (fun _ _ _ => hobj) fun _ hid' => absurd hid' hid
  · rwa [he]

theorem names_importMemories {mems : List Memory} {links : List MemoryLink} (hheld : Held i db)
    (hn : Names i a db) (hrefiles : Meets Db.insertOrSkip Refiles db (app.importable mems)) :
    Names i a (importMemories app t mems links db).1 := by
  obtain ⟨written, he⟩ := importMemories_fst app t mems links db
  have hobj : ∀ mem ∈ app.importable mems, mem.metadata.isObject := by
    intro mem hmem
    unfold App.importable at hmem
    split_ifs at hmem
    · cases hmem
    · exact Memory.Valid.isObject (of_decide_eq_true (List.mem_filter.mp hmem).2)
  have hall : Names i a (db.insertAll (app.importable mems)) := by
    clear he
    unfold Db.insertAll
    generalize app.importable mems = items at hrefiles hobj ⊢
    induction items generalizing db with
    | nil => exact hn
    | cons mem items ih =>
      exact ih (held_insertOrSkip hheld)
        (names_insertOrSkip hheld hn (fun _ _ _ => hobj mem List.mem_cons_self) hrefiles.1) hrefiles.2
        fun m hm => hobj m (List.mem_cons_of_mem mem hm)
  rw [he]
  exact hall.of_live rfl rfl

/-- The merge of `preserve_agent_id` takes the stored owner. -/
theorem ownerOf_preserveAgentId {r : MemoryRow} (howner : Db.ownerOf r.toMemory = some a) (incoming : Json) :
    ((preserveAgentId r.metadata incoming).get "agent_id").bind Json.asStr = Db.ownerOf r.toMemory := by
  obtain ⟨v, hv, hstr⟩ := Option.bind_eq_some_iff.mp howner
  unfold preserveAgentId Db.ownerOf
  rw [hv]
  have hobj : (if incoming.isObject then incoming else Json.obj []).isObject := by
    split_ifs with h
    · exact h
    · rfl
  rw [Json.get_set hobj]

theorem names_updateMemory {id : String} {body : UpdateMemory} (hn : Names i a db) :
    Names i a (updateMemory app t id body db).1 := by
  obtain ⟨he, -⟩ | ⟨target, db₁, changed, -, -, hrow, hu, hdb⟩ := updateMemory_cases app t id body db
  · rwa [he]
  · have hupdated : Names i a db₁ := names_update hn hu fun m r hm hr howner => by
      obtain ⟨incoming, -, rfl⟩ := Option.map_eq_some_iff.mp hm
      obtain ⟨b, hb⟩ := Option.ne_none_iff_exists'.mp howner
      obtain rfl : target = r := Option.some_inj.mp ((get_resolveRow hrow).symm.trans hr)
      exact ownerOf_preserveAgentId hb incoming
    rcases hdb with he | ⟨text, he⟩
    · rwa [he]
    · rw [he]
      exact names_refresh hupdated target.id text

theorem names_settled_map {x : Except String (Db × α)} (hn : Names i a db)
    (hx : ∀ res, x = .ok res → Names i a res.1) : Names i a (settled db (x.map Prod.fst)) := by
  cases x with
  | error e => exact hn
  | ok res => exact hx res rfl

theorem names_snapshot {mem : Memory} {metadata : Json} {now : String} (hn : Names i a db) (hsnap : Snapshots db mem)
    (hget : metadata.get "agent_id" = mem.metadata.get "agent_id") :
    Names i a (settled db ((db.update mem.id { metadata := some metadata } now).map Prod.fst)) :=
  names_settled_map hn fun res hu => names_update hn hu fun m r hm hr howner => by
    cases hm
    rw [hget]
    exact hsnap r hr howner

theorem names_own {mem : Memory} (hn : Names i a db) (hne : mem.id ≠ i) (hobj : mem.metadata.isObject) :
    Names i a (settled db ((db.insert mem).map Prod.fst)) :=
  names_settled_map hn fun _ hi => names_insert hn hi (fun _ _ _ => hobj) fun _ hid => absurd hid hne

theorem names_recorded {entry : Option RollbackEntry} {id ts : String} (hn : Names i a db) (hne : id ≠ i) :
    Names i a (recorded entryText db entry id ts) := by
  cases entry with
  | none => exact hn
  | some entry => exact names_own hn hne rfl

theorem names_consolidate {ids : List String} {title summary ns source agent newId now id : String} {tier : Tier}
    (hheld : Held i db) (hn : Names i a db) (hunused : Unused db newId) (hdeletes : ∀ id ∈ ids, Deletes db id)
    (hc : db.consolidate ids title summary ns tier source agent newId now = .ok (db', id)) : Names i a db' := by
  obtain ⟨c, t, ht, rfl⟩ := Db.consolidate_cases hc
  have hne : newId ≠ i := ne_of_unused hheld hunused
  have hget : (ids.foldl (fun (db : Db) id => (db.delete id).1) { db with memories := t }).get i =
      if i ∈ ids then none else db.get i := by
    rw [Db.get_foldl_remove Db.get_delete]
    congr 1
    refine (Indexed.find_insertNew? ht i).trans ?_
    rw [if_neg (show ¬(Consolidation.row c newId title summary ns tier source now (c.metadata ids agent)).id = i from hne),
      Option.or_none]
    rfl
  constructor
  · intro r hr
    rw [hget] at hr
    split_ifs at hr
    exact hn.live r hr
  · intro hnone x hx
    rw [Db.archived_foldl_delete] at hx
    rw [hget] at hnone
    cases hr : db.get i with
    | none => exact hn.archived hr x hx
    | some r =>
      rw [hr] at hnone
      split_ifs at hnone with hi
      have howner := hn.live r hr
      rw [hdeletes i hi r x hr hx (by rw [howner]; exact nofun), howner]

/-- A step keeps the agent of a memory. -/
theorem names_step {s : State} {op : Op app} (hheld : Held i s.db) (hn : Names i a s.db) (hok : StepOk h s op) :
    Names i a (step h entryText s op).db := by
  cases op with
  | createMemory t header body => exact names_createMemory hheld hn hok
  | bulkCreate t bodies => exact names_bulkCreate hheld hn hok
  | importMemories t mems links => exact names_importMemories hheld hn hok
  | updateMemory t id body => exact names_updateMemory hn
  | syncPush t header body => exact names_syncPush hheld hn hok
  | executePendingAction pendingId newId now =>
    exact names_settled_map hn fun res he => names_execute hn (ne_of_unused hheld hok.1) hok.2 he
  | archiveMemory id reason now => exact names_archiveMemory hn
  | gc now => exact names_gc hn
  | forget ns pattern tier now => exact names_settled_map hn fun res hf => names_forget hn hok hf
  | restoreArchived id now => exact names_settled_map hn fun res hr => names_restoreArchived hn hok hr
  | collect cfg midNow longNow => exact hn
  | autoTag mem tags curatedAt now =>
    simp only [step]
    split_ifs with hmem
    · unfold persistAutoTags
      exact names_snapshot hn (hok hmem) (by
        rw [autoTagged, Json.get_set_of_ne (by decide), Json.get_set_of_ne (by decide)])
    · exact hn
  | contradict mem againstId now =>
    simp only [step]
    split_ifs with hmem
    · unfold persistContradiction
      exact names_snapshot hn (hok hmem) (by rw [contradicted, Json.get_set_of_ne (by decide)])
    · exact hn
  | consolidate cluster summary newId now entryId entryNow =>
    obtain ⟨hnew, hentry, hdeletes⟩ := hok
    simp only [step]
    split_ifs
    · split
      · rename_i db' entry hc
        refine names_recorded ?_ (ne_of_unused hheld hentry)
        rcases consolidateCluster_cases hc with rfl | ⟨text, ns, tier, id, -, hc⟩
        · exact hn
        · refine names_consolidate hheld hn hnew (fun id hid => ?_) hc
          obtain ⟨mem, hmem, rfl⟩ := List.mem_map.mp hid
          exact hdeletes mem hmem
      · exact hn
    · exact hn
  | forgetSuperseded mem entryId entryNow =>
    obtain ⟨hentry, hdeletes⟩ := hok
    simp only [step]
    split_ifs with hmem
    · refine names_recorded ?_ (ne_of_unused hheld hentry)
      unfold forgetIfSuperseded
      split_ifs with hsup
      · exact names_delete hn (hdeletes hmem hsup)
      · exact hn
    · exact hn
  | adjustPriority mem now updateNow entryId entryNow =>
    simp only [step]
    split_ifs
    · split
      · rename_i db' entry hp
        refine names_recorded ?_ (ne_of_unused hheld hok)
        rcases applyPriorityFeedback_cases hp with rfl | ⟨found, hu⟩
        · exact hn
        · exact names_update hn hu fun m r hm => by cases hm
      · exact hn
    · exact hn
  | report content id ts => exact names_own hn (ne_of_unused hheld hok) rfl

theorem names_run {s : State} {ops : List (Op app)} (hok : Meets (step h entryText) (StepOk h) s ops) (hn : Names i a s.db)
    (hheld : ∀ s' ∈ states (step h entryText) s ops, Held i s'.db) : Names i a (ops.foldl (step h entryText) s).db := by
  induction ops generalizing s with
  | nil => exact hn
  | cons op ops ih =>
    exact ih hok.2 (names_step (hheld s mem_states_self) hn hok.1) fun s' hs => hheld s' (List.mem_cons_of_mem s hs)

end Run

/-- A memory keeps the agent that wrote it first, in every run whose steps are all fine: no `forget` archives a row with an
owner, every stored or restored copy of a row with an owner has metadata that passes, and no snapshot is older than the
owner. -/
theorem provenance_kept {app : App} (h : Host) (entryText : RollbackEntry → String) {s : State} {ops : List (Op app)}
    (hok : Meets (step h entryText) (StepOk h) s ops) : Immutable h entryText s ops := by
  rintro before middle after rfl i r a hr howner hheld r' hr'
  rw [List.append_assoc] at hok
  have hmiddle := (meets_append.mp (meets_append.mp hok).2).1
  have hstart : Names i a (before.foldl (step h entryText) s).db := by
    refine ⟨fun x hx => ?_, fun hnone => ?_⟩
    · cases hr.symm.trans hx
      exact howner
    · cases hr.symm.trans hnone
  rw [List.foldl_append] at hr'
  exact (names_run hmiddle hstart hheld).live r' hr'

/-! ## A memory of alice's -/

/-- A node's own settings, as `sync_push` sees them. -/
def homeHost : Host where
  rfc3339 := node.chrono.rfc3339
  insertFault _ := false
  lookupPeerPublicKey _ := none
  verify _ _ _ := false
  memoryFromValue := node.memoryFromValue
  embedder := node.embedder

def planOfAlice : Op node := .createMemory (draw nine ["m-1"]) none (request "notes" "Plan" "draft" "alice")

/-- A `forget` elsewhere, then the memory is archived and comes back. -/
def awayAndBack : List (Op node) :=
  [planOfAlice, .forget (some "scratch") none none ten.text, .archiveMemory "m-1" none ten.text,
    .restoreArchived "m-1" ten.text]

theorem awayAndBack_kept : Immutable homeHost (fun _ => "") ⟨Db.empty, []⟩ awayAndBack := by
  have hforgets : ∀ r ∈ ([planOfAlice].foldl (step homeHost fun _ => "") ⟨Db.empty, []⟩).db.memories.rows,
      Db.forgetSelects node.fts (some "scratch") none none r → Db.ownerOf r.toMemory = none := by decide
  have hrestores : ∀ x ∈ ((awayAndBack.take 3).foldl (step homeHost fun _ => "") ⟨Db.empty, []⟩).db.archived.find "m-1",
      Accepts (Validate.validateMetadata x.metadata) := by decide
  exact provenance_kept homeHost (fun _ => "")
    ⟨⟨rfl, rfl⟩, fun r hr => hforgets r hr, trivial, fun x hx _ => hrestores x hx, trivial⟩

def forgottenAndBack : List (Op node) :=
  [planOfAlice, .forget (some "notes") none none ten.text, .restoreArchived "m-1" ten.text]

theorem forgotten_unowned : ¬Immutable homeHost (fun _ => "") ⟨Db.empty, []⟩ forgottenAndBack := by
  intro h
  have hbefore : (([planOfAlice].foldl (step homeHost fun _ => "") ⟨Db.empty, []⟩).db.get "m-1").map
      (fun r => Db.ownerOf r.toMemory) = some (some "alice") := by decide
  have hafter : ((forgottenAndBack.foldl (step homeHost fun _ => "") ⟨Db.empty, []⟩).db.get "m-1").map
      (fun r => Db.ownerOf r.toMemory) = some none := by decide
  have hheld : ∀ s ∈ states (step homeHost fun _ => "") ([planOfAlice].foldl (step homeHost fun _ => "") ⟨Db.empty, []⟩)
      (forgottenAndBack.drop 1), (s.db.get "m-1").isSome ∨ (s.db.archived.find "m-1").isSome := by decide
  obtain ⟨r, hr, howner⟩ := Option.map_eq_some_iff.mp hbefore
  obtain ⟨r', hr', hnone⟩ := Option.map_eq_some_iff.mp hafter
  have halice := h [planOfAlice] (forgottenAndBack.drop 1) [] rfl "m-1" r "alice" hr howner
    (fun s hs => (hheld s hs).imp Option.isSome_iff_ne_none.mp Option.isSome_iff_ne_none.mp) r' hr'
  cases hnone.symm.trans halice

end Provenance

end AiMemory
