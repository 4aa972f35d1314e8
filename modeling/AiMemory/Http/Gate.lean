import AiMemory.Http.Memories

/-!
# Endpoints around the gate

`create_memory` and `delete_memory` ask `enforce_governance` before they write. `bulk_create`, `import_memories`,
`update_memory` and `consolidate_memories` write memories without asking, and `forget_memories`, `archive_by_ids` and
`consolidate_memories` remove them without asking. A request on those respects the policies exactly as far as it touches no
row that they protect (`respects_iff_spares`).
-/

namespace AiMemory

open Relational

/-- A request created no row of the namespace, and rewrote none. -/
structure Unwritten (ns : String) (db db' : Db) : Prop where
  created : ∀ r' ∈ db'.memories, r'.ns = ns → r' ∈ db.memories
  rewritten : ∀ r ∈ db.memories, r.ns = ns → ∀ r' ∈ db'.memories, r'.id = r.id → r' = r

namespace Gate

open MemoryApi

/-- A request that writes or removes memories. -/
inductive Request where
  | createMemory (header : Option String) (body : CreateMemory)
  | bulkCreate (bodies : List CreateMemory)
  | importMemories (mems : List Memory) (links : List MemoryLink)
  | updateMemory (id : String) (body : UpdateMemory)
  | consolidateMemories (header : Option String) (body : ConsolidateBody)
  | deleteMemory (header : Option String) (id : String)
  | forgetMemories (body : ForgetQuery)
  | archiveByIds (ids : List String) (reason : Option String)

variable (app : App) (t : Draw app.chrono)

def Request.run (db : Db) : Request → Db
  | createMemory header body => (MemoryApi.createMemory app t header body db).1
  | bulkCreate bodies => (MemoryApi.bulkCreate app t bodies db).1
  | importMemories mems links => (MemoryApi.importMemories app t mems links db).1
  | updateMemory id body => (MemoryApi.updateMemory app t id body db).1
  | consolidateMemories header body => (MemoryApi.consolidateMemories app t header body db).1
  | deleteMemory header id => (MemoryApi.deleteMemory app t header id db).1
  | forgetMemories body => (MemoryApi.forgetMemories app t body db).1
  | archiveByIds ids reason => (MemoryApi.archiveByIds app t ids reason db).1

/-- The agent is the one the handler resolves. The other handlers resolve none, so anyone may be behind the request. -/
def Request.MadeBy (agentId : String) : Request → Prop
  | createMemory header body => resolveBodyAgentId body.agentId header t.requestId = .ok agentId
  | consolidateMemories header body => resolveBodyAgentId body.agentId header t.requestId = .ok agentId
  | deleteMemory header _ => resolveHttpAgentId header t.requestId = .ok agentId
  | _ => True

/-- `enforce_governance` never allows the action. -/
def Blocks (db : Db) (action : GovernedAction) (ns agentId : String) (memoryOwner : Option String) : Prop :=
  ∀ memoryId payload newId now db', db.enforceGovernance app.mode action ns agentId memoryId memoryOwner payload newId now ≠
    .ok (db', .allow)

/-- The policy keeps the agent from storing in the namespace. -/
def BlocksStore (db : Db) (agentId ns : String) : Prop := Blocks app db .store ns agentId none

/-- The policy keeps the agent from deleting the row. -/
def BlocksDelete (db : Db) (agentId : String) (r : MemoryRow) : Prop :=
  Blocks app db .delete r.ns agentId (Db.ownerOf r.toMemory)

/-- The policies of `db` hold between it and the database after a request. -/
structure Respects (agentId : String) (db db' : Db) : Prop where
  unwritten : ∀ ns, BlocksStore app db agentId ns → Unwritten ns db db'
  unremoved : ∀ r ∈ db.memories, BlocksDelete app db agentId r → db'.get r.id ≠ none

/-- The request is governed, or touches nothing that the policies protect. -/
def Request.Spares (agentId : String) (db : Db) : Request → Prop
  | createMemory _ _ => True
  | deleteMemory _ _ => True
  | bulkCreate bodies => ∀ mem ∈ app.bulkMemories t bodies, ¬BlocksStore app db agentId mem.ns
  | importMemories mems _ => ∀ mem ∈ app.importable mems, ¬BlocksStore app db agentId mem.ns
  | updateMemory id body => Accepts (Validate.validateId id) → Accepts (Validate.validateUpdate app.chrono.rfc3339 body) →
      ∀ target, resolveRow db id = .ok target → ¬db.Collides target body →
      ¬BlocksStore app db agentId target.ns ∧ ¬BlocksStore app db agentId (body.ns.getD target.ns)
  | consolidateMemories header body => Accepts (Validate.validateConsolidate body.ids body.title body.summary body.ns) →
      ∀ agentId' c, resolveBodyAgentId body.agentId header t.requestId = .ok agentId' → db.collect body.ids {} = .ok c →
      Accepts (Validate.validateMetadata (c.metadata body.ids agentId')) → db.get (t.newId 0) = none →
      db.getKey (body.title, body.ns) = none →
      ¬BlocksStore app db agentId body.ns ∧ ∀ r ∈ db.memories, r.id ∈ body.ids → ¬BlocksDelete app db agentId r
  | forgetMemories body => ¬(body.pattern.isNone ∧ body.ns.isNone ∧ body.tier.isNone) →
      ∀ r ∈ db.memories, Db.forgetSelects app.fts body.ns body.pattern body.tier r → ¬BlocksDelete app db agentId r
  | archiveByIds ids _ => ArchiveAccepts ids → ∀ r ∈ db.memories, r.id ∈ ids → ¬BlocksDelete app db agentId r

/-- The writes of the request are new: its batch finds its ids free, and no row it rewrites has its stamp yet. -/
def Request.Lands (db : Db) : Request → Prop
  | bulkCreate bodies => Db.Lands db (app.bulkMemories t bodies) ∧
      ∀ mem ∈ app.bulkMemories t bodies, ¬db.HasStamp mem.key mem.updatedAt
  | importMemories mems _ => Db.Lands db (app.importable mems) ∧
      ∀ mem ∈ app.importable mems, ¬db.HasStamp mem.key mem.updatedAt
  | updateMemory id _ => ∀ target, resolveRow db id = .ok target → target.updatedAt ≠ t.now.text
  | _ => True

/-! ## What is left alone -/

section Frames

variable {app} {t}
variable {db d db' : Db} {ns agentId : String} {mems : List Memory}

theorem unwritten_of_sameIn (h : SameIn ns db d) (hsub : ∀ r ∈ db'.memories, r ∈ d.memories) : Unwritten ns db db' where
  created r' hr' hns := (h r' hns).mp (hsub r' hr')
  rewritten r hr hns r' hr' hid := Indexed.eq_of_pk (hsub r' hr') ((h r hns).mpr hr) hid

theorem Respects.refl (h : db'.memories = db.memories) : Respects app agentId db db' where
  unwritten ns _ := unwritten_of_sameIn (SameIn.refl ns db) fun r hr => h ▸ hr
  unremoved r hr _ := by
    unfold Db.get
    rw [h, Indexed.find_of_mem hr]
    exact nofun

theorem respects_of_removed (hsub : ∀ r ∈ db'.memories, r ∈ db.memories)
    (hkeep : ∀ r ∈ db.memories, BlocksDelete app db agentId r → db'.get r.id ≠ none) : Respects app agentId db db' where
  unwritten ns _ := unwritten_of_sameIn (SameIn.refl ns db) hsub
  unremoved := hkeep

theorem get_insertAll_ne_none {id : String} (h : db.get id ≠ none) : (db.insertAll mems).get id ≠ none :=
  Machine.foldl_induct (P := fun d : Db => d.get id ≠ none) (fun d mem _ hd => (Db.liveOn_insertOrSkip d mem).get_ne_none hd) h

/-- A batch respects the policies when none of its memories lies in a namespace that blocks the agent. -/
theorem respects_insertAll (h : ∀ mem ∈ mems, ¬BlocksStore app db agentId mem.ns) (hd : d.memories = (db.insertAll mems).memories) :
    Respects app agentId db d where
  unwritten ns hns := by
    have hsame : SameIn ns db (db.insertAll mems) := Db.sameIn_insertAll fun m hm e => h m hm (e ▸ hns)
    exact unwritten_of_sameIn hsame fun r hr => hd ▸ hr
  unremoved r hr _ := by
    have hlive : (db.insertAll mems).get r.id ≠ none := get_insertAll_ne_none (by rw [Db.get_of_mem hr]; exact nofun)
    unfold Db.get at hlive ⊢
    rwa [hd]

theorem not_blocks_of_respects (hlands : Db.Lands db mems) (hnew : ∀ mem ∈ mems, ¬db.HasStamp mem.key mem.updatedAt)
    (hd : d.memories = (db.insertAll mems).memories) (h : Respects app agentId db d) :
    ∀ mem ∈ mems, ¬BlocksStore app db agentId mem.ns := by
  intro mem hmem hblocks
  obtain ⟨r, hr, hstamp⟩ := Db.hasStamp_insertAll hlands mem hmem
  obtain ⟨hrow, hkey⟩ := Db.getKey_eq_some.mp hr
  have hold : r ∈ db.memories := (h.unwritten mem.ns hblocks).created r (by rwa [hd]) (congrArg Prod.snd hkey)
  exact hnew mem hmem ⟨r, hkey ▸ Db.getKey_of_mem hold, hstamp⟩

end Frames

/-! ## One request -/

section Requests

variable {app} {t}
variable {db : Db} {agentId : String}

variable {header : Option String}

/-- The store goes through the gate, with the agent that the request resolves to. -/
theorem respects_createMemory {body : CreateMemory}
    (hby : resolveBodyAgentId body.agentId header t.requestId = .ok agentId) :
    Respects app agentId db (MemoryApi.createMemory app t header body db).1 := by
  rcases createMemory_cases app t header body db with ⟨h, -⟩ | ⟨mem, -, -, hqueue⟩ | ⟨mem, db₁, id, hprep, hgate, hi, h⟩
  · exact Respects.refl (by rw [h])
  · obtain ⟨-, row, table, -, -, -, -, -, -, hdb⟩ := Db.queuePendingAction_eq_ok hqueue
    exact Respects.refl (by rw [hdb])
  · rw [ownerOf_prepare hby hprep, Option.getD_some] at hgate
    obtain ⟨f, hf, hget⟩ := get_refresh app db₁ id (body.title ++ " " ++ body.content)
    have hstored := Db.insertOrSkip_of_ok hi
    rw [h]
    constructor
    · intro ns hblocks
      have hne : mem.ns ≠ ns := by
        rintro rfl
        exact hblocks _ _ _ _ _ hgate
      refine unwritten_of_sameIn (d := app.refresh db₁ id _) (SameIn.trans (hstored ▸ Db.sameIn_insertOrSkip hne) ?_)
        fun _ hr => hr
      -- the refreshed row is the stored one, in another namespace
      rintro r rfl
      rw [mem_iff_get, mem_iff_get, hget]
      by_cases hid : r.id = id
      · obtain ⟨x, hx⟩ := Db.get_insertOnConflict_self hi
        have hns : x.ns = mem.ns := congrArg Prod.snd (Db.key_insertOnConflict_self hi hx)
        rw [hid, hx, Option.map_some, if_pos rfl]
        refine iff_of_false (fun e => ?_) fun e => ?_
        · cases e
          exact hne (hns.symm.trans (congrArg Memory.ns (hf x)).symm)
        · cases e
          exact hne hns.symm
      · simp only [if_neg hid, Option.map_id']
    · intro r hr _
      have hlive : db₁.get r.id ≠ none := by
        rw [← hstored]
        exact (Db.liveOn_insertOrSkip _ mem).get_ne_none (Db.get_ne_none_iff.mpr ⟨r, hr, rfl⟩)
      rw [hget]
      exact fun hnone => hlive (Option.map_eq_none_iff.mp hnone)

theorem respects_deleteMemory {id : String}
    (hby : resolveHttpAgentId header t.requestId = .ok agentId) :
    Respects app agentId db (MemoryApi.deleteMemory app t header id db).1 := by
  rcases deleteMemory_cases app t header id db with h | ⟨target, agentId', payload, -, hqueue⟩ |
    ⟨target, agentId', payload, htarget, hagent, hgate, h⟩
  · exact Respects.refl (by rw [h])
  · obtain ⟨-, row, table, -, -, -, -, -, -, hdb⟩ := Db.queuePendingAction_eq_ok hqueue
    exact Respects.refl (by rw [hdb])
  · cases hby.symm.trans hagent
    rw [h]
    refine respects_of_removed (fun r hr => (Db.mem_deleteMemories.mp hr).1) fun r hr hblocks => ?_
    rw [Db.get_delete]
    split_ifs with hid
    · rw [← hid, Db.get_of_mem hr] at htarget
      cases htarget
      exact absurd hgate (hblocks _ _ _ _ _)
    · rw [Db.get_of_mem hr]
      exact nofun

/-- What an update rewrites is one row. -/
theorem respects_updateMemory_iff {id : String} {u : UpdateMemory} :
    ((Request.updateMemory id u).Spares app t agentId db →
      Respects app agentId db (MemoryApi.updateMemory app t id u db).1) ∧
    ((Request.updateMemory id u).Lands app t db → Respects app agentId db (MemoryApi.updateMemory app t id u db).1 →
      (Request.updateMemory id u).Spares app t agentId db) := by
  rcases updateMemory_cases app t id u db with ⟨h, hnot⟩ | ⟨target, db₁, changed, hid, hvalid, hrow, hu, h⟩
  · exact ⟨fun _ => Respects.refl (by rw [h]), fun _ _ hid hvalid target hrow hfree => absurd (hnot hid hvalid target hrow) hfree⟩
  · have htarget := get_resolveRow hrow
    obtain ⟨hold, -⟩ := Db.get_eq_some.mp htarget
    have hok := (Db.update_isOk_iff t.now.text htarget).mp ⟨db₁, changed, hu⟩
    have hfree : ¬db.Collides target u := hok
    obtain ⟨new, hns, hstamp, hget⟩ := get_updateMemory hu htarget h
    have hnew : new ∈ (MemoryApi.updateMemory app t id u db).1.memories ∧ new.id = target.id :=
      Db.get_eq_some.mp ((hget target.id).trans (if_pos rfl))
    constructor
    · intro hspares
      obtain ⟨hfrom, hto⟩ := hspares hid hvalid target hrow hfree
      refine ⟨fun ns hblocks => ?_, fun r hr _ => ?_⟩
      · have hsame : SameIn ns db (MemoryApi.updateMemory app t id u db).1 := by
          intro r hr
          rw [mem_iff_get, mem_iff_get, hget]
          split_ifs with hr'
          · subst hr
            rw [hr', htarget]
            refine iff_of_false (fun e => ?_) fun e => ?_
            · cases e
              exact hto (hns ▸ hblocks)
            · cases e
              exact hfrom hblocks
          · rfl
        exact unwritten_of_sameIn hsame fun _ hr => hr
      · rw [hget]
        split_ifs
        · exact nofun
        · rw [Db.get_of_mem hr]
          exact nofun
    · intro hlands hresp _ _ target' hrow' _
      cases hrow.symm.trans hrow'
      have hne : new ≠ target := fun e => hlands target hrow (e ▸ hstamp)
      refine ⟨fun hblocks => ?_, fun hblocks => ?_⟩
      · exact hne ((hresp.unwritten _ hblocks).rewritten target hold rfl new hnew.1 hnew.2)
      · exact hne (Indexed.eq_of_pk ((hresp.unwritten _ hblocks).created new hnew.1 hns) hold hnew.2)

theorem respects_removed_iff {db' : Db} {Q : MemoryRow → Prop} (hsub : ∀ r ∈ db'.memories, r ∈ db.memories)
    (hgone : ∀ r ∈ db.memories, db'.get r.id = none ↔ Q r) :
    Respects app agentId db db' ↔ ∀ r ∈ db.memories, Q r → ¬BlocksDelete app db agentId r := by
  constructor
  · intro hresp r hr hq hblocks
    exact hresp.unremoved r hr hblocks ((hgone r hr).mpr hq)
  · intro hnone
    exact respects_of_removed hsub fun r hr hblocks hget => hnone r hr ((hgone r hr).mp hget) hblocks

theorem get_archiveMemory (db : Db) (id : String) (reason : Option String) (now i : String) :
    (db.archiveMemory id reason now).1.get i = if i = id then none else db.get i := by
  unfold Db.archiveMemory
  split_ifs with hnone hi hi
  · rw [hi]
    exact Option.isNone_iff_eq_none.mp hnone
  · rfl
  · exact (Db.get_delete (db.archiveWhere _ _) id i).trans (if_pos hi)
  · exact (Db.get_delete (db.archiveWhere _ _) id i).trans (if_neg hi)

theorem respects_archiveByIds_iff {ids : List String} {reason : Option String} :
    Respects app agentId db (MemoryApi.archiveByIds app t ids reason db).1 ↔
      (Request.archiveByIds ids reason).Spares app t agentId db := by
  rcases archiveByIds_fst app t ids reason db with ⟨hnot, h⟩ | ⟨haccepts, h⟩ <;> rw [h]
  · exact iff_of_true (Respects.refl rfl) fun haccepts => absurd haccepts hnot
  · have hget : ∀ i, (ids.foldl (fun d id => (d.archiveMemory id (some (reason.getD "archive")) t.now.text).1) db).get i =
        if i ∈ ids then none else db.get i :=
      Db.get_foldl_remove (fun d id i => get_archiveMemory d id (some (reason.getD "archive")) t.now.text i) ids
    refine (respects_removed_iff (Q := fun r => r.id ∈ ids) (fun r hr => ?_) fun r hr => ?_).trans
      ⟨fun hs _ => hs, fun hs => hs haccepts⟩
    · rw [mem_iff_get, hget] at hr
      split_ifs at hr
      exact mem_iff_get.mpr hr
    · rw [hget, Db.get_of_mem hr]
      simp

theorem respects_forgetMemories_iff {body : ForgetQuery} :
    Respects app agentId db (MemoryApi.forgetMemories app t body db).1 ↔
      (Request.forgetMemories body).Spares app t agentId db := by
  unfold MemoryApi.forgetMemories Request.Spares
  cases hf : db.forget app.fts body.ns body.pattern body.tier app.archiveOnGc t.now.text with
  | error e =>
    refine iff_of_true (Respects.refl rfl) fun hne => ?_
    unfold Db.forget at hf
    rw [if_neg hne] at hf
    cases hf
  | ok res =>
    obtain ⟨db', n⟩ := res
    have hne : ¬(body.pattern.isNone ∧ body.ns.isNone ∧ body.tier.isNone) := by
      intro hempty
      unfold Db.forget at hf
      rw [if_pos hempty] at hf
      cases hf
    have hget : ∀ i, db'.get i = (db.get i).filter fun r => !Db.forgetSelects app.fts body.ns body.pattern body.tier r := by
      intro i
      rw [Db.forget_eq_ok hf, Db.get_deleteMemories]
      cases app.archiveOnGc <;> rfl
    refine (respects_removed_iff (fun r hr => ?_) fun r hr => ?_).trans ⟨fun hs _ => hs, fun hs => hs hne⟩
    · rw [mem_iff_get, hget, Option.filter_eq_some_iff] at hr
      exact mem_iff_get.mpr hr.1
    · rw [hget, Db.get_of_mem hr]
      simp

/-- A consolidation adds a row and removes its sources. -/
theorem respects_consolidateMemories_iff {body : ConsolidateBody} :
    Respects app agentId db (MemoryApi.consolidateMemories app t header body db).1 ↔
      (Request.consolidateMemories header body).Spares app t agentId db := by
  unfold Request.Spares
  rcases consolidateMemories_cases app t header body db with ⟨h, hnot⟩ | ⟨agentId', id, hvalid, hagent, hc⟩
  · rw [h]
    refine iff_of_true (Respects.refl rfl) fun hvalid agentId' c hagent hcollect hmeta hid hkey => ?_
    obtain ⟨res, hres⟩ := Db.consolidate_isOk_iff.mpr ⟨c, hcollect, hmeta, hid, hkey⟩
    exact absurd hres (hnot agentId' res.1 res.2 hvalid hagent)
  · obtain ⟨c, hcollect, hmeta, hid, hkey⟩ := Db.consolidate_isOk_iff.mp ⟨_, hc⟩
    obtain ⟨c', table, ht, hdb⟩ := Db.consolidate_cases hc
    generalize hnew : Consolidation.row c' (t.newId 0) body.title body.summary body.ns (body.tier.getD .long)
      "consolidation" t.now.text (c'.metadata body.ids agentId') = new at ht
    have hnewId : new.id = t.newId 0 := by rw [← hnew]; rfl
    have hnewNs : new.ns = body.ns := by rw [← hnew]; rfl
    have hget : ∀ i, (MemoryApi.consolidateMemories app t header body db).1.get i =
        if i ∈ body.ids then none else table.find i := by
      intro i
      rw [hdb]
      exact Db.get_foldl_remove Db.get_delete body.ids i
    have hlive := Db.get_of_collect hcollect
    have hother : new ∉ db.memories := fun hmem => by
      rw [← hnewId, Db.get_of_mem hmem] at hid
      cases hid
    constructor
    · intro hresp _ _ _ _ _ _ _ _
      refine ⟨fun hblocks => ?_, fun r hr hsource hblocks => hresp.unremoved r hr hblocks ?_⟩
      · refine hother ((hresp.unwritten _ hblocks).created new ?_ hnewNs)
        rw [mem_iff_get, hget, if_neg fun hsource => hlive _ hsource (hnewId ▸ hid)]
        exact Indexed.find_of_mem ((Indexed.mem_insertNew? ht).mpr (Or.inr rfl))
      · rw [hget, if_pos hsource]
    · intro hspares
      obtain ⟨hstore, hdelete⟩ := hspares hvalid agentId' c hagent hcollect hmeta hid hkey
      constructor
      · intro ns hblocks
        refine unwritten_of_sameIn (d := { db with memories := table }) (fun r hr => ?_) fun r hr => ?_
        · refine (Indexed.mem_insertNew? ht).trans (or_iff_left ?_)
          rintro rfl
          exact hstore (hnewNs ▸ hr ▸ hblocks)
        · rw [mem_iff_get, hget] at hr
          split_ifs at hr
          exact (Indexed.find_eq_some.mp hr).1
      · intro r hr hblocks
        rw [hget, if_neg fun hsource => hdelete r hr hsource hblocks,
          Indexed.find_of_mem ((Indexed.mem_insertNew? ht).mpr (Or.inl hr))]
        exact nofun

end Requests

/-- A request that touches nothing protected respects the policies; and one whose writes are new does so only then. -/
theorem respects_iff_spares (app : App) (t : Draw app.chrono) (agentId : String) (db : Db) (req : Request)
    (hby : req.MadeBy app t agentId) :
    (req.Spares app t agentId db → Respects app agentId db (req.run app t db)) ∧
      (req.Lands app t db → Respects app agentId db (req.run app t db) → req.Spares app t agentId db) := by
  cases req with
  | createMemory header body => exact ⟨fun _ => respects_createMemory hby, fun _ _ => trivial⟩
  | deleteMemory header id => exact ⟨fun _ => respects_deleteMemory hby, fun _ _ => trivial⟩
  | updateMemory id body => exact respects_updateMemory_iff
  | consolidateMemories header body =>
    exact ⟨respects_consolidateMemories_iff.mpr, fun _ => respects_consolidateMemories_iff.mp⟩
  | forgetMemories body => exact ⟨respects_forgetMemories_iff.mpr, fun _ => respects_forgetMemories_iff.mp⟩
  | archiveByIds ids reason => exact ⟨respects_archiveByIds_iff.mpr, fun _ => respects_archiveByIds_iff.mp⟩
  | bulkCreate bodies =>
    have hd := congrArg Db.memories (bulkCreate_fst app t bodies db)
    exact ⟨fun h => respects_insertAll h hd, fun ⟨hlands, hnew⟩ h => not_blocks_of_respects hlands hnew hd h⟩
  | importMemories mems links =>
    obtain ⟨written, hlinks⟩ := importMemories_fst app t mems links db
    have hd := congrArg Db.memories hlinks
    exact ⟨fun h => respects_insertAll h hd, fun ⟨hlands, hnew⟩ h => not_blocks_of_respects hlands hnew hd h⟩

/-- The gate blocks an action in the mode `enforce`, when the level of the policy does not allow it. -/
theorem blocks_iff {app : App} {db : Db} {action : GovernedAction} {ns agentId : String} {memoryOwner : Option String} :
    Blocks app db action ns agentId memoryOwner ↔ app.mode = .enforce ∧ ∃ policy, db.resolveGovernancePolicy ns = some policy ∧
      db.evaluateLevel (policy.levelFor action) agentId memoryOwner (if action = .store then db.namespaceOwner ns else none) ≠
        .allow := by
  unfold Blocks Db.enforceGovernance
  cases app.mode with
  | off => exact iff_of_false (fun h => h none .null "" "" db rfl) (fun h => nomatch h.1)
  | advisory =>
    refine iff_of_false (fun h => h none .null "" "" db ?_) (fun h => nomatch h.1)
    cases db.resolveGovernancePolicy ns <;> rfl
  | enforce =>
    cases db.resolveGovernancePolicy ns with
    | none => exact iff_of_false (fun h => h none .null "" "" db rfl) fun ⟨_, _, h, _⟩ => nomatch h
    | some policy =>
      simp only [reduceCtorEq, if_false, true_and, Option.some.injEq, exists_eq_left']
      generalize db.evaluateLevel (policy.levelFor action) agentId memoryOwner
        (if action = .store then db.namespaceOwner ns else none) = decision
      cases decision with
      | allow => exact iff_of_false (fun h => h none .null "" "" db rfl) (fun h => h rfl)
      | deny reason => exact iff_of_true (fun _ _ _ _ _ h => nomatch h) nofun
      | pending id =>
        refine iff_of_true (fun memoryId payload newId now db' h => ?_) nofun
        simp only at h
        split at h <;> cases h

/-! ## The back door -/

/-- The namespace `vault`, where only `alice` stores and only owners delete. -/
def vault : Db :=
  let standard := Db.standardMemory "s-9" "vault" (.obj [("agent_id", .str "alice"),
    ("governance", .obj [("delete", .str "owner"), ("write", .str "owner")])])
  let key := { Db.standardMemory "m-1" "vault" (.obj [("agent_id", .str "alice")]) with title := "Key", tier := .short }
  { Db.empty with
    memories := ⟨⟨[standard.toRow, key.toRow], by decide⟩, by decide⟩
    namespaceMeta := ⟨[⟨"vault", "s-9", none, "2026-01-05T00:00:00+00:00"⟩], by decide⟩ }

/-- `alice` folds the memories of the vault into one. -/
def rotate : Request :=
  .consolidateMemories none ⟨["m-1", "s-9"], "Keys", "rotated", "vault", none, some "alice"⟩

theorem rotate_respects : Respects node "alice" vault (rotate.run node (draw nine ["m-2"]) vault) ∧
    (rotate.run node (draw nine ["m-2"]) vault).get "m-1" = none := by
  refine ⟨(respects_iff_spares node (draw nine ["m-2"]) "alice" vault rotate rfl).1 ?_, by decide +kernel⟩
  intro _ agentId' c _ _ _ _ _
  refine ⟨fun h => ?_, fun r hr _ h => ?_⟩
  · obtain ⟨-, policy, hpolicy, hlevel⟩ := blocks_iff.mp h
    cases hpolicy
    exact hlevel (by decide)
  · obtain ⟨-, policy, hpolicy, hlevel⟩ := blocks_iff.mp h
    rcases List.mem_pair.mp hr with rfl | rfl <;> cases hpolicy <;> exact hlevel (by decide)

/-- `bob` stores the title of a memory that the vault has. -/
def overwrite : Request := .bulkCreate [request "vault" "Key" "forged" "bob"]

/-- `bob` archives it. -/
def carryOff : Request := .archiveByIds ["m-1"] none

/-- The policy denies both to `bob`, and refuses a store of his; the two other endpoints carry them out. -/
theorem bob_walks_in : BlocksStore node vault "bob" "vault" ∧
    (∃ r ∈ vault.memories, r.id = "m-1" ∧ BlocksDelete node vault "bob" r) ∧
    ((Request.createMemory none (request "vault" "Key" "forged" "bob")).run node (draw nine ["m-2"]) vault).get "m-1" =
      vault.get "m-1" ∧
    ((overwrite.run node (draw nine ["m-2"]) vault).get "m-1").map (fun r => r.content) = some "forged" ∧
    (carryOff.run node (draw nine []) vault).get "m-1" = none ∧
    ¬Respects node "bob" vault (overwrite.run node (draw nine ["m-2"]) vault) ∧
    ¬Respects node "bob" vault (carryOff.run node (draw nine []) vault) := by
  have hstore : BlocksStore node vault "bob" "vault" := blocks_iff.mpr ⟨rfl, _, rfl, by decide⟩
  have hkey : ∃ r ∈ vault.memories, r.id = "m-1" ∧ BlocksDelete node vault "bob" r :=
    ⟨_, List.mem_cons_of_mem _ List.mem_cons_self, rfl, blocks_iff.mpr ⟨rfl, _, rfl, by decide⟩⟩
  have hwritten : ((overwrite.run node (draw nine ["m-2"]) vault).get "m-1").map (fun r => (r.content, r.ns)) =
      some ("forged", "vault") := by decide
  have hgone : (carryOff.run node (draw nine []) vault).get "m-1" = none := by decide
  refine ⟨hstore, hkey, by decide, by decide, hgone, fun h => ?_, fun h => ?_⟩
  · obtain ⟨r, hr, hcontent⟩ := Option.map_eq_some_iff.mp hwritten
    have hns : r.ns = "vault" := congrArg Prod.snd hcontent
    have hold := (h.unwritten "vault" hstore).created r (Db.get_eq_some.mp hr).1 hns
    rcases List.mem_pair.mp hold with rfl | rfl <;> exact absurd hcontent (by decide)
  · obtain ⟨r, hr, hid, hblocks⟩ := hkey
    exact h.unremoved r hr hblocks (hid ▸ hgone)

end Gate

end AiMemory
