import AiMemory.Http.Gate
import AiMemory.Mcp.Merge

/-!
# Tools around the rules

`handle_store` and `handle_delete` ask the permission rules about the namespace of the row that they write or remove. `handle_update` and
`handle_forget` ask nothing, `handle_promote` asks nothing about the namespace that it clones into, and `handle_consolidate` asks about an
operation of its own. A call of those obeys a denial exactly as far as it touches no row of the denied namespaces (`obeys_iff_spares`).
-/

namespace AiMemory

namespace Mcp

open MemoryApi Relational Validate
open Gate (unwritten_of_sameIn)

/-- The rules deny the agent the operation in the namespace. The payload plays no part. -/
def Host.Denies (h : Host) (n : Node) (op : Permissions.Op) (agentId ns : String) : Prop :=
  ∃ reason, h.evaluate n op ns agentId .null = .deny reason

/-- No row is created or rewritten in a namespace where the agent may not store. -/
def StoresObeyed (h : Host) (agentId : String) (n : Node) (db : Db) : Prop :=
  ∀ ns, h.Denies n .memoryStore agentId ns → Unwritten ns n.db db

/-- No row is removed from a namespace where the agent may not delete. -/
def DeletesObeyed (h : Host) (agentId : String) (n : Node) (db : Db) : Prop :=
  ∀ r ∈ n.db.memories, h.Denies n .memoryDelete agentId r.ns → db.get r.id ≠ none

variable {h : Host}

/-- The agent is the one that `resolve_agent_id` gives for the parameters of the call. -/
def Call.MadeBy (c : Call h) (agentId : String) (n : Node) : Prop :=
  match c.tool with
  | .store => ∀ req, h.storeRequest c.draw c.params c.mcpClient n.db = .ok req → req.agentId = agentId
  | _ => h.process.resolveAgentId (strParam c.params "agent_id") c.mcpClient = .ok agentId

/-- The call obeys the denials of stores and of deletions, as far as its tool is about them. -/
def Call.Obeys (c : Call h) (agentId : String) (n : Node) : Prop :=
  match c.tool with
  | .store | .update => StoresObeyed h agentId n (c.dispatch n).1.db
  | .promote => (strParam c.params "to_namespace").isSome → StoresObeyed h agentId n (c.dispatch n).1.db
  | .delete | .forget => DeletesObeyed h agentId n (c.dispatch n).1.db
  | .consolidate => StoresObeyed h agentId n (c.dispatch n).1.db ∧ DeletesObeyed h agentId n (c.dispatch n).1.db
  | .link | .pendingApprove | .pendingReject => True

/-- The call asks about the row it touches, or touches none that the rules protect. -/
def Call.Spares (c : Call h) (agentId : String) (n : Node) : Prop :=
  match c.tool with
  | .update => ∀ target u, Resolves c.params n target → h.updateRequest c.params = .ok u → ¬n.db.Collides target u →
      ¬h.Denies n .memoryStore agentId target.ns ∧ ¬h.Denies n .memoryStore agentId (u.ns.getD target.ns)
  | .promote => ∀ target toNs, Resolves c.params n target → strParam c.params "to_namespace" = some toNs →
      n.db.enforceGovernance h.app.mode .promote target.ns agentId (some target.id) (Db.ownerOf target.toMemory)
        (.obj [("id", .str target.id), ("to_namespace", .str toNs)]) (c.draw.newId 0) c.draw.now.text = .ok (n.db, .allow) →
      Accepts (validateNamespace toNs) → toNs ≠ "" → toNs ≠ target.ns → toNs ∈ namespaceAncestors target.ns →
      ¬h.Denies n .memoryStore agentId toNs
  | .forget => Forgets c.params → ∀ r ∈ n.db.memories, h.forgets c.params r → ¬h.Denies n .memoryDelete agentId r.ns
  | .consolidate => ∀ req fold, h.consolidateRequest c.params n.db = .ok req →
      (∀ payload, h.Permits n .memoryConsolidate req.ns agentId payload) → n.db.collect req.ids {} = .ok fold →
      Accepts (validateMetadata (fold.metadata req.ids agentId)) → n.db.get (c.draw.newId 0) = none →
      n.db.getKey (req.title, req.ns) = none →
      ¬h.Denies n .memoryStore agentId req.ns ∧ ∀ r ∈ n.db.memories, r.id ∈ req.ids → ¬h.Denies n .memoryDelete agentId r.ns
  | .store | .delete | .link | .pendingApprove | .pendingReject => True

/-- What the call writes is new: no row that it rewrites has its stamp yet, and the id of a clone is free. -/
def Call.Lands (c : Call h) (n : Node) : Prop :=
  match c.tool with
  | .update => ∀ target, Resolves c.params n target → target.updatedAt ≠ c.draw.now.text
  | .promote => n.db.get (c.draw.newId 1) = none ∧ ∀ target toNs, Resolves c.params n target →
      strParam c.params "to_namespace" = some toNs → ¬n.db.HasStamp (target.title, toNs) c.draw.now.text
  | _ => True

section Frames

variable {n : Node} {agentId ns id now : String} {db : Db} {op : Permissions.Op} {payload : Json}

theorem Host.not_denies_of_permits (hp : h.Permits n op ns agentId payload) : ¬h.Denies n op agentId ns :=
  fun ⟨reason, hd⟩ => hp.1 reason hd

theorem storesObeyed_of_memories (hsame : db.memories = n.db.memories) : StoresObeyed h agentId n db :=
  fun ns _ => unwritten_of_sameIn (SameIn.refl ns n.db) fun _ hr => hsame ▸ hr

theorem deletesObeyed_of_memories (hsame : db.memories = n.db.memories) : DeletesObeyed h agentId n db := by
  intro r hr _
  unfold Db.get
  rw [hsame, Indexed.find_of_mem hr]
  exact nofun

theorem storesObeyed_of_stores (hs : Stores ns id now n.db db) (hallowed : ¬h.Denies n .memoryStore agentId ns) :
    StoresObeyed h agentId n db := by
  intro ns' hdenied
  have hne : ns ≠ ns' := by
    rintro rfl
    exact hallowed hdenied
  exact unwritten_of_sameIn (hs.sameIn hne) fun _ hr => hr

/-- A tool that emits its event through `dispatch` leaves the tables to its handler. -/
theorem Call.dispatch_db (c : Call h) (n : Node) : (c.dispatch n).1.db = (c.handle n).1.db := by
  unfold Call.dispatch
  cases c.tool.action <;> rfl

theorem not_denies_of_written {r : MemoryRow} (hobeys : StoresObeyed h agentId n db) (hr : db.get id = some r)
    (hnew : ∀ x, n.db.get id = some x → x ≠ r) : ¬h.Denies n .memoryStore agentId r.ns := by
  intro hdenied
  obtain ⟨hmem, rfl⟩ := Db.get_eq_some.mp hr
  have hold := (hobeys _ hdenied).created r hmem rfl
  exact hnew r (Db.get_of_mem hold) rfl

end Frames

/-! ## One tool after the other -/

section Calls

variable {n : Node} {agentId : String} {params : Json} {mcpClient : Option String}

variable {t : Draw h.app.chrono}

theorem handleStore_obeys
    (hby : ∀ req, h.storeRequest t params mcpClient n.db = .ok req → req.agentId = agentId) :
    StoresObeyed h agentId n (handleStore h t params mcpClient n).1.db := by
  rcases handleStore_cases h t params mcpClient n with ⟨e, heq⟩ | ⟨req, hreq, ⟨j, heq⟩ | ⟨hpermits, ⟨db, j, -, hqueue, heq⟩ |
    ⟨-, heq⟩⟩⟩
  · rw [heq]
    exact storesObeyed_of_memories rfl
  · rw [heq]
    exact storesObeyed_of_memories rfl
  · obtain ⟨-, row, table, -, -, -, -, -, -, rfl⟩ := Db.queuePendingAction_eq_ok hqueue
    rw [heq]
    exact storesObeyed_of_memories rfl
  · have hallowed := Host.not_denies_of_permits hpermits
    rw [hby req hreq] at hallowed
    rw [heq]
    rcases storeAllowed_cases h mcpClient n (storeRequest_spec hreq).1 with ⟨n', e, heq', hkept⟩ | ⟨dup, db, j, -, heq', hstores⟩ |
      ⟨n', id, j, heq', hstores, -⟩
    · rw [heq', hkept.db]
      exact storesObeyed_of_memories rfl
    · rw [heq']
      exact storesObeyed_of_stores hstores hallowed
    · rw [heq']
      exact storesObeyed_of_stores hstores hallowed

theorem handleDelete_obeys (hby : h.process.resolveAgentId (strParam params "agent_id") mcpClient = .ok agentId) :
    DeletesObeyed h agentId n (handleDelete h t params mcpClient n).1.db := by
  rcases handleDelete_cases h t params mcpClient n with ⟨e, heq⟩ | ⟨j, heq⟩ | ⟨target, agentId', hrow, hagent, hpermits,
    ⟨db, j, -, hqueue, heq⟩ | ⟨-, heq⟩⟩
  · rw [heq]
    exact deletesObeyed_of_memories rfl
  · rw [heq]
    exact deletesObeyed_of_memories rfl
  · obtain ⟨-, row, table, -, -, -, -, -, -, rfl⟩ := Db.queuePendingAction_eq_ok hqueue
    rw [heq]
    exact deletesObeyed_of_memories rfl
  · cases hby.symm.trans hagent
    have hallowed := Host.not_denies_of_permits hpermits
    rw [heq]
    intro r hr hdenied
    show (n.db.delete target.id).1.get r.id ≠ none
    rw [Db.get_delete]
    split_ifs with hid
    · have htarget := hrow.get
      rw [← hid, Db.get_of_mem hr] at htarget
      cases htarget
      exact absurd hdenied hallowed
    · rw [Db.get_of_mem hr]
      exact nofun

theorem handleUpdate_writes {target : MemoryRow} {u : UpdateMemory} {db₁ db : Db} {changed : Bool}
    (hrow : Resolves params n target) (hu : n.db.update target.id (preservedUpdate u target) t.now.text = .ok (db₁, true, changed))
    (hdb : db = db₁ ∨ ∃ text, db = h.app.refresh db₁ target.id text) :
    Writes target.id t.now.text n.db db ∧ FiledIn (u.ns.getD target.ns) target.id db := by
  have hw := writes_of_update hu
  have hfiled : FiledIn ((preservedUpdate u target).ns.getD target.ns) target.id db₁ := filedIn_update hu hrow.get
  rcases hdb with rfl | ⟨text, rfl⟩
  · exact ⟨hw, hfiled⟩
  · exact ⟨hw.refresh h.app text, hfiled.refresh h.app text⟩

theorem handleUpdate_obeys_iff :
    ((∀ target u, Resolves params n target → h.updateRequest params = .ok u → ¬n.db.Collides target u →
        ¬h.Denies n .memoryStore agentId target.ns ∧ ¬h.Denies n .memoryStore agentId (u.ns.getD target.ns)) →
      StoresObeyed h agentId n (handleUpdate h t params n).1.db) ∧
    ((∀ target, Resolves params n target → target.updatedAt ≠ t.now.text) → StoresObeyed h agentId n (handleUpdate h t params n).1.db →
      ∀ target u, Resolves params n target → h.updateRequest params = .ok u → ¬n.db.Collides target u →
        ¬h.Denies n .memoryStore agentId target.ns ∧ ¬h.Denies n .memoryStore agentId (u.ns.getD target.ns)) := by
  rcases handleUpdate_cases h t params n with ⟨⟨e, heq⟩, hno⟩ | ⟨target, u, db₁, db, changed, j, hrow, hreq, hu, hdb, heq⟩
  · rw [heq]
    exact ⟨fun _ => storesObeyed_of_memories rfl, fun _ _ target u hrow hreq hfree => absurd (hno target u hrow hreq) hfree⟩
  · obtain ⟨hw, hfiled⟩ := handleUpdate_writes hrow hu hdb
    have hfree : ¬n.db.Collides target (preservedUpdate u target) :=
      (Db.update_isOk_iff t.now.text hrow.get).mp ⟨db₁, changed, hu⟩
    obtain ⟨new, hnew, hstamp⟩ := hw.stamped
    rw [heq]
    constructor
    · intro hspares ns hdenied
      obtain ⟨hfrom, hto⟩ := hspares target u hrow hreq hfree
      refine unwritten_of_sameIn (hw.sameIn (fun r hr => ?_) fun r hr => ?_) fun _ hr => hr
      · cases hrow.get.symm.trans hr
        rintro rfl
        exact hfrom hdenied
      · rintro rfl
        exact hto (hfiled r hr ▸ hdenied)
    · intro hlands hobeys target' u' hrow' hreq' _
      cases hrow.unique hrow'
      cases hreq.symm.trans hreq'
      have hne : new ≠ target := by
        rintro rfl
        exact hlands new hrow hstamp
      obtain ⟨hold, -⟩ := Db.get_eq_some.mp hrow.get
      obtain ⟨hnewMem, hnewId⟩ := Db.get_eq_some.mp hnew
      constructor
      · exact fun hdenied => hne ((hobeys _ hdenied).rewritten target hold rfl new hnewMem hnewId)
      · rw [← hfiled new hnew]
        refine not_denies_of_written hobeys hnew fun x hx => ?_
        cases hrow.get.symm.trans hx
        exact hne.symm

theorem stores_of_promoteToNamespace {sourceId toNs newId now id : String} {db : Db} {source : MemoryRow}
    (hget : n.db.get sourceId = some source) (hp : n.db.promoteToNamespace sourceId toNs newId now = .ok (db, id)) :
    ∃ db₁ r, Stores toNs id now n.db db₁ ∧ db.memories = db₁.memories ∧ db.get id = some r ∧ r.key = (source.title, toNs) ∧
      r.updatedAt = now := by
  obtain ⟨source', db₁, hget', -, -, hi, hframe⟩ := Db.promoteToNamespace_cases hp
  cases hget.symm.trans hget'
  have hs : Stores toNs id now n.db db₁ := stores_of_insert hi
  obtain ⟨r, hr, hstamp⟩ := hs.stamped
  have hmem : db.memories = db₁.memories := by rw [hframe]
  refine ⟨db₁, r, hs, hmem, ?_, Db.key_insertOnConflict_self hi hr, hstamp⟩
  unfold Db.get at hr ⊢
  rw [hmem, hr]

theorem promoteAllowed_obeys_iff {target : MemoryRow} {toNs : String}
    (hget : n.db.get target.id = some target) (hto : strParam params "to_namespace" = some toNs) :
    ((Accepts (validateNamespace toNs) → toNs ≠ "" → toNs ≠ target.ns → toNs ∈ namespaceAncestors target.ns →
        ¬h.Denies n .memoryStore agentId toNs) → StoresObeyed h agentId n (promoteAllowed t params target n).1.db) ∧
    (n.db.get (t.newId 1) = none → ¬n.db.HasStamp (target.title, toNs) t.now.text →
      StoresObeyed h agentId n (promoteAllowed t params target n).1.db →
      Accepts (validateNamespace toNs) → toNs ≠ "" → toNs ≠ target.ns → toNs ∈ namespaceAncestors target.ns →
        ¬h.Denies n .memoryStore agentId toNs) := by
  rcases promoteAllowed_cases t params hget with ⟨toNs', hto', hcase⟩ | ⟨hnone, -⟩
  · cases hto.symm.trans hto'
    rcases hcase with ⟨⟨e, heq⟩, hno⟩ | ⟨hvalid, db, cloneId, j, hp, heq⟩
    · rw [heq]
      refine ⟨fun _ => storesObeyed_of_memories rfl, fun hfree _ _ hvalid hempty hself hanc => ?_⟩
      obtain ⟨res, hres⟩ := (Db.promoteToNamespace_isOk_iff hfree target.id toNs t.now.text).mpr ⟨hempty, target, hget, hself, hanc⟩
      exact absurd hres (hno hvalid res)
    · obtain ⟨db₁, r, hs, hmem, hr, hkey, hstamp⟩ := stores_of_promoteToNamespace hget hp
      obtain ⟨source, -, hsource, hself, hanc, -, -⟩ := Db.promoteToNamespace_cases hp
      cases hget.symm.trans hsource
      rw [heq]
      constructor
      · intro hspares ns hdenied
        have hempty : toNs ≠ "" := by
          rintro rfl
          unfold Db.promoteToNamespace at hp
          rw [if_pos rfl] at hp
          cases hp
        have hne : toNs ≠ ns := by
          rintro rfl
          exact hspares hvalid hempty hself hanc hdenied
        exact unwritten_of_sameIn (hs.sameIn hne) fun _ hx => hmem ▸ hx
      · intro _ hfresh hobeys _ _ _ _
        rw [← show r.ns = toNs from congrArg Prod.snd hkey]
        refine not_denies_of_written hobeys hr fun x hx => ?_
        rintro rfl
        exact hfresh ⟨x, hkey ▸ Db.getKey_of_mem (Db.get_eq_some.mp hx).1, hstamp⟩
  · rw [hto] at hnone
    cases hnone

theorem handlePromote_obeys_iff {toNs : String}
    (hby : h.process.resolveAgentId (strParam params "agent_id") mcpClient = .ok agentId)
    (hto : strParam params "to_namespace" = some toNs) :
    ((∀ target, Resolves params n target →
        n.db.enforceGovernance h.app.mode .promote target.ns agentId (some target.id) (Db.ownerOf target.toMemory)
          (.obj [("id", .str target.id), ("to_namespace", .str toNs)]) (t.newId 0) t.now.text = .ok (n.db, .allow) →
        Accepts (validateNamespace toNs) → toNs ≠ "" → toNs ≠ target.ns → toNs ∈ namespaceAncestors target.ns →
        ¬h.Denies n .memoryStore agentId toNs) →
      StoresObeyed h agentId n (handlePromote h t params mcpClient n).1.db) ∧
    (n.db.get (t.newId 1) = none → (∀ target, Resolves params n target → ¬n.db.HasStamp (target.title, toNs) t.now.text) →
      StoresObeyed h agentId n (handlePromote h t params mcpClient n).1.db → ∀ target, Resolves params n target →
        n.db.enforceGovernance h.app.mode .promote target.ns agentId (some target.id) (Db.ownerOf target.toMemory)
          (.obj [("id", .str target.id), ("to_namespace", .str toNs)]) (t.newId 0) t.now.text = .ok (n.db, .allow) →
        Accepts (validateNamespace toNs) → toNs ≠ "" → toNs ≠ target.ns → toNs ∈ namespaceAncestors target.ns →
        ¬h.Denies n .memoryStore agentId toNs) := by
  constructor
  · intro hspares
    rcases handlePromote_cases h t params mcpClient n with ⟨e, heq⟩ | ⟨target, agentId', hrow, hagent,
      ⟨db, j, -, hqueue, heq⟩ | ⟨hgate, heq⟩⟩
    · rw [heq]
      exact storesObeyed_of_memories rfl
    · obtain ⟨-, row, table, -, -, -, -, -, -, rfl⟩ := Db.queuePendingAction_eq_ok hqueue
      rw [heq]
      exact storesObeyed_of_memories rfl
    · cases hby.symm.trans hagent
      rw [hto] at hgate
      rw [heq]
      exact (promoteAllowed_obeys_iff hrow.get hto).1 (hspares target hrow hgate)
  · intro hfree hfresh hobeys target hrow hgate
    have heq : handlePromote h t params mcpClient n = promoteAllowed t params target n := by
      unfold handlePromote
      rw [withTarget_of hrow, withAgent_of hby, hto]
      exact governed_of hgate _ _
    rw [heq] at hobeys
    exact (promoteAllowed_obeys_iff hrow.get hto).2 hfree (hfresh target hrow) hobeys

theorem handleForget_obeys_iff :
    DeletesObeyed h agentId n (handleForget h t params n).1.db ↔
      (Forgets params → ∀ r ∈ n.db.memories, h.forgets params r → ¬h.Denies n .memoryDelete agentId r.ns) := by
  rcases handleForget_cases h t params n with ⟨hno, e, heq⟩ | ⟨-, hdry, j, heq⟩ | ⟨hforgets, db, j, heq, -, hget⟩
  · rw [heq]
    exact iff_of_true (deletesObeyed_of_memories rfl) fun hyes => absurd hyes.2 hno
  · rw [heq]
    exact iff_of_true (deletesObeyed_of_memories rfl) fun hyes => absurd (hdry.symm.trans hyes.1) (by decide)
  · have hgone : ∀ r ∈ n.db.memories, db.get r.id = none ↔ h.forgets params r = true := by
      intro r hr
      rw [hget, Db.get_of_mem hr, Option.filter_some]
      cases h.forgets params r <;> simp
    rw [heq]
    constructor
    · intro hobeys _ r hr hselected hdenied
      exact hobeys r hr hdenied ((hgone r hr).mpr hselected)
    · intro hspares r hr hdenied hnone
      exact hspares hforgets r hr ((hgone r hr).mp hnone) hdenied

theorem get_consolidate {ids : List String} {title summary ns source now newId id : String} {tier : Tier} {db : Db}
    (hc : n.db.consolidate ids title summary ns tier source agentId newId now = .ok (db, id)) :
    ∃ new : MemoryRow, new.ns = ns ∧ new.id = id ∧ new ∉ n.db.memories ∧ id ∉ ids ∧
      ∀ i, db.get i = if i = id then some new else if i ∈ ids then none else n.db.get i := by
  cases Db.consolidate_id hc
  obtain ⟨fold, hcollect, -, hfree, -⟩ := Db.consolidate_isOk_iff.mp ⟨_, hc⟩
  obtain ⟨fold', table, ht, hdb⟩ := Db.consolidate_cases hc
  generalize hnew : Consolidation.row fold' newId title summary ns tier source now (fold'.metadata ids agentId) = new at ht
  have hid : new.id = newId := by rw [← hnew]; rfl
  have hns : new.ns = ns := by rw [← hnew]; rfl
  have hsources : newId ∉ ids := fun hmem => Db.get_of_collect hcollect _ hmem hfree
  refine ⟨new, hns, hid, fun hmem => ?_, hsources, fun i => ?_⟩
  · rw [← hid, Db.get_of_mem hmem] at hfree
    cases hfree
  · have hget : db.get i = if i ∈ ids then none else table.find i := by
      rw [hdb]
      exact Db.get_foldl_remove Db.get_delete ids i
    rw [hget]
    by_cases hi : i = newId
    · rw [if_pos hi, hi, if_neg hsources, ← hid]
      exact Indexed.find_of_mem ((Indexed.mem_insertNew? ht).mpr (Or.inr rfl))
    · have hne : new.id ≠ i := fun hsame => hi (hsame.symm.trans hid)
      rw [Indexed.find_insertNew? ht, if_neg hne, Option.or_none, if_neg hi]
      rfl

/-- A consolidation obeys the denials exactly when they leave its namespace and its sources alone. -/
theorem consolidate_obeys_iff {ids : List String} {title summary ns source now newId id text : String} {tier : Tier} {db : Db}
    {agent : String} (hc : n.db.consolidate ids title summary ns tier source agent newId now = .ok (db, id)) :
    (StoresObeyed h agentId n (h.app.refresh db id text) ∧ DeletesObeyed h agentId n (h.app.refresh db id text)) ↔
      ¬h.Denies n .memoryStore agentId ns ∧ ∀ r ∈ n.db.memories, r.id ∈ ids → ¬h.Denies n .memoryDelete agentId r.ns := by
  obtain ⟨new, hns, hid, hnew, hsources, hget⟩ := get_consolidate hc
  obtain ⟨f, hf, hrefresh⟩ := get_refresh h.app db id text
  have hfree : n.db.get id = none := by
    obtain ⟨-, -, -, hfree, -⟩ := Db.consolidate_isOk_iff.mp ⟨_, hc⟩
    rwa [Db.consolidate_id hc]
  have hrow : ∀ i, (h.app.refresh db id text).get i = if i = id then some (f new) else if i ∈ ids then none else n.db.get i := by
    intro i
    rw [hrefresh, hget]
    by_cases hi : i = id
    · simp only [if_pos hi, Option.map_some]
    · simp only [if_neg hi, Option.map_id']
  have hadded : (h.app.refresh db id text).get id = some (f new) := (hrow id).trans (if_pos rfl)
  have hfns : (f new).ns = ns := (congrArg Memory.ns (hf new)).trans hns
  refine and_congr ⟨fun hobeys => ?_, fun hallowed ns' hdenied => ?_⟩ ⟨fun hobeys r hr hsource hdenied => ?_, fun hspares r hr hdenied => ?_⟩
  · rw [← hfns]
    refine not_denies_of_written hobeys hadded fun x hx => ?_
    rw [hfree] at hx
    cases hx
  · have hne : ns ≠ ns' := by
      rintro rfl
      exact hallowed hdenied
    have hkept : ∀ r ∈ (h.app.refresh db id text).memories, r.ns = ns' → r ∈ n.db.memories := by
      intro r hr hns'
      rw [mem_iff_get, hrow] at hr
      split_ifs at hr
      · cases hr
        exact absurd (hfns.symm.trans hns') hne
      · exact mem_iff_get.mpr hr
    refine ⟨hkept, fun r hr _ r' hr' hsame => ?_⟩
    have hne' : r'.id ≠ id := by
      intro hnewId
      rw [← hnewId, hsame, Db.get_of_mem hr] at hfree
      cases hfree
    rw [mem_iff_get, hrow, if_neg hne'] at hr'
    split_ifs at hr'
    exact Indexed.eq_of_pk (mem_iff_get.mpr hr') hr hsame
  · refine hobeys r hr hdenied ((hrow r.id).trans ?_)
    rw [if_neg fun hnewId : r.id = id => hsources (hnewId ▸ hsource), if_pos hsource]
  · rw [hrow]
    split_ifs with _ hsource
    · exact nofun
    · exact absurd hdenied (hspares r hr hsource)
    · rw [Db.get_of_mem hr]
      exact nofun

theorem handleConsolidate_of {req : ConsolidateRequest} {db : Db} {id : String}
    (hreq : h.consolidateRequest params n.db = .ok req)
    (hagent : h.process.resolveAgentId (strParam params "agent_id") mcpClient = .ok agentId)
    (hpermits : ∀ payload, h.Permits n .memoryConsolidate req.ns agentId payload)
    (hc : n.db.consolidate req.ids req.title req.summary req.ns .long "consolidation" agentId (t.newId 0) t.now.text = .ok (db, id)) :
    ∃ text, (handleConsolidate h t params mcpClient n).1.db = h.app.refresh db id text := by
  refine ⟨req.title ++ " " ++ req.summary, ?_⟩
  unfold handleConsolidate
  rw [hreq]
  simp only
  rw [withAgent_of hagent, permitted_of (hpermits _), hc]

theorem not_consolidates_of_unchanged {req : ConsolidateRequest} {fold : Consolidation}
    (hsame : (handleConsolidate h t params mcpClient n).1 = n)
    (hby : h.process.resolveAgentId (strParam params "agent_id") mcpClient = .ok agentId)
    (hreq : h.consolidateRequest params n.db = .ok req) (hpermits : ∀ payload, h.Permits n .memoryConsolidate req.ns agentId payload)
    (hcollect : n.db.collect req.ids {} = .ok fold) (hmeta : Accepts (validateMetadata (fold.metadata req.ids agentId)))
    (hfree : n.db.get (t.newId 0) = none) : n.db.getKey (req.title, req.ns) ≠ none := by
  intro hkey
  have hok : ∃ res, n.db.consolidate req.ids req.title req.summary req.ns .long "consolidation" agentId (t.newId 0) t.now.text = .ok res :=
    Db.consolidate_isOk_iff.mpr ⟨fold, hcollect, hmeta, hfree, hkey⟩
  obtain ⟨⟨db, id⟩, hc⟩ := hok
  obtain ⟨text, hdb⟩ := handleConsolidate_of hreq hby hpermits hc
  obtain ⟨new, -, -, -, -, hget⟩ := get_consolidate hc
  obtain ⟨r', hr', -⟩ := get_refresh_self h.app text ((hget id).trans (if_pos rfl))
  rw [← hdb, hsame, Db.consolidate_id hc, hfree] at hr'
  cases hr'

theorem handleConsolidate_obeys_iff
    (hby : h.process.resolveAgentId (strParam params "agent_id") mcpClient = .ok agentId) :
    (StoresObeyed h agentId n (handleConsolidate h t params mcpClient n).1.db ∧
      DeletesObeyed h agentId n (handleConsolidate h t params mcpClient n).1.db) ↔
    ∀ req fold, h.consolidateRequest params n.db = .ok req →
      (∀ payload, h.Permits n .memoryConsolidate req.ns agentId payload) → n.db.collect req.ids {} = .ok fold →
      Accepts (validateMetadata (fold.metadata req.ids agentId)) → n.db.get (t.newId 0) = none →
      n.db.getKey (req.title, req.ns) = none →
      ¬h.Denies n .memoryStore agentId req.ns ∧ ∀ r ∈ n.db.memories, r.id ∈ req.ids → ¬h.Denies n .memoryDelete agentId r.ns := by
  rcases handleConsolidate_cases h t params mcpClient n with ⟨e, heq⟩ | ⟨req, agentId', hreq, hagent, ⟨j, -, heq⟩ |
    ⟨hpermits, db, newId, text, j, hc, heq⟩⟩
  · have hsame : (handleConsolidate h t params mcpClient n).1 = n := congrArg Prod.fst heq
    rw [hsame]
    exact iff_of_true ⟨storesObeyed_of_memories rfl, deletesObeyed_of_memories rfl⟩
      fun req fold hreq hpermits hcollect hmeta hfree hkey =>
        absurd hkey (not_consolidates_of_unchanged hsame hby hreq hpermits hcollect hmeta hfree)
  · have hsame : (handleConsolidate h t params mcpClient n).1 = n := congrArg Prod.fst heq
    rw [hsame]
    exact iff_of_true ⟨storesObeyed_of_memories rfl, deletesObeyed_of_memories rfl⟩
      fun req fold hreq hpermits hcollect hmeta hfree hkey =>
        absurd hkey (not_consolidates_of_unchanged hsame hby hreq hpermits hcollect hmeta hfree)
  · cases hby.symm.trans hagent
    rw [heq]
    refine (consolidate_obeys_iff hc).trans ⟨fun hspares req' _ hreq' _ _ _ _ _ => ?_, fun hspares => ?_⟩
    · cases hreq.symm.trans hreq'
      exact hspares
    · obtain ⟨fold, hcollect, hmeta, hfree, hkey⟩ := Db.consolidate_isOk_iff.mp ⟨_, hc⟩
      exact hspares req fold hreq hpermits hcollect hmeta hfree hkey

end Calls

/-- A call that asks, or spares what the rules protect, obeys them; and one whose writes are new obeys them only then. -/
theorem obeys_iff_spares (c : Call h) (agentId : String) (n : Node) (hby : c.MadeBy agentId n) :
    (c.Spares agentId n → c.Obeys agentId n) ∧ (c.Lands n → c.Obeys agentId n → c.Spares agentId n) := by
  obtain ⟨tool, params, mcpClient, draw, tick⟩ := c
  unfold Call.Obeys
  rw [Call.dispatch_db]
  cases tool with
  | store => exact ⟨fun _ => handleStore_obeys hby, fun _ _ => trivial⟩
  | update => exact handleUpdate_obeys_iff
  | delete => exact ⟨fun _ => handleDelete_obeys hby, fun _ _ => trivial⟩
  | promote =>
    constructor
    · intro hspares hsome
      obtain ⟨toNs, hto⟩ := Option.isSome_iff_exists.mp hsome
      exact (handlePromote_obeys_iff hby hto).1 fun target hrow => hspares target toNs hrow hto
    · intro hlands hobeys target toNs hrow hto
      exact (handlePromote_obeys_iff hby hto).2 hlands.1 (fun target hrow => hlands.2 target toNs hrow hto)
        (hobeys (hto ▸ rfl)) target hrow
  | forget => exact ⟨handleForget_obeys_iff.mpr, fun _ => handleForget_obeys_iff.mp⟩
  | consolidate => exact ⟨(handleConsolidate_obeys_iff hby).mpr, fun _ => (handleConsolidate_obeys_iff hby).mp⟩
  | link => exact ⟨fun _ => trivial, fun _ _ => trivial⟩
  | pendingApprove => exact ⟨fun _ => trivial, fun _ _ => trivial⟩
  | pendingReject => exact ⟨fun _ => trivial, fun _ _ => trivial⟩

/-- The host with rules that keep `bob` from storing in `notes` and from deleting there. -/
def guarded : Host :=
  { host with activeRules := [⟨"notes", "memory_store", "bob", .deny, none⟩, ⟨"notes", "memory_delete", "bob", .deny, none⟩] }

/-- A call of a tool for which `m-1` is the plan in `notes`. -/
def guardedCall (tool : Tool) (params : Json) : Call guarded := ⟨tool, params, none, draw nine ["m-2", "p-1"], tickAt nine.text⟩

/-- A sweep over `notes`. -/
def sweepParams (agentId : String) : Json := .obj [("agent_id", .str agentId), ("namespace", .str "notes")]

/-- A sweep of `bob` over `drafts`, and a database with a row there and the plan in `notes`. -/
def draftsParams : Json := .obj [("agent_id", .str "bob"), ("namespace", .str "drafts")]

def desk : Db :=
  { Db.empty with memories := ⟨⟨[plan 5, { plan 5 with id := "m-3", ns := "drafts" }], by decide⟩, by decide⟩ }

/-- `bob` sweeps where no rule denies him. -/
theorem sweep_obeys : guarded.Denies (.start desk) .memoryDelete "bob" "notes" ∧
    (guardedCall .forget draftsParams).Obeys "bob" (.start desk) ∧
    ((guardedCall .forget draftsParams).dispatch (.start desk)).1.db.get "m-3" = none ∧
    ((guardedCall .forget draftsParams).dispatch (.start desk)).1.db.get "m-1" = some (plan 5) := by
  refine ⟨⟨_, rfl⟩, ?_, by decide, by decide⟩
  refine (obeys_iff_spares (guardedCall .forget draftsParams) "bob" (.start desk) rfl).1 fun _ r hr hselected => ?_
  rcases List.mem_pair.mp hr with rfl | rfl
  · exact absurd hselected (by decide)
  · rintro ⟨reason, hdenied⟩
    cases hdenied

/-- The parameters with which `bob` rewrites the plan. -/
def forgeParams : Json := .obj [("agent_id", .str "bob"), ("content", .str "forged"), ("id", .str "m-1")]

/-- The rules deny both to `bob`, and refuse his store and his deletion; the update and the sweep go through. -/
theorem bob_goes_around : guarded.Denies (.start (.single (plan 5))) .memoryStore "bob" "notes" ∧
    guarded.Denies (.start (.single (plan 5))) .memoryDelete "bob" "notes" ∧
    ((guardedCall .delete forgeParams).dispatch (.start (.single (plan 5)))).1.db.get "m-1" = some (plan 5) ∧
    (((guardedCall .update forgeParams).dispatch (.start (.single (plan 5)))).1.db.get "m-1").map (fun r => r.content) =
      some "forged" ∧
    ((guardedCall .forget (sweepParams "bob")).dispatch (.start (.single (plan 5)))).1.db.get "m-1" = none ∧
    ¬(guardedCall .update forgeParams).Obeys "bob" (.start (.single (plan 5))) ∧
    ¬(guardedCall .forget (sweepParams "bob")).Obeys "bob" (.start (.single (plan 5))) := by
  have hstore : guarded.Denies (.start (.single (plan 5))) .memoryStore "bob" "notes" := ⟨_, rfl⟩
  have hdelete : guarded.Denies (.start (.single (plan 5))) .memoryDelete "bob" "notes" := ⟨_, rfl⟩
  have hforged : (((guardedCall .update forgeParams).dispatch (.start (.single (plan 5)))).1.db.get "m-1").map
      (fun r => (r.content, r.ns)) = some ("forged", "notes") := by decide
  have hgone : ((guardedCall .forget (sweepParams "bob")).dispatch (.start (.single (plan 5)))).1.db.get "m-1" = none := by
    decide
  obtain ⟨r, hr, hcontent⟩ := Option.map_eq_some_iff.mp hforged
  refine ⟨hstore, hdelete, by decide, ?_, hgone, fun hobeys => ?_, fun hobeys => ?_⟩
  · rw [hr, Option.map_some, show r.content = "forged" from congrArg Prod.fst hcontent]
  · have hold := (hobeys "notes" hstore).created r (Db.get_eq_some.mp hr).1 (congrArg Prod.snd hcontent)
    cases List.mem_singleton.mp hold
    exact absurd (congrArg Prod.fst hcontent) (by decide)
  · exact hobeys (plan 5) (List.mem_singleton.mpr rfl) hdelete hgone

end Mcp

end AiMemory
