import AiMemory.Mcp.Tools

/-!
# What a tool does

The two gates either end a call or leave the node as it is. Behind them, a tool writes one row of the memories (`Writes`), takes rows
away, or adds a link. One lemma for each handler says which.
-/

namespace AiMemory

namespace Mcp

open MemoryApi Audit Quotas Relational Validate

/-- The row `id` is written, with the stamp `now`, and nothing else. -/
structure Writes (id now : String) (db db' : Db) : Prop where
  frame : db' = { db with memories := db'.memories }
  others : ∀ i, i ≠ id → db'.get i = db.get i
  stamped : ∃ r, db'.get id = some r ∧ r.updatedAt = now

/-- The row `id`, if there is one, is in the namespace. -/
def FiledIn (ns id : String) (db : Db) : Prop := ∀ r, db.get id = some r → r.ns = ns

/-- A row is written that was in the namespace or new, and is in the namespace now. -/
structure Stores (ns id now : String) (db db' : Db) : Prop extends Writes id now db db' where
  before : FiledIn ns id db
  after : FiledIn ns id db'

/-- The tables and the events are the same; the quotas may differ. -/
structure Kept (n n' : Node) : Prop where
  db : n'.db = n.db
  audit : n'.audit = n.audit

section Rows

variable {h : Host} {app : App} {db db₁ db' : Db} {r : MemoryRow} {mem : Memory} {u : UpdateMemory} {id ns now text : String}

theorem Kept.refl (n : Node) : Kept n n := ⟨rfl, rfl⟩

theorem Writes.trans {id : String} (h : Writes id now db db₁) (h' : Writes id now db₁ db') : Writes id now db db' where
  frame := by rw [h'.frame, h.frame]
  others i hi := (h'.others i hi).trans (h.others i hi)
  stamped := h'.stamped

theorem Writes.sameIn (h : Writes id now db db') (hbefore : ∀ r, db.get id = some r → r.ns ≠ ns)
    (hafter : ∀ r, db'.get id = some r → r.ns ≠ ns) : SameIn ns db db' := by
  intro r hr
  rw [mem_iff_get, mem_iff_get]
  by_cases hid : r.id = id
  · rw [hid]
    exact iff_of_false (fun e => hafter r e hr) fun e => hbefore r e hr
  · rw [h.others r.id hid]

theorem Stores.sameIn {ns' : String} (h : Stores ns id now db db') (hne : ns ≠ ns') : SameIn ns' db db' :=
  h.toWrites.sameIn (fun r hr => h.before r hr ▸ hne) fun r hr => h.after r hr ▸ hne

theorem update_in_place (hr : db.get id = some r) (htitle : u.title = none) (hns : u.ns = none) (now : String) :
    ∃ db' changed, db.update id u now = .ok (db', true, changed) ∧ db'.get id = some (applyUpdate u now r) := by
  obtain ⟨hmem, -⟩ := Db.get_eq_some.mp hr
  have hfree : ¬db.Collides r u := by
    rintro ⟨x, hx, hne, hkey⟩
    rw [htitle, hns] at hkey
    exact hne (Indexed.eq_of_uk hx hmem hkey ▸ rfl)
  obtain ⟨db', changed, hu⟩ := (Db.update_isOk_iff now hr).mpr hfree
  refine ⟨db', changed, hu, ?_⟩
  rw [Db.get_update hu, hr, Option.map_some, if_pos rfl]

theorem writes_of_update {changed : Bool} (hu : db.update id u now = .ok (db', true, changed)) : Writes id now db db' := by
  rcases Db.update_cases hu with ⟨-, hno, -⟩ | ⟨existing, hget, -, hframe, -⟩
  · cases hno
  · refine ⟨hframe, fun i hi => ?_, applyUpdate u now existing, ?_, rfl⟩
    · rw [Db.get_update hu]
      simp only [if_neg hi, Option.map_id']
    · rw [Db.get_update hu, hget, Option.map_some, if_pos rfl]

theorem filedIn_update {changed : Bool} (hu : db.update id u now = .ok (db', true, changed)) (hr : db.get id = some r) :
    FiledIn (u.ns.getD r.ns) id db' := by
  intro x hx
  rw [Db.get_update hu, hr, Option.map_some, if_pos rfl] at hx
  cases hx
  rfl

theorem get_insertOnConflict_of_ne {merge : MemoryRow → MemoryRow} {hid : ∀ r, (merge r).id = r.id}
    {hkey : ∀ r, (merge r).key = r.key} {i : String} (h : db.insertOnConflict mem merge hid hkey = .ok (db', id)) (hi : i ≠ id) :
    db'.get i = db.get i := by
  rcases Db.insertOnConflict_cases h with ⟨stored, -, rfl, rfl⟩ | ⟨-, -, rfl, t, ht, rfl⟩
  · rw [Db.get_updateRow]
    simp only [if_neg hi, Option.map_id']
  · show t.find i = _
    rw [Indexed.find_insertNew? ht, if_neg (show mem.toRow.id ≠ i from Ne.symm hi), Option.or_none]
    rfl

theorem stores_of_insert (hi : db.insert mem = .ok (db', id)) : Stores mem.ns id mem.updatedAt db db' := by
  have hns : FiledIn mem.ns id db' := fun r hr => congrArg Prod.snd (Db.key_insertOnConflict_self hi hr)
  refine ⟨⟨Db.insertOnConflict_frame hi, fun i hne => get_insertOnConflict_of_ne hi hne, ?_⟩, fun r hr => ?_, hns⟩
  · obtain ⟨r, hr⟩ := Db.get_insertOnConflict_self hi
    refine ⟨r, hr, ?_⟩
    have hkey := Db.getKey_insertOnConflict hi
    have hrow : db'.getKey mem.key = some r := by
      rw [← Db.key_insertOnConflict_self hi hr]
      exact Db.getKey_of_mem (Db.get_eq_some.mp hr).1
    cases hkey.symm.trans hrow
    cases db.getKey mem.key <;> rfl
  · have hlater := Db.get_insertOnConflict_of_some hi hr
    have hsame := hns _ hlater
    split_ifs at hsame with hk
    · exact congrArg Prod.snd hk
    · exact hsame

theorem get_refresh_self (app : App) (text : String) (hr : db.get id = some r) :
    ∃ r', (app.refresh db id text).get id = some r' ∧ r'.toMemory = r.toMemory := by
  obtain ⟨f, hf, hget⟩ := get_refresh app db id text
  rw [hget, hr, Option.map_some, if_pos rfl]
  exact ⟨f r, rfl, hf r⟩

theorem Writes.refresh (hw : Writes id now db db₁) (app : App) (text : String) : Writes id now db (app.refresh db₁ id text) := by
  obtain ⟨r, hr, hstamp⟩ := hw.stamped
  obtain ⟨r', hr', hsame⟩ := get_refresh_self app text hr
  obtain ⟨f, -, hget⟩ := get_refresh app db₁ id text
  refine ⟨?_, fun i hi => ?_, r', hr', (congrArg Memory.updatedAt hsame).trans hstamp⟩
  · rw [refresh_frame, hw.frame]
  · rw [hget, ← hw.others i hi]
    simp only [if_neg hi, Option.map_id']

theorem FiledIn.refresh (hf : FiledIn ns id db) (app : App) (text : String) : FiledIn ns id (app.refresh db id text) := by
  intro r hr
  cases hold : db.get id with
  | none =>
    obtain ⟨f, -, hget⟩ := get_refresh app db id text
    rw [hget, hold] at hr
    cases hr
  | some x =>
    obtain ⟨r', hr', hsame⟩ := get_refresh_self app text hold
    cases hr'.symm.trans hr
    exact (congrArg Memory.ns hsame).trans (hf x hold)

theorem Writes.persistHooks (hw : Writes id now db db₁) (metadata : Option Json) :
    Writes id now db (persistHooks db₁ id now metadata) := by
  cases metadata with
  | none => exact hw
  | some metadata =>
    obtain ⟨r, hr, -⟩ := hw.stamped
    obtain ⟨db', changed, hu, -⟩ := update_in_place (u := { metadata := some metadata }) hr rfl rfl now
    unfold Mcp.persistHooks
    simp only
    rw [hu]
    exact hw.trans (writes_of_update hu)

theorem FiledIn.persistHooks (hf : FiledIn ns id db) (now : String) (metadata : Option Json) :
    FiledIn ns id (persistHooks db id now metadata) := by
  cases metadata with
  | none => exact hf
  | some metadata =>
    unfold Mcp.persistHooks
    simp only
    split
    · rename_i db' res hu
      obtain ⟨found, changed⟩ := res
      rcases Db.update_cases hu with ⟨-, -, rfl⟩ | ⟨existing, hget, rfl, -, -⟩
      · exact hf
      · exact hf existing hget ▸ filedIn_update hu hget
    · exact hf

theorem Stores.refresh (hs : Stores ns id now db db₁) (app : App) (text : String) : Stores ns id now db (app.refresh db₁ id text) :=
  ⟨hs.toWrites.refresh app text, hs.before, hs.after.refresh app text⟩

theorem Stores.persistHooks (hs : Stores ns id now db db₁) (metadata : Option Json) :
    Stores ns id now db (persistHooks db₁ id now metadata) :=
  ⟨hs.toWrites.persistHooks metadata, hs.before, hs.after.persistHooks now metadata⟩

theorem get_of_resolveId {id : String} {target : MemoryRow} (h : db.resolveId id = .ok (some target)) :
    db.get target.id = some target := by
  have hrow : resolveRow db id = .ok target := by
    unfold resolveRow
    rw [h]
  exact get_resolveRow hrow

end Rows

/-! ## The gates -/

section Gates

variable {h : Host} {n : Node} {op : Permissions.Op} {ns agentId : String} {payload : Json} {params : Json} {mcpClient : Option String}

/-- The rules let the call through. -/
def Host.Permits (h : Host) (n : Node) (op : Permissions.Op) (ns agentId : String) (payload : Json) : Prop :=
  (∀ reason, h.evaluate n op ns agentId payload ≠ .deny reason) ∧ ∀ prompt, h.evaluate n op ns agentId payload ≠ .ask prompt

/-- The rules have the call asked about. -/
def Host.Asks (h : Host) (n : Node) (op : Permissions.Op) (ns agentId : String) : Prop :=
  ∃ prompt, h.evaluate n op ns agentId .null = .ask prompt

theorem permitted_cases (h : Host) (n : Node) (op : Permissions.Op) (ns agentId : String) (payload : Json) (action : String)
    (context : List (String × Json)) (next : Node × Except String Json) :
    (∃ e, permitted h n op ns agentId payload action context next = (n, .error e)) ∨
    (∃ prompt j, h.evaluate n op ns agentId payload = .ask prompt ∧ permitted h n op ns agentId payload action context next = (n, .ok j)) ∨
    (h.Permits n op ns agentId payload ∧ permitted h n op ns agentId payload action context next = next) := by
  unfold permitted Host.Permits
  cases hd : h.evaluate n op ns agentId payload with
  | deny reason => exact Or.inl ⟨_, rfl⟩
  | ask prompt => exact Or.inr (Or.inl ⟨prompt, _, rfl, rfl⟩)
  | allow => exact Or.inr (Or.inr ⟨⟨nofun, nofun⟩, rfl⟩)
  | modify delta => exact Or.inr (Or.inr ⟨⟨nofun, nofun⟩, rfl⟩)

theorem governed_cases (h : Host) (n : Node) (action : GovernedAction) (ns agentId : String) (memoryId memoryOwner : Option String)
    (payload : Json) (newId now : String) (context : List (String × Json)) (next : Node → Node × Except String Json) :
    (∃ e, governed h n action ns agentId memoryId memoryOwner payload newId now context next = (n, .error e)) ∨
    (∃ db j, n.db.queuePendingAction action ns memoryId agentId payload newId now = .ok (db, newId) ∧
      n.db.enforceGovernance h.app.mode action ns agentId memoryId memoryOwner payload newId now = .ok (db, .pending newId) ∧
      governed h n action ns agentId memoryId memoryOwner payload newId now context next = ({ n with db }, .ok j)) ∨
    (n.db.enforceGovernance h.app.mode action ns agentId memoryId memoryOwner payload newId now = .ok (n.db, .allow) ∧
      governed h n action ns agentId memoryId memoryOwner payload newId now context next = next n) := by
  unfold governed
  cases hgate : n.db.enforceGovernance h.app.mode action ns agentId memoryId memoryOwner payload newId now with
  | error e => exact Or.inl ⟨e, rfl⟩
  | ok res =>
    obtain ⟨db, d⟩ := res
    rcases Db.enforceGovernance_cases hgate with ⟨rfl, hno⟩ | ⟨rfl, hqueue⟩
    · cases d with
      | allow => exact Or.inr (Or.inr ⟨rfl, rfl⟩)
      | deny reason => exact Or.inl ⟨_, rfl⟩
      | pending id => exact absurd rfl (hno id)
    · exact Or.inr (Or.inl ⟨db, _, hqueue, rfl, rfl⟩)

/-- The parameter `id` is valid and names the row. -/
def Resolves (params : Json) (n : Node) (target : MemoryRow) : Prop :=
  ∃ id, strParam params "id" = some id ∧ Accepts (validateId id) ∧ n.db.resolveId id = .ok (some target)

theorem Resolves.unique {target target' : MemoryRow} (h : Resolves params n target) (h' : Resolves params n target') : target = target' := by
  obtain ⟨id, hid, -, hrow⟩ := h
  obtain ⟨id', hid', -, hrow'⟩ := h'
  cases hid.symm.trans hid'
  cases hrow.symm.trans hrow'
  rfl

theorem Resolves.get {target : MemoryRow} (h : Resolves params n target) : n.db.get target.id = some target := by
  obtain ⟨id, -, -, hrow⟩ := h
  exact get_of_resolveId hrow

theorem withTarget_cases (params : Json) (n : Node) (next : MemoryRow → Node × Except String Json) :
    ((∃ e, withTarget params n next = (n, .error e)) ∧ ∀ target, ¬Resolves params n target) ∨
    ∃ target, Resolves params n target ∧ withTarget params n next = next target := by
  unfold withTarget required Resolves
  cases hid : strParam params "id" with
  | none => exact Or.inl ⟨⟨_, rfl⟩, fun _ ⟨_, hno, _⟩ => nomatch hno⟩
  | some id =>
    simp only
    cases hvalid : validateId id with
    | error e =>
      refine Or.inl ⟨⟨e, rfl⟩, fun _ ⟨id', hid', hok, _⟩ => ?_⟩
      cases hid'
      cases hvalid.symm.trans hok
    | ok u =>
      cases hrow : n.db.resolveId id with
      | error e =>
        refine Or.inl ⟨⟨e, rfl⟩, fun _ ⟨id', hid', _, hok⟩ => ?_⟩
        cases hid'
        cases hrow.symm.trans hok
      | ok target =>
        cases target with
        | none =>
          refine Or.inl ⟨⟨_, rfl⟩, fun _ ⟨id', hid', _, hok⟩ => ?_⟩
          cases hid'
          cases hrow.symm.trans hok
        | some target => exact Or.inr ⟨target, ⟨id, rfl, hvalid, hrow⟩, rfl⟩

theorem withAgent_cases (h : Host) (params : Json) (mcpClient : Option String) (n : Node)
    (next : String → Node × Except String Json) :
    (∃ e, withAgent h params mcpClient n next = (n, .error e)) ∨ ∃ agentId,
      h.process.resolveAgentId (strParam params "agent_id") mcpClient = .ok agentId ∧
        withAgent h params mcpClient n next = next agentId := by
  unfold withAgent
  cases hagent : h.process.resolveAgentId (strParam params "agent_id") mcpClient with
  | error e => exact Or.inl ⟨e, rfl⟩
  | ok agentId => exact Or.inr ⟨agentId, rfl, rfl⟩

/-! The four of them where the call goes on. -/

theorem withTarget_of {target : MemoryRow} (hrow : Resolves params n target) (next : MemoryRow → Node × Except String Json) :
    withTarget params n next = next target := by
  obtain ⟨id, hid, hvalid, hget⟩ := hrow
  have hok : validateId id = .ok () := hvalid
  unfold withTarget required
  simp only [hid, hok, hget]

theorem withAgent_of (hagent : h.process.resolveAgentId (strParam params "agent_id") mcpClient = .ok agentId)
    (next : String → Node × Except String Json) : withAgent h params mcpClient n next = next agentId := by
  unfold withAgent
  rw [hagent]

theorem permitted_of (hp : h.Permits n op ns agentId payload) (action : String) (context : List (String × Json))
    (next : Node × Except String Json) : permitted h n op ns agentId payload action context next = next := by
  unfold permitted
  split
  · exact absurd ‹_› (hp.1 _)
  · exact absurd ‹_› (hp.2 _)
  · rfl

theorem governed_of {action : GovernedAction} {memoryId memoryOwner : Option String} {newId now : String}
    (hg : n.db.enforceGovernance h.app.mode action ns agentId memoryId memoryOwner payload newId now = .ok (n.db, .allow))
    (context : List (String × Json)) (next : Node → Node × Except String Json) :
    governed h n action ns agentId memoryId memoryOwner payload newId now context next = next n := by
  unfold governed
  rw [hg]

end Gates

/-! ## `handle_store` -/

section Store

variable {h : Host} {t : Draw h.app.chrono} {params : Json} {mcpClient : Option String} {n : Node} {req : StoreRequest}
  {dup : MemoryRow} {now : String}

/-- The memory of a store carries the stamp of the call, and its actor is the agent that the call resolves to. -/
theorem storeRequest_spec {db : Db} (hreq : h.storeRequest t params mcpClient db = .ok req) :
    req.mem.updatedAt = t.now.text ∧ h.process.resolveAgentId ((strParam params "agent_id").or
      (strParam ((objectParam params "metadata").getD (.obj [])) "agent_id")) mcpClient = .ok req.agentId := by
  unfold Host.storeRequest at hreq
  simp only [bind_eq_ok_iff] at hreq
  obtain ⟨title, -, content, -, tier, -, onConflict, -, priority, -, -, -, -, -, -, -, -, -, -, -, -, -, -, -, agentId, hagent, -, -,
    -, -, title', -, hreq⟩ := hreq
  cases hreq
  exact ⟨rfl, hagent⟩

theorem exactDup_spec {db : Db} (hdup : req.exactDup (h.findContradictions db req.mem.title req.mem.ns) = some dup) :
    dup ∈ db.memories ∧ dup.key = req.mem.key := by
  unfold StoreRequest.exactDup at hdup
  split_ifs at hdup
  have hkey : dup.title = req.mem.title ∧ dup.ns = req.mem.ns := by simpa using List.find?_some hdup
  have hmem := List.mem_of_mem_take (List.mem_of_find?_eq_some hdup)
  rw [List.mem_mergeSort, List.mem_filter] at hmem
  exact ⟨hmem.1, Prod.ext hkey.1 hkey.2⟩

theorem storeDuplicate_stores (h : Host) (now : String) {mem : Memory} (hdup : dup ∈ n.db.memories) (hns : dup.ns = mem.ns) :
    ∃ db j, storeDuplicate h now mem dup n = ({ n with db }, .ok j) ∧ Stores mem.ns dup.id now n.db db := by
  have hget : n.db.get dup.id = some dup := Db.get_of_mem hdup
  obtain ⟨db, changed, hu, -⟩ :=
    update_in_place (u := duplicateUpdate mem (preserveAgentId dup.metadata mem.metadata)) hget rfl rfl now
  have hstores : Stores mem.ns dup.id now n.db db := by
    refine ⟨writes_of_update hu, fun r hr => ?_, hns ▸ filedIn_update hu hget⟩
    cases hget.symm.trans hr
    exact hns
  unfold storeDuplicate
  simp only
  rw [hu]
  cases changed with
  | false => exact ⟨db, _, rfl, hstores⟩
  | true => exact ⟨_, _, rfl, hstores.refresh h.app _⟩

theorem storeNew_cases (h : Host) (mcpClient : Option String) (existing : List MemoryRow) (n : Node)
    (hstamp : req.mem.updatedAt = now) :
    (∃ n' e, storeNew h now mcpClient req existing n = (n', .error e) ∧ Kept n n') ∨
    (∃ n' id j, storeNew h now mcpClient req existing n = (n', .ok j) ∧ Stores req.mem.ns id now n.db n'.db ∧
      n'.audit = n.audit ++ [storeEvent mcpClient req id]) := by
  unfold storeNew
  simp only
  generalize charge n.quotas req.agentId (.memory (payloadBytes req.mem)) now = charged
  obtain ⟨quotas, answer⟩ := charged
  cases answer with
  | error e => exact Or.inl ⟨_, _, rfl, ⟨rfl, rfl⟩⟩
  | ok u =>
    cases hi : n.db.insert req.mem with
    | error e => exact Or.inl ⟨_, _, rfl, ⟨rfl, rfl⟩⟩
    | ok res =>
      obtain ⟨db, actualId⟩ := res
      have hstores : Stores req.mem.ns actualId now n.db db := hstamp ▸ stores_of_insert hi
      exact Or.inr ⟨_, actualId, _, rfl, (hstores.refresh h.app _).persistHooks _, rfl⟩

/-- Behind the gates, a store is refused, updates the memory it found, or inserts and reports itself. -/
theorem storeAllowed_cases (h : Host) (mcpClient : Option String) (n : Node) (hstamp : req.mem.updatedAt = now) :
    (∃ n' e, storeAllowed h now mcpClient req n = (n', .error e) ∧ Kept n n') ∨
    (∃ dup db j, req.exactDup (h.findContradictions n.db req.mem.title req.mem.ns) = some dup ∧
      storeAllowed h now mcpClient req n = ({ n with db }, .ok j) ∧ Stores req.mem.ns dup.id now n.db db) ∨
    (∃ n' id j, storeAllowed h now mcpClient req n = (n', .ok j) ∧ Stores req.mem.ns id now n.db n'.db ∧
      n'.audit = n.audit ++ [storeEvent mcpClient req id]) := by
  unfold storeAllowed
  simp only
  cases hdup : req.exactDup (h.findContradictions n.db req.mem.title req.mem.ns) with
  | some dup =>
    obtain ⟨hmem, hkey⟩ := exactDup_spec hdup
    obtain ⟨db, j, heq, hstores⟩ := storeDuplicate_stores h now hmem (congrArg Prod.snd hkey)
    exact Or.inr (Or.inl ⟨dup, db, j, rfl, heq, hstores⟩)
  | none =>
    rcases storeNew_cases h mcpClient (h.findContradictions n.db req.mem.title req.mem.ns) n hstamp with hno | hyes
    · exact Or.inl hno
    · exact Or.inr (Or.inr hyes)

/-- A store is refused, asked about, queued, or let through to `storeAllowed`. -/
theorem handleStore_cases (h : Host) (t : Draw h.app.chrono) (params : Json) (mcpClient : Option String) (n : Node) :
    (∃ e, handleStore h t params mcpClient n = (n, .error e)) ∨
    (∃ req, h.storeRequest t params mcpClient n.db = .ok req ∧
      ((∃ j, handleStore h t params mcpClient n = (n, .ok j)) ∨
      h.Permits n .memoryStore req.mem.ns req.agentId (h.app.memoryToValue req.mem) ∧
      ((∃ db j, n.db.enforceGovernance h.app.mode .store req.mem.ns req.agentId none none (h.app.memoryToValue req.mem) (t.newId 1)
          t.now.text = .ok (db, .pending (t.newId 1)) ∧ n.db.queuePendingAction .store req.mem.ns none req.agentId
          (h.app.memoryToValue req.mem) (t.newId 1) t.now.text = .ok (db, t.newId 1) ∧
          handleStore h t params mcpClient n = ({ n with db }, .ok j)) ∨
      (n.db.enforceGovernance h.app.mode .store req.mem.ns req.agentId none none (h.app.memoryToValue req.mem) (t.newId 1)
          t.now.text = .ok (n.db, .allow) ∧
        handleStore h t params mcpClient n = storeAllowed h t.now.text mcpClient req n)))) := by
  unfold handleStore
  cases hreq : h.storeRequest t params mcpClient n.db with
  | error e => exact Or.inl ⟨e, rfl⟩
  | ok req =>
    rcases permitted_cases h n .memoryStore req.mem.ns req.agentId (h.app.memoryToValue req.mem) "store" _ _ with
      ⟨e, heq⟩ | ⟨prompt, j, -, heq⟩ | ⟨hpermits, heq⟩
    · exact Or.inl ⟨e, heq⟩
    · exact Or.inr ⟨req, rfl, Or.inl ⟨j, heq⟩⟩
    · rcases governed_cases h n .store req.mem.ns req.agentId none none (h.app.memoryToValue req.mem) (t.newId 1) t.now.text
        [("namespace", .str req.mem.ns)] (storeAllowed h t.now.text mcpClient req) with ⟨e, hg⟩ | ⟨db, j, hqueue, hgate, hg⟩ | ⟨hgate, hg⟩
      · exact Or.inl ⟨e, heq.trans hg⟩
      · exact Or.inr ⟨req, rfl, Or.inr ⟨hpermits, Or.inl ⟨db, j, hgate, hqueue, heq.trans hg⟩⟩⟩
      · exact Or.inr ⟨req, rfl, Or.inr ⟨hpermits, Or.inr ⟨hgate, heq.trans hg⟩⟩⟩

end Store

/-! ## The other tools -/

section Tools

/-- An update is refused, or writes the row that its id resolves to. -/
theorem handleUpdate_cases (h : Host) (t : Draw h.app.chrono) (params : Json) (n : Node) :
    ((∃ e, handleUpdate h t params n = (n, .error e)) ∧ ∀ target u, Resolves params n target → h.updateRequest params = .ok u →
      n.db.Collides target u) ∨
    ∃ target u db₁ db changed j, Resolves params n target ∧ h.updateRequest params = .ok u ∧
      n.db.update target.id (preservedUpdate u target) t.now.text = .ok (db₁, true, changed) ∧
      (db = db₁ ∨ ∃ text, db = h.app.refresh db₁ target.id text) ∧ handleUpdate h t params n = ({ n with db }, .ok j) := by
  unfold handleUpdate
  rcases withTarget_cases params n _ with ⟨⟨e, heq⟩, hno⟩ | ⟨target, hrow, heq⟩
  · exact Or.inl ⟨⟨e, heq⟩, fun target _ hrow _ => absurd hrow (hno target)⟩
  rw [heq]
  cases hu : h.updateRequest params with
  | error e => exact Or.inl ⟨⟨e, rfl⟩, fun _ _ _ hok => nomatch hok⟩
  | ok u =>
    simp only
    have hget := hrow.get
    cases hupdate : n.db.update target.id (preservedUpdate u target) t.now.text with
    | error e =>
      refine Or.inl ⟨⟨e, rfl⟩, fun target' u' hrow' hu' => ?_⟩
      cases hrow.unique hrow'
      cases hu'
      by_contra hfree
      obtain ⟨db', changed, hok⟩ :=
        (Db.update_isOk_iff t.now.text hget).mpr (show ¬n.db.Collides target (preservedUpdate u target) from hfree)
      cases hupdate.symm.trans hok
    | ok res =>
      obtain ⟨db, found, changed⟩ := res
      rcases Db.update_cases hupdate with ⟨hnone, -, -⟩ | ⟨existing, -, rfl, -, -⟩
      · rw [hget] at hnone
        cases hnone
      · refine Or.inr ⟨target, u, db, _, changed, _, hrow, rfl, hupdate, ?_, rfl⟩
        rw [Db.get_update hupdate, hget]
        cases changed with
        | false => exact Or.inl rfl
        | true => exact Or.inr ⟨_, rfl⟩

/-- A deletion is refused, asked about, queued, or removes the row and reports itself. -/
theorem handleDelete_cases (h : Host) (t : Draw h.app.chrono) (params : Json) (mcpClient : Option String) (n : Node) :
    (∃ e, handleDelete h t params mcpClient n = (n, .error e)) ∨ (∃ j, handleDelete h t params mcpClient n = (n, .ok j)) ∨
    ∃ target agentId, Resolves params n target ∧
      h.process.resolveAgentId (strParam params "agent_id") mcpClient = .ok agentId ∧
      h.Permits n .memoryDelete target.ns agentId (.obj [("id", .str target.id), ("title", .str target.title)]) ∧
      ((∃ db j, n.db.enforceGovernance h.app.mode .delete target.ns agentId (some target.id) (Db.ownerOf target.toMemory)
          (.obj [("id", .str target.id), ("title", .str target.title)]) (t.newId 0) t.now.text = .ok (db, .pending (t.newId 0)) ∧
        n.db.queuePendingAction .delete target.ns (some target.id) agentId
          (.obj [("id", .str target.id), ("title", .str target.title)]) (t.newId 0) t.now.text = .ok (db, t.newId 0) ∧
        handleDelete h t params mcpClient n = ({ n with db }, .ok j)) ∨
      (n.db.enforceGovernance h.app.mode .delete target.ns agentId (some target.id) (Db.ownerOf target.toMemory)
          (.obj [("id", .str target.id), ("title", .str target.title)]) (t.newId 0) t.now.text = .ok (n.db, .allow) ∧
        handleDelete h t params mcpClient n = ({ n with
          db := (n.db.delete target.id).1
          audit := n.audit ++ [deleteEvent mcpClient target] }, .ok (.obj [("deleted", .bool true)])))) := by
  unfold handleDelete
  rcases withTarget_cases params n _ with ⟨⟨e, heq⟩, -⟩ | ⟨target, hrow, heq⟩
  · exact Or.inl ⟨e, heq⟩
  rcases withAgent_cases h params mcpClient n _ with ⟨e, heq'⟩ | ⟨agentId, hagent, heq'⟩
  · exact Or.inl ⟨e, heq.trans heq'⟩
  rcases permitted_cases h n .memoryDelete target.ns agentId _ "delete" _ _ with ⟨e, hp⟩ | ⟨-, j, -, hp⟩ | ⟨hpermits, hp⟩
  · exact Or.inl ⟨e, heq.trans (heq'.trans hp)⟩
  · exact Or.inr (Or.inl ⟨j, heq.trans (heq'.trans hp)⟩)
  rcases governed_cases h n .delete target.ns agentId (some target.id) (Db.ownerOf target.toMemory) _ (t.newId 0) t.now.text
    [("memory_id", Json.str target.id)] _ with ⟨e, hg⟩ | ⟨db, j, hqueue, hgate, hg⟩ | ⟨hgate, hg⟩
  · exact Or.inl ⟨e, heq.trans (heq'.trans (hp.trans hg))⟩
  · exact Or.inr (Or.inr ⟨target, agentId, hrow, hagent, hpermits, Or.inl ⟨db, j, hgate, hqueue,
      heq.trans (heq'.trans (hp.trans hg))⟩⟩)
  · refine Or.inr (Or.inr ⟨target, agentId, hrow, hagent, hpermits, Or.inr ⟨hgate, (heq.trans (heq'.trans (hp.trans hg))).trans ?_⟩⟩)
    have hfound : (n.db.delete target.id).2 = true := by
      unfold Db.delete
      rw [hrow.get]
      rfl
    rw [show n.db.delete target.id = ((n.db.delete target.id).1, true) from Prod.ext rfl hfound]

/-- A promotion behind its gate is refused, clones the row into an ancestor namespace, or raises its tier. -/
theorem promoteAllowed_cases {c : Chrono} (t : Draw c) (params : Json) {target : MemoryRow} {n : Node}
    (hget : n.db.get target.id = some target) :
    (∃ toNs, strParam params "to_namespace" = some toNs ∧
      (((∃ e, promoteAllowed t params target n = (n, .error e)) ∧ (Accepts (validateNamespace toNs) →
        ∀ res, n.db.promoteToNamespace target.id toNs (t.newId 1) t.now.text ≠ .ok res)) ∨
      (Accepts (validateNamespace toNs) ∧ ∃ db cloneId j,
        n.db.promoteToNamespace target.id toNs (t.newId 1) t.now.text = .ok (db, cloneId) ∧
        promoteAllowed t params target n = ({ n with db }, .ok j)))) ∨
    (strParam params "to_namespace" = none ∧ ∃ db changed j,
      n.db.update target.id promoteUpdate t.now.text = .ok (db, true, changed) ∧
      promoteAllowed t params target n = ({ n with db }, .ok j)) := by
  unfold promoteAllowed
  cases hto : strParam params "to_namespace" with
  | some toNs =>
    refine Or.inl ⟨toNs, rfl, ?_⟩
    simp only
    cases hvalid : validateNamespace toNs with
    | error e =>
      refine Or.inl ⟨⟨e, rfl⟩, fun hok => ?_⟩
      cases hok
    | ok u =>
      cases hp : n.db.promoteToNamespace target.id toNs (t.newId 1) t.now.text with
      | error e => exact Or.inl ⟨⟨e, rfl⟩, fun _ => nofun⟩
      | ok res => exact Or.inr ⟨rfl, res.1, res.2, _, rfl, rfl⟩
  | none =>
    obtain ⟨db, changed, hu, -⟩ := update_in_place (u := promoteUpdate) hget rfl rfl t.now.text
    rw [hu]
    exact Or.inr ⟨rfl, db, changed, _, rfl, rfl⟩

/-- A promotion is refused, queued, or let through to `promoteAllowed`. -/
theorem handlePromote_cases (h : Host) (t : Draw h.app.chrono) (params : Json) (mcpClient : Option String) (n : Node) :
    (∃ e, handlePromote h t params mcpClient n = (n, .error e)) ∨
    ∃ target agentId, Resolves params n target ∧ h.process.resolveAgentId (strParam params "agent_id") mcpClient = .ok agentId ∧
      ((∃ db j, n.db.enforceGovernance h.app.mode .promote target.ns agentId (some target.id) (Db.ownerOf target.toMemory)
          (.obj [("id", .str target.id), ("to_namespace", optStr (strParam params "to_namespace"))]) (t.newId 0) t.now.text =
            .ok (db, .pending (t.newId 0)) ∧ n.db.queuePendingAction .promote target.ns (some target.id) agentId
          (.obj [("id", .str target.id), ("to_namespace", optStr (strParam params "to_namespace"))]) (t.newId 0) t.now.text =
            .ok (db, t.newId 0) ∧ handlePromote h t params mcpClient n = ({ n with db }, .ok j)) ∨
      (n.db.enforceGovernance h.app.mode .promote target.ns agentId (some target.id) (Db.ownerOf target.toMemory)
          (.obj [("id", .str target.id), ("to_namespace", optStr (strParam params "to_namespace"))]) (t.newId 0) t.now.text =
            .ok (n.db, .allow) ∧ handlePromote h t params mcpClient n = promoteAllowed t params target n)) := by
  unfold handlePromote
  rcases withTarget_cases params n _ with ⟨⟨e, heq⟩, -⟩ | ⟨target, hrow, heq⟩
  · exact Or.inl ⟨e, heq⟩
  rcases withAgent_cases h params mcpClient n _ with ⟨e, heq'⟩ | ⟨agentId, hagent, heq'⟩
  · exact Or.inl ⟨e, heq.trans heq'⟩
  rcases governed_cases h n .promote target.ns agentId (some target.id) (Db.ownerOf target.toMemory) _ (t.newId 0) t.now.text
    [("memory_id", Json.str target.id)] (promoteAllowed t params target) with ⟨e, hg⟩ | ⟨db, j, hqueue, hgate, hg⟩ | ⟨hgate, hg⟩
  · exact Or.inl ⟨e, heq.trans (heq'.trans hg)⟩
  · exact Or.inr ⟨target, agentId, hrow, hagent, Or.inl ⟨db, j, hgate, hqueue, heq.trans (heq'.trans hg)⟩⟩
  · exact Or.inr ⟨target, agentId, hrow, hagent, Or.inr ⟨hgate, heq.trans (heq'.trans hg)⟩⟩

/-- The rows that a call of `handle_forget` selects. -/
def Host.forgets (h : Host) (params : Json) (r : MemoryRow) : Bool :=
  Db.forgetSelects h.app.fts (strParam params "namespace") (strParam params "pattern") ((strParam params "tier").bind Tier.fromStr) r

/-- The call names a namespace, a pattern or a tier. -/
def HasFilter (params : Json) : Prop :=
  ¬((strParam params "pattern").isNone ∧ (strParam params "namespace").isNone ∧ ((strParam params "tier").bind Tier.fromStr).isNone)

/-- And is no dry run. -/
def Forgets (params : Json) : Prop := (boolParam params "dry_run").getD false = false ∧ HasFilter params

/-- A sweep is refused, counts, or removes the rows that it selects. -/
theorem handleForget_cases (h : Host) (t : Draw h.app.chrono) (params : Json) (n : Node) :
    (¬HasFilter params ∧ ∃ e, handleForget h t params n = (n, .error e)) ∨
    (HasFilter params ∧ (boolParam params "dry_run").getD false = true ∧ ∃ j, handleForget h t params n = (n, .ok j)) ∨
    (Forgets params ∧ ∃ db j, handleForget h t params n = ({ n with db }, .ok j) ∧ db.pending = n.db.pending ∧
      ∀ i, db.get i = (n.db.get i).filter fun r => !h.forgets params r) := by
  unfold handleForget Forgets HasFilter
  simp only
  split_ifs with hdry
  · unfold forgetCount
    split_ifs with hempty
    · exact Or.inl ⟨not_not.mpr hempty, _, rfl⟩
    · exact Or.inr (Or.inl ⟨hempty, hdry, _, rfl⟩)
  · cases hf : n.db.forget h.app.fts (strParam params "namespace") (strParam params "pattern")
      ((strParam params "tier").bind Tier.fromStr) h.app.archiveOnGc t.now.text with
    | error e =>
      refine Or.inl ⟨fun hno => ?_, e, rfl⟩
      unfold Db.forget at hf
      rw [if_neg hno] at hf
      cases hf
    | ok res =>
      obtain ⟨db, deleted⟩ := res
      refine Or.inr (Or.inr ⟨⟨by simpa using hdry, fun hempty => ?_⟩, db, _, rfl, ?_, fun i => ?_⟩)
      · unfold Db.forget at hf
        rw [if_pos hempty] at hf
        cases hf
      · rw [Db.forget_eq_ok hf]
        cases h.app.archiveOnGc <;> rfl
      · rw [Db.forget_eq_ok hf, Db.get_deleteMemories]
        unfold Host.forgets
        cases h.app.archiveOnGc <;> rfl

/-- The ends and the relation of a link that passes its checks. -/
structure LinkRequest (params : Json) (sourceId targetId relation : String) : Prop where
  source : strParam params "source_id" = some sourceId
  target : strParam params "target_id" = some targetId
  kind : (strParam params "relation").getD "related_to" = relation
  valid : Accepts (validateLink sourceId targetId relation)

/-- The owner of the source of a link can be charged for it. -/
def Chargeable (n : Node) (sourceId now : String) : Prop :=
  ∀ agentId, ((n.db.get sourceId).bind fun r => Db.ownerOf r.toMemory) = some agentId →
    (charge n.quotas agentId .link now).2 = .ok ()

theorem linkCharged_cases (h : Host) (now sourceId targetId relation : String) (n : Node) :
    (∃ n' e, linkCharged h now sourceId targetId relation n = (n', .error e) ∧ Kept n n') ∨
    (Chargeable n sourceId now ∧ n.db.checkEnds sourceId targetId = .ok () ∧
      ∃ quotas columns j, Db.signedColumns h.ed sourceId targetId relation now h.keypair = .ok columns ∧
        linkCharged h now sourceId targetId relation n =
          ({ n with quotas, db := n.db.insertLink (Db.outboundRow sourceId targetId relation now columns) }, .ok j)) := by
  unfold linkCharged
  simp only
  split
  · exact Or.inl ⟨_, _, rfl, ⟨rfl, rfl⟩⟩
  · rename_i quotas hcharged
    cases hl : n.db.createLinkSigned h.ed sourceId targetId relation now h.keypair with
    | error e => exact Or.inl ⟨_, _, rfl, ⟨rfl, rfl⟩⟩
    | ok res =>
      obtain ⟨db, level⟩ := res
      obtain ⟨hends, columns, hcolumns, rfl, -⟩ := Db.createLinkSigned_eq_ok.mp hl
      refine Or.inr ⟨fun agentId howner => ?_, hends, _, columns, _, hcolumns, rfl⟩
      rw [howner] at hcharged
      exact congrArg Prod.snd hcharged

/-- A link is refused, asked about, or written as one row of `memory_links`. -/
theorem handleLink_cases (h : Host) (t : Draw h.app.chrono) (params : Json) (n : Node) :
    (∃ n' e, handleLink h t params n = (n', .error e) ∧ Kept n n') ∨
    ∃ sourceId targetId relation agentId, LinkRequest params sourceId targetId relation ∧
      h.process.resolveAgentId (strParam params "agent_id") none = .ok agentId ∧
      ((∃ j, h.Asks n .memoryLink (((n.db.get sourceId).map fun r => r.ns).getD "global") agentId ∧
        handleLink h t params n = (n, .ok j)) ∨
      (h.Permits n .memoryLink (((n.db.get sourceId).map fun r => r.ns).getD "global") agentId .null ∧
        Chargeable n sourceId t.now.text ∧ n.db.checkEnds sourceId targetId = .ok () ∧
        ∃ quotas columns j, Db.signedColumns h.ed sourceId targetId relation t.now.text h.keypair = .ok columns ∧
          handleLink h t params n =
            ({ n with quotas, db := n.db.insertLink (Db.outboundRow sourceId targetId relation t.now.text columns) }, .ok j))) := by
  unfold handleLink required
  cases hs : strParam params "source_id" with
  | none =>
    cases ht : strParam params "target_id" with
    | none => exact Or.inl ⟨n, _, rfl, Kept.refl n⟩
    | some targetId => exact Or.inl ⟨n, _, rfl, Kept.refl n⟩
  | some sourceId =>
    cases ht : strParam params "target_id" with
    | none => exact Or.inl ⟨n, _, rfl, Kept.refl n⟩
    | some targetId =>
      simp only
      cases hvalid : validateLink sourceId targetId ((strParam params "relation").getD "related_to") with
      | error e => exact Or.inl ⟨n, _, rfl, Kept.refl n⟩
      | ok u =>
        have hreq : LinkRequest params sourceId targetId ((strParam params "relation").getD "related_to") := ⟨hs, ht, rfl, hvalid⟩
        rcases withAgent_cases h params none n _ with ⟨e, heq⟩ | ⟨agentId, hagent, heq⟩
        · exact Or.inl ⟨n, e, heq, Kept.refl n⟩
        rcases permitted_cases h n .memoryLink (((n.db.get sourceId).map fun r => r.ns).getD "global") agentId _ "link" _
          (linkCharged h t.now.text sourceId targetId ((strParam params "relation").getD "related_to") n) with
          ⟨e, hp⟩ | ⟨prompt, j, hasks, hp⟩ | ⟨hpermits, hp⟩
        · exact Or.inl ⟨n, e, heq.trans hp, Kept.refl n⟩
        · exact Or.inr ⟨sourceId, targetId, _, agentId, hreq, hagent, Or.inl ⟨j, ⟨prompt, hasks⟩, heq.trans hp⟩⟩
        rcases linkCharged_cases h t.now.text sourceId targetId ((strParam params "relation").getD "related_to") n with
          ⟨n', e, hl, hkept⟩ | ⟨hcharge, hends, quotas, columns, j, hcolumns, hl⟩
        · exact Or.inl ⟨n', e, heq.trans (hp.trans hl), hkept⟩
        · exact Or.inr ⟨sourceId, targetId, _, agentId, hreq, hagent, Or.inr ⟨hpermits, hcharge, hends, quotas, columns, j, hcolumns,
            heq.trans (hp.trans hl)⟩⟩

theorem handleConsolidate_cases (h : Host) (t : Draw h.app.chrono) (params : Json) (mcpClient : Option String) (n : Node) :
    (∃ e, handleConsolidate h t params mcpClient n = (n, .error e)) ∨
    ∃ req agentId, h.consolidateRequest params n.db = .ok req ∧
      h.process.resolveAgentId (strParam params "agent_id") mcpClient = .ok agentId ∧
      ((∃ j, h.Asks n .memoryConsolidate req.ns agentId ∧ handleConsolidate h t params mcpClient n = (n, .ok j)) ∨
      (∀ payload, h.Permits n .memoryConsolidate req.ns agentId payload) ∧ ∃ db newId text j,
        n.db.consolidate req.ids req.title req.summary req.ns .long "consolidation" agentId (t.newId 0) t.now.text = .ok (db, newId) ∧
        handleConsolidate h t params mcpClient n = ({ n with db := h.app.refresh db newId text }, .ok j)) := by
  unfold handleConsolidate
  cases hreq : h.consolidateRequest params n.db with
  | error e => exact Or.inl ⟨e, rfl⟩
  | ok req =>
    simp only
    rcases withAgent_cases h params mcpClient n _ with ⟨e, heq⟩ | ⟨agentId, hagent, heq⟩
    · exact Or.inl ⟨e, heq⟩
    rw [heq]
    rcases permitted_cases h n .memoryConsolidate req.ns agentId _ "consolidate" _ _ with ⟨e, hp⟩ | ⟨prompt, j, hasks, hp⟩ |
      ⟨hpermits, hp⟩
    · exact Or.inl ⟨e, hp⟩
    · exact Or.inr ⟨req, agentId, rfl, hagent, Or.inl ⟨j, ⟨prompt, hasks⟩, hp⟩⟩
    rw [hp]
    cases hc : n.db.consolidate req.ids req.title req.summary req.ns .long "consolidation" agentId (t.newId 0) t.now.text with
    | error e => exact Or.inl ⟨e, rfl⟩
    | ok res => exact Or.inr ⟨req, agentId, rfl, hagent, Or.inr ⟨fun _ => hpermits, res.1, res.2, _, _, hc, rfl⟩⟩

end Tools

end Mcp

end AiMemory
