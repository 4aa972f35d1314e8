import AiMemory.Http.Memories

/-!
# Stores that must not overwrite

A request to `create_memory` with `on_conflict` `error` or `version` asks not to change a row that exists. The title is
checked when the request arrives. Where the policy of the namespace asks for an approval the write runs later, in
`execute_pending_action`, and that is an upsert: a row that has the title and namespace by then is overwritten.
-/

namespace AiMemory

open Relational Machine

/-- Other than adding a row, nothing happens to `memories`. -/
def OnlyAdds (db db' : Db) : Prop :=
  db'.memories.rows = db.memories.rows ∨ ∃ r, db'.memories.rows = db.memories.rows ++ [r]

/-- Every pending row keeps its type. -/
def KeepsTypes (db db' : Db) : Prop :=
  ∀ id r, db.pending.find id = some r → ∃ r', db'.pending.find id = some r' ∧ r'.actionType = r.actionType

namespace Conflicts

open MemoryApi

/-- The request asks not to overwrite. -/
def Keeping (body : CreateMemory) : Prop := body.onConflictMode = "error" ∨ body.onConflictMode = "version"

instance (body : CreateMemory) : Decidable (Keeping body) := inferInstanceAs (Decidable (_ ∨ _))

/-- A node: its database, and the requests whose memory is queued, with the id of the pending row. -/
structure State where
  db : Db
  queued : List (String × CreateMemory)

/-- One call. -/
inductive Op (app : App) where
  | createMemory (t : Draw app.chrono) (header : Option String) (body : CreateMemory)
  | updateMemory (t : Draw app.chrono) (id : String) (body : UpdateMemory)
  | deleteMemory (t : Draw app.chrono) (header : Option String) (id : String)
  | approveWithApproverType (pendingId approverAgentId approvedAt now : String)
  | decidePendingAction (id : String) (approve : Bool) (decidedBy now : String)
  | executePendingAction (pendingId newId now : String)

variable {app : App}

def step (s : State) : Op app → State
  | .createMemory t header body =>
    match MemoryApi.createMemory app t header body s.db with
    | (db, .ok (.pending pendingId)) => ⟨db, s.queued ++ [(pendingId, body)]⟩
    | (db, _) => ⟨db, s.queued⟩
  | .updateMemory t id body => { s with db := (MemoryApi.updateMemory app t id body s.db).1 }
  | .deleteMemory t header id => { s with db := (MemoryApi.deleteMemory app t header id s.db).1 }
  | .approveWithApproverType pendingId approverAgentId approvedAt now =>
    { s with db := (s.db.approveWithApproverType pendingId approverAgentId approvedAt now).1 }
  | .decidePendingAction id approve decidedBy now =>
    { s with db := (s.db.decidePendingAction id approve decidedBy now).1 }
  | .executePendingAction pendingId newId now =>
    { s with db := settled s.db ((s.db.executePendingAction ⟨app.memoryFromValue, newId, now⟩ pendingId).map Prod.fst) }

/-- The call performs the write of a request: at once, or from the queue. -/
def Writes (s : State) (body : CreateMemory) : Op app → Prop
  | .createMemory _ _ body' => body' = body
  | .executePendingAction pendingId _ _ => (pendingId, body) ∈ s.queued
  | _ => False

/-- A store that asked not to overwrite is refused, or adds a row. -/
def KeepsRows (s : State) (op : Op app) : Prop := ∀ body, Writes s body op → Keeping body → OnlyAdds s.db (step s op).db

/-- When a store that asked not to overwrite is executed, no row has its title and namespace. -/
def StepOk (s : State) : Op app → Prop
  | .executePendingAction pendingId _ _ => ∀ body, (pendingId, body) ∈ s.queued → Keeping body → ∀ pa mem,
      s.db.getPendingAction pendingId = some pa → pa.status = "approved" → app.memoryFromValue pa.payload = .ok mem →
      s.db.getKey mem.key = none
  | _ => True

/-- What is queued is a store. -/
def Inv (s : State) : Prop := ∀ id body, (id, body) ∈ s.queued → ∃ r, s.db.pending.find id = some r ∧ r.actionType = "store"

/-! ## Adding a row -/

section Adds

variable {db db' : Db} {mem : Memory} {id text : String}

theorem OnlyAdds.of_memories (h : db'.memories = db.memories) : OnlyAdds db db' := Or.inl (congrArg (fun t => t.rows) h)

theorem insert_of_free (hfree : db.getKey mem.key = none) (h : db.insert mem = .ok (db', id)) :
    id = mem.id ∧ db.get mem.id = none ∧ db'.memories.rows = db.memories.rows ++ [mem.toRow] := by
  rcases Db.insertOnConflict_cases h with ⟨stored, hs, -⟩ | ⟨-, hget, hid, t, ht, rfl⟩
  · rw [hfree] at hs
    cases hs
  · exact ⟨hid, hget, Indexed.insertNew?_rows ht⟩

theorem refresh_of_appended {r : MemoryRow} (hget : db.get r.id = none) (hrows : db'.memories.rows = db.memories.rows ++ [r]) :
    ∃ r', (app.refresh db' r.id text).memories.rows = db.memories.rows ++ [r'] := by
  rcases refresh_eq app db' r.id text with h | ⟨blob, dim, h⟩ <;> rw [h]
  · exact ⟨r, hrows⟩
  · show ∃ r', db'.memories.rows.map _ = _
    rw [hrows, List.map_append]
    refine ⟨_, congrArg (· ++ _) ((List.map_congr_left fun x hx => if_neg ?_).trans (List.map_id _))⟩
    exact Indexed.find_eq_none.mp hget x hx

end Adds

/-! ## Pending rows -/

section Types

variable {db db' db'' : Db}

theorem KeepsTypes.of_pending (h : db'.pending = db.pending) : KeepsTypes db db' := fun _ r hr => ⟨r, h ▸ hr, rfl⟩

theorem KeepsTypes.trans (h : KeepsTypes db db') (h' : KeepsTypes db' db'') : KeepsTypes db db'' := by
  intro id r hr
  obtain ⟨r', hr', heq⟩ := h id r hr
  obtain ⟨r'', hr'', heq'⟩ := h' id r' hr'
  exact ⟨r'', hr'', heq'.trans heq⟩

theorem keepsTypes_updatePending {id : String} {f : PendingRow → PendingRow} (hf : ∀ r, (f r).id = r.id)
    (hkind : ∀ r, (f r).actionType = r.actionType) : KeepsTypes db (db.updatePending id f hf) := by
  intro i r hr
  rw [Db.find_updatePending, hr]
  refine ⟨_, rfl, ?_⟩
  simp only
  split_ifs
  · exact hkind r
  · rfl

theorem keepsTypes_decide {id decidedBy now : String} {approve : Bool} :
    KeepsTypes db (db.decidePendingAction id approve decidedBy now).1 := by
  unfold Db.decidePendingAction
  refine keepsTypes_updatePending ?_ ?_
  all_goals exact fun _ => rfl

theorem keepsTypes_addVote {id : String} {vote : Approval} : KeepsTypes db (db.addVote id vote) := by
  unfold Db.addVote
  refine keepsTypes_updatePending ?_ ?_
  all_goals exact fun _ => rfl

theorem keepsTypes_approve {id agentId approvedAt now : String} :
    KeepsTypes db (db.approveWithApproverType id agentId approvedAt now).1 :=
  Db.approve_keeps (P := KeepsTypes db) (fun _ _ h => KeepsTypes.trans h keepsTypes_addVote)
    (fun _ _ h => KeepsTypes.trans h keepsTypes_decide) (KeepsTypes.of_pending rfl)

theorem keepsTypes_queue {action : GovernedAction} {ns requestedBy newId now id : String} {memoryId : Option String}
    {payload : Json} (h : db.queuePendingAction action ns memoryId requestedBy payload newId now = .ok (db', id)) :
    KeepsTypes db db' := by
  obtain ⟨-, row, t, -, -, -, -, -, ht, rfl⟩ := Db.queuePendingAction_eq_ok h
  intro i r hr
  refine ⟨r, ?_, rfl⟩
  show t.find i = some r
  rw [Table.find_insertNew? ht, hr]
  rfl

theorem pending_execute {x : Db.Execution} {id : String} {res : Option String}
    (h : db.executePendingAction x id = .ok (db', res)) : db'.pending = db.pending := by
  rcases Db.executePendingAction_cases h with ⟨mem, actualId, -, hi⟩ | ⟨mid, rfl⟩ | ⟨mid, toNs, cloneId, hp⟩ |
    ⟨mid, found, hu⟩ | rfl
  · rw [Db.insertOnConflict_frame hi]
  · rfl
  · obtain ⟨source, db₁, -, -, -, hi, hdb⟩ := Db.promoteToNamespace_cases hp
    rw [hdb]
    show db₁.pending = db.pending
    rw [Db.insertOnConflict_frame hi]
  · obtain ⟨found, changed⟩ := found
    rcases Db.update_cases hu with ⟨-, -, rfl⟩ | ⟨-, -, -, hdb, -⟩
    · rfl
    · rw [hdb]
  · rfl

end Types

/-! ## One call -/

section Step

variable {s : State}

theorem step_createMemory_db (s : State) (t : Draw app.chrono) (header : Option String) (body : CreateMemory) :
    (step s (.createMemory t header body)).db = (createMemory app t header body s.db).1 := by
  simp only [step]
  split <;> rename_i h <;> rw [h]

theorem keepsTypes_step (s : State) (op : Op app) : KeepsTypes s.db (step s op).db := by
  cases op with
  | createMemory t header body =>
    rw [step_createMemory_db]
    rcases createMemory_cases app t header body s.db with ⟨h, -⟩ | ⟨mem, -, -, hqueue⟩ | ⟨mem, db₁, id, -, -, hi, h⟩
    · rw [h]
      exact KeepsTypes.of_pending rfl
    · exact keepsTypes_queue hqueue
    · rw [h]
      show KeepsTypes s.db (app.refresh db₁ id _)
      rw [refresh_frame, Db.insertOnConflict_frame hi]
      exact KeepsTypes.of_pending rfl
  | updateMemory t id u =>
    show KeepsTypes s.db (updateMemory app t id u s.db).1
    rcases updateMemory_cases app t id u s.db with ⟨h, -⟩ | ⟨target, db₁, changed, -, -, -, hu, h⟩
    · rw [h]
      exact KeepsTypes.of_pending rfl
    · have hpending : db₁.pending = s.db.pending := by
        rcases Db.update_cases hu with ⟨-, -, rfl⟩ | ⟨-, -, -, hdb, -⟩
        · rfl
        · rw [hdb]
      rcases h with h | ⟨text, h⟩ <;> rw [h]
      · exact KeepsTypes.of_pending hpending
      · rw [refresh_frame]
        exact KeepsTypes.of_pending hpending
  | deleteMemory t header id =>
    show KeepsTypes s.db (deleteMemory app t header id s.db).1
    rcases deleteMemory_cases app t header id s.db with h | ⟨target, agentId, payload, -, hqueue⟩ |
      ⟨target, agentId, payload, -, -, -, h⟩
    · rw [h]
      exact KeepsTypes.of_pending rfl
    · exact keepsTypes_queue hqueue
    · rw [h]
      exact KeepsTypes.of_pending rfl
  | approveWithApproverType pendingId approverAgentId approvedAt now => exact keepsTypes_approve
  | decidePendingAction id approve decidedBy now => exact keepsTypes_decide
  | executePendingAction pendingId newId now =>
    simp only [step]
    cases hx : s.db.executePendingAction ⟨app.memoryFromValue, newId, now⟩ pendingId with
    | error e => exact KeepsTypes.of_pending rfl
    | ok res => exact KeepsTypes.of_pending (pending_execute hx)

theorem mem_queued_step {op : Op app} {id : String} {body : CreateMemory} (h : (id, body) ∈ (step s op).queued) :
    (id, body) ∈ s.queued ∨ ∃ t header, op = .createMemory t header body ∧
      (createMemory app t header body s.db).2 = .ok (.pending id) := by
  cases op with
  | createMemory t header body' =>
    simp only [step] at h
    split at h
    · rename_i db pendingId hcreate
      rcases List.mem_append.mp h with hold | hnew
      · exact Or.inl hold
      · cases List.mem_singleton.mp hnew
        exact Or.inr ⟨t, header, rfl, congrArg Prod.snd hcreate⟩
    · exact Or.inl h
  | _ => exact Or.inl h

theorem inv_step (hs : Inv s) (op : Op app) : Inv (step s op) := by
  intro id body hmem
  rcases mem_queued_step hmem with hold | ⟨t, header, rfl, hreply⟩
  · obtain ⟨r, hr, hkind⟩ := hs id body hold
    obtain ⟨r', hr', hsame⟩ := keepsTypes_step s op id r hr
    exact ⟨r', hr', hsame.trans hkind⟩
  · rcases createMemory_cases app t header body s.db with ⟨-, r, hr⟩ | ⟨mem, -, hpending, hqueue⟩ |
      ⟨mem, db₁, id', -, -, -, h⟩
    · rw [hr] at hreply
      cases hreply
    · rw [hpending] at hreply
      cases hreply
      obtain ⟨-, row, table, hid, hkind, -, -, -, ht, hdb⟩ := Db.queuePendingAction_eq_ok hqueue
      refine ⟨row, ?_, hkind⟩
      rw [step_createMemory_db, hdb]
      exact Table.find_eq_some.mpr ⟨(Table.mem_insertNew? ht).mpr (Or.inr rfl), hid⟩
    · rw [h] at hreply
      cases hreply

/-- A step that meets its condition keeps the rows. -/
theorem keepsRows_step (hs : Inv s) {op : Op app} (hok : StepOk s op) : KeepsRows s op := by
  intro body hwrites hkeep
  cases op with
  | createMemory t header body' =>
    obtain rfl : body' = body := hwrites
    rw [step_createMemory_db]
    rcases createMemory_cases app t header body' s.db with ⟨h, -⟩ | ⟨mem, -, -, hqueue⟩ | ⟨mem, db₁, id, hprep, -, hi, h⟩
    · exact OnlyAdds.of_memories (by rw [h])
    · obtain ⟨-, row, table, -, -, -, -, -, -, hdb⟩ := Db.queuePendingAction_eq_ok hqueue
      exact OnlyAdds.of_memories (by rw [hdb])
    · obtain ⟨agentId, metadata, title, -, -, -, htitle, rfl⟩ := prepare_eq_ok hprep
      obtain ⟨rfl, hget, hrows⟩ := insert_of_free (resolveTitle_free htitle hkeep) hi
      rw [h]
      exact Or.inr (refresh_of_appended hget hrows)
  | executePendingAction pendingId newId now =>
    simp only [step]
    cases hx : s.db.executePendingAction ⟨app.memoryFromValue, newId, now⟩ pendingId with
    | error e => exact OnlyAdds.of_memories rfl
    | ok res =>
      obtain ⟨r, hr, hkind⟩ := hs pendingId body hwrites
      have hpa : s.db.getPendingAction pendingId = some r.toPendingAction := by
        rw [Db.getPendingAction, hr]
        rfl
      -- the queued store is inserted under a free title and namespace
      have hfree := hok body hwrites hkeep r.toPendingAction
      obtain ⟨hst, mem, id, hmem, -, hi⟩ := Db.executePendingAction_store hpa hkind hx
      refine Or.inr ⟨_, (insert_of_free ?_ hi).2.2⟩
      exact hfree mem hpa hst hmem
  | updateMemory _ _ _ => exact absurd hwrites id
  | deleteMemory _ _ _ => exact absurd hwrites id
  | approveWithApproverType _ _ _ _ => exact absurd hwrites id
  | decidePendingAction _ _ _ _ => exact absurd hwrites id

/-- In a run whose executed stores find their title and namespace free, no store that asked not to overwrite changes a
row. -/
theorem keeping_overwrites_nothing (app : App) (db : Db) (ops : List (Op app)) (h : Meets step StepOk ⟨db, []⟩ ops) :
    Meets step KeepsRows ⟨db, []⟩ ops := by
  have hstep : ∀ (s : State) (op : Op app), Inv s → StepOk s op → KeepsRows s op ∧ Inv (step s op) :=
    fun _ op hs hok => ⟨keepsRows_step hs hok, inv_step hs op⟩
  exact meets_of_meets hstep (fun _ _ hmem => absurd hmem List.not_mem_nil) h

end Step

/-! ## Two stores of one title -/

/-- The namespace `team`, where a store has to be approved. -/
def team : Db :=
  { Db.empty with
    memories := ⟨⟨[(Db.standardMemory "s-1" "team" (.obj [("governance", .obj [("write", .str "approve")])])).toRow],
      List.nodup_singleton _⟩, List.nodup_singleton _⟩
    namespaceMeta := ⟨[⟨"team", "s-1", none, "2026-01-01T00:00:00+00:00"⟩], by decide⟩ }

def store (ids : List String) (body : CreateMemory) : Op node := .createMemory (draw nine ids) none body

def approve (pendingId newId : String) : List (Op node) :=
  [.approveWithApproverType pendingId "carol" nine.text nine.text, .executePendingAction pendingId newId ten.text]

/-- The store of `alice` waits for an approval, and runs. -/
def onePlan : List (Op node) := store ["m-1", "p-1"] (request "team" "Plan" "draft" "alice") :: approve "p-1" "m-1"

theorem onePlan_keepsRows : Meets step KeepsRows ⟨team, []⟩ onePlan := by
  refine keeping_overwrites_nothing node team onePlan ⟨trivial, trivial, fun body _ _ pa mem hpa _ hmem => ?_, trivial⟩
  cases hpa
  cases hmem
  rfl

/-- `bob` stores the same title while the store of `alice` waits; both ask for an error on a conflict. -/
def twoPlans : List (Op node) :=
  [store ["m-1", "p-1"] (request "team" "Plan" "draft" "alice"), store ["m-2", "p-2"] (request "team" "Plan" "final" "bob")] ++
    approve "p-1" "m-1" ++ approve "p-2" "m-2"

/-- The second one overwrites the first. -/
theorem twoPlans_overwritten : (∀ body ∈ (twoPlans.foldl step ⟨team, []⟩).queued, Keeping body.2) ∧
    (((twoPlans.take 5).foldl step ⟨team, []⟩).db.get "m-1").map (fun r => r.content) = some "draft" ∧
      ((twoPlans.foldl step ⟨team, []⟩).db.get "m-1").map (fun r => r.content) = some "final" ∧
      ¬Meets step KeepsRows ⟨team, []⟩ twoPlans := by
  refine ⟨by decide, by decide, by decide, fun h => ?_⟩
  obtain ⟨-, -, -, -, -, h, -⟩ := h
  rcases h (request "team" "Plan" "final" "bob") (List.mem_cons_of_mem _ List.mem_cons_self) (Or.inl rfl) with hsame | ⟨r, hmore⟩
  · exact absurd (congrArg (List.map fun r => r.content) hsame) (by decide)
  · have hlength := congrArg List.length hmore
    rw [List.length_append, List.length_singleton] at hlength
    exact absurd hlength (by decide)

end Conflicts

end AiMemory
