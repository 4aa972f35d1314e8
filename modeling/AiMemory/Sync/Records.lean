import AiMemory.Sync.Push

/-!
# A push as a sequence of database writes

The phases of `sync_push` carry counters along. Here each phase is read as the write it makes:
`onMemory`, `onDeletion` and so on take a database and one record. `records_spec` says that the record
phases of a body are these writes one after another, and that they leave the newest valid stamp in
`latest_seen`; on a dry run they write nothing.
-/

namespace AiMemory

open Relational Validate Machine

namespace Push

section Writes

variable (h : Host) (t : Tick)

def onDeletion (db : Db) (id : String) : Db :=
  if Accepts (validateId id) then (db.delete id).1 else db

def onArchive (db : Db) (id : String) : Db :=
  if Accepts (validateId id) then (db.archiveMemory id (some "sync_push") t.now).1 else db

def onRestore (db : Db) (id : String) : Db :=
  if Accepts (validateId id) then
    match db.restoreArchived id t.now with
    | .ok (db, _) => db
    | .error _ => db
  else db

def onLink (db : Db) (link : MemoryLink) : Db :=
  if Accepts (validateLink link.sourceId link.targetId link.relation) then
    match attestLevel h link with
    | none => db
    | some level =>
      match db.createLinkInbound link level t.now with
      | .ok db => db
      | .error _ => db
  else db

def onPending (db : Db) (pa : PendingAction) : Db :=
  if Accepts (validateId pa.id) then db.upsertPendingAction pa else db

def onDecision (db : Db) (dec : PendingDecision) : Db :=
  if Accepts (validateId dec.id) then (decide h t db dec).1 else db

def onNamespaceMeta (db : Db) (e : NamespaceMetaEntry) : Db :=
  if Accepts (validateNamespace e.ns) ∧ Accepts (validateId e.standardId) then
    match db.setNamespaceStandard e.ns e.standardId e.parentNamespace t.now with
    | .ok db => db
    | .error _ => db
  else db

def onNamespaceMetaClear (db : Db) (ns : String) : Db :=
  if Accepts (validateNamespace ns) then (db.clearNamespaceStandard ns).1 else db

def writes (b : SyncPushBody) (db : Db) : Db :=
  let db := b.memories.foldl h.takeIn db
  let db := b.deletions.foldl onDeletion db
  let db := b.archives.foldl (onArchive t) db
  let db := b.restores.foldl (onRestore t) db
  let db := b.links.foldl (onLink h t) db
  let db := b.pendings.foldl onPending db
  let db := b.pendingDecisions.foldl (onDecision h t) db
  let db := b.namespaceMeta.foldl (onNamespaceMeta t) db
  b.namespaceMetaClears.foldl onNamespaceMetaClear db

end Writes

section Spec

variable {h : Host} {t : Tick} {dry : Bool} {s : Push}

def collected (s : Push) : Option String × List (String × String) := (s.latestSeen, s.embeddingRefresh)

/-- A phase that only writes: `f` with counters is `g` on the database, or nothing on a dry run. -/
def Writes {α : Type} (dry : Bool) (f : Push → α → Push) (g : Db → α → Db) : Prop :=
  ∀ s x, (f s x).collected = s.collected ∧ (f s x).db = if dry then s.db else g s.db x

/-- How far a push has come: what is left for its end, and the database, untouched on a dry run. -/
def At (dry : Bool) (seen : Option String × List (String × String)) (db₀ db : Db) (s : Push) : Prop :=
  s.collected = seen ∧ s.db = if dry then db₀ else db

theorem Writes.foldl {α : Type} {f : Push → α → Push} {g : Db → α → Db} (hf : Writes dry f g)
    {seen : Option String × List (String × String)} {db₀ db : Db} (hs : At dry seen db₀ db s) (xs : List α) :
    At dry seen db₀ (xs.foldl g db) (xs.foldl f s) := by
  induction xs generalizing s db with
  | nil => exact hs
  | cons x xs ih =>
    obtain ⟨hl, hd⟩ := hf s x
    refine ih ⟨hl.trans hs.1, hd.trans ?_⟩
    cases dry with
    | true => exact hs.2
    | false => exact congrArg (g · x) hs.2

/-- What each phase after the first does: a record is skipped, passed over on a dry run, or handled. -/
theorem phase_spec {p : Prop} [Decidable p] {live : Push} {db : Db}
    (hlive : p → live.collected = s.collected ∧ live.db = db) :
    (if ¬p then s.skip else if dry then s.noop else live).collected = s.collected ∧
      (if ¬p then s.skip else if dry then s.noop else live).db = if dry then s.db else if p then db else s.db := by
  by_cases hp : p
  · rw [if_neg (not_not.mpr hp), if_pos hp]
    cases dry with
    | true => exact ⟨rfl, rfl⟩
    | false => exact hlive hp
  · rw [if_pos hp, if_neg hp]
    exact ⟨rfl, by cases dry <;> rfl⟩

theorem writes_deletion : Writes dry (deletion dry) onDeletion := by
  refine fun s id => phase_spec fun _ => ?_
  cases hd : s.db.delete id with
  | mk db found => cases found <;> exact ⟨rfl, rfl⟩

theorem archiveMemory_eq_of_false {db db' : Db} {id now : String} {reason : Option String}
    (hd : db.archiveMemory id reason now = (db', false)) : db' = db := by
  unfold Db.archiveMemory at hd
  split_ifs at hd
  · cases hd
    rfl
  · cases hd

theorem writes_archive : Writes dry (archive t dry) (onArchive t) := by
  refine fun s id => phase_spec fun _ => ?_
  cases hd : s.db.archiveMemory id (some "sync_push") t.now with
  | mk db moved =>
    cases moved with
    | true => exact ⟨rfl, rfl⟩
    | false => exact ⟨rfl, (archiveMemory_eq_of_false hd).symm⟩

theorem writes_restore : Writes dry (restore t dry) (onRestore t) := by
  refine fun s id => phase_spec fun _ => ?_
  cases hr : s.db.restoreArchived id t.now with
  | error e => exact ⟨rfl, rfl⟩
  | ok res =>
    obtain ⟨db, restored⟩ := res
    cases restored with
    | true => exact ⟨rfl, rfl⟩
    | false =>
      obtain ⟨-, -, rfl⟩ | ⟨a, t', -, hc, -⟩ := Db.restoreArchived_cases hr
      · exact ⟨rfl, rfl⟩
      · cases hc

theorem writes_link : Writes dry (link h t dry) (onLink h t) := by
  refine fun s l => phase_spec fun _ => ?_
  cases attestLevel h l with
  | none => exact ⟨rfl, rfl⟩
  | some level =>
    simp only
    cases s.db.createLinkInbound l level t.now <;> exact ⟨rfl, rfl⟩

theorem writes_pending : Writes dry (pending dry) onPending := fun _ _ => phase_spec fun _ => ⟨rfl, rfl⟩

theorem decide_eq_of_false {db db' : Db} {dec : PendingDecision} (hd : decide h t db dec = (db', false)) :
    db' = db := by
  unfold decide at hd
  cases hp : db.decidePendingAction dec.id dec.approved dec.decider t.now with
  | mk db₁ changed =>
    rw [hp] at hd
    cases changed with
    | true =>
      simp only at hd
      split_ifs at hd
      · split at hd <;> cases hd
      · cases hd
    | false =>
      cases hd
      have hsame := Db.decidePendingAction_eq_self (congrArg Prod.snd hp)
      rwa [hp] at hsame

theorem writes_decision : Writes dry (decision h t dry) (onDecision h t) := by
  refine fun s dec => phase_spec fun _ => ?_
  cases hd : decide h t s.db dec with
  | mk db changed =>
    cases changed with
    | true => exact ⟨rfl, rfl⟩
    | false => exact ⟨rfl, (decide_eq_of_false hd).symm⟩

theorem writes_namespaceMeta : Writes dry (namespaceMeta t dry) (onNamespaceMeta t) := by
  intro s e
  unfold namespaceMeta
  simp only [← not_and_or]
  refine phase_spec fun _ => ?_
  cases s.db.setNamespaceStandard e.ns e.standardId e.parentNamespace t.now <;> exact ⟨rfl, rfl⟩

theorem writes_namespaceMetaClear : Writes dry (namespaceMetaClear dry) onNamespaceMetaClear := by
  refine fun s ns => phase_spec fun _ => ?_
  cases hc : s.db.clearNamespaceStandard ns with
  | mk db cleared =>
    cases cleared with
    | true => exact ⟨rfl, rfl⟩
    | false =>
      have hsame := Db.clearNamespaceStandard_eq_self (congrArg Prod.snd hc)
      rw [hc] at hsame
      exact ⟨rfl, hsame.symm⟩

/-- A row that is not newer than another valid one does not move `latest_seen`. -/
theorem memory_latestSeen (s : Push) (mem : Memory) : (memory h dry s mem).latestSeen =
    if mem.Valid h.rfc3339 ∧ s.latestSeen.all (mem.updatedAt > ·) then some mem.updatedAt
    else s.latestSeen := by
  unfold memory
  by_cases hv : Accepts (validateMemory h.rfc3339 mem)
  · rw [if_neg (not_not.mpr hv)]
    by_cases hnew : (s.latestSeen.all (mem.updatedAt > ·)) = true
    · rw [if_pos (show mem.Valid h.rfc3339 ∧ _ from ⟨hv, hnew⟩), if_pos hnew]
      cases dry with
      | true => rfl
      | false =>
        simp only [Bool.false_eq_true, if_false]
        split <;> rfl
    · rw [if_neg (show ¬(mem.Valid h.rfc3339 ∧ _) from fun hc => hnew hc.2), if_neg hnew]
      cases dry with
      | true => rfl
      | false =>
        simp only [Bool.false_eq_true, if_false]
        split <;> rfl
  · rw [if_pos hv, if_neg (fun hc => hv hc.1)]
    rfl

theorem foldl_memory_latestSeen (mems : List Memory) (s : Push) (hs : s.latestSeen = none) :
    (mems.foldl (memory h dry) s).latestSeen = latestValid h mems := by
  induction mems using List.reverseRecOn with
  | nil => exact hs
  | append_singleton mems mem ih =>
    rw [List.foldl_append, List.foldl_cons, List.foldl_nil, memory_latestSeen, ih]
    unfold latestValid
    rw [List.foldl_append]
    rfl

theorem memory_db_dry (s : Push) (mem : Memory) : (memory h true s mem).db = s.db := by
  unfold memory
  simp only [if_true]
  split_ifs <;> rfl

theorem at_records (b : SyncPushBody) (db : Db) :
    At b.dryRun (b.memories.foldl (memory h b.dryRun) { db }).collected db (writes h t b db) (records h t b db) := by
  have hmem : (b.memories.foldl (memory h b.dryRun) { db }).db =
      if b.dryRun then db else b.memories.foldl h.takeIn db := by
    cases b.dryRun with
    | true => exact foldl_keeps memory_db_dry { db } b.memories
    | false => exact foldl_memory_db { db } b.memories
  have h₀ : At b.dryRun (b.memories.foldl (memory h b.dryRun) { db }).collected db
      (b.memories.foldl h.takeIn db) (b.memories.foldl (memory h b.dryRun) { db }) := ⟨rfl, hmem⟩
  have h₁ := writes_deletion.foldl h₀ b.deletions
  have h₂ := (writes_archive (t := t)).foldl h₁ b.archives
  have h₃ := (writes_restore (t := t)).foldl h₂ b.restores
  have h₄ := (writes_link (h := h) (t := t)).foldl h₃ b.links
  have h₅ := writes_pending.foldl h₄ b.pendings
  have h₆ := (writes_decision (h := h) (t := t)).foldl h₅ b.pendingDecisions
  have h₇ := (writes_namespaceMeta (t := t)).foldl h₆ b.namespaceMeta
  exact writes_namespaceMetaClear.foldl h₇ b.namespaceMetaClears

theorem records_spec (b : SyncPushBody) (db : Db) :
    (records h t b db).latestSeen = latestValid h b.memories ∧
      (records h t b db).db = if b.dryRun then db else writes h t b db := by
  obtain ⟨hseen, hdb⟩ := at_records (h := h) (t := t) b db
  exact ⟨(congrArg Prod.fst hseen).trans (foldl_memory_latestSeen b.memories { db } rfl), hdb⟩

theorem records_embeddingRefresh (b : SyncPushBody) (db : Db) : (records h t b db).embeddingRefresh =
    (b.memories.foldl (memory h b.dryRun) { db }).embeddingRefresh := by
  obtain ⟨hseen, -⟩ := at_records (h := h) (t := t) b db
  exact congrArg Prod.snd hseen

/-! ## Watermarks -/

theorem onRestore_syncState (db : Db) (id : String) : (onRestore t db id).syncState = db.syncState := by
  unfold onRestore
  split_ifs
  · cases hr : db.restoreArchived id t.now with
    | error e => rfl
    | ok res =>
      show res.1.syncState = db.syncState
      obtain ⟨-, -, he⟩ | ⟨a, t', -, -, -, -, he⟩ := Db.restoreArchived_cases hr <;> rw [he]
  · rfl

theorem onArchive_syncState (db : Db) (id : String) : (onArchive t db id).syncState = db.syncState := by
  unfold onArchive Db.archiveMemory
  split_ifs <;> rfl

theorem onLink_syncState (db : Db) (l : MemoryLink) : (onLink h t db l).syncState = db.syncState := by
  unfold onLink
  split_ifs
  · split
    · rfl
    · split
      · rename_i hl
        rw [Db.createLinkInbound_frame hl]
      · rfl
  · rfl

theorem executePendingAction_frame {db db' : Db} {x : Db.Execution} {id : String}
    {res : Option String} (he : db.executePendingAction x id = .ok (db', res)) :
    db'.syncState = db.syncState ∧ db'.pending = db.pending := by
  obtain ⟨mem, actualId, -, hi⟩ | ⟨mid, rfl⟩ | ⟨mid, toNs, cloneId, hp⟩ | ⟨mid, res, hu⟩ | rfl :=
    Db.executePendingAction_cases he
  · rw [Db.insertOnConflict_frame hi]
    exact ⟨rfl, rfl⟩
  · exact ⟨rfl, rfl⟩
  · obtain ⟨source, db₁, -, -, -, hi, hframe⟩ := Db.promoteToNamespace_cases hp
    rw [hframe, Db.insertOnConflict_frame hi]
    exact ⟨rfl, rfl⟩
  · obtain ⟨-, -, rfl⟩ | ⟨e, -, -, hframe, -⟩ := Db.update_cases hu
    · exact ⟨rfl, rfl⟩
    · rw [hframe]
      exact ⟨rfl, rfl⟩
  · exact ⟨rfl, rfl⟩

theorem decide_syncState (db : Db) (dec : PendingDecision) :
    (decide h t db dec).1.syncState = db.syncState := by
  unfold decide
  cases hp : db.decidePendingAction dec.id dec.approved dec.decider t.now with
  | mk db₁ changed =>
    have hsame : db₁.syncState = db.syncState := by
      rw [← show (db.decidePendingAction dec.id dec.approved dec.decider t.now).1 = db₁ by rw [hp]]
      rfl
    cases changed with
    | false => exact hsame
    | true =>
      simp only
      split_ifs
      · split
        · rename_i hx
          exact (executePendingAction_frame hx).1.trans hsame
        · exact hsame
      · exact hsame

theorem onDecision_syncState (db : Db) (dec : PendingDecision) :
    (onDecision h t db dec).syncState = db.syncState := by
  unfold onDecision
  split_ifs
  · exact decide_syncState db dec
  · rfl

theorem onNamespaceMeta_syncState (db : Db) (e : NamespaceMetaEntry) :
    (onNamespaceMeta t db e).syncState = db.syncState := by
  unfold onNamespaceMeta Db.setNamespaceStandard
  split_ifs <;> rfl

theorem writes_syncState (b : SyncPushBody) (db : Db) : (writes h t b db).syncState = db.syncState := by
  have hdel : ∀ (db : Db) (id : String), (onDeletion db id).syncState = db.syncState := by
    intro db id
    unfold onDeletion
    split_ifs <;> rfl
  have hpend : ∀ (db : Db) (pa : PendingAction), (onPending db pa).syncState = db.syncState := by
    intro db pa
    unfold onPending
    split_ifs <;> rfl
  have hclear : ∀ (db : Db) (ns : String), (onNamespaceMetaClear db ns).syncState = db.syncState := by
    intro db ns
    unfold onNamespaceMetaClear
    split_ifs <;> rfl
  unfold writes
  simp only
  rw [foldl_keeps hclear, foldl_keeps onNamespaceMeta_syncState, foldl_keeps onDecision_syncState,
    foldl_keeps hpend, foldl_keeps onLink_syncState, foldl_keeps onRestore_syncState,
    foldl_keeps onArchive_syncState, foldl_keeps hdel, foldl_takeIn_syncState]

theorem foldl_refresh_syncState (e : Embedder) (db : Db) (rows : List (String × String)) :
    (rows.foldl (refresh e) db).syncState = db.syncState := by
  refine foldl_keeps (fun db row => ?_) db rows
  unfold refresh
  split
  · rfl
  · split
    · rename_i hs
      obtain ⟨d, rfl⟩ := Db.setEmbedding_eq_ok hs
      rfl
    · rfl

/-- What a body leaves in `sync_state`: the newest valid stamp observed, and nothing else. -/
theorem body_syncState (agent : String) (b : SyncPushBody) (db : Db) :
    (body h t agent b db).db.syncState =
      match latestValid h b.memories with
      | some seen =>
        if b.dryRun then db.syncState else (db.syncStateObserve agent b.senderAgentId seen t.now).syncState
      | none => db.syncState := by
  obtain ⟨hseen, hdb⟩ := @records_spec h t b db
  have hkeep : (records h t b db).db.syncState = db.syncState := by
    rw [hdb]
    split_ifs
    · rfl
    · exact writes_syncState b db
  have hbody : (body h t agent b db).db.syncState = (observed t agent b (records h t b db)).db.syncState := by
    unfold body
    split
    · split_ifs
      · rfl
      · exact foldl_refresh_syncState _ _ _
    · rfl
  rw [hbody]
  unfold observed
  rw [hseen]
  cases latestValid h b.memories with
  | none => exact hkeep
  | some seen =>
    simp only
    split_ifs
    · exact hkeep
    · unfold Db.syncStateObserve
      rw [hkeep]

theorem body_syncStateLoad (agent : String) (b : SyncPushBody) (db : Db) (a p : String) :
    (body h t agent b db).db.syncStateLoad a p =
      match latestValid h b.memories with
      | some seen =>
        if b.dryRun then db.syncStateLoad a p
        else (db.syncStateObserve agent b.senderAgentId seen t.now).syncStateLoad a p
      | none => db.syncStateLoad a p := by
  unfold Db.syncStateLoad
  rw [body_syncState]
  cases latestValid h b.memories with
  | none => rfl
  | some seen => cases b.dryRun <;> rfl

theorem body_syncStateLastPushed (agent : String) (b : SyncPushBody) (db : Db) (a p : String) :
    (body h t agent b db).db.syncStateLastPushed a p = db.syncStateLastPushed a p := by
  unfold Db.syncStateLastPushed
  rw [body_syncState]
  cases latestValid h b.memories with
  | none => rfl
  | some seen =>
    cases b.dryRun with
    | true => rfl
    | false => exact Db.syncStateLastPushed_observe seen t.now a p

end Spec

end Push

end AiMemory
