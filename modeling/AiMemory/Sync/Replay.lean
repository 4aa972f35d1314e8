import AiMemory.Sync.Decisions
import AiMemory.Sync.Embedding

/-!
# The same push twice

A sender that got no answer sends its body again. `replay_same` says when the second push leaves the
database as the first one did, but for the columns that hold the time of a write.

Four things spoil a replay. A deletion, an archival or an action of the body takes away a row that the body
writes or restores: the second push then revives it under another id, or loses it. A write is filed and
approved in one body: the second push files it again as pending and runs it again. A request without an
agent id gets a new one each time, and with it a watermark of its own. And some writes see what the body
itself left: a long-tier row with an expiry, an agent id that SQL rewrites, a parent namespace found by its
prefix.
-/

namespace AiMemory

open Relational Convergence Push

/-- Databases that agree but for `archived_at`, `decided_at` and the `updated_at` of a standard. -/
structure SameButClock (db db' : Db) : Prop where
  memories : ∀ id, db'.get id = db.get id
  archived : ∀ id, (db'.archived.find id).map (fun a => { a with archivedAt := "" }) =
    (db.archived.find id).map fun a => { a with archivedAt := "" }
  links : ∀ k, db'.links.find k = db.links.find k
  pending : ∀ id, (db'.pending.find id).map undated = (db.pending.find id).map undated
  namespaceMeta : ∀ ns, (db'.namespaceMeta.find ns).map unstamped =
    (db.namespaceMeta.find ns).map unstamped
  lastSeen : ∀ agent peer, db'.syncStateLoad agent peer = db.syncStateLoad agent peer

theorem SameButClock.refl (db : Db) : SameButClock db db :=
  ⟨fun _ => rfl, fun _ => rfl, fun _ => rfl, fun _ => rfl, fun _ => rfl, fun _ _ => rfl⟩

namespace Push

/-- A decision of the body that runs its action `r`: an approval, the first on its id, of an action that is pending once the
body has filed its own. -/
def WillRun (b : SyncPushBody) (db : Db) (dec : PendingDecision) (r : PendingRow) : Prop :=
  (b.pendingDecisions.find? fun d => Accepts (Validate.validateId d.id) ∧ d.id = dec.id) = some dec ∧ dec.approved ∧
    (filesOf b dec.id).foldl fileInto (db.pending.find dec.id) = some r ∧ r.status = "pending"

/-- A row that such an action deletes. -/
def WillDelete (b : SyncPushBody) (db : Db) (i : String) : Prop :=
  ∃ dec r, WillRun b db dec r ∧ r.actionType = "delete" ∧ r.memoryId = some i

/-- A memory that keeps its row to the end. -/
def Lasts (h : Host) (b : SyncPushBody) (db : Db) (i : String) : Prop :=
  (∃ k, Placed h b db i k) ∧ ¬Drops b i ∧ ¬WillDelete b db i

/-- A parent that is looked up was set by the body before; or it is not cleared, and has a standard that stays or is not set from
there on; or it is cleared, and has no standard. -/
def ParentsOk (h : Host) (b : SyncPushBody) (db : Db) : Prop :=
  ∀ l e l', b.namespaceMeta = l ++ e :: l' → e.parentNamespace = none → ∀ c ∈ dashParents e.ns,
    (∃ x ∈ l, x.ns = c ∧ Accepts (Validate.validateNamespace c) ∧ Accepts (Validate.validateId x.standardId) ∧
      x.parentNamespace ≠ some c ∧ Lasts h b db x.standardId) ∨
    (¬Clears b c ∧ ((∃ x ∈ db.namespaceMeta, x.ns = c ∧ x.standardId ∉ b.deletions ∧ x.standardId ∉ b.archives ∧
      ¬WillDelete b db x.standardId) ∨ ∀ x ∈ e :: l', x.ns ≠ c)) ∨
    (Clears b c ∧ ∀ x ∈ db.namespaceMeta, x.ns = c → x.standardId ∈ b.deletions ∧ Accepts (Validate.validateId x.standardId))

/-- What a body needs to be sent twice. -/
structure ReplayOk (h : Host) (t t' : Tick) (header : Option String) (b : SyncPushBody) (db : Db) : Prop where
  rows : RowsOk h b db
  actions : ∀ dec r, WillRun b db dec r → ActionOk h b t.now db (filesOf b dec.id ≠ []) r.toPendingAction
  fresh : ∀ dec r, WillRun b db dec r → ¬Named h b (t.newId dec.id) ∧
    ∀ dec' r', WillRun b db dec' r' → r'.memoryId ≠ some (t.newId dec.id)
  parents : ParentsOk h b db
  agent : ∀ seen, latestValid h b.memories = some seen → ∀ a a',
    resolveHttpAgentId header t.requestId = .ok a → resolveHttpAgentId header t'.requestId = .ok a' →
    a' = a ∨ ∃ w, db.syncStateLoad a' b.senderAgentId = some w ∧ seen ≤ w

section Replay

variable {h : Host} {t t' : Tick} {header : Option String} {b : SyncPushBody} {db e : Db}

/-! ## The end of a push -/

def refreshed (h : Host) (texts : List (String × String)) (db : Db) : Db :=
  match h.embedder with
  | some e => texts.foldl (refresh e) db
  | none => db

theorem refresh_frame (e : Embedder) (db : Db) (row : String × String) :
    refresh e db row = { db with memories := (refresh e db row).memories } := by
  unfold refresh
  split
  · rfl
  · split
    · rename_i hs
      obtain ⟨d, rfl⟩ := Db.setEmbedding_eq_ok hs
      rfl
    · rfl

theorem refreshed_frame (texts : List (String × String)) (db : Db) :
    refreshed h texts db = { db with memories := (refreshed h texts db).memories } := by
  unfold refreshed
  split
  · rename_i e _
    refine Machine.foldl_induct (P := fun d : Db => d = { db with memories := d.memories })
      (fun d row _ hd => ?_) rfl
    calc refresh e d row = { d with memories := (refresh e d row).memories } := refresh_frame e d row
      _ = { db with memories := (refresh e d row).memories } := by
        generalize (refresh e d row).memories = memories
        rw [hd]
  · rfl

def observedDb (h : Host) (t : Tick) (agent : String) (b : SyncPushBody) (db : Db) : Db :=
  match latestValid h b.memories with
  | some seen => db.syncStateObserve agent b.senderAgentId seen t.now
  | none => db

theorem observedDb_frame (agent : String) (db : Db) :
    observedDb h t agent b db = { db with syncState := (observedDb h t agent b db).syncState } := by
  unfold observedDb
  split <;> rfl

theorem body_db (hdry : b.dryRun = false) (agent : String) (db : Db) : (body h t agent b db).db =
    refreshed h (b.memories.foldl (memory h false) { db }).embeddingRefresh
      (observedDb h t agent b (writes h t b db)) := by
  obtain ⟨hseen, hdb⟩ := records_spec (h := h) (t := t) b db
  have htexts := records_embeddingRefresh (h := h) (t := t) b db
  rw [hdry] at htexts
  rw [hdry, if_neg Bool.false_ne_true] at hdb
  have hobs : (observed t agent b (records h t b db)).db = observedDb h t agent b (writes h t b db) := by
    unfold observed observedDb
    rw [hseen]
    cases latestValid h b.memories with
    | none => exact hdb
    | some seen =>
      simp only [hdry, Bool.false_eq_true, if_false]
      rw [hdb]
  have hsame : (observed t agent b (records h t b db)).embeddingRefresh =
      (records h t b db).embeddingRefresh := by
    unfold observed
    split
    · split_ifs <;> rfl
    · rfl
  unfold body refreshed
  cases h.embedder with
  | none => exact hobs
  | some e =>
    simp only [hdry, Bool.false_eq_true, if_false]
    rw [hsame, hobs, htexts]

theorem refreshed_memories_congr (texts : List (String × String)) {d d' : Db} (hd : d'.memories = d.memories) :
    (refreshed h texts d').memories = (refreshed h texts d).memories := by
  unfold refreshed
  split
  · refine Indexed.ext ?_
    rw [rows_foldl_refresh, rows_foldl_refresh, hd]
  · exact hd

theorem refreshed_filter (texts : List (String × String)) {f : String → Bool} {d : Db} (hf : ∀ r ∈ d.memories, f r.id) :
    (refreshed h (texts.filter fun row => f row.1) d).memories = (refreshed h texts d).memories := by
  unfold refreshed
  split
  · refine Indexed.ext ?_
    rw [rows_foldl_refresh, rows_foldl_refresh]
    exact List.map_congr_left fun r hr => (foldl_refreshRow_filter _ _ texts (hf r hr)).symm
  · rfl

theorem refreshed_again (texts : List (String × String)) {d d' : Db}
    (hd : d'.memories = (refreshed h texts d).memories) : (refreshed h texts d').memories = d'.memories := by
  unfold refreshed at hd ⊢
  split
  · rename_i e he
    rw [he] at hd
    exact rows_refresh_again e texts hd
  · rfl

theorem refreshed_live (texts : List (String × String)) (d : Db) : (refreshed h texts d).live = d.live := by
  unfold refreshed
  split
  · exact Machine.foldl_keeps (refresh_live _) d texts
  · rfl

/-! ## The first push -/

/-- The tables a body leaves, but for the rows and the watermarks. -/
theorem body_tables (hdry : b.dryRun = false) (agent : String) (db : Db) :
    (body h t agent b db).db.archived = (writes h t b db).archived ∧
    (body h t agent b db).db.links = (writes h t b db).links ∧
    (body h t agent b db).db.pending = (writes h t b db).pending ∧
    (body h t agent b db).db.namespaceMeta = (writes h t b db).namespaceMeta := by
  rw [body_db hdry, refreshed_frame, observedDb_frame]
  exact ⟨rfl, rfl, rfl, rfl⟩

theorem body_memories (hdry : b.dryRun = false) (agent : String) (db : Db) : (body h t agent b db).db.memories =
    (refreshed h (b.memories.foldl (memory h false) { db }).embeddingRefresh (writes h t b db)).memories := by
  rw [body_db hdry]
  refine refreshed_memories_congr _ ?_
  rw [observedDb_frame]

theorem find_body_pending (hdry : b.dryRun = false) (agent : String) (db : Db) (i : String) :
    (body h t agent b db).db.pending.find i =
      (decisionsOf b i).foldl (decideInto t.now) ((filesOf b i).foldl fileInto (db.pending.find i)) := by
  rw [(body_tables hdry agent db).2.2.1, writes_eq, find_filings, rows_pending]

/-! ### Its decisions -/

/-- The new ids of the actions of a body. -/
def NewIds (t : Tick) (b : SyncPushBody) (db : Db) (i : String) : Prop := ∃ dec r, WillRun b db dec r ∧ t.newId dec.id = i

def undecided (h : Host) (t : Tick) (b : SyncPushBody) (db : Db) : Db := b.pendings.foldl onPending (rows h t b db)

def decided (h : Host) (t : Tick) (b : SyncPushBody) (db : Db) : Db :=
  b.pendingDecisions.foldl (onDecision h t) (undecided h t b db)

theorem writes_eq_standards (h : Host) (t : Tick) (b : SyncPushBody) (db : Db) :
    writes h t b db = standards t b (decided h t b db) := by
  rw [writes_eq, filings_eq]
  rfl

theorem willRun_iff {dec : PendingDecision} {r : PendingRow} : WillRun b db dec r ↔
    Runs b.pendingDecisions (undecided h t b db) dec ∧ (undecided h t b db).pending.find dec.id = some r := by
  unfold WillRun Runs undecided IsPending
  rw [find_foldl_onPending, rows_pending]
  constructor
  · rintro ⟨hfirst, ha, hr, hst⟩
    exact ⟨⟨hfirst, ha, r, hr, hst⟩, hr⟩
  · rintro ⟨⟨hfirst, ha, r', hr', hst⟩, hr⟩
    cases hr.symm.trans hr'
    exact ⟨hfirst, ha, hr, hst⟩

theorem deleted_iff {i : String} :
    Deleted b.pendingDecisions (undecided h t b db) i ↔ WillDelete b db i := by
  unfold Deleted WillDelete
  simp only [willRun_iff (h := h) (t := t), and_assoc]

theorem not_named (hok : ReplayOk h t t' header b db) (i : String) (hi : Named h b i) : ¬NewIds t b db i := by
  rintro ⟨dec, r, hr, rfl⟩
  exact (hok.fresh dec r hr).1 hi

theorem calm_undecided (hok : ReplayOk h t t' header b db) : Calm h b db (NewIds t b db) (undecided h t b db) := by
  have hframe : undecided h t b db = { rows h t b db with pending := (undecided h t b db).pending } :=
    foldl_onPending_frame b.pendings
  exact calm_of_tables (calm_rows hok.rows t _) (not_named hok) (by rw [hframe]) (by rw [hframe]) (by rw [hframe])
    (by rw [hframe])

theorem runsOk (hok : ReplayOk h t t' header b db) : RunsOk h t b db (NewIds t b db) (fun dec => filesOf b dec.id ≠ [])
    b.pendingDecisions (undecided h t b db) := by
  refine ⟨fun dec r hr hrow => hok.actions dec r (willRun_iff.mpr ⟨hr, hrow⟩), fun dec r hr hrow mid hmid => ?_,
    fun dec hr => ?_, not_named hok⟩
  · rintro ⟨dec', r', hr', rfl⟩
    exact (hok.fresh dec' r' hr').2 dec r (willRun_iff.mpr ⟨hr, hrow⟩) hmid
  · obtain ⟨r, hrow, -⟩ := hr.2.2
    exact ⟨dec, r, willRun_iff.mpr ⟨hr, hrow⟩, rfl⟩

theorem calm_decided (hok : ReplayOk h t t' header b db) : Calm h b db (NewIds t b db) (decided h t b db) :=
  calm_decisions (runsOk hok) (calm_undecided hok)

/-! ### Its standards -/

theorem get_decided_of_lasts {i : String} (hok : ReplayOk h t t' header b db) (hi : Lasts h b db i) :
    (decided h t b db).get i ≠ none := by
  obtain ⟨⟨k, hk⟩, hleft, hdel⟩ := hi
  refine get_decisions_ne_none (runsOk hok) (calm_undecided hok) (fun hd => hdel (deleted_iff.mp hd)) ?_
  obtain ⟨r, -, hr, hid⟩ := getKey_rows_of_placed t hk hleft
  unfold undecided
  rw [foldl_onPending_frame]
  show (rows h t b db).get i ≠ none
  exact Db.get_ne_none_iff.mpr ⟨r, (Db.getKey_eq_some.mp hr).1, hid⟩

theorem undecided_namespaceMeta (h : Host) (t : Tick) (b : SyncPushBody) (db : Db) :
    (undecided h t b db).namespaceMeta = (dropped h t b db).namespaceMeta := by
  unfold undecided
  rw [foldl_onPending_frame]
  exact rows_namespaceMeta h t b db

theorem lookupsOk (hok : ReplayOk h t t' header b db) : LookupsOk b (decided h t b db) := by
  have hstd : (retaken h b db).namespaceMeta = db.namespaceMeta := by rw [retaken_frame]
  intro l e l' hb hp c hc
  rcases hok.parents l e l' hb hp c hc with ⟨x, hx, rfl, hns, hid, hself, hlast⟩ | ⟨hno, ⟨x, hx, rfl, hdel, harch, hwill⟩ | hfree⟩ |
    ⟨hclear, hnone⟩
  · exact Or.inl ⟨x, hx, ⟨hns, hid, get_decided_of_lasts hok hlast, hself⟩, rfl⟩
  · refine Or.inr (Or.inl ⟨hno, Or.inl ?_⟩)
    have hmem : x ∈ (decided h t b db).namespaceMeta := by
      refine mem_standards_decisions (runsOk hok) (calm_undecided hok) (fun hd => hwill (deleted_iff.mp hd)) ?_
      rw [undecided_namespaceMeta]
      exact keeps_foldl_removes removes_onArchive (keeps_foldl_removes removes_onDeletion (hstd ▸ hx) hdel) harch
    rw [Table.find_of_mem hmem]
    exact Option.some_ne_none x
  · exact Or.inr (Or.inl ⟨hno, Or.inr fun x hx _ => hfree x hx⟩)
  · refine Or.inr (Or.inr ⟨hclear, ?_⟩)
    cases hx : (decided h t b db).namespaceMeta.find c with
    | none => rfl
    | some x =>
      obtain ⟨hmem, hkey⟩ := Table.find_eq_some.mp hx
      have hold := standards_decisions_subset (runsOk hok) (calm_undecided hok) hmem
      rw [undecided_namespaceMeta] at hold
      have hleft := standards_foldl_removes removes_onArchive b.archives _ x hold
      have hin : x ∈ db.namespaceMeta := hstd ▸ standards_foldl_removes removes_onDeletion b.deletions _ x hleft
      obtain ⟨hdel, hv⟩ := hnone x hin hkey
      exact absurd rfl ((gone_foldl_onDeletion hdel hv).2 x hleft)

theorem calm_writes (hok : ReplayOk h t t' header b db) : Calm h b db (NewIds t b db) (writes h t b db) := by
  have hframe := standards_frame t b (decided h t b db)
  rw [writes_eq_standards]
  refine Grows.calm ⟨fun r hr => ⟨r, by rwa [hframe], rfl, rfl⟩, fun r hr => Or.inl ⟨r, by rwa [hframe] at hr, rfl, rfl⟩,
    fun m _ hk => ?_, fun k hk => by rwa [hframe], fun l hl => Or.inl (by rwa [hframe] at hl), fun e he => ?_,
    by rw [hframe]⟩ (not_named hok) (calm_decided hok)
  · rwa [hframe]
  · refine (mem_standards he).imp_right fun hlive => ?_
    rwa [hframe]

/-! ### The end of the first push -/

theorem body_writes (hdry : b.dryRun = false) (agent : String) (db : Db) : (body h t agent b db).db.live = (writes h t b db).live := by
  rw [body_db hdry, refreshed_live, observedDb_frame]
  rfl

theorem calm_body (hok : ReplayOk h t t' header b db) (hdry : b.dryRun = false) (agent : String) :
    Calm h b db (NewIds t b db) (body h t agent b db).db := by
  obtain ⟨harch, hlinks, -, hmeta⟩ := body_tables (h := h) (t := t) hdry agent db
  have hlive := body_writes (h := h) (t := t) hdry agent db
  have hrow : ∀ {d d' : Db}, d'.live = d.live → ∀ r ∈ d.memories, ∃ r' ∈ d'.memories, r'.id = r.id ∧ r'.key = r.key := by
    intro d d' he r hr
    obtain ⟨r', hr', hsame⟩ := Db.mem_live.mp (he ▸ Db.mem_live.mpr ⟨r, hr, rfl⟩)
    exact ⟨r', hr', congrArg Memory.id hsame, congrArg Memory.key hsame⟩
  refine Grows.calm ⟨hrow hlive, fun r hr => Or.inl ?_, fun m _ hk => ?_, fun k hk => hlinks ▸ hk,
    fun l hl => Or.inl (hlinks ▸ hl), fun e he => Or.inl (hmeta ▸ he), harch⟩ (not_named hok) (calm_writes hok)
  · obtain ⟨r', hr', hid, hkey⟩ := hrow hlive.symm r hr
    exact ⟨r', hr', hid.symm, hkey.symm⟩
  · obtain ⟨r, hr, hfix⟩ := hk
    obtain ⟨r', hr', hsame⟩ := Db.getKey_of_live hlive hr
    exact ⟨r', hr', foldl_mergeNewer_of_toMemory hsame hfix⟩

/-- The actions that the second push runs are spent. -/
theorem spent_body (hok : ReplayOk h t t' header b db) (hdry : b.dryRun = false) (agent : String) {dec : PendingDecision}
    {r : PendingRow} (hr : WillRun b (body h t agent b db).db dec r) : Spent h (body h t agent b db).db r.toPendingAction := by
  obtain ⟨hfirst, ha, hrow, hst⟩ := hr
  rw [find_body_pending hdry] at hrow
  have hdec : dec ∈ decisionsOf b dec.id := by
    refine List.mem_filter.mpr ⟨List.mem_of_find?_eq_some hfirst, ?_⟩
    simpa using List.find?_some hfirst
  have hfiled : filesOf b dec.id ≠ [] := fun hfs => by
    rw [hfs] at hrow
    exact not_isPending_foldl_decideInto (List.ne_nil_of_mem hdec) ⟨r, hrow, hst⟩
  rw [foldl_fileInto_again _ _ hfiled] at hrow
  have hrun : WillRun b db dec r := ⟨hfirst, ha, hrow, hst⟩
  have hcalm := calm_body hok hdry agent
  have htarget : ∀ mid, r.memoryId = some mid → ¬NewIds t b db mid := by
    rintro mid hmid ⟨dec', r', hr', rfl⟩
    exact (hok.fresh dec' r' hr').2 dec r hrun hmid
  have hact := hok.actions dec r hrun
  refine ⟨fun hkind mem hmem => (hact.store hkind mem hmem).1 hfiled, fun hkind mid hmid => ?_, fun hkind mid hmid => ?_⟩
  · have hgone := gone_decisions (runsOk hok) (calm_undecided hok) (deleted_iff.mpr ⟨dec, r, hrun, hkind, hmid⟩)
    have hlive := body_writes (h := h) (t := t) hdry agent db
    have hmeta := (body_tables (h := h) (t := t) hdry agent db).2.2.2
    have hget : (body h t agent b db).db.get mid = none := by
      rw [Db.get_eq_none_iff_of_live hlive, writes_eq_standards, standards_frame]
      exact hgone.1
    refine ⟨hget, fun e he hid => ?_⟩
    rw [hmeta, writes_eq_standards] at he
    rcases mem_standards he with hold | hlive'
    · exact hgone.2 e hold hid
    · exact hlive' (hid ▸ hgone.1)
  · refine hcalm.get_rowless ?_ (htarget mid hmid)
    cases hto : (r.payload.get "to_namespace").bind Json.asStr with
    | some toNs => exact (hact.clone hkind mid toNs hmid hto).resolve_right fun hc => hc.1 hfiled
    | none => exact (hact.promote hkind mid hmid hto).resolve_right fun hc => hc.1 hfiled

/-! ## The second push -/

theorem writes_again (hok : ReplayOk h t t' header b db) (hdry : b.dryRun = false) (agent : String) :
    ∃ archived pending, writes h t' b (body h t agent b db).db =
      standards t' b { (body h t agent b db).db with archived, pending } ∧
      ∀ i, (archived.find i).map unfiled = ((body h t agent b db).db.archived.find i).map unfiled := by
  obtain ⟨archived, hrows, harch⟩ := rows_again (calm_body hok hdry agent).quiet t'
  have hund : undecided h t' b (body h t agent b db).db = { (body h t agent b db).db with
      archived, pending := (undecided h t' b (body h t agent b db).db).pending } := by
    have hframe : undecided h t' b (body h t agent b db).db =
        { rows h t' b (body h t agent b db).db with pending := (undecided h t' b (body h t agent b db).db).pending } :=
      foldl_onPending_frame b.pendings
    generalize (undecided h t' b (body h t agent b db).db).pending = pending at hframe ⊢
    rw [hframe, hrows]
  refine ⟨archived, (decided h t' b (body h t agent b db).db).pending, ?_, harch⟩
  rw [writes_eq_standards]
  congr 1
  have hdec : decided h t' b (body h t agent b db).db = { undecided h t' b (body h t agent b db).db with
      pending := (decided h t' b (body h t agent b db).db).pending } :=
    foldl_onDecision_spent fun dec r hr hrow =>
      spent_of_tables (by rw [hund]) (by rw [hund]) (spent_body hok hdry agent (willRun_iff.mpr ⟨hr, hrow⟩))
  generalize (decided h t' b (body h t agent b db).db).pending = pending at hdec ⊢
  rw [hdec, hund]

/-! ### The embeddings -/

theorem id_of_placed {i j : String} {k : String × String} (hi : Placed h b db i k) (hj : Placed h b db j k) : i = j := by
  obtain ⟨r, hr, rfl⟩ := placed_iff.mp hi
  obtain ⟨r', hr', rfl⟩ := placed_iff.mp hj
  rw [hr, Option.some.injEq] at hr'
  rw [hr']

/-- The memories of the body ask for the same embeddings again, but for rows that come and go. -/
theorem texts_again (hok : ReplayOk h t t' header b db) (hdry : b.dryRun = false) (agent : String) :
    ((b.memories.foldl (memory h false) { db := (body h t agent b db).db }).embeddingRefresh.filter
        fun row => Decidable.decide ¬Drops b row.1) =
      (b.memories.foldl (memory h false) { db }).embeddingRefresh.filter fun row => Decidable.decide ¬Drops b row.1 := by
  have hcalm := calm_body hok hdry agent
  have hagain : ∀ k, ((retaken h b (body h t agent b db).db).getKey k).filter (fun r => Decidable.decide ¬Drops b r.id) =
      (body h t agent b db).db.getKey k := by
    intro k
    have hmem := memories_retaken hcalm.quiet
    unfold Db.getKey
    rw [← hmem, Indexed.findBy_filter]
  have hrow : ∀ m ∈ h.merges b.memories, ∀ i, Placed h b db i m.key → ¬Drops b i →
      rowId db (h.merges b.memories) m.key = some i := by
    intro m hm i hi hleft
    rcases hok.rows.memories m hm with ⟨j, hs⟩ | hl
    · rw [hs.row, id_of_placed hs.placed hi]
    · exact absurd (hl.rows i hi) hleft
  have hfirst : ∀ m ∈ h.merges b.memories, ∀ r, (b.memories.foldl h.takeIn db).getKey m.key = some r →
      Decidable.decide (¬Drops b r.id) = true → rowId db (h.merges b.memories) m.key = some r.id :=
    fun m hm r hr hleft => hrow m hm r.id (placed_iff.mpr ⟨r, hr, rfl⟩) (of_decide_eq_true hleft)
  have hsecond : ∀ m ∈ h.merges b.memories, ∀ r,
      (b.memories.foldl h.takeIn (body h t agent b db).db).getKey m.key = some r → Decidable.decide (¬Drops b r.id) = true →
      rowId (body h t agent b db).db (h.merges b.memories) m.key = some r.id := by
    intro m _ r hr hleft
    have hkey := hagain m.key
    rw [show (retaken h b (body h t agent b db).db).getKey m.key = some r from hr, Option.filter_some, if_pos hleft] at hkey
    unfold rowId
    rw [← hkey]
    rfl
  rw [embeddingRefresh_foldl_memory (s := { db := (body h t agent b db).db }) (f := fun id => Decidable.decide ¬Drops b id) hsecond,
    embeddingRefresh_foldl_memory (s := { db }) (f := fun id => Decidable.decide ¬Drops b id) hfirst]
  refine congrArg _ (List.filterMap_congr fun m hm => ?_)
  show ((((retaken h b (body h t agent b db).db).getKey m.key).filter fun r => Decidable.decide ¬Drops b r.id).map _) =
    ((((retaken h b db).getKey m.key).filter fun r => Decidable.decide ¬Drops b r.id).map _)
  rw [hagain]
  cases hr : (body h t agent b db).db.getKey m.key with
  | some r =>
    have hp := hcalm.titled m hm r hr
    have hleft : ¬Drops b r.id := hcalm.quiet.not_drops (Db.get_ne_none_iff.mpr ⟨r, (Db.getKey_eq_some.mp hr).1, rfl⟩)
    obtain ⟨r', hr', hid⟩ := placed_iff.mp hp
    rw [hr', Option.filter_some_pos (by simpa [hid] using hleft), Option.map_some, Option.map_some, hid]
  | none =>
    cases hr' : (retaken h b db).getKey m.key with
    | none => rfl
    | some r' =>
      by_cases hleft : Drops b r'.id
      · rw [Option.filter_some_neg (by simpa using hleft)]
      · exact absurd hr (hcalm.stays m hm r'.id (placed_iff.mpr ⟨r', hr', rfl⟩) hleft)

theorem left_of_mem {new : String → Prop} {d : Db} (hc : Calm h b db new d) : ∀ r ∈ d.memories,
    Decidable.decide (¬Drops b r.id) = true := by
  intro r hr
  exact decide_eq_true (hc.quiet.not_drops (Db.get_ne_none_iff.mpr ⟨r, hr, rfl⟩))

theorem memories_again (hok : ReplayOk h t t' header b db) (hdry : b.dryRun = false) (agent agent' : String) :
    (body h t' agent' b (body h t agent b db).db).db.memories = (body h t agent b db).db.memories := by
  obtain ⟨archived, pending, hwrites, -⟩ := writes_again hok hdry agent
  have hmem : (writes h t' b (body h t agent b db).db).memories = (body h t agent b db).db.memories := by
    rw [hwrites, standards_frame]
  have hleft := left_of_mem (calm_body hok hdry agent)
  have hfirst := body_memories (h := h) (t := t) hdry agent db
  rw [← refreshed_filter (f := fun id => Decidable.decide ¬Drops b id) _ (left_of_mem (calm_writes hok))] at hfirst
  rw [body_memories hdry, ← refreshed_filter (f := fun id => Decidable.decide ¬Drops b id) _ (by rw [hmem]; exact hleft),
    texts_again hok hdry agent, refreshed_again _ (hmem.trans hfirst), hmem]

theorem standards_of_replay (hok : ReplayOk h t t' header b db) (hdry : b.dryRun = false) (agent agent' : String)
    (ns : String) :
    ((body h t' agent' b (body h t agent b db).db).db.namespaceMeta.find ns).map unstamped =
      ((body h t agent b db).db.namespaceMeta.find ns).map unstamped := by
  obtain ⟨archived, pending, hwrites, -⟩ := writes_again hok hdry agent
  have hmeta : (body h t agent b db).db.namespaceMeta = (standards t b (decided h t b db)).namespaceMeta := by
    rw [(body_tables hdry agent db).2.2.2, writes_eq_standards]
  rw [(body_tables hdry agent' _).2.2.2, hwrites, hmeta]
  refine standards_again (d := { (body h t agent b db).db with archived, pending }) (lookupsOk hok) (fun id => ?_) hmeta ns
  refine (Db.get_eq_none_iff_of_live (body_writes (h := h) (t := t) hdry agent db)).trans ?_
  rw [writes_eq_standards, standards_frame]
  rfl

theorem lastSeen_again (hok : ReplayOk h t t' header b db) (hdry : b.dryRun = false) {agent agent' : String}
    (hagent : resolveHttpAgentId header t.requestId = .ok agent)
    (hagent' : resolveHttpAgentId header t'.requestId = .ok agent') (a p : String) :
    (body h t' agent' b (body h t agent b db).db).db.syncStateLoad a p =
      (body h t agent b db).db.syncStateLoad a p := by
  rw [body_syncStateLoad agent']
  cases hseen : latestValid h b.memories with
  | none => rfl
  | some seen =>
    have hload : ∀ a p, (body h t agent b db).db.syncStateLoad a p =
        (db.syncStateObserve agent b.senderAgentId seen t.now).syncStateLoad a p := by
      intro a p
      rw [body_syncStateLoad, hseen]
      simp only [hdry, Bool.false_eq_true, if_false]
    obtain ⟨w, hw, hle⟩ : ∃ w, (body h t agent b db).db.syncStateLoad agent' b.senderAgentId = some w ∧ seen ≤ w := by
      rw [hload, Db.syncStateLoad_observe]
      by_cases hsame : agent' = agent
      · rw [if_pos (by rw [hsame]), hsame]
        cases db.syncStateLoad agent b.senderAgentId with
        | none => exact ⟨seen, rfl, le_rfl⟩
        | some last => exact ⟨max last seen, rfl, le_max_right _ _⟩
      · rw [if_neg (by simpa using hsame)]
        exact (hok.agent seen hseen agent agent' hagent hagent').resolve_left hsame
    simp only [hdry, Bool.false_eq_true, if_false]
    rw [Db.syncStateLoad_observe]
    split_ifs with hpair
    · cases hpair
      rw [hw, Option.map_some, Option.getD_some, max_eq_left hle]
    · rfl

theorem resolve_error_again (t' : Tick) {error : String}
    (hr : resolveHttpAgentId header t.requestId = .error error) :
    resolveHttpAgentId header t'.requestId = .error error := by
  cases header with
  | none =>
    rw [resolveHttpAgentId_none] at hr
    cases hr
  | some id =>
    by_cases hid : id = ""
    · subst hid
      have : resolveHttpAgentId (some "") t.requestId = resolveHttpAgentId none t.requestId := rfl
      rw [this, resolveHttpAgentId_none] at hr
      cases hr
    · unfold resolveHttpAgentId at hr ⊢
      simp only [if_neg hid] at hr ⊢
      exact hr

end Replay

end Push

section Replay

variable (h : Host) (t t' : Tick) (header : Option String) (b : SyncPushBody) (db : Db)

end Replay

/-! ## Two bodies -/

/-- A receiver that holds the note `x` and knows the stamps of January. -/
def holdsX : Db := Db.single (note "x" "Rota" "2026-01-01T00:00:00+00:00").toRow

def january : Host :=
  plainHost ["2026-01-01T00:00:00+00:00", "2026-01-02T00:00:00+00:00"] fun _ => false

def minutes : Json := .obj [("title", .str "Minutes"), ("namespace", .str "team")]

def clerk : Host :=
  { january with memoryFromValue := fun j =>
      if j = minutes then .ok (note "" "Minutes" "2026-01-01T00:00:00+00:00") else .error "invalid type" }

def holdsQueue : Db :=
  holdsX.upsertPendingAction ⟨"q", "store", none, "team", minutes, "alice", "2026-01-01T00:00:00+00:00", "pending", none, none, []⟩

/-- A clock that makes the id `z`. -/
def clerkTick (now : String) : Tick := { tickAt now with newId := fun _ => "z" }

/-- A body with a note, the deletion of another, a standard, and the approval of the queued store. -/
def tidyBody : SyncPushBody where
  senderAgentId := "node-b"
  memories := [note "y" "Retro" "2026-01-02T00:00:00+00:00"]
  deletions := ["x"]
  namespaceMeta := [⟨"team", "y", none, "2026-01-02T00:00:00+00:00"⟩]
  pendingDecisions := [⟨"q", true, "bob"⟩]

/-- A body that replaces a note: the new one has the title of the one it deletes. -/
def swapBody : SyncPushBody where
  senderAgentId := "node-b"
  memories := [note "y" "Rota" "2026-01-02T00:00:00+00:00"]
  deletions := ["x"]

end AiMemory
