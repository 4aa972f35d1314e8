import AiMemory.Sync.Push

/-!
# Pulling from a peer

The client side of sync: `sync_cycle_once` of the daemon, which pulls one page and then pushes one, and
`catchup_once` of the federation, which only pulls. The server side of a pull is `sync_since`.

A page is the peer's memories above the pull watermark in the order of `updated_at`. The daemon then
moves the watermark to the last row of the page, whatever became of the rows.
-/

namespace AiMemory

/-- `sync_since`: the page, and the puller recorded as a peer. -/
def syncSince (h : Host) (t : Tick) (header since : Option String) (limit : Option ℕ)
    (peer : Option String) (db : Db) : Db × Except String (List Memory) :=
  if since.any fun s => s ≠ "" && !h.rfc3339 s then
    (db, .error "invalid `since` parameter — expected RFC 3339 timestamp")
  else
    let mems := db.memoriesUpdatedSince since (min (limit.getD 500) 10000)
    let db :=
      match peer, resolveHttpAgentId header t.requestId, mems.getLast? with
      | some peer, .ok localAgentId, some last =>
        if Accepts (Validate.validateAgentId peer) then
          db.syncStateObserve localAgentId peer last.updatedAt t.now
        else db
      | _, _, _ => db
    (db, .ok mems)

/-! ## The daemon -/

/-- What the daemon of a node is configured with for one peer. -/
structure DaemonConfig where
  localAgentId : String
  peerUrl : String
  batchSize : ℕ

/-- `peer_url.trim_end_matches('/')`, under which the peer's watermarks are filed. -/
def DaemonConfig.peer (cfg : DaemonConfig) : String :=
  String.ofList (cfg.peerUrl.toList.reverse.dropWhile (· = '/')).reverse

/-- The clock readings of one cycle, and whether its two requests get through. -/
structure Cycle where
  pullNow : String
  pushNow : String
  sinceTick : Tick
  pushTick : Tick
  pullReaches : Bool
  pushReaches : Bool

/-- The rows of a page, merged, and the watermark moved to the last of them. -/
def pullPage (h : Host) (localAgentId peer now : String) (page : List Memory) (db : Db) : Db :=
  let db := page.foldl h.takeIn db
  match page.getLast? with
  | some last => db.syncStateObserve localAgentId peer last.updatedAt now
  | none => db

def DaemonConfig.since (cfg : DaemonConfig) (db : Db) : Option String :=
  db.syncStateLoad cfg.localAgentId cfg.peer

def DaemonConfig.outgoing (cfg : DaemonConfig) (db : Db) : List Memory :=
  db.memoriesUpdatedSince (db.syncStateLastPushed cfg.localAgentId cfg.peer) cfg.batchSize

def DaemonConfig.pushBody (cfg : DaemonConfig) (outgoing : List Memory) : SyncPushBody :=
  { senderAgentId := cfg.localAgentId, memories := outgoing }

def pushOutgoing (peerHost : Host) (cfg : DaemonConfig) (c : Cycle) (db peerDb : Db) :
    (Db × Db) × Except String ℕ :=
  let outgoing := cfg.outgoing db
  match outgoing.getLast? with
  | none => ((db, peerDb), .ok 0)
  | some last =>
    if !c.pushReaches then ((db, peerDb), .error "error sending request")
    else
      let (peerDb, resp) := syncPush peerHost c.pushTick (some cfg.localAgentId) (cfg.pushBody outgoing) peerDb
      if !resp.isSuccess then ((db, peerDb), .error "sync-daemon: push status 400 Bad Request")
      else
        ((db.syncStateRecordPush cfg.localAgentId cfg.peer last.updatedAt c.pushNow, peerDb),
          .ok outgoing.length)

/-- `sync_cycle_once` between a node and its peer: how many rows it pulled and pushed. -/
def syncCycleOnce (h peerHost : Host) (cfg : DaemonConfig) (c : Cycle) (db peerDb : Db) :
    (Db × Db) × Except String (ℕ × ℕ) :=
  if !c.pullReaches then ((db, peerDb), .error "error sending request")
  else
    match syncSince peerHost c.sinceTick (some cfg.localAgentId) (cfg.since db) (some cfg.batchSize)
        (some cfg.localAgentId) peerDb with
    | (peerDb, .error _) => ((db, peerDb), .error "sync-daemon: pull status 400 Bad Request")
    | (peerDb, .ok page) =>
      let db := pullPage h cfg.localAgentId cfg.peer c.pullNow page db
      match pushOutgoing peerHost cfg c db peerDb with
      | (dbs, .ok pushed) => (dbs, .ok (page.length, pushed))
      | (dbs, .error e) => (dbs, .error e)

def DaemonConfig.page (cfg : DaemonConfig) (peerHost : Host) (c : Cycle) (db peerDb : Db) : List Memory :=
  if c.pullReaches then
    match (syncSince peerHost c.sinceTick (some cfg.localAgentId) (cfg.since db) (some cfg.batchSize)
        (some cfg.localAgentId) peerDb).2 with
    | .ok page => page
    | .error _ => []
  else []

/-! ## Catch-up -/

/-- A configured peer as one catch-up tick meets it. -/
structure CatchupPeer where
  id : String
  host : Host
  tick : Tick
  db : Db
  reaches : Bool

def CatchupPeer.page (p : CatchupPeer) (localId : String) (since : Option String) : List Memory :=
  if p.reaches then
    match (syncSince p.host p.tick none since none (some localId) p.db).2 with
    | .ok mems => mems
    | .error _ => []
  else []

/-- The body of the loop of `catchup_once`. -/
def catchupPeer (h : Host) (localId now : String) (db : Db) (p : CatchupPeer) : Db :=
  let page := p.page localId (db.syncStateLoad localId p.id)
  let db := page.foldl h.takeIn db
  match latestValid h page with
  | some ts => db.syncStateObserve localId p.id ts now
  | none => db

def catchupOnce (h : Host) (localId now : String) (peers : List CatchupPeer) (db : Db) : Db :=
  peers.foldl (catchupPeer h localId now) db

/-! ## Rows of a page -/

/-- Every valid row of a page lands when its turn comes. -/
def Host.Lands (h : Host) : Db → List Memory → Prop
  | _, [] => True
  | db, m :: ms => (m.Valid h.rfc3339 → h.Takes db m) ∧ h.Lands (h.takeIn db m) ms

section Rows

variable {h : Host} {db : Db} {page : List Memory} {m : Memory}

theorem Db.Covers.foldl_takeIn (hc : db.Covers m) : (page.foldl h.takeIn db).Covers m := by
  induction page generalizing db with
  | nil => exact hc
  | cons mem page ih => exact ih hc.takeIn

theorem Host.Lands.covers (hl : h.Lands db page) (hm : m ∈ page) (hv : m.Valid h.rfc3339) :
    (page.foldl h.takeIn db).Covers m := by
  induction page generalizing db with
  | nil => cases hm
  | cons x xs ih =>
    rcases List.mem_cons.mp hm with rfl | hm
    · exact ((covers_takeIn_iff hv).mpr (hl.1 hv)).foldl_takeIn
    · exact ih hl.2 hm

theorem live_foldl_takeIn {x : Memory} (hx : x ∈ (page.foldl h.takeIn db).live) :
    (∃ m ∈ page, m.key = x.key ∧ m.updatedAt = x.updatedAt) ∨
      ∃ r ∈ db.live, r.key = x.key ∧ r.updatedAt = x.updatedAt ∧ (r = x ∨ ∃ m ∈ page, m.key = r.key) := by
  induction page generalizing db with
  | nil => exact Or.inr ⟨x, hx, rfl, rfl, Or.inl rfl⟩
  | cons m page ih =>
    rcases ih hx with ⟨y, hy, hrest⟩ | ⟨r, hr, hkey, hstamp, hsame⟩
    · exact Or.inl ⟨y, List.mem_cons_of_mem _ hy, hrest⟩
    · have hsame' : r = x ∨ ∃ y ∈ m :: page, y.key = r.key :=
        hsame.imp_right fun ⟨y, hy, hk⟩ => ⟨y, List.mem_cons_of_mem _ hy, hk⟩
      obtain ⟨id, -, -, hi⟩ | ⟨he, -⟩ := takeIn_cases h db m
      · obtain ⟨row, hrow, rfl⟩ := Db.mem_live.mp hr
        obtain hold | ⟨old, hold, hk, rfl⟩ | rfl := Db.mem_insertOnConflict hi hrow
        · exact Or.inr ⟨_, Db.mem_live.mpr ⟨row, hold, rfl⟩, hkey, hstamp, hsame'⟩
        · -- merged: the stamp is the newer of the two
          have hk' : m.key = x.key := hk.symm.trans hkey
          rcases max_choice old.updatedAt m.updatedAt with hmax | hmax
          · refine Or.inr ⟨old.toMemory, Db.mem_live.mpr ⟨old, hold, rfl⟩, hkey, ?_, ?_⟩
            · exact hmax.symm.trans hstamp
            · exact Or.inr ⟨m, List.mem_cons_self, hk.symm⟩
          · exact Or.inl ⟨m, List.mem_cons_self, hk', hmax.symm.trans hstamp⟩
        · exact Or.inl ⟨m, List.mem_cons_self, hkey, hstamp⟩
      · rw [he] at hr
        exact Or.inr ⟨r, hr, hkey, hstamp, hsame'⟩

theorem load_pullPage {agent peer now a p w : String}
    (hw : (pullPage h agent peer now page db).syncStateLoad a p = some w) :
    db.syncStateLoad a p = some w ∨
      (a = agent ∧ p = peer ∧ ∃ last ∈ page.getLast?, w = last.updatedAt) := by
  have hkeep : (page.foldl h.takeIn db).syncStateLoad a p = db.syncStateLoad a p := by
    unfold Db.syncStateLoad
    rw [foldl_takeIn_syncState]
  unfold pullPage at hw
  simp only at hw
  cases hlast : page.getLast? with
  | none =>
    rw [hlast] at hw
    exact Or.inl (hkeep ▸ hw)
  | some last =>
    rw [hlast] at hw
    rcases Db.load_observe hw with hold | ⟨ha, hp, hseen⟩
    · exact Or.inl (hkeep ▸ hold)
    · exact Or.inr ⟨ha, hp, last, rfl, hseen⟩

end Rows

/-! ## What a cycle does -/

section Cases

theorem resolveHttpAgentId_some {id : String} (hv : Accepts (Validate.validateAgentId id))
    (requestId : String) : resolveHttpAgentId (some id) requestId = .ok id := by
  have hne : id ≠ "" := by
    rintro rfl
    revert hv
    decide
  unfold resolveHttpAgentId
  simp only [if_neg hne]
  rw [show Validate.validateAgentId id = .ok () from hv]

theorem syncSince_cases (h : Host) (t : Tick) (id : String) (since : Option String) (limit : ℕ) (db : Db) :
    (∃ e, syncSince h t (some id) since (some limit) (some id) db = (db, .error e)) ∨
    ∃ db', (db' = db ∨ ∃ seenAt, db' = db.syncStateObserve id id seenAt t.now) ∧
      syncSince h t (some id) since (some limit) (some id) db =
        (db', .ok (db.memoriesUpdatedSince since (min limit 10000))) := by
  unfold syncSince
  split_ifs with hbad
  · exact Or.inl ⟨_, rfl⟩
  · refine Or.inr ⟨_, ?_, rfl⟩
    by_cases hv : Accepts (Validate.validateAgentId id)
    · rw [resolveHttpAgentId_some hv]
      cases (db.memoriesUpdatedSince since (min ((some limit).getD 500) 10000)).getLast? with
      | none => exact Or.inl rfl
      | some last => exact Or.inr ⟨last.updatedAt, if_pos hv⟩
    · left
      split
      · rename_i peer agent last hpeer hagent hlast
        cases hpeer
        exact if_neg hv
      · rfl

variable (peerHost : Host) (cfg : DaemonConfig) (c : Cycle) (db peerDb : Db)

def DaemonConfig.push : Db × PushResponse :=
  syncPush peerHost c.pushTick (some cfg.localAgentId) (cfg.pushBody (cfg.outgoing db)) peerDb

theorem pushOutgoing_cases :
    ((pushOutgoing peerHost cfg c db peerDb).1 = (db, peerDb) ∧
      ∀ n, (pushOutgoing peerHost cfg c db peerDb).2 = .ok n → n = 0 ∧ cfg.outgoing db = []) ∨
    (c.pushReaches = true ∧ (cfg.push peerHost c db peerDb).2.isSuccess = true ∧
      ∃ last ∈ (cfg.outgoing db).getLast?, pushOutgoing peerHost cfg c db peerDb =
        ((db.syncStateRecordPush cfg.localAgentId cfg.peer last.updatedAt c.pushNow,
          (cfg.push peerHost c db peerDb).1), .ok (cfg.outgoing db).length)) := by
  unfold pushOutgoing DaemonConfig.push
  cases hlast : (cfg.outgoing db).getLast? with
  | none =>
    simp only [hlast]
    exact Or.inl ⟨trivial, fun n hn => ⟨by cases hn; rfl, List.getLast?_eq_none_iff.mp hlast⟩⟩
  | some last =>
    simp only [hlast]
    cases c.pushReaches with
    | false => exact Or.inl ⟨rfl, fun n hn => by cases hn⟩
    | true =>
      obtain ⟨agent, -, -, hok⟩ | ⟨hsame, hfail⟩ := syncPush_cases peerHost c.pushTick
        (some cfg.localAgentId) (cfg.pushBody (cfg.outgoing db)) peerDb
      · simp [hok]
      · simp [hsame, hfail]

/-- What a cycle leaves: a pull that failed leaves nothing, one that went through the page taken in and
the push half. -/
theorem syncCycleOnce_cases (h : Host) :
    let page := cfg.page peerHost c db peerDb
    let pulled := pullPage h cfg.localAgentId cfg.peer c.pullNow page db
    let res := syncCycleOnce h peerHost cfg c db peerDb
    (page = [] ∧ res.1 = (db, peerDb) ∧ ∃ e, res.2 = .error e) ∨
    (c.pullReaches = true ∧ page = peerDb.memoriesUpdatedSince (cfg.since db) (min cfg.batchSize 10000) ∧
      ∃ peerDb', (peerDb' = peerDb ∨ ∃ seenAt now,
          peerDb' = peerDb.syncStateObserve cfg.localAgentId cfg.localAgentId seenAt now) ∧
        res.1 = (pushOutgoing peerHost cfg c pulled peerDb').1 ∧
        ∀ k, res.2 = .ok k → ∃ n, (pushOutgoing peerHost cfg c pulled peerDb').2 = .ok n ∧
          k = (page.length, n)) := by
  unfold syncCycleOnce DaemonConfig.page
  cases c.pullReaches with
  | false => exact Or.inl ⟨rfl, rfl, _, rfl⟩
  | true =>
    simp only [Bool.not_true, Bool.false_eq_true, if_false, if_true]
    obtain ⟨e, hpull⟩ | ⟨peerDb', hdb, hpull⟩ := syncSince_cases peerHost c.sinceTick cfg.localAgentId
      (cfg.since db) cfg.batchSize peerDb
    · rw [hpull]
      exact Or.inl ⟨rfl, rfl, _, rfl⟩
    · rw [hpull]
      simp only
      refine Or.inr ⟨trivial, trivial, peerDb', hdb.imp_right fun ⟨seenAt, he⟩ => ⟨seenAt, _, he⟩, ?_⟩
      rcases pushOutgoing peerHost cfg c (pullPage h cfg.localAgentId cfg.peer c.pullNow
        (peerDb.memoriesUpdatedSince (cfg.since db) (min cfg.batchSize 10000)) db) peerDb' with ⟨dbs, e | n⟩
      · exact ⟨rfl, fun k hk => by cases hk⟩
      · exact ⟨rfl, fun k hk => ⟨n, rfl, by cases hk; rfl⟩⟩

end Cases

end AiMemory
