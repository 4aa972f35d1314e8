import AiMemory.Sync.Records
import AiMemory.Sync.Daemon

/-!
# What the pull watermark covers

`sync_state.last_seen_at` tells a node up to where it has the memories of a peer, so it should never
run ahead of the rows that were really taken in. A run of one node mixes everything that writes the
column. Beside the database it keeps a receipt for every valid row received from a peer, with whether
the row was taken: applied, or superseded by a stored row of its title and namespace.

The watermark can run ahead in two ways: it is moved past rows whose merge failed, and the first
record of a push creates it from the clock. In a run without these steps it never does.
-/

namespace AiMemory

open Machine

namespace Watermark

/-- A valid row received by `agent` from `peer`. -/
structure Receipt where
  agent : String
  peer : String
  mem : Memory
  taken : Bool
  deriving DecidableEq

/-- A node, and all it has received. -/
structure Node where
  db : Db
  receipts : List Receipt

/-- The receipts of a page: a row is taken when, after its turn, a stored row of its title and
namespace is at least as new. -/
def receiptsOf (h : Host) (agent peer : String) : Db → List Memory → List Receipt
  | _, [] => []
  | db, m :: ms =>
    let rest := receiptsOf h agent peer (h.takeIn db m) ms
    if m.Valid h.rfc3339 then ⟨agent, peer, m, (h.takeIn db m).Covers m⟩ :: rest else rest

/-- The writers of the watermark. A peer is whatever state it is in when the node meets it. -/
inductive Op where
  | syncStateObserve (agent peer seenAt now : String)
  | syncStateRecordPush (agent peer pushedAt now : String)
  | syncCycleOnce (cfg : DaemonConfig) (c : Cycle) (peerHost : Host) (peerDb : Db)
  | catchupOnce (localId now : String) (peers : List CatchupPeer)
  | syncPush (t : Tick) (header : Option String) (body : SyncPushBody)

def catchupStep (h : Host) (localId now : String) (s : Node) (p : CatchupPeer) : Node where
  db := catchupPeer h localId now s.db p
  receipts := s.receipts ++
    receiptsOf h localId p.id s.db (p.page localId (s.db.syncStateLoad localId p.id))

/-- The receipts of a push: none when it is refused or a preview. -/
def pushReceipts (h : Host) (t : Tick) (header : Option String) (b : SyncPushBody) (db : Db) :
    List Receipt :=
  match b.check, resolveHttpAgentId header t.requestId with
  | .ok (), .ok agent => if b.dryRun then [] else receiptsOf h agent b.senderAgentId db b.memories
  | _, _ => []

def step (h : Host) (s : Node) : Op → Node
  | .syncStateObserve agent peer seenAt now => { s with db := s.db.syncStateObserve agent peer seenAt now }
  | .syncStateRecordPush agent peer pushedAt now =>
    { s with db := s.db.syncStateRecordPush agent peer pushedAt now }
  | .syncCycleOnce cfg c peerHost peerDb =>
    { db := (AiMemory.syncCycleOnce h peerHost cfg c s.db peerDb).1.1
      receipts := s.receipts ++
        receiptsOf h cfg.localAgentId cfg.peer s.db (cfg.page peerHost c s.db peerDb) }
  | .catchupOnce localId now peers => peers.foldl (catchupStep h localId now) s
  | .syncPush t header b =>
    { db := (AiMemory.syncPush h t header b s.db).1
      receipts := s.receipts ++ pushReceipts h t header b s.db }

/-- The fold over the peers is `catchup_once`. -/
theorem catchup_db (h : Host) (localId now : String) (s : Node) (peers : List CatchupPeer) :
    (step h s (.catchupOnce localId now peers)).db = AiMemory.catchupOnce h localId now peers s.db := by
  show (peers.foldl (catchupStep h localId now) s).db = peers.foldl (catchupPeer h localId now) s.db
  induction peers generalizing s with
  | nil => rfl
  | cons p peers ih => exact ih (catchupStep h localId now s p)

/-- A row taken from the peer that is at least as new as `stamp`. -/
def Reached (s : Node) (agent peer stamp : String) : Prop :=
  ∃ r ∈ s.receipts, r.agent = agent ∧ r.peer = peer ∧ r.taken = true ∧ stamp ≤ r.mem.updatedAt

/-- The watermark of each peer is reached by a row taken from it, and no row that was not taken lies at
or below it. -/
def WatermarkOk (s : Node) : Prop :=
  ∀ agent peer w, s.db.syncStateLoad agent peer = some w →
    Reached s agent peer w ∧
      ∀ r ∈ s.receipts, r.agent = agent → r.peer = peer → r.taken = false → w < r.mem.updatedAt

/-- Recording a push leaves every pull watermark where it is. -/
def PushKeeps (h : Host) (s : Node) : Op → Prop
  | .syncStateRecordPush agent peer pushedAt now => ∀ a p,
      (step h s (.syncStateRecordPush agent peer pushedAt now)).db.syncStateLoad a p =
        s.db.syncStateLoad a p
  | _ => True

/-! ## The condition on a step -/

/-- The steps that do not move the watermark ahead: rows land, the last row of a page is no newer than
a row taken, and a push is only recorded for a peer that was pulled from. -/
def StepOk (h : Host) (s : Node) : Op → Prop
  | .syncStateObserve agent peer seenAt _ => Reached s agent peer seenAt
  | .syncStateRecordPush agent peer _ _ => s.db.syncStateLoad agent peer ≠ none
  | .syncCycleOnce cfg c peerHost peerDb =>
    let page := cfg.page peerHost c s.db peerDb
    h.Lands s.db page ∧
      (∀ last ∈ page.getLast?, Reached s cfg.localAgentId cfg.peer last.updatedAt ∨
        ∃ m ∈ page, m.Valid h.rfc3339 ∧ last.updatedAt ≤ m.updatedAt) ∧
      (page = [] → cfg.since s.db = none → cfg.outgoing s.db = [] ∨ c.pullReaches = false ∨
        c.pushReaches = false)
  | .catchupOnce localId now peers =>
    Meets (catchupStep h localId now)
      (fun s p => h.Lands s.db (p.page localId (s.db.syncStateLoad localId p.id))) s peers
  | .syncPush _ _ b => b.check = .ok () → b.dryRun = false → h.Lands s.db b.memories

/-- The invariant: every row was taken, and every watermark is reached. -/
structure Inv (s : Node) : Prop where
  taken : ∀ r ∈ s.receipts, r.taken = true
  reached : ∀ agent peer w, s.db.syncStateLoad agent peer = some w → Reached s agent peer w

theorem Inv.watermarkOk {s : Node} (hs : Inv s) : WatermarkOk s := by
  refine fun agent peer w hw => ⟨hs.reached agent peer w hw, fun r hr _ _ hnot => ?_⟩
  rw [hs.taken r hr] at hnot
  cases hnot

/-! ## Receipts -/

section Receipts

variable {h : Host} {agent peer : String} {db : Db} {page : List Memory}

theorem taken_of_lands (hl : h.Lands db page) : ∀ r ∈ receiptsOf h agent peer db page, r.taken = true := by
  induction page generalizing db with
  | nil => intro r hr; cases hr
  | cons m ms ih =>
    intro r hr
    unfold receiptsOf at hr
    simp only at hr
    split_ifs at hr with hv
    · rcases List.mem_cons.mp hr with rfl | hr
      · exact decide_eq_true ((covers_takeIn_iff hv).mpr (hl.1 hv))
      · exact ih hl.2 r hr
    · exact ih hl.2 r hr

theorem exists_receipt {m : Memory} (hm : m ∈ page) (hv : m.Valid h.rfc3339) :
    ∃ r ∈ receiptsOf h agent peer db page, r.agent = agent ∧ r.peer = peer ∧ r.mem = m := by
  induction page generalizing db with
  | nil => cases hm
  | cons x xs ih =>
    unfold receiptsOf
    simp only
    rcases List.mem_cons.mp hm with rfl | hm
    · rw [if_pos hv]
      exact ⟨_, List.mem_cons_self, rfl, rfl, rfl⟩
    · obtain ⟨r, hr, hrest⟩ := @ih (h.takeIn db x) hm
      split_ifs
      · exact ⟨r, List.mem_cons_of_mem _ hr, hrest⟩
      · exact ⟨r, hr, hrest⟩

/-- The node after the rows of a page were received, and its watermark set to `db'`. -/
theorem reached_append {s : Node} {db' : Db} {new : List Receipt} {a p w : String}
    (hr : Reached s a p w) : Reached ⟨db', s.receipts ++ new⟩ a p w := by
  obtain ⟨r, hmem, hrest⟩ := hr
  exact ⟨r, List.mem_append_left _ hmem, hrest⟩

theorem reached_of_lands {s : Node} {db' : Db} {m : Memory} {w : String} (hl : h.Lands s.db page)
    (hm : m ∈ page) (hv : m.Valid h.rfc3339) (hw : w ≤ m.updatedAt) :
    Reached ⟨db', s.receipts ++ receiptsOf h agent peer s.db page⟩ agent peer w := by
  obtain ⟨r, hr, hagent, hpeer, rfl⟩ := @exists_receipt h agent peer s.db page m hm hv
  exact ⟨r, List.mem_append_right _ hr, hagent, hpeer, taken_of_lands hl r hr, hw⟩

end Receipts

/-! ## One step -/

section Step

variable {h : Host} {s : Node}

theorem Inv.receive (hs : Inv s) {agent peer : String} {page : List Memory} {db' : Db}
    (hl : h.Lands s.db page)
    (hw : ∀ a p w, db'.syncStateLoad a p = some w → s.db.syncStateLoad a p = some w ∨
      Reached ⟨db', s.receipts ++ receiptsOf h agent peer s.db page⟩ a p w) :
    Inv ⟨db', s.receipts ++ receiptsOf h agent peer s.db page⟩ := by
  refine ⟨fun r hr => ?_, fun a p w hload => ?_⟩
  · rcases List.mem_append.mp hr with hr | hr
    · exact hs.taken r hr
    · exact taken_of_lands hl r hr
  · rcases hw a p w hload with hold | hnew
    · exact reached_append (hs.reached a p w hold)
    · exact hnew

theorem load_recordPush_of_ne_none {db : Db} {agent peer pushedAt now : String}
    (hne : db.syncStateLoad agent peer ≠ none) (a p : String) :
    (db.syncStateRecordPush agent peer pushedAt now).syncStateLoad a p = db.syncStateLoad a p := by
  rw [Db.syncStateLoad_recordPush]
  split_ifs with hpair
  · cases hpair
    obtain ⟨w, hw⟩ := Option.ne_none_iff_exists'.mp hne
    rw [hw]
    rfl
  · rfl

/-- What a cycle leaves of the node: nothing new, the page taken in, or that and a push recorded. -/
theorem cycle_cases (peerHost : Host) (cfg : DaemonConfig) (c : Cycle) (db peerDb : Db) :
    let pulled := pullPage h cfg.localAgentId cfg.peer c.pullNow (cfg.page peerHost c db peerDb) db
    let db' := (AiMemory.syncCycleOnce h peerHost cfg c db peerDb).1.1
    db' = db ∨ db' = pulled ∨
      (c.pullReaches = true ∧ c.pushReaches = true ∧ ∃ last ∈ (cfg.outgoing pulled).getLast?,
        db' = pulled.syncStateRecordPush cfg.localAgentId cfg.peer last.updatedAt c.pushNow) := by
  obtain ⟨-, hsame, -⟩ | ⟨hpull, -, peerDb', -, hres, -⟩ := syncCycleOnce_cases peerHost cfg c db peerDb h
  · exact Or.inl (by rw [hsame])
  · simp only
    rw [hres]
    obtain ⟨hsame, -⟩ | ⟨hpush, -, last, hlast, hrec⟩ := pushOutgoing_cases peerHost cfg c
      (pullPage h cfg.localAgentId cfg.peer c.pullNow (cfg.page peerHost c db peerDb) db) peerDb'
    · exact Or.inr (Or.inl (by rw [hsame]))
    · exact Or.inr (Or.inr ⟨hpull, hpush, last, hlast, by rw [hrec]⟩)

theorem Inv.syncCycleOnce (hs : Inv s) {cfg : DaemonConfig} {c : Cycle} {peerHost : Host} {peerDb : Db}
    (hok : StepOk h s (.syncCycleOnce cfg c peerHost peerDb)) :
    Inv (step h s (.syncCycleOnce cfg c peerHost peerDb)) := by
  obtain ⟨hl, hlast, hfresh⟩ := hok
  refine hs.receive hl fun a p w hw => ?_
  have hpulled : (pullPage h cfg.localAgentId cfg.peer c.pullNow
      (cfg.page peerHost c s.db peerDb) s.db).syncStateLoad a p = some w →
      s.db.syncStateLoad a p = some w ∨ Reached
        ⟨(AiMemory.syncCycleOnce h peerHost cfg c s.db peerDb).1.1, s.receipts ++
          receiptsOf h cfg.localAgentId cfg.peer s.db (cfg.page peerHost c s.db peerDb)⟩ a p w := by
    intro hw
    rcases load_pullPage hw with hold | ⟨rfl, rfl, last, hmem, rfl⟩
    · exact Or.inl hold
    · rcases hlast last hmem with hreach | ⟨m, hm, hv, hle⟩
      · exact Or.inr (reached_append hreach)
      · exact Or.inr (reached_of_lands hl hm hv hle)
  obtain hdb | hdb | ⟨hpull, hpush, last, hout, hdb⟩ :=
    @cycle_cases h peerHost cfg c s.db peerDb
  · rw [hdb] at hw
    exact Or.inl hw
  · rw [hdb] at hw
    exact hpulled hw
  · rw [hdb] at hw
    -- the push finds the watermark there: by the page just pulled, or from before
    have hne : (pullPage h cfg.localAgentId cfg.peer c.pullNow (cfg.page peerHost c s.db peerDb)
        s.db).syncStateLoad cfg.localAgentId cfg.peer ≠ none := by
      unfold pullPage
      simp only
      cases hpage : (cfg.page peerHost c s.db peerDb).getLast? with
      | some last => simp [Db.syncStateLoad_observe]
      | none =>
        have hnil : cfg.page peerHost c s.db peerDb = [] := List.getLast?_eq_none_iff.mp hpage
        rw [hnil]
        intro hnone
        rcases hfresh hnil hnone with hempty | hno | hno
        · rw [hnil] at hout
          rw [show pullPage h cfg.localAgentId cfg.peer c.pullNow [] s.db = s.db from rfl, hempty] at hout
          cases hout
        · rw [hpull] at hno
          cases hno
        · rw [hpush] at hno
          cases hno
    rw [load_recordPush_of_ne_none hne] at hw
    exact hpulled hw

theorem Inv.catchupStep (hs : Inv s) {localId now : String} {p : CatchupPeer}
    (hl : h.Lands s.db (p.page localId (s.db.syncStateLoad localId p.id))) :
    Inv (catchupStep h localId now s p) := by
  refine hs.receive hl fun a q w hw => ?_
  have hkeep : ∀ page : List Memory,
      (page.foldl h.takeIn s.db).syncStateLoad a q = s.db.syncStateLoad a q := by
    intro page
    unfold Db.syncStateLoad
    rw [foldl_takeIn_syncState]
  unfold catchupPeer at hw
  simp only at hw
  cases hts : latestValid h (p.page localId (s.db.syncStateLoad localId p.id)) with
  | none =>
    rw [hts] at hw
    exact Or.inl (hkeep _ ▸ hw)
  | some ts =>
    rw [hts] at hw
    rcases Db.load_observe hw with hold | ⟨rfl, rfl, rfl⟩
    · exact Or.inl (hkeep _ ▸ hold)
    · obtain ⟨m, hm, hv, rfl⟩ := (latestValid_spec h _).1 _ hts
      exact Or.inr (reached_of_lands hl hm hv le_rfl)

theorem Inv.syncPush (hs : Inv s) {t : Tick} {header : Option String} {b : SyncPushBody}
    (hok : StepOk h s (.syncPush t header b)) : Inv (step h s (.syncPush t header b)) := by
  have hsame : Inv ⟨s.db, s.receipts ++ []⟩ := by
    rw [List.append_nil]
    exact hs
  show Inv ⟨(AiMemory.syncPush h t header b s.db).1, s.receipts ++ pushReceipts h t header b s.db⟩
  unfold AiMemory.syncPush pushReceipts
  cases hc : b.check with
  | error e => exact hsame
  | ok u =>
    cases hr : resolveHttpAgentId header t.requestId with
    | error e => exact hsame
    | ok agent =>
      simp only
      cases hdry : b.dryRun with
      | true =>
        simp only [if_true, List.append_nil]
        refine ⟨hs.taken, fun a p w hw => hs.reached a p w ?_⟩
        change (Push.body h t agent b s.db).db.syncStateLoad a p = some w at hw
        rw [Push.body_syncStateLoad, hdry] at hw
        split at hw <;> simpa using hw
      | false =>
        have hl := hok hc hdry
        simp only [Bool.false_eq_true, if_false]
        refine hs.receive hl fun a p w hw => ?_
        rw [Push.body_syncStateLoad, hdry] at hw
        cases hts : latestValid h b.memories with
        | none =>
          rw [hts] at hw
          exact Or.inl hw
        | some ts =>
          rw [hts] at hw
          simp only [Bool.false_eq_true, if_false] at hw
          rcases Db.load_observe hw with hold | ⟨rfl, rfl, rfl⟩
          · exact Or.inl hold
          · obtain ⟨m, hm, hv, rfl⟩ := (latestValid_spec h _).1 _ hts
            exact Or.inr (reached_of_lands hl hm hv le_rfl)

theorem Inv.step (op : Op) (hs : Inv s) (hok : StepOk h s op) : Inv (step h s op) := by
  cases op with
  | syncStateObserve agent peer seenAt now =>
    refine ⟨hs.taken, fun a p w hw => ?_⟩
    rcases Db.load_observe hw with hold | ⟨rfl, rfl, rfl⟩
    · exact hs.reached a p w hold
    · exact hok
  | syncStateRecordPush agent peer pushedAt now =>
    exact ⟨hs.taken, fun a p w hw => hs.reached a p w (load_recordPush_of_ne_none hok a p ▸ hw)⟩
  | syncCycleOnce cfg c peerHost peerDb => exact hs.syncCycleOnce hok
  | catchupOnce localId now peers =>
    exact forall_states_of_meets (fun _ _ hs hl => hs.catchupStep hl) hs hok _
      foldl_mem_states
  | syncPush t header b => exact hs.syncPush hok

end Step

/-! ## Runs -/

/-- A call finds its own surroundings: the same row may fail in one call and land in a later one. -/
def call (s : Node) (c : Host × Op) : Node := step c.1 s c.2

/-- The condition on a call. -/
def CallOk (s : Node) (c : Host × Op) : Prop := StepOk c.1 s c.2

/-- In a run whose calls all meet the condition the watermark only covers rows that were taken in, and
recording a push never moves it. -/
theorem watermark_covers_taken_rows (db : Db) (hdb : db.syncState.rows = []) (calls : List (Host × Op))
    (hok : Meets call CallOk ⟨db, []⟩ calls) :
    (∀ s ∈ states call ⟨db, []⟩ calls, WatermarkOk s) ∧
      Meets call (fun s c => PushKeeps c.1 s c.2) ⟨db, []⟩ calls := by
  have hload : ∀ a p, db.syncStateLoad a p = none := by
    intro a p
    unfold Db.syncStateLoad Relational.Table.find
    rw [hdb]
    rfl
  have hinit : Inv ⟨db, []⟩ :=
    ⟨fun r hr => (by cases hr), fun a p w hw => by rw [hload] at hw; cases hw⟩
  refine ⟨fun s hs => ?_, ?_⟩
  · refine (forall_states_of_meets ?_ hinit hok s hs).watermarkOk
    exact fun _ c hs hc => hs.step c.2 hc
  · refine meets_mono ?_ hok
    rintro s ⟨h, op⟩ hc
    cases op with
    | syncStateRecordPush agent peer pushedAt now => exact load_recordPush_of_ne_none hc
    | _ => trivial

/-- A note of the peer `node-b`. -/
def peerNote : Memory := note "b1" "Rota" "2026-01-02T00:00:00+00:00"

def receiver (fault : Bool) : Host := plainHost ["2026-01-02T00:00:00+00:00"] fun _ => fault

def notePush : Op :=
  .syncPush (tickAt "2026-01-03T00:00:00+00:00") (some "node-a")
    { senderAgentId := "node-b", memories := [peerNote] }

def pushBack : Op :=
  .syncStateRecordPush "node-a" "node-b" "2026-01-02T00:00:00+00:00" "2026-01-04T00:00:00+00:00"

/-- A push received and then one recorded: the watermark stands at the note. -/
theorem peerNote_taken_then_pushed :
    (∀ s ∈ states call ⟨Db.empty, []⟩
        [(receiver false, notePush), (receiver false, pushBack)], WatermarkOk s) ∧
      Meets call (fun s c => PushKeeps c.1 s c.2) ⟨Db.empty, []⟩
        [(receiver false, notePush), (receiver false, pushBack)] := by
  refine watermark_covers_taken_rows Db.empty rfl _ ⟨?_, ?_, trivial⟩
  · exact fun _ _ => ⟨fun _ => Or.inr ⟨rfl, Or.inr rfl⟩, trivial⟩
  · show (call ⟨Db.empty, []⟩ (receiver false, notePush)).db.syncStateLoad "node-a" "node-b" ≠ none
    decide

/-- A fresh record of a push makes a watermark out of the clock, and a push whose row fails to merge moves
the watermark past the row. -/
theorem watermark_runs_ahead :
    (¬WatermarkOk (call ⟨Db.empty, []⟩ (receiver false, pushBack)) ∧
      ¬PushKeeps (receiver false) ⟨Db.empty, []⟩ pushBack) ∧
      ¬WatermarkOk (call ⟨Db.empty, []⟩ (receiver true, notePush)) := by
  refine ⟨⟨fun hok => ?_, fun hkeeps => ?_⟩, fun hok => ?_⟩
  · obtain ⟨⟨r, hr, -⟩, -⟩ := hok "node-a" "node-b" "2026-01-04T00:00:00+00:00" (by decide)
    cases hr
  · have := hkeeps "node-a" "node-b"
    revert this
    decide
  · have hlast := (hok "node-a" "node-b" "2026-01-02T00:00:00+00:00" (by decide)).2
      ⟨"node-a", "node-b", peerNote, false⟩ (by decide) rfl rfl rfl
    exact lt_irrefl _ hlast

end Watermark

end AiMemory
