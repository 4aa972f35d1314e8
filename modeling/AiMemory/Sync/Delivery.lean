import AiMemory.Sync.Records
import AiMemory.Sync.Daemon

/-!
# What two daemons deliver

Two nodes write on their own and meet in cycles of either daemon. A row travels to a node when the node
pulls it or the other one pushes it; the stamps up to which that has happened are the pull watermark of
the one and the push watermark of the other. Nothing at or below them is sent again.

So a cycle that moves nothing means that both nodes have everything only if every valid row that is
behind a watermark was delivered. `Inv` says so, and `StepOk` lists what a step must not do to keep it:
stamp a row behind a watermark, cut a page between two rows of one stamp, lose a row on arrival.
-/

namespace AiMemory

open Relational

namespace Delivery

/-- The two nodes. -/
inductive Side where
  | left
  | right
  deriving DecidableEq

def Side.other : Side → Side
  | left => right
  | right => left

@[simp] theorem Side.other_other (i : Side) : i.other.other = i := by cases i <;> rfl

/-- The surroundings of the nodes, and what their daemons were started with. -/
structure Link where
  host : Side → Host
  localAgentId : Side → String
  peerUrl : Side → String

def Link.cfg (l : Link) (i : Side) (batchSize : ℕ) : DaemonConfig :=
  ⟨l.localAgentId i, l.peerUrl i, batchSize⟩

/-- The name under which a node files the watermarks of the other. -/
def Link.peer (l : Link) (i : Side) : String := (l.cfg i 0).peer

/-- The databases of the nodes. -/
abbrev Nodes := Side → Db

def Nodes.of (i : Side) (dbs : Db × Db) : Nodes := fun j => if j = i then dbs.1 else dbs.2

/-! ## Local writes -/

/-- A write on one node. -/
inductive Write where
  | insert (mem : Memory)
  | update (id : String) (u : UpdateMemory) (now : String)
  | insertIfNewer (mem : Memory)

def Write.apply (h : Host) (db : Db) : Write → Db
  | insert mem =>
    match db.insert mem with
    | .ok (db, _) => db
    | .error _ => db
  | update id u now =>
    match db.update id u now with
    | .ok (db, _) => db
    | .error _ => db
  | insertIfNewer mem =>
    match h.insertIfNewer db mem with
    | .ok (db, _) => db
    | .error _ => db

/-- What a write is about: the row it replaces, and the title, namespace and stamp it leaves. -/
structure Target where
  old : Option MemoryRow
  key : String × String
  stamp : String

def Write.target (db : Db) : Write → Option Target
  | insert mem => some ⟨db.getKey mem.key, mem.key, mem.updatedAt⟩
  | update id u now => (db.get id).map fun r => ⟨some r, (u.title.getD r.title, u.ns.getD r.ns), now⟩
  | insertIfNewer mem =>
    some ⟨db.getKey mem.key, mem.key,
      ((db.getKey mem.key).map fun r => max r.updatedAt mem.updatedAt).getD mem.updatedAt⟩

/-! ## Runs -/

/-- A local write, or a cycle of the daemon of one node against the other. -/
inductive Op where
  | write (i : Side) (w : Write)
  | cycle (i : Side) (batchSize : ℕ) (one_le : 1 ≤ batchSize) (c : Cycle)

/-- The cycle of the daemon of `i`. -/
def cycle (l : Link) (nodes : Nodes) (i : Side) (batchSize : ℕ) (c : Cycle) :
    (Db × Db) × Except String (ℕ × ℕ) :=
  syncCycleOnce (l.host i) (l.host i.other) (l.cfg i batchSize) c (nodes i) (nodes i.other)

def step (l : Link) (nodes : Nodes) : Op → Nodes
  | .write i w => Nodes.of i (w.apply (l.host i) (nodes i), nodes i.other)
  | .cycle i n _ c => Nodes.of i (cycle l nodes i n c).1

/-- Each node has, for every valid row of the other, a row at least as new. -/
def Delivered (l : Link) (nodes : Nodes) : Prop :=
  ∀ i, ∀ m ∈ (nodes i.other).live, m.Valid (l.host i).rfc3339 → (nodes i).Covers m

/-! ## The condition on a step -/

/-- The stamp is behind a watermark of the way to `i`: the node has pulled past it, or its peer has
pushed past it. -/
def Passed (l : Link) (i : Side) (sink source : Db) (stamp : String) : Prop :=
  (∃ w, sink.syncStateLoad (l.localAgentId i) (l.peer i) = some w ∧ stamp ≤ w) ∨
    ∃ w, source.syncStateLastPushed (l.localAgentId i.other) (l.peer i.other) = some w ∧ stamp ≤ w

/-- A write on `i` stamps no row behind a watermark, unless the peer has it, and loses no row that it
had of the peer. -/
structure WriteOk (l : Link) (nodes : Nodes) (i : Side) (t : Target) : Prop where
  fresh : Passed l i.other (nodes i.other) (nodes i) t.stamp →
    ∃ x ∈ (nodes i.other).live, x.key = t.key ∧ t.stamp ≤ x.updatedAt
  keeps : ∀ r, t.old = some r → ∀ x ∈ (nodes i.other).live, x.key = r.key → x.updatedAt ≤ r.updatedAt →
    t.key = r.key ∧ x.updatedAt ≤ t.stamp

/-- The page does not end between two rows of one stamp. -/
def CutsNoTie (source : Db) (page : List Memory) : Prop :=
  ∀ last ∈ page.getLast?, ∀ m ∈ source.live, m.updatedAt = last.updatedAt → m ∈ page

/-- A row that `validate_memory` refuses is not newer than the other node's row. -/
def NoInvalidNewer (rfc : Rfc3339) (source sink : Db) : Prop :=
  ∀ m ∈ source.live, ¬m.Valid rfc → ∀ x ∈ sink.live, x.key = m.key → m.updatedAt ≤ x.updatedAt

/-- The condition on a cycle: the rows of both pages land, neither page cuts a tie, no invalid row is in
the way, and the peer does not file its own watermarks under this node's agent id. -/
structure CycleOk (l : Link) (nodes : Nodes) (i : Side) (n : ℕ) (c : Cycle) : Prop where
  name : l.peer i.other ≠ l.localAgentId i
  valid : ∀ j, NoInvalidNewer (l.host j).rfc3339 (nodes j.other) (nodes j)
  pull : let page := (l.cfg i n).page (l.host i.other) c (nodes i) (nodes i.other)
    (l.host i).Lands (nodes i) page ∧ CutsNoTie (nodes i.other) page
  push : let page := (l.cfg i n).page (l.host i.other) c (nodes i) (nodes i.other)
    let pulled := pullPage (l.host i) (l.localAgentId i) (l.peer i) c.pullNow page (nodes i)
    let outgoing := (l.cfg i n).outgoing pulled
    (l.host i.other).Lands (nodes i.other) outgoing ∧ CutsNoTie pulled outgoing

/-- The steps that leave nothing behind. -/
def StepOk (l : Link) (nodes : Nodes) : Op → Prop
  | .write i w => ∀ t, w.target (nodes i) = some t → WriteOk l nodes i t
  | .cycle i n _ c => CycleOk l nodes i n c

/-! ## Deliveries between two databases -/

/-- Every valid row of `source` with a stamp that was passed is covered at `sink`. -/
def Delivers (rfc : Rfc3339) (passed : String → Prop) (source sink : Db) : Prop :=
  ∀ m ∈ source.live, m.Valid rfc → passed m.updatedAt → sink.Covers m

section Delivers

variable {h : Host} {rfc : Rfc3339} {passed passed' : String → Prop} {source source' sink sink' : Db}
  {page : List Memory}

theorem Delivers.mono (hd : Delivers rfc passed source sink) (hlive : source'.live = source.live)
    (hcov : ∀ m, sink.Covers m → sink'.Covers m) (hpassed : ∀ stamp, passed' stamp → passed stamp) :
    Delivers rfc passed' source' sink' := by
  intro m hm hv hp
  rw [hlive] at hm
  exact hcov m (hd m hm hv (hpassed _ hp))

theorem Delivers.forward {since : Option String} {limit : ℕ}
    (hd : Delivers h.rfc3339 passed source sink) (hsince : ∀ w, since = some w → ∀ s ≤ w, passed s)
    (hpage : page = source.memoriesUpdatedSince since limit) (hl : h.Lands sink page)
    (hcut : CutsNoTie source page) :
    Delivers h.rfc3339 (fun s => passed s ∨ ∃ last ∈ page.getLast?, s ≤ last.updatedAt) source
      (page.foldl h.takeIn sink) := by
  rintro m hm hv (hp | ⟨last, hlast, hle⟩)
  · exact (hd m hm hv hp).foldl_takeIn
  · by_cases hmem : m ∈ page
    · exact hl.covers hmem hv
    · -- a row up to the last one that is not in the page lies below the watermark
      have hbelow : ∃ w, since = some w ∧ m.updatedAt ≤ w := by
        by_contra hc
        have hsome : since.all (m.updatedAt > ·) := by
          cases since with
          | none => rfl
          | some w => exact decide_eq_true (not_le.mp fun hle => hc ⟨w, rfl, hle⟩)
        have hge : last.updatedAt ≤ m.updatedAt := by
          rw [hpage] at hmem hlast
          exact Db.le_of_not_mem_memoriesUpdatedSince hm hsome hmem (List.mem_of_getLast? hlast)
        exact hmem (hcut last hlast m hm (le_antisymm hle hge))
      obtain ⟨w, hw, hle⟩ := hbelow
      exact (hd m hm hv (hsince w hw _ hle)).foldl_takeIn

theorem Delivers.backward (hd : Delivers rfc passed sink source) (hpage : ∀ m ∈ page, m ∈ source.live)
    (hinv : NoInvalidNewer rfc sink source) :
    Delivers rfc passed (page.foldl h.takeIn sink) source := by
  intro x hx hv hp
  rw [Db.covers_iff_live]
  obtain ⟨m, hm, hkey, hstamp⟩ | ⟨r, hr, hkey, hstamp, hsame⟩ := live_foldl_takeIn hx
  · exact ⟨m, hpage m hm, hkey, hstamp.ge⟩
  · have hold : r.Valid rfc → ∃ y ∈ source.live, y.key = x.key ∧ x.updatedAt ≤ y.updatedAt := by
      intro hvr
      rw [← hkey, ← hstamp]
      exact Db.covers_iff_live.mp (hd r hr hvr (hstamp ▸ hp))
    rcases hsame with rfl | ⟨m, hm, hmkey⟩
    · exact hold hv
    · by_cases hvr : r.Valid rfc
      · exact hold hvr
      · exact ⟨m, hpage m hm, hmkey.trans hkey, hstamp ▸ hinv r hr hvr m (hpage m hm) hmkey⟩

theorem delivers_of_live_eq_nil (hnil : sink.live = []) (hpage : ∀ m ∈ page, m ∈ source.live) :
    Delivers rfc passed (page.foldl h.takeIn sink) source := by
  intro x hx _ _
  obtain ⟨m, hm, hkey, hstamp⟩ | ⟨r, hr, -⟩ := live_foldl_takeIn hx
  · exact Db.covers_iff_live.mpr ⟨m, hpage m hm, hkey, hstamp.ge⟩
  · rw [hnil] at hr
    cases hr

theorem noInvalidNewer_foldl_takeIn (hinv : NoInvalidNewer rfc source sink)
    (hpage : ∀ m ∈ page, m ∈ source.live) : NoInvalidNewer rfc source (page.foldl h.takeIn sink) := by
  intro m hm hv x hx hkey
  obtain ⟨y, hy, hykey, hstamp⟩ | ⟨r, hr, hrkey, hstamp, -⟩ := live_foldl_takeIn hx
  · have : y = m := Db.eq_of_mem_live (hpage y hy) hm (hykey.trans hkey)
    exact this ▸ hstamp.le
  · exact hstamp ▸ hinv m hm hv r hr (hrkey.trans hkey)

end Delivers

/-! ## A local write -/

/-- What a write with this target leaves. -/
structure Rewrites (db db' : Db) (t : Target) : Prop where
  syncState : db'.syncState = db.syncState
  rows : ∀ x ∈ db'.memories, x ∈ db.memories ∨ x.key = t.key ∧ x.updatedAt = t.stamp
  new : ∃ x ∈ db'.memories, x.key = t.key ∧ x.updatedAt = t.stamp
  keeps : ∀ r ∈ db.memories, t.old ≠ some r → r ∈ db'.memories

theorem rewrites_insertOnConflict {db db' : Db} {mem : Memory} {merge : MemoryRow → MemoryRow}
    {hid : ∀ r, (merge r).id = r.id} {hkey : ∀ r, (merge r).key = r.key} {id : String}
    (h : db.insertOnConflict mem merge hid hkey = .ok (db', id)) :
    Rewrites db db' ⟨db.getKey mem.key, mem.key,
      ((db.getKey mem.key).map fun r => (merge r).updatedAt).getD mem.updatedAt⟩ := by
  have hsync : db'.syncState = db.syncState := by rw [Db.insertOnConflict_frame h]
  obtain ⟨stored, hs, -, rfl⟩ | ⟨hs, -, -, t, ht, rfl⟩ := Db.insertOnConflict_cases h
  · rw [hs]
    obtain ⟨hmem, hk⟩ := Db.getKey_eq_some.mp hs
    refine ⟨hsync, fun x hx => ?_, ⟨merge stored, ?_, (hkey stored).trans hk, rfl⟩, fun r hr hne => ?_⟩
    · obtain ⟨r, hr, rfl⟩ := Db.mem_updateRow.mp hx
      split_ifs with he
      · rw [Indexed.eq_of_pk hr hmem he]
        exact Or.inr ⟨(hkey stored).trans hk, rfl⟩
      · exact Or.inl hr
    · exact Db.mem_updateRow.mpr ⟨stored, hmem, if_pos rfl⟩
    · refine Db.mem_updateRow.mpr ⟨r, hr, if_neg fun he => hne ?_⟩
      rw [Indexed.eq_of_pk hr hmem he]
  · rw [hs]
    have hrows : ∀ x, x ∈ ({ db with memories := t } : Db).memories ↔ x ∈ db.memories ∨ x = mem.toRow :=
      fun x => Indexed.mem_insertNew? ht
    refine ⟨hsync, fun x hx => ?_, ⟨mem.toRow, (hrows _).mpr (Or.inr rfl), rfl, rfl⟩, fun r hr _ => ?_⟩
    · rcases (hrows x).mp hx with hx | rfl
      · exact Or.inl hx
      · exact Or.inr ⟨rfl, rfl⟩
    · exact (hrows r).mpr (Or.inl hr)

theorem rewrites_update {db db' : Db} {id now : String} {u : UpdateMemory} {found changed : Bool}
    (h : db.update id u now = .ok (db', found, changed)) :
    db' = db ∨ ∃ t, (Write.update id u now).target db = some t ∧ Rewrites db db' t := by
  obtain ⟨-, -, rfl⟩ | ⟨existing, hg, -, hframe, hrows⟩ := Db.update_cases h
  · exact Or.inl rfl
  · refine Or.inr ⟨_, (congrArg (Option.map _) hg), ?_⟩
    obtain ⟨hmem, rfl⟩ := Db.get_eq_some.mp hg
    have hiff : ∀ x, x ∈ db'.memories ↔
        ∃ r ∈ db.memories, (if r.id = existing.id then applyUpdate u now r else r) = x := by
      intro x
      rw [Indexed.mem_def, hrows]
      exact List.mem_map
    refine ⟨by rw [hframe], fun x hx => ?_, ⟨applyUpdate u now existing, ?_, rfl, rfl⟩, fun r hr hne => ?_⟩
    · obtain ⟨r, hr, rfl⟩ := (hiff x).mp hx
      split_ifs with he
      · rw [Indexed.eq_of_pk hr hmem he]
        exact Or.inr ⟨rfl, rfl⟩
      · exact Or.inl hr
    · exact (hiff _).mpr ⟨existing, hmem, if_pos rfl⟩
    · refine (hiff r).mpr ⟨r, hr, if_neg fun he => hne ?_⟩
      rw [Indexed.eq_of_pk hr hmem he]

theorem Write.apply_cases (h : Host) (db : Db) (w : Write) :
    w.apply h db = db ∨ ∃ t, w.target db = some t ∧ Rewrites db (w.apply h db) t := by
  cases w with
  | insert mem =>
    simp only [Write.apply]
    cases hi : db.insert mem with
    | error e => exact Or.inl rfl
    | ok res =>
      refine Or.inr ⟨_, rfl, ?_⟩
      have hr := rewrites_insertOnConflict hi
      have hstamp : ((db.getKey mem.key).map fun r => (upsertRow r mem).updatedAt).getD mem.updatedAt =
          mem.updatedAt := by cases db.getKey mem.key <;> rfl
      rwa [hstamp] at hr
  | update id u now =>
    simp only [Write.apply]
    cases hu : db.update id u now with
    | error e => exact Or.inl rfl
    | ok res => exact rewrites_update hu
  | insertIfNewer mem =>
    simp only [Write.apply, Host.insertIfNewer]
    split_ifs
    · exact Or.inl rfl
    · cases hi : db.insertIfNewer mem with
      | error e => exact Or.inl rfl
      | ok res => exact Or.inr ⟨_, rfl, rewrites_insertOnConflict hi⟩

/-! ## The invariant -/

/-- Everything behind a watermark was delivered. -/
def Inv (l : Link) (nodes : Nodes) : Prop :=
  ∀ i, Delivers (l.host i).rfc3339 (Passed l i (nodes i) (nodes i.other)) (nodes i.other) (nodes i)

section Steps

variable {l : Link} {nodes : Nodes} {i : Side} {n : ℕ} {c : Cycle} {a b : Db}

theorem Nodes.of_eq (nodes : Nodes) (i : Side) : Nodes.of i (nodes i, nodes i.other) = nodes := by
  funext j
  cases i <;> cases j <;> rfl

theorem inv_of_iff : Inv l (Nodes.of i (a, b)) ↔
    Delivers (l.host i).rfc3339 (Passed l i a b) b a ∧
      Delivers (l.host i.other).rfc3339 (Passed l i.other b a) a b := by
  cases i with
  | left => exact ⟨fun hi => ⟨hi .left, hi .right⟩, fun hi j => by cases j; exacts [hi.1, hi.2]⟩
  | right => exact ⟨fun hi => ⟨hi .right, hi .left⟩, fun hi j => by cases j; exacts [hi.2, hi.1]⟩

theorem Inv.write {w : Write} (hi : Inv l nodes)
    (hok : ∀ t, w.target (nodes i) = some t → WriteOk l nodes i t) : Inv l (step l nodes (.write i w)) := by
  show Inv l (Nodes.of i (w.apply (l.host i) (nodes i), nodes i.other))
  rw [← Nodes.of_eq nodes i, inv_of_iff] at hi
  rw [inv_of_iff]
  obtain ⟨hin, hout⟩ := hi
  obtain hsame | ⟨t, ht, hr⟩ := w.apply_cases (l.host i) (nodes i)
  · rw [hsame]
    exact ⟨hin, hout⟩
  · obtain ⟨hfresh, hkeeps⟩ := hok t ht
    unfold Passed Db.syncStateLoad Db.syncStateLastPushed at hin hout hfresh ⊢
    rw [hr.syncState]
    constructor
    · intro m hm hv hp
      obtain ⟨r, hg, hle⟩ := hin m hm hv hp
      obtain ⟨hmem, hkey⟩ := Db.getKey_eq_some.mp hg
      by_cases hold : t.old = some r
      · obtain ⟨htkey, hstamp⟩ := hkeeps r hold m hm hkey.symm hle
        obtain ⟨x, hx, hxkey, hxstamp⟩ := hr.new
        exact ⟨x, Db.getKey_eq_some.mpr ⟨hx, by rw [hxkey, htkey, hkey]⟩, hxstamp ▸ hstamp⟩
      · exact ⟨r, Db.getKey_eq_some.mpr ⟨hr.keeps r hmem hold, hkey⟩, hle⟩
    · intro m hm hv hp
      obtain ⟨x, hx, rfl⟩ := Db.mem_live.mp hm
      obtain hold | ⟨hkey, hstamp⟩ := hr.rows x hx
      · exact hout _ (Db.mem_live.mpr ⟨x, hold, rfl⟩) hv hp
      · obtain ⟨y, hy, hykey, hle⟩ := hfresh (hstamp ▸ hp)
        exact Db.covers_iff_live.mpr ⟨y, hy, hykey.trans hkey.symm, hstamp ▸ hle⟩

theorem foldl_takeIn_memories_congr {h : Host} (page : List Memory) (hmem : a.memories = b.memories) :
    (page.foldl h.takeIn a).memories = (page.foldl h.takeIn b).memories := by
  induction page generalizing a b with
  | nil => exact hmem
  | cons m page ih =>
    refine ih ?_
    unfold Host.takeIn Host.insertIfNewer Db.insertIfNewer Db.insertOnConflict Db.getKey Db.updateRow
    rw [hmem]
    split_ifs
    · exact hmem
    · cases b.memories.findBy m.key with
      | some stored => rfl
      | none =>
        simp only
        cases b.memories.insertNew? m.toRow with
        | some t => rfl
        | none => exact hmem
    · exact hmem

theorem push_spec {peerHost : Host} {cfg : DaemonConfig} {db peerDb : Db}
    (hok : (cfg.push peerHost c db peerDb).2.isSuccess = true) :
    (cfg.push peerHost c db peerDb).1.live = ((cfg.outgoing db).foldl peerHost.takeIn peerDb).live ∧
    (∀ x q, q ≠ cfg.localAgentId →
      (cfg.push peerHost c db peerDb).1.syncStateLoad x q = peerDb.syncStateLoad x q) ∧
    ∀ x q, (cfg.push peerHost c db peerDb).1.syncStateLastPushed x q = peerDb.syncStateLastPushed x q := by
  unfold DaemonConfig.push at hok ⊢
  obtain ⟨agent, -, hdb, -⟩ | ⟨-, hfail⟩ := syncPush_cases peerHost c.pushTick (some cfg.localAgentId)
    (cfg.pushBody (cfg.outgoing db)) peerDb
  · rw [hdb]
    refine ⟨?_, fun x q hq => ?_, Push.body_syncStateLastPushed _ _ _⟩
    · rw [Push.body_live, (Push.records_spec _ _).2]
      rfl
    · rw [Push.body_syncStateLoad]
      split
      · show (peerDb.syncStateObserve agent cfg.localAgentId _ _).syncStateLoad x q = _
        rw [Db.syncStateLoad_observe, if_neg fun he => hq (congrArg Prod.snd he)]
      · rfl
  · rw [hfail] at hok
    cases hok

theorem lastPushed_pullPage {h : Host} {agent peer now x q : String} {page : List Memory} {db : Db} :
    (pullPage h agent peer now page db).syncStateLastPushed x q = db.syncStateLastPushed x q := by
  have hkeep : (page.foldl h.takeIn db).syncStateLastPushed x q = db.syncStateLastPushed x q := by
    unfold Db.syncStateLastPushed
    rw [foldl_takeIn_syncState]
  unfold pullPage
  simp only
  split
  · rw [Db.syncStateLastPushed_observe, hkeep]
  · exact hkeep

theorem live_pullPage {h : Host} {agent peer now : String} {page : List Memory} {db : Db} :
    (pullPage h agent peer now page db).live = (page.foldl h.takeIn db).live := by
  unfold pullPage
  simp only
  split <;> rfl

section Cycle

variable {page : List Memory} {pulled p : Db}

theorem Inv.pull (hi : Inv l nodes) {limit : ℕ}
    (hvalid : NoInvalidNewer (l.host i.other).rfc3339 (nodes i) (nodes i.other))
    (hpage : page = (nodes i.other).memoriesUpdatedSince ((l.cfg i n).since (nodes i)) limit)
    (hl : (l.host i).Lands (nodes i) page) (hcut : CutsNoTie (nodes i.other) page)
    (hpulled : pulled = pullPage (l.host i) (l.localAgentId i) (l.peer i) c.pullNow page (nodes i)) :
    Delivers (l.host i).rfc3339 (fun s => Passed l i (nodes i) (nodes i.other) s ∨
      ∃ last ∈ page.getLast?, s ≤ last.updatedAt) (nodes i.other) pulled ∧
    Delivers (l.host i.other).rfc3339 (Passed l i.other (nodes i.other) (nodes i)) pulled
      (nodes i.other) := by
  rw [← Nodes.of_eq nodes i, inv_of_iff] at hi
  have hlive : pulled.live = (page.foldl (l.host i).takeIn (nodes i)).live := by
    rw [hpulled]
    exact live_pullPage
  have hcov : ∀ m, (page.foldl (l.host i).takeIn (nodes i)).Covers m → pulled.Covers m := by
    intro m
    rw [Db.covers_iff_live, Db.covers_iff_live, hlive]
    exact fun h => h
  constructor
  · refine (hi.1.forward ?_ hpage hl hcut).mono rfl hcov fun _ hs => hs
    exact fun w hw s hs => Or.inl ⟨w, hw, hs⟩
  · refine (hi.2.backward ?_ hvalid).mono hlive (fun _ hc => hc) fun _ hs => hs
    intro m hm
    rw [hpage] at hm
    exact (Db.mem_memoriesUpdatedSince hm).1

theorem passed_pulled {s : String}
    (hpulled : pulled = pullPage (l.host i) (l.localAgentId i) (l.peer i) c.pullNow page (nodes i))
    (hp : ∀ x q, p.syncStateLastPushed x q = (nodes i.other).syncStateLastPushed x q)
    (hs : Passed l i pulled p s) :
    Passed l i (nodes i) (nodes i.other) s ∨ ∃ last ∈ page.getLast?, s ≤ last.updatedAt := by
  rcases hs with ⟨w, hw, hle⟩ | ⟨w, hw, hle⟩
  · rw [hpulled] at hw
    obtain hold | ⟨-, -, last, hlast, rfl⟩ := load_pullPage hw
    · exact Or.inl (Or.inl ⟨w, hold, hle⟩)
    · exact Or.inr ⟨last, hlast, hle⟩
  · exact Or.inl (Or.inr ⟨w, (hp _ _).symm.trans hw, hle⟩)

theorem load_of_name (hname : l.peer i.other ≠ l.localAgentId i)
    (hp : p = nodes i.other ∨ ∃ seenAt now,
      p = (nodes i.other).syncStateObserve (l.localAgentId i) (l.localAgentId i) seenAt now) :
    p.memories = (nodes i.other).memories ∧
    p.syncStateLoad (l.localAgentId i.other) (l.peer i.other) =
      (nodes i.other).syncStateLoad (l.localAgentId i.other) (l.peer i.other) ∧
    ∀ x q, p.syncStateLastPushed x q = (nodes i.other).syncStateLastPushed x q := by
  obtain rfl | ⟨seenAt, now, rfl⟩ := hp
  · exact ⟨rfl, rfl, fun _ _ => rfl⟩
  · refine ⟨rfl, ?_, Db.syncStateLastPushed_observe seenAt now⟩
    rw [Db.syncStateLoad_observe, if_neg fun he => hname (congrArg Prod.snd he)]

theorem live_eq_nil_of_load_eq_none (hn : 1 ≤ n)
    (hpage : page = (nodes i.other).memoriesUpdatedSince ((l.cfg i n).since (nodes i)) (min n 10000))
    (hpulled : pulled = pullPage (l.host i) (l.localAgentId i) (l.peer i) c.pullNow page (nodes i))
    (hnone : pulled.syncStateLoad (l.localAgentId i) (l.peer i) = none) : (nodes i.other).live = [] := by
  rw [hpulled] at hnone
  unfold pullPage at hnone
  simp only at hnone
  cases hlast : page.getLast? with
  | some last =>
    rw [hlast] at hnone
    simp [Db.syncStateLoad_observe] at hnone
  | none =>
    have hnil : page = [] := List.getLast?_eq_none_iff.mp hlast
    rw [hlast] at hnone
    subst hnil
    refine List.eq_nil_iff_forall_not_mem.mpr fun m hm => ?_
    obtain ⟨w, hw, -⟩ := Db.not_above_of_memoriesUpdatedSince_eq_nil (by omega) hpage.symm hm
    rw [show (l.cfg i n).since (nodes i) = none from hnone] at hw
    cases hw

theorem Delivers.recordPush {rfc : Rfc3339} {passed : String → Prop} {q : Db} {h : Host}
    {outgoing : List Memory} {stamp now : String} (hin : Delivers rfc passed q pulled)
    (hinv : NoInvalidNewer rfc q pulled) (hsub : ∀ m ∈ outgoing, m ∈ pulled.live)
    (hp : p.live = (outgoing.foldl h.takeIn q).live)
    (hpassed : ∀ s, Passed l i pulled p s → passed s)
    (hfresh : pulled.syncStateLoad (l.localAgentId i) (l.peer i) = none → q.live = []) :
    Delivers rfc (Passed l i (pulled.syncStateRecordPush (l.localAgentId i) (l.peer i) stamp now) p) p
      (pulled.syncStateRecordPush (l.localAgentId i) (l.peer i) stamp now) := by
  cases hseen : pulled.syncStateLoad (l.localAgentId i) (l.peer i) with
  | some w =>
    refine (hin.backward hsub hinv).mono hp (fun _ hc => hc) fun s hs => hpassed s ?_
    rcases hs with ⟨w', hw', hle⟩ | hs
    · rw [Db.syncStateLoad_recordPush, if_pos rfl, hseen] at hw'
      cases hw'
      exact Or.inl ⟨w, hseen, hle⟩
    · exact Or.inr hs
  | none =>
    -- the record makes a watermark out of the clock, but the peer had nothing to pull
    exact (delivers_of_live_eq_nil (hfresh hseen) hsub).mono hp (fun _ hc => hc) fun _ hs => hs

theorem passed_recordPush {q : Db} {stamp now s : String}
    (hload : p.syncStateLoad (l.localAgentId i.other) (l.peer i.other) =
      q.syncStateLoad (l.localAgentId i.other) (l.peer i.other))
    (hs : Passed l i.other p (pulled.syncStateRecordPush (l.localAgentId i) (l.peer i) stamp now) s) :
    Passed l i.other q pulled s ∨ s ≤ stamp := by
  rcases hs with ⟨w, hw, hle⟩ | ⟨w, hw, hle⟩
  · exact Or.inl (Or.inl ⟨w, hload ▸ hw, hle⟩)
  · rw [Side.other_other, Db.syncStateLastPushed_recordPush, if_pos rfl] at hw
    cases hold : pulled.syncStateLastPushed (l.localAgentId i) (l.peer i) with
    | none =>
      rw [hold] at hw
      cases hw
      exact Or.inr hle
    | some w₀ =>
      rw [hold] at hw
      simp only [Option.map_some, Option.getD_some, Option.some.injEq] at hw
      rw [← hw, le_max_iff] at hle
      refine hle.imp_left fun hle => Or.inr ⟨w₀, ?_, hle⟩
      rw [Side.other_other]
      exact hold

/-- The push half keeps the invariant. -/
theorem Inv.pushOutgoing (hi : Inv l nodes) (hn : 1 ≤ n) (hok : CycleOk l nodes i n c)
    (hpage : page = (nodes i.other).memoriesUpdatedSince ((l.cfg i n).since (nodes i)) (min n 10000))
    (hpull : (l.host i).Lands (nodes i) page ∧ CutsNoTie (nodes i.other) page)
    (hpulled : pulled = pullPage (l.host i) (l.localAgentId i) (l.peer i) c.pullNow page (nodes i))
    (hpush : (l.host i.other).Lands (nodes i.other) ((l.cfg i n).outgoing pulled) ∧
      CutsNoTie pulled ((l.cfg i n).outgoing pulled))
    (hp : p = nodes i.other ∨ ∃ seenAt now,
      p = (nodes i.other).syncStateObserve (l.localAgentId i) (l.localAgentId i) seenAt now) :
    Inv l (Nodes.of i (AiMemory.pushOutgoing (l.host i.other) (l.cfg i n) c pulled p).1) := by
  obtain ⟨hin, hout⟩ := hi.pull (by simpa using hok.valid i.other) hpage hpull.1 hpull.2 hpulled
  obtain ⟨hmem, hload, hlast⟩ := load_of_name hok.name hp
  have hback : ∀ x q, pulled.syncStateLastPushed x q = (nodes i).syncStateLastPushed x q := by
    intro x q
    rw [hpulled]
    exact lastPushed_pullPage
  obtain ⟨hsame, -⟩ | ⟨-, hsucc, last, hmemLast, hrec⟩ :=
    pushOutgoing_cases (l.host i.other) (l.cfg i n) c pulled p
  · rw [hsame, inv_of_iff]
    have hlive : p.live = (nodes i.other).live := congrArg (fun t => t.rows.map fun r => r.toMemory) hmem
    constructor
    · exact hin.mono hlive (fun _ hc => hc) fun s hs => passed_pulled hpulled hlast hs
    · refine hout.mono rfl (fun m hc => ?_) fun s hs => ?_
      · rwa [Db.covers_iff_live, hlive, ← Db.covers_iff_live]
      · unfold Passed at hs ⊢
        rwa [hload, hback] at hs
  · obtain ⟨hlive, hkeep, hpushed⟩ := push_spec hsucc
    have hlive' : ((l.cfg i n).push (l.host i.other) c pulled p).1.live =
        (((l.cfg i n).outgoing pulled).foldl (l.host i.other).takeIn (nodes i.other)).live := by
      rw [hlive]
      exact congrArg (fun t => t.rows.map fun r => r.toMemory) (foldl_takeIn_memories_congr _ hmem)
    rw [hrec, inv_of_iff]
    constructor
    · refine hin.recordPush ?_ (fun m hm => (Db.mem_memoriesUpdatedSince hm).1) hlive' ?_
        (live_eq_nil_of_load_eq_none hn hpage hpulled)
      · have hsub : ∀ m ∈ page, m ∈ (nodes i.other).live := by
          intro m hm
          rw [hpage] at hm
          exact (Db.mem_memoriesUpdatedSince hm).1
        have hinv := noInvalidNewer_foldl_takeIn (h := l.host i) (hok.valid i) hsub
        unfold NoInvalidNewer at hinv ⊢
        rwa [hpulled, live_pullPage]
      · exact fun s hs => passed_pulled hpulled (fun x q => (hpushed x q).trans (hlast x q)) hs
    · have hfwd : Delivers (l.host i.other).rfc3339
          (fun s => Passed l i.other (nodes i.other) (nodes i) s ∨
            ∃ last ∈ ((l.cfg i n).outgoing pulled).getLast?, s ≤ last.updatedAt) pulled
          (((l.cfg i n).outgoing pulled).foldl (l.host i.other).takeIn (nodes i.other)) := by
        refine hout.forward (fun w hw s hs => Or.inr ⟨w, ?_, hs⟩) rfl hpush.1 hpush.2
        rw [Side.other_other, ← hback]
        exact hw
      refine hfwd.mono rfl (fun m hc => ?_) fun s hs => ?_
      · rwa [Db.covers_iff_live, hlive', ← Db.covers_iff_live]
      · have hpassed := passed_recordPush ((hkeep _ _ hok.name).trans hload) hs
        refine hpassed.imp (fun hs => ?_) fun hle => ⟨last, hmemLast, hle⟩
        unfold Passed at hs ⊢
        rwa [hback] at hs

theorem Inv.cycle (hi : Inv l nodes) (hn : 1 ≤ n) (hok : CycleOk l nodes i n c) :
    Inv l (step l nodes (.cycle i n hn c)) := by
  show Inv l (Nodes.of i (Delivery.cycle l nodes i n c).1)
  unfold Delivery.cycle
  obtain ⟨-, hsame, -⟩ | ⟨-, hpage, p, hp, hres, -⟩ := syncCycleOnce_cases (l.host i.other) (l.cfg i n) c
    (nodes i) (nodes i.other) (l.host i)
  · rw [hsame, Nodes.of_eq]
    exact hi
  · rw [hres]
    exact hi.pushOutgoing hn hok hpage hok.pull rfl hok.push hp

end Cycle

theorem delivered_of (hin : ∀ m ∈ b.live, m.Valid (l.host i).rfc3339 → a.Covers m)
    (hout : ∀ m ∈ a.live, m.Valid (l.host i.other).rfc3339 → b.Covers m) :
    Delivered l (Nodes.of i (a, b)) := by
  intro j
  cases i <;> cases j
  exacts [hin, hout, hout, hin]

/-- After a cycle that moved nothing neither node has a row above the watermarks. -/
theorem Inv.delivered (hi : Inv l nodes) (hn : 1 ≤ n)
    (hquiet : (Delivery.cycle l nodes i n c).2 = .ok (0, 0)) :
    Delivered l (step l nodes (.cycle i n hn c)) := by
  show Delivered l (Nodes.of i (Delivery.cycle l nodes i n c).1)
  unfold Delivery.cycle at hquiet ⊢
  rw [← Nodes.of_eq nodes i, inv_of_iff] at hi
  obtain ⟨-, -, e, he⟩ | ⟨-, hpage, p, hp, hres, hcount⟩ := syncCycleOnce_cases (l.host i.other)
    (l.cfg i n) c (nodes i) (nodes i.other) (l.host i)
  · rw [he] at hquiet
    cases hquiet
  · obtain ⟨k, hk, hzero⟩ := hcount _ hquiet
    simp only [Prod.mk.injEq] at hzero
    have hnil := List.length_eq_zero_iff.mp hzero.1.symm
    rw [hnil] at hpage hres hk
    change (AiMemory.pushOutgoing (l.host i.other) (l.cfg i n) c (nodes i) p).2 = _ at hk
    change _ = (AiMemory.pushOutgoing (l.host i.other) (l.cfg i n) c (nodes i) p).1 at hres
    have hlive : p.live = (nodes i.other).live := by
      obtain rfl | ⟨seenAt, now, rfl⟩ := hp <;> rfl
    obtain ⟨hsame, hnone⟩ | ⟨-, -, last, hlast, hrec⟩ :=
      pushOutgoing_cases (l.host i.other) (l.cfg i n) c (nodes i) p
    · rw [hres, hsame]
      refine delivered_of (fun m hm hv => ?_) fun m hm hv => ?_
      · rw [hlive] at hm
        have hpos : 0 < min (l.cfg i n).batchSize 10000 := lt_min hn (by decide)
        obtain ⟨w, hw, hle⟩ := Db.not_above_of_memoriesUpdatedSince_eq_nil hpos hpage.symm hm
        exact hi.1 m hm hv (Or.inl ⟨w, hw, hle⟩)
      · obtain ⟨w, hw, hle⟩ := Db.not_above_of_memoriesUpdatedSince_eq_nil hn (hnone k hk).2 hm
        have hcov := hi.2 m hm hv (Or.inr ⟨w, by rw [Side.other_other]; exact hw, hle⟩)
        rwa [Db.covers_iff_live, hlive, ← Db.covers_iff_live]
    · rw [hrec] at hk
      cases hk
      rw [List.length_eq_zero_iff.mp hzero.2.symm] at hlast
      cases hlast

theorem Inv.step (op : Op) (hi : Inv l nodes) (hok : StepOk l nodes op) : Inv l (step l nodes op) := by
  cases op with
  | write i w => exact hi.write hok
  | cycle i n hn c => exact hi.cycle hn hok

end Steps

/-! ## Runs -/

/-- In a run whose steps all meet the condition, a cycle that moves nothing finds everything delivered. -/
theorem quiet_cycle_delivers (l : Link) (nodes : Nodes) (hnew : ∀ i, (nodes i).syncState.rows = [])
    (ops : List Op) (hok : Machine.Meets (step l) (StepOk l) nodes ops) :
    ∀ s ∈ Machine.states (step l) nodes ops, ∀ i n (hn : 1 ≤ n) c,
      (cycle l s i n c).2 = .ok (0, 0) → Delivered l (step l s (.cycle i n hn c)) := by
  intro s hs i n hn c hquiet
  have hinit : Inv l nodes := by
    intro i m _ _ hp
    unfold Passed Db.syncStateLoad Db.syncStateLastPushed Table.find at hp
    rw [hnew i, hnew i.other] at hp
    rcases hp with ⟨w, hw, -⟩ | ⟨w, hw, -⟩ <;> cases hw
  have hinv : Inv l s := Machine.forall_states_of_meets (fun _ op hi hc => hi.step op hc) hinit hok s hs
  exact hinv.delivered hn hquiet

def twoNodes : Link where
  host := fun _ => plainHost ["2026-01-01T00:00:00+00:00"] fun _ => false
  localAgentId := fun i => if i = .left then "node-a" else "node-b"
  peerUrl := fun i => if i = .left then "http://b:9077/" else "http://a:9077/"

def reaching : Cycle where
  pullNow := "2026-01-02T00:00:00+00:00"
  pushNow := "2026-01-02T00:00:01+00:00"
  sinceTick := tickAt "2026-01-02T00:00:00+00:00"
  pushTick := ⟨"2026-01-02T00:00:01+00:00", "0a1b2c3e", fun _ => "", by decide, by decide⟩
  pullReaches := true
  pushReaches := true

/-- The node on the left holds the given notes, the other nothing. -/
def leftHolds (notes : List Memory) : Nodes
  | .left => notes.foldl (fun db m => (Write.insert m).apply (twoNodes.host .left) db) Db.empty
  | .right => Db.empty

/-- One note, pulled by the node on the right in its first cycle. -/
theorem one_note_delivered :
    Delivered twoNodes (step twoNodes
      (step twoNodes (leftHolds [note "a1" "Rota" "2026-01-01T00:00:00+00:00"])
        (.cycle .right 1 le_rfl reaching)) (.cycle .right 1 le_rfl reaching)) := by
  refine quiet_cycle_delivers twoNodes (leftHolds [note "a1" "Rota" "2026-01-01T00:00:00+00:00"])
    (fun i => by cases i <;> rfl) [.cycle .right 1 le_rfl reaching] ⟨?_, trivial⟩ _
    Machine.foldl_mem_states .right 1 le_rfl reaching (by decide)
  refine ⟨by decide, ?_, ⟨?_, ?_⟩, ?_, ?_⟩
  · intro j
    cases j <;> unfold NoInvalidNewer <;> decide
  · exact ⟨fun _ => Or.inr ⟨rfl, Or.inr rfl⟩, trivial⟩
  · unfold CutsNoTie
    decide
  · exact ⟨fun _ => Or.inl (by decide), trivial⟩
  · unfold CutsNoTie
    decide

/-- Two notes of one stamp and pages of one row: the second note is never sent, and the second cycle
moves nothing. -/
theorem tied_note_never_sent :
    let start := leftHolds [note "a1" "Rota" "2026-01-01T00:00:00+00:00",
      note "a2" "Retro" "2026-01-01T00:00:00+00:00"]
    let first := step twoNodes start (.cycle .right 1 le_rfl reaching)
    (cycle twoNodes start .right 1 reaching).2 = .ok (1, 1) ∧
      (cycle twoNodes first .right 1 reaching).2 = .ok (0, 0) ∧
      ¬Delivered twoNodes (step twoNodes first (.cycle .right 1 le_rfl reaching)) := by
  refine ⟨by decide, by decide, fun hd => ?_⟩
  have := hd .right (note "a2" "Retro" "2026-01-01T00:00:00+00:00") (by decide) (by decide)
  revert this
  decide

end Delivery

end AiMemory
