import AiMemory.Sync.Records

/-!
# Deleted memories

A deletion is a plain remove: no tombstone is kept, as `SyncPushBody` documents. What a node remembers of a
deleted memory is therefore nothing, and a store message that carries it is taken for a new memory whenever
its title and namespace are free, whatever its stamp. `deleted_stays_iff` follows any number of nodes through
any order of store and deletion messages, delayed and repeated as they come, and says exactly when a deleted
memory stays deleted on a node.
-/

namespace AiMemory

open Relational

namespace Deletion

/-- A store message or a deletion message. -/
inductive Message where
  | store (senderAgentId : String) (memories : List Memory)
  | deletion (senderAgentId : String) (deletions : List String)

def Message.body : Message → SyncPushBody
  | store senderAgentId memories => { senderAgentId, memories }
  | deletion senderAgentId deletions => { senderAgentId, memories := [], deletions }

/-- A message as it reaches a node. -/
structure Delivery (ν : Type) where
  node : ν
  tick : Tick
  header : Option String
  message : Message

section Nodes

variable {ν : Type} [DecidableEq ν] (hosts : ν → Host)

def deliver (nodes : ν → Db) (d : Delivery ν) : ν → Db :=
  Function.update nodes d.node (syncPush (hosts d.node) d.tick d.header d.message.body (nodes d.node)).1

/-- One of the memories has the id and finds its title and namespace free at its turn. -/
def FindsRoom (h : Host) (id : String) : Db → List Memory → Prop
  | _, [] => False
  | db, m :: rest =>
    (m.id = id ∧ m.Valid h.rfc3339 ∧ h.insertFault m = false ∧ db.getKey m.key = none) ∨
      FindsRoom h id (h.takeIn db m) rest

/-- The delivery stores the id on its node. -/
def Stores (h : Host) (id : String) (db : Db) (d : Delivery ν) : Prop :=
  d.message.body.Accepted d.tick d.header ∧
    match d.message with
    | .store _ memories => FindsRoom h id db memories
    | .deletion .. => False

end Nodes

section Steps

variable {h : Host} {t : Tick} {header : Option String} {db : Db} {id : String}

/-- The step: an unknown id becomes known when a memory of that id finds its title and namespace free. -/
theorem get_takeIn_iff (hid : db.get id = none) (m : Memory) : (h.takeIn db m).get id ≠ none ↔
    m.id = id ∧ m.Valid h.rfc3339 ∧ h.insertFault m = false ∧ db.getKey m.key = none := by
  obtain ⟨actual, hv, hf, hi⟩ | ⟨he, hskip⟩ := takeIn_cases h db m
  · constructor
    · intro hsome
      by_contra hno
      refine hsome (Db.get_insertOnConflict_eq_none hi hid fun hnone hmi => hno ⟨hmi, hv, hf, hnone⟩)
    · rintro ⟨rfl, -, -, hnone⟩
      obtain ⟨stored, hs, -⟩ | ⟨-, -, -, tbl, ht, hdb⟩ := Db.insertOnConflict_cases hi
      · rw [hnone] at hs
        cases hs
      · have hrow : m.toRow ∈ (h.takeIn db m).memories := by
          rw [hdb]
          exact (Indexed.mem_insertNew? ht).mpr (Or.inr rfl)
        rw [show (h.takeIn db m).get m.id = some m.toRow from Db.get_of_mem hrow]
        exact fun hc => by cases hc
  · rw [he]
    refine iff_of_false (not_not.mpr hid) ?_
    rintro ⟨rfl, hv, hf, hnone⟩
    rcases hskip hv with hfault | ⟨-, hget⟩
    · rw [hf] at hfault
      cases hfault
    · exact hget hid

theorem get_foldl_takeIn_iff (hid : db.get id = none) (memories : List Memory) :
    (memories.foldl h.takeIn db).get id ≠ none ↔ FindsRoom h id db memories := by
  induction memories generalizing db with
  | nil => exact iff_of_false (not_not.mpr hid) (fun hc => hc)
  | cons m rest ih =>
    rw [List.foldl_cons, FindsRoom, ← get_takeIn_iff hid m]
    by_cases hm : (h.takeIn db m).get id = none
    · rw [ih hm]
      exact ⟨Or.inr, fun hc => hc.elim (absurd hm) (fun hc => hc)⟩
    · refine iff_of_true ?_ (Or.inl hm)
      exact Machine.foldl_induct (P := fun d : Db => d.get id ≠ none) (fun d x _ hd => (liveOn_takeIn h d x).get_ne_none hd) hm

theorem get_onDeletion_eq_none (hid : db.get id = none) (delId : String) :
    (Push.onDeletion db delId).get id = none := by
  unfold Push.onDeletion
  split_ifs
  · show ((db.dropStandard delId).deleteMemories _).get id = none
    rw [Db.get_deleteMemories, show (db.dropStandard delId).get id = none from hid]
    rfl
  · exact hid

theorem get_onDeletion_self (hv : Accepts (Validate.validateId id)) : (Push.onDeletion db id).get id = none := by
  unfold Push.onDeletion
  rw [if_pos hv]
  show ((db.dropStandard id).deleteMemories _).get id = none
  rw [Db.get_deleteMemories]
  cases hg : (db.dropStandard id).get id with
  | none => rfl
  | some r => simp [(Db.get_eq_some.mp hg).2]

theorem live_syncPush (h : Host) (t : Tick) (header : Option String) (m : Message) (db : Db) :
    (m.body.Accepted t header ∧
      (syncPush h t header m.body db).1.live = (Push.writes h t m.body db).live) ∨
    (¬m.body.Accepted t header ∧ (syncPush h t header m.body db).1 = db) := by
  obtain ⟨hacc, agent, hdb⟩ | hrej := syncPush_accepted h t header m.body db
  · refine Or.inl ⟨hacc, ?_⟩
    rw [hdb, Push.body_live, (Push.records_spec m.body db).2]
    cases m <;> rfl
  · exact Or.inr hrej

theorem writes_store (sender : String) (memories : List Memory) :
    Push.writes h t (Message.store sender memories).body db = memories.foldl h.takeIn db := rfl

theorem writes_deletion (sender : String) (deletions : List String) :
    Push.writes h t (Message.deletion sender deletions).body db = deletions.foldl Push.onDeletion db := rfl

end Steps

section Runs

variable {ν : Type} [DecidableEq ν] {hosts : ν → Host} {nodes : ν → Db} {d : Delivery ν} {id : String}

theorem deliver_self : (deliver hosts nodes d) d.node =
    (syncPush (hosts d.node) d.tick d.header d.message.body (nodes d.node)).1 := Function.update_self ..

/-- A delivery to a node that does not have the memory: the memory is there afterwards exactly when the
delivery stores it. -/
theorem get_deliver_iff (hid : (nodes d.node).get id = none) :
    ((deliver hosts nodes d) d.node).get id ≠ none ↔ Stores (hosts d.node) id (nodes d.node) d := by
  unfold Stores
  rw [deliver_self]
  obtain ⟨hrec, hlive⟩ | ⟨hrec, hsame⟩ := live_syncPush (hosts d.node) d.tick d.header d.message (nodes d.node)
  · rw [Ne, Db.get_eq_none_iff_of_live hlive, and_iff_right hrec]
    cases hm : d.message with
    | store sender memories =>
      rw [writes_store]
      exact get_foldl_takeIn_iff hid memories
    | deletion sender deletions =>
      rw [writes_deletion]
      refine iff_of_false (not_not.mpr ?_) (fun hc => hc)
      exact Machine.foldl_induct (P := fun db : Db => db.get id = none)
        (fun db x _ hdb => get_onDeletion_eq_none hdb x) hid
  · rw [hsame]
    exact iff_of_false (not_not.mpr hid) fun hc => hrec hc.1

theorem get_deliver_deletion {sender : String} {ids : List String} (hm : d.message = .deletion sender ids)
    (hrec : d.message.body.Accepted d.tick d.header) (hid : id ∈ ids) (hv : Accepts (Validate.validateId id)) :
    ((deliver hosts nodes d) d.node).get id = none := by
  rw [deliver_self]
  obtain ⟨-, hlive⟩ | ⟨hno, -⟩ := live_syncPush (hosts d.node) d.tick d.header d.message (nodes d.node)
  · rw [Db.get_eq_none_iff_of_live hlive, hm, writes_deletion]
    obtain ⟨before, after, rfl⟩ := List.append_of_mem hid
    rw [List.foldl_append, List.foldl_cons]
    exact Machine.foldl_induct (P := fun db : Db => db.get id = none)
      (fun db x _ hdb => get_onDeletion_eq_none hdb x) (get_onDeletion_self hv)
  · exact absurd hrec hno

/-- Once a node has processed the deletion of a memory, the memory is gone there, and it stays away through any
deliveries of store and deletion messages to any nodes exactly as long as no store message, of whatever stamp,
reaches the node that carries the memory, is valid, and finds its title and namespace free at its turn. -/
theorem deleted_stays_iff (hosts : ν → Host) (nodes : ν → Db) (d : Delivery ν) (sender id : String)
    (ids : List String) (hm : d.message = .deletion sender ids) (hid : id ∈ ids)
    (hv : Accepts (Validate.validateId id)) (hrec : d.message.body.Accepted d.tick d.header)
    (later : List (Delivery ν)) :
    (∀ s ∈ Machine.states (deliver hosts) (deliver hosts nodes d) later, (s d.node).get id = none) ↔
      Machine.Meets (deliver hosts)
        (fun s e => e.node = d.node → ¬Stores (hosts d.node) id (s d.node) e) (deliver hosts nodes d) later := by
  refine Machine.forall_states_iff_meets (fun s (hs : (s d.node).get id = none) => hs) ?_ ?_
    (get_deliver_deletion hm hrec hid hv)
  · intro s e hs hC
    by_cases he : e.node = d.node
    · have hiff := @get_deliver_iff ν _ hosts s e id (he ▸ hs)
      rw [he] at hiff
      by_contra hsome
      exact hC he (hiff.mp hsome)
    · rw [deliver, Function.update_of_ne (Ne.symm he)]
      exact hs
  · intro s e hs hC
    rw [Classical.not_imp, not_not] at hC
    obtain ⟨he, hstores⟩ := hC
    have hiff := @get_deliver_iff ν _ hosts s e id (he ▸ hs)
    rw [he] at hiff
    exact hiff.mpr hstores

end Runs

/-- A deletion message for `m1`, from `alice`. -/
def dropRota : Delivery Unit :=
  ⟨(), tickAt "2026-01-03T00:00:00+00:00", none, .deletion "alice" ["m1"]⟩

/-- A store message for `m1` that was sent before the deletion. -/
def lateRota : Delivery Unit :=
  ⟨(), tickAt "2026-01-03T00:00:00+00:00", none, .store "bob" [note "m1" "Rota" "2026-01-01T00:00:00+00:00"]⟩

def rotaHost : Unit → Host :=
  fun _ => plainHost ["2026-01-01T00:00:00+00:00", "2026-01-02T00:00:00+00:00"] fun _ => false

theorem accepted_dropRota : dropRota.message.body.Accepted dropRota.tick dropRota.header :=
  ⟨by decide, _, resolveHttpAgentId_none dropRota.tick⟩

/-- A store message for another note of the title, from `carol`. -/
def newRota : Delivery Unit :=
  ⟨(), tickAt "2026-01-03T00:00:00+00:00", none, .store "carol" [note "m2" "Rota" "2026-01-02T00:00:00+00:00"]⟩

/-- The late note finds its title taken, and the repeated deletion finds nothing. -/
theorem rota_stays_deleted :
    let nodes : Unit → Db := fun _ => Db.single (note "m1" "Rota" "2026-01-02T00:00:00+00:00").toRow
    (nodes ()).get "m1" ≠ none ∧
      ∀ s ∈ Machine.states (deliver rotaHost) (deliver rotaHost nodes dropRota) [newRota, lateRota, dropRota],
        (s ()).get "m1" = none := by
  intro nodes
  have htaken : ((deliver rotaHost (deliver rotaHost nodes dropRota) newRota) ()).getKey ("Rota", "team") ≠ none := by decide
  refine ⟨by decide, ?_⟩
  refine (deleted_stays_iff rotaHost nodes dropRota "alice" "m1" ["m1"] rfl (by decide) (by decide) accepted_dropRota
    [newRota, lateRota, dropRota]).mpr ⟨fun _ hstores => ?_, fun _ hstores => ?_, fun _ hstores => hstores.2, trivial⟩
  · obtain ⟨-, ⟨hid, -⟩ | hrest⟩ := hstores
    · exact absurd hid (by decide)
    · exact hrest
  · obtain ⟨-, ⟨-, -, -, hfree⟩ | hrest⟩ := hstores
    · exact htaken hfree
    · exact hrest

/-- An older store message that arrives after the deletion does. -/
theorem rota_revived :
    let nodes : Unit → Db := fun _ => Db.single (note "m1" "Rota" "2026-01-02T00:00:00+00:00").toRow
    (note "m1" "Rota" "2026-01-01T00:00:00+00:00").updatedAt ≤ "2026-01-02T00:00:00+00:00" ∧
      ((deliver rotaHost nodes dropRota) ()).get "m1" = none ∧
      ((deliver rotaHost (deliver rotaHost nodes dropRota) lateRota) ()).get "m1" =
        some (note "m1" "Rota" "2026-01-01T00:00:00+00:00").toRow := by
  refine ⟨by decide, by decide, by decide⟩

end Deletion

end AiMemory
