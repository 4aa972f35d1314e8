import AiMemory.Db.Failures

/-!
# What a failed operation leaves

Each of the nine operations, under any errors of its statements: when the tables are unchanged after it returns an error.
-/

namespace AiMemory

open Relational Sessions Validate

namespace Failures

open Entities

/-- The five tables hold the same rows. -/
structure Same (reg reg' : Registry) : Prop where
  memories : ∀ i, reg'.db.get i = reg.db.get i
  archived : ∀ i, reg'.db.archived.find i = reg.db.archived.find i
  links : ∀ k, reg'.db.links.find k = reg.db.links.find k
  namespaceMeta : ∀ ns, reg'.db.namespaceMeta.find ns = reg.db.namespaceMeta.find ns
  aliases : ∀ k, reg'.aliases.find k = reg.aliases.find k

theorem Same.refl (reg : Registry) : Same reg reg := ⟨fun _ => rfl, fun _ => rfl, fun _ => rfl, fun _ => rfl, fun _ => rfl⟩

theorem Same.trans {reg reg' reg'' : Registry} (h : Same reg reg') (h' : Same reg' reg'') : Same reg reg'' :=
  ⟨fun i => (h'.memories i).trans (h.memories i), fun i => (h'.archived i).trans (h.archived i),
    fun k => (h'.links k).trans (h.links k), fun ns => (h'.namespaceMeta ns).trans (h.namespaceMeta ns),
    fun k => (h'.aliases k).trans (h.aliases k)⟩

/-! ## What a failed call leaves behind -/

section Spoiling

variable (faults : Faults)

/-- The archived metadata is read, found invalid and reset. -/
def Resets (a : ArchivedRow) : Prop := faults .metadata = none ∧ ¬Accepts (validateMetadata a.metadata)

/-- The archived row goes back into `memories`. -/
def Moves (db : Db) (a : ArchivedRow) : Prop := faults .restore = none ∧ db.get a.id = none ∧ db.getKey a.key = none

/-- What `restore_archived` has written stays, although it fails: its transaction was lost to an error that it passed over, or is
stuck before its end. -/
def RestoreSticks (db : Db) (a : ArchivedRow) : Prop :=
  (Resets faults a → faults .reset = none) ∧
    if Lost (faults .live) ∨ Lost (faults .metadata) then Resets faults a ∨ Moves faults db a
    else Moves faults db a ∧ faults .unarchive = none ∧ Stuck (faults .commit)

/-- A store of the memory changes a row: it merges into one that differs, or comes under a free id. -/
def Alters (db : Db) (m : Memory) : Prop :=
  match db.getKey m.key with
  | some stored => upsertRow stored m ≠ stored
  | none => db.get m.id = none

/-- The statement for an alias fails. -/
def ClaimFails (aliases : List String) (k : ℕ) : Prop := ∃ a, aliases[k]? = some a ∧ trimmed a ≠ "" ∧ faults (.claim k) ≠ none

/-- The entity does not claim the alias yet. -/
def Unclaimed (reg : Registry) (id : String) (aliases : List String) (k : ℕ) : Prop :=
  ∃ a, aliases[k]? = some a ∧ trimmed a ≠ "" ∧ reg.aliases.find (id, trimmed a) = none

/-- An alias was added, and a later statement failed. -/
def ClaimSticks (reg : Registry) (id : String) (aliases : List String) : Prop :=
  faults .prepare = none ∧ ∃ k, Unclaimed reg id aliases k ∧ (∀ j ≤ k, ¬ClaimFails faults aliases j) ∧
    ((∃ j, ClaimFails faults aliases j) ∨ faults .listAliases ≠ none)

/-- The registration fails after its first row: with an alias added, or with the new entity. -/
def RegistrationSticks (reg : Registry) (call : Call) (d : Draw) : Prop :=
  match findEntity reg.db call with
  | some id => ClaimSticks faults reg id call.aliases
  | none => faults .collision = none ∧ findCollision reg.db call = none ∧ faults .insert = none ∧ reg.db.get d.newId = none ∧
    (faults .prepare ≠ none ∨ (∃ j, ClaimFails faults call.aliases j) ∨ faults .listAliases ≠ none)

variable (fts : Fts)

/-- The statements that fail leave something of a failed call behind. Outside a transaction it is what the statements before the
failing one have changed. In a transaction it is what its body has changed, when `COMMIT` fails and leaves the transaction open. -/
def Op.Spoils (op : Op) (reg : Registry) : Prop :=
  match op with
  | delete id => faults .standards = none ∧ faults .memories ≠ none ∧ ∃ e ∈ reg.db.namespaceMeta, e.standardId = id
  | forget ns pattern tier archive now =>
    ¬(pattern.isNone ∧ ns.isNone ∧ tier.isNone) ∧ archive ∧ faults .archive = none ∧ faults .memories ≠ none ∧
      ∃ r ∈ reg.db.memories, Db.forgetSelects fts ns pattern tier r ∧ reg.db.archived.find r.id ≠ some (forgetRow now r)
  | promoteToNamespace sourceId toNamespace newId now =>
    toNamespace ≠ "" ∧ faults (.source 0) = none ∧ ∃ source, reg.db.get sourceId = some source ∧ toNamespace ≠ source.ns ∧
      toNamespace ∈ namespaceAncestors source.ns ∧ faults .insert = none ∧
      Alters reg.db (promotionClone source.toMemory toNamespace newId now) ∧
      (faults .sourceEnd ≠ none ∨ faults .targetEnd ≠ none ∨ faults .link ≠ none)
  | entityRegister call d => faults .entity = none ∧ RegistrationSticks faults reg call d
  | archiveMemory id _ _ =>
    faults .begin = none ∧ Stuck (faults .commit) ∧ faults .present = none ∧ (reg.db.get id).isSome ∧ faults .archive = none ∧
      faults .standards = none ∧ faults .memories = none
  | restoreArchived id _ =>
    faults .begin = none ∧ faults .present = none ∧ ∃ a, reg.db.archived.find id = some a ∧
      (faults .live = none → reg.db.get id = none) ∧ RestoreSticks faults reg.db a
  | gc archive now =>
    faults .begin = none ∧ Stuck (faults .commit) ∧ (archive → faults .archive = none) ∧ faults .memories = none ∧
      ∃ r ∈ reg.db.memories, Db.isExpired now r
  | consolidate ids title _ ns _ _ consolidatorAgentId newId _ =>
    faults .begin = none ∧ Stuck (faults .commit) ∧ (∀ k < ids.length, faults (.source k) = none) ∧ faults .insert = none ∧
      (∀ k < ids.length, faults (.standardsOf k) = none ∧ faults (.memoriesOf k) = none) ∧
      ∃ c, reg.db.collect ids {} = .ok c ∧ Accepts (validateMetadata (c.metadata ids consolidatorAgentId)) ∧
        reg.db.get newId = none ∧ reg.db.getKey (title, ns) = none
  | touch id t =>
    faults .begin = none ∧ Stuck (faults .commit) ∧ faults .bump = none ∧ faults .promote = none ∧ faults .reinforce = none ∧
      ∃ r, reg.db.get id = some r ∧ Db.touchRow t r ≠ r

end Spoiling

section Statements

theorem filter_of_forall {α : Type} {o : Option α} {p : α → Bool} (h : ∀ a ∈ o, p a) : o.filter p = o := by
  cases o with
  | none => rfl
  | some a => exact Option.filter_some_pos (h a rfl)

variable {reg : Registry} {id : String}

theorem same_dropStandard_iff : Same reg (reg.onDb (·.dropStandard id)) ↔ ∀ e ∈ reg.db.namespaceMeta, e.standardId ≠ id := by
  constructor
  · intro h e he hid
    have hkept := (h.namespaceMeta e.ns).trans (Table.find_of_mem he)
    have hfilter : (reg.db.namespaceMeta.filter fun e => e.standardId ≠ id).find e.ns =
        (reg.db.namespaceMeta.find e.ns).filter fun e => e.standardId ≠ id := Table.find_filter _
    rw [show (reg.onDb (·.dropStandard id)).db.namespaceMeta.find e.ns = _ from hfilter, Table.find_of_mem he] at hkept
    exact of_decide_eq_true (Option.filter_eq_some_iff.mp hkept).2 hid
  · intro h
    refine ⟨fun _ => rfl, fun _ => rfl, fun _ => rfl, fun ns => ?_, fun _ => rfl⟩
    show (reg.db.namespaceMeta.filter fun e => e.standardId ≠ id).find ns = _
    rw [Table.find_filter]
    exact filter_of_forall fun e he => decide_eq_true (h e (Table.find_mem he))

theorem same_deleteMemories {keep : MemoryRow → Bool} (h : ∀ r ∈ reg.db.memories, keep r) :
    Same reg (reg.onDb (·.deleteMemories keep)) := by
  have hall : ∀ i, (reg.db.get i).all keep = true := fun i => by
    cases hi : reg.db.get i with
    | none => rfl
    | some r => exact h r (Db.get_eq_some.mp hi).1
  refine ⟨fun i => ?_, fun _ => rfl, fun k => ?_, fun _ => rfl, fun _ => rfl⟩
  · show (reg.db.deleteMemories keep).get i = _
    rw [Db.get_deleteMemories]
    exact filter_of_forall fun r hr => h r (Db.get_eq_some.mp hr).1
  · show (reg.db.links.filter fun l => (reg.db.get l.sourceId).all keep && (reg.db.get l.targetId).all keep).find k = _
    rw [Table.find_filter]
    exact filter_of_forall fun l _ => by rw [hall, hall, Bool.and_self]

end Statements

/-! ## `delete` and `forget` -/

section Autocommit

variable {reg : Registry} (faults : Faults) (fts : Fts) {α : Type}

theorem unchanged_write_exec_iff {first second : Option Fault} {g : Registry → α × Registry} (f : Registry → Registry) :
    Unchanged Same (do write first f; exec second fun reg => .ok (g reg) : Sql Registry α) reg ↔
      ¬(first = none ∧ second ≠ none ∧ ¬Same reg (f reg)) := by
  cases first with
  | some e =>
    obtain ⟨message, he⟩ := write_alone (f := f) (Option.some_ne_none e) reg
    exact (unchanged_of_error (bind_of_error he)).trans (iff_of_true (Same.refl reg) fun h => nomatch h.1)
  | none =>
    have hfirst : write none f ⟨reg, none⟩ = (.ok (), ⟨f reg, none⟩) := rfl
    by_cases hsecond : second = none
    · subst hsecond
      exact iff_of_true (unchanged_of_ok ((bind_of_ok hfirst).trans rfl)) fun h => h.2.1 rfl
    · obtain ⟨message, he⟩ := exec_alone (f := fun reg => .ok (g reg)) hsecond (f reg)
      rw [unchanged_of_error ((bind_of_ok hfirst).trans he)]
      exact ⟨fun h hn => hn.2.2 h, fun h => Classical.not_not.mp fun hn => h ⟨rfl, hsecond, hn⟩⟩

theorem unchanged_exec {fault : Option Fault} {g : Registry → Except String (α × Registry)} : Unchanged Same (exec fault g) reg := by
  by_cases h : fault = none
  · cases hg : g reg with
    | ok x => exact unchanged_of_ok (exec_eq_ok.mpr ⟨h, x.2, hg, rfl⟩)
    | error e => exact (unchanged_of_error (exec_of_error (s := ⟨reg, none⟩) h hg)).mpr (Same.refl reg)
  · obtain ⟨message, he⟩ := exec_alone (f := g) h reg
    exact (unchanged_of_error he).mpr (Same.refl reg)

theorem unchanged_bail {e : String} : Unchanged Same (bail e : Sql Registry α) reg := fun _ => Same.refl reg

theorem unchanged_delete_iff (id : String) :
    Unchanged Same (delete (faults .standards) (faults .memories) id) reg ↔ ¬(Op.delete id).Spoils faults fts reg := by
  refine (unchanged_write_exec_iff _).trans (not_congr (and_congr_right fun _ => and_congr_right fun _ => ?_))
  rw [same_dropStandard_iff]
  push Not
  exact Iff.rfl

theorem same_archiveWhere_iff {sel : MemoryRow → Bool} {mk : MemoryRow → ArchivedRow} (hmk : ∀ r, (mk r).id = r.id) :
    Same reg (reg.onDb (·.archiveWhere sel mk)) ↔ ∀ r ∈ reg.db.memories, sel r → reg.db.archived.find r.id = some (mk r) := by
  constructor
  · intro h r hr hsel
    have hfind := (h.archived r.id).symm.trans (Db.find_archived_archiveWhere hmk r.id)
    rw [hfind, Db.get_of_mem hr, Option.filter_some_pos hsel]
    rfl
  · intro h
    refine ⟨fun _ => rfl, fun i => ?_, fun _ => rfl, fun _ => rfl, fun _ => rfl⟩
    refine (Db.find_archived_archiveWhere hmk i).trans ?_
    cases hi : reg.db.get i with
    | none => rfl
    | some r =>
      obtain ⟨hmem, rfl⟩ := Db.get_eq_some.mp hi
      rw [Option.filter_some]
      split_ifs with hsel
      · exact (h r hmem hsel).symm
      · rfl

theorem unchanged_forget_iff (ns pattern : Option String) (tier : Option Tier) (archive : Bool) (now : String) :
    Unchanged Same (forget faults fts ns pattern tier archive now) reg ↔
      ¬(Op.forget ns pattern tier archive now).Spoils faults fts reg := by
  unfold forget
  split_ifs with hnone harchive
  · exact iff_of_true unchanged_bail fun h => h.1 hnone
  · refine (unchanged_write_exec_iff _).trans (not_congr ?_)
    constructor
    · rintro ⟨h, h', hne⟩
      rw [same_archiveWhere_iff fun _ => rfl] at hne
      push Not at hne
      exact ⟨hnone, harchive, h, h', hne⟩
    · rintro ⟨-, -, h, h', r, hr, hsel, hne⟩
      exact ⟨h, h', fun hsame => hne ((same_archiveWhere_iff fun _ => rfl).mp hsame r hr hsel)⟩
  · exact iff_of_true unchanged_exec fun h => harchive h.2.1

end Autocommit

/-! ## `archive_memory`, `gc` and `touch` -/

section Transactions

variable {reg : Registry} (faults : Faults) (fts : Fts)

theorem within_afterFault (fault : Option Fault) (t : Registry) : Within t (afterFault fault ⟨t, some t⟩) := by
  unfold afterFault
  split_ifs
  · exact Or.inr rfl
  · exact Or.inl rfl

theorem unchanged_of_idle {α : Type} {onBegin onCommit : Option Fault} {body : Sql Registry α} {r : Except String α} {fault : Option Fault}
    (h : body ⟨reg, some reg⟩ = (r, afterFault fault ⟨reg, some reg⟩)) : Unchanged Same (transaction onBegin onCommit body) reg := by
  have hwithin : Within reg (body ⟨reg, some reg⟩).2 := h ▸ within_afterFault _ _
  refine (transaction_unchanged_iff Same.refl hwithin).mpr ?_
  rintro ⟨-, -, a, u, heq, hne⟩
  rw [h] at heq
  have hnow : (afterFault fault ⟨reg, some reg⟩).now = u := congrArg (fun x => x.2.now) heq
  unfold afterFault at hnow
  split_ifs at hnow
  · exact hne (hnow ▸ Same.refl reg)
  · exact hne (hnow ▸ Same.refl reg)

theorem isLive_eq (fault : Option Fault) (id : String) (s : Session Registry) :
    isLive fault id s = (.ok (if fault = none then (s.now.db.get id).isSome else false), afterFault fault s) := orDefault_read

theorem stops_delete {t : Registry} (onStandards onMemories : Option Fault) (id : String) : Stops t (delete onStandards onMemories id) :=
  stops_bind (stops_write _ _) fun _ => stops_exec _ _

theorem delete_eq_ok {onStandards onMemories : Option Fault} {id : String} {s s' : Session Registry} {found : Bool} :
    delete onStandards onMemories id s = (.ok found, s') ↔ onStandards = none ∧ onMemories = none ∧
      found = (s.now.db.get id).isSome ∧ s' = { s with now := s.now.onDb fun db => (db.delete id).1 } := by
  unfold delete remove
  simp only [bind_eq_ok, write_eq_ok, exec_eq_ok]
  constructor
  · rintro ⟨_, _, ⟨h, rfl⟩, h', _, heq, rfl⟩
    cases heq
    exact ⟨h, h', rfl, rfl⟩
  · rintro ⟨h, h', rfl, rfl⟩
    exact ⟨(), _, ⟨h, rfl⟩, h', _, rfl, rfl⟩

theorem unchanged_archiveMemory_iff (id : String) (reason : Option String) (now : String) :
    Unchanged Same (archiveMemory faults id reason now) reg ↔ ¬(Op.archiveMemory id reason now).Spoils faults fts reg := by
  have hlive := isLive_eq (faults .present) id ⟨reg, some reg⟩
  by_cases h : faults .present = none ∧ (reg.db.get id).isSome
  · have hbody : archiveBody faults id reason now ⟨reg, some reg⟩ = (do
        write (faults .archive) (·.onDb (·.archiveWhere (fun r => r.id = id) (archiveRow now (reason.getD "archive"))))
        delete (faults .standards) (faults .memories) id : Sql Registry Bool) ⟨reg, some reg⟩ := by
      have hyes : isLive (faults .present) id ⟨reg, some reg⟩ = (.ok true, ⟨reg, some reg⟩) := by
        rw [hlive, if_pos h.1, h.2, h.1]
        rfl
      exact bind_of_ok hyes
    have hwithin : Within reg (archiveBody faults id reason now ⟨reg, some reg⟩).2 := by
      rw [hbody]
      exact within_of_stops (stops_bind (stops_write _ _) fun _ => stops_delete _ _ _) rfl
    refine (transaction_unchanged_iff Same.refl hwithin).trans (not_congr (and_congr_right fun _ => and_congr_right fun _ => ?_))
    simp only [hbody, bind_eq_ok, write_eq_ok, delete_eq_ok]
    constructor
    · rintro ⟨_, _, ⟨_, _, ⟨harchive, rfl⟩, hstandards, hmemories, -, -⟩, -⟩
      exact ⟨h.1, h.2, harchive, hstandards, hmemories⟩
    · rintro ⟨-, -, harchive, hstandards, hmemories⟩
      refine ⟨_, _, ⟨(), _, ⟨harchive, rfl⟩, hstandards, hmemories, rfl, rfl⟩, fun hsame => ?_⟩
      have hgone := (hsame.memories id).symm.trans ((Db.get_delete _ id id).trans (if_pos rfl))
      rw [hgone] at h
      cases h.2
  · have hbody : archiveBody faults id reason now ⟨reg, some reg⟩ = (.ok false, afterFault (faults .present) ⟨reg, some reg⟩) := by
      have hno : (if faults .present = none then (reg.db.get id).isSome else false) = false := by
        split_ifs with hp
        · exact Bool.eq_false_iff.mpr fun hs => h ⟨hp, hs⟩
        · rfl
      rw [hno] at hlive
      exact bind_of_ok hlive
    exact iff_of_true (unchanged_of_idle hbody) fun hall => h ⟨hall.2.2.1, hall.2.2.2.1⟩

theorem unchanged_bind_iff {α β : Type} {p : Sql Registry α} {k : α → Sql Registry β} (hk : ∀ a s, ∃ b s', k a s = (.ok b, s')) :
    Unchanged Same (p >>= k) reg ↔ Unchanged Same p reg := by
  cases hp : p ⟨reg, none⟩ with
  | mk r s =>
    cases r with
    | ok a =>
      obtain ⟨b, s', hb⟩ := hk a s
      exact iff_of_true (unchanged_of_ok ((bind_of_ok hp).trans hb)) (unchanged_of_ok hp)
    | error e => exact (unchanged_of_error (bind_of_error hp)).trans (unchanged_of_error hp).symm

theorem unchanged_gc_iff (archive : Bool) (now : String) :
    Unchanged Same (gc faults archive now) reg ↔ ¬(Op.gc archive now).Spoils faults fts reg := by
  have hcleanup : ∀ (n : ℕ) (s : Session Registry), ∃ m s', (do
      orDefault (write (faults .standards) (·.onDb fun db =>
        { db with namespaceMeta := db.namespaceMeta.filter fun e => (db.get e.standardId).isSome })) ()
      pure n : Sql Registry ℕ) s = (.ok m, s') := fun n s => ⟨n, _, bind_of_ok orDefault_write⟩
  have hwithin : Within reg (gcBody faults archive now ⟨reg, some reg⟩).2 := by
    unfold gcBody
    split_ifs
    · exact within_of_stops (stops_bind (stops_write _ _) fun _ => stops_exec _ _) rfl
    · exact within_of_stops (stops_exec _ _) rfl
  refine (unchanged_bind_iff hcleanup).trans ((transaction_unchanged_iff Same.refl hwithin).trans
    (not_congr (and_congr_right fun _ => and_congr_right fun _ => ?_)))
  have hsame : ∀ reg' : Registry, reg'.db = reg.db.deleteMemories (fun r => !Db.isExpired now r) ∨
      reg'.db = (reg.db.archiveWhere (Db.isExpired now) (archiveRow now "ttl_expired")).deleteMemories (fun r => !Db.isExpired now r) →
      (∃ r ∈ reg.db.memories, Db.isExpired now r) → ¬Same reg reg' := by
    rintro reg' hreg ⟨r, hr, hexp⟩ hsame
    have hget : reg'.db.get r.id = (reg.db.get r.id).filter fun r => !Db.isExpired now r := by
      rcases hreg with h | h
      · rw [h, Db.get_deleteMemories]
      · rw [h, Db.get_deleteMemories]
        rfl
    rw [hsame.memories, Db.get_of_mem hr, Option.filter_some_neg (by simp [hexp])] at hget
    cases hget
  have hnone : ¬(∃ r ∈ reg.db.memories, Db.isExpired now r) → ∀ r ∈ reg.db.memories, (!Db.isExpired now r) = true :=
    fun h r hr => by simpa using fun hexp => h ⟨r, hr, hexp⟩
  unfold gcBody
  cases archive with
  | true =>
    simp only [if_true, bind_eq_ok, write_eq_ok, exec_eq_ok, forall_const]
    constructor
    · rintro ⟨_, u, ⟨_, _, ⟨harchive, rfl⟩, hmemories, t, heq, hu⟩, hne⟩
      cases heq
      cases hu
      refine ⟨harchive, hmemories, Classical.not_not.mp fun hno => hne ?_⟩
      have harch : Same reg (reg.onDb (·.archiveWhere (Db.isExpired now) (archiveRow now "ttl_expired"))) :=
        (same_archiveWhere_iff fun _ => rfl).mpr fun r hr hexp => absurd ⟨r, hr, hexp⟩ hno
      exact harch.trans (same_deleteMemories (hnone hno))
    · rintro ⟨harchive, hmemories, hexp⟩
      exact ⟨_, _, ⟨(), _, ⟨harchive, rfl⟩, hmemories, _, rfl, rfl⟩, hsame _ (Or.inr rfl) hexp⟩
  | false =>
    simp only [Bool.false_eq_true, if_false, false_implies, true_and]
    constructor
    · rintro ⟨_, u, hbody, hne⟩
      obtain ⟨hmemories, t, heq, hu⟩ := exec_eq_ok.mp hbody
      cases heq
      cases hu
      exact ⟨hmemories, Classical.not_not.mp fun hno => hne (same_deleteMemories (hnone hno))⟩
    · rintro ⟨hmemories, hexp⟩
      exact ⟨_, _, exec_eq_ok.mpr ⟨hmemories, _, rfl, rfl⟩, hsame _ (Or.inl rfl) hexp⟩

theorem unchanged_touch_iff (id : String) (t : Db.TouchTimes) :
    Unchanged Same (touch faults id t) reg ↔ ¬(Op.touch id t).Spoils faults fts reg := by
  have hwithin : Within reg (touchBody faults id t ⟨reg, some reg⟩).2 :=
    within_of_stops (stops_bind (stops_write _ _) fun _ => stops_bind (stops_write _ _) fun _ => stops_write _ _) rfl
  refine (transaction_unchanged_iff Same.refl hwithin).trans (not_congr (and_congr_right fun _ => and_congr_right fun _ => ?_))
  have hget : ∀ i, (((reg.db.updateRow id (Db.bumpRow t) (bumpRow_id t) (bumpRow_key t)).updateRow id (Db.promoteRow t.now)
      (promoteRow_id t.now) (promoteRow_key t.now)).updateRow id Db.reinforceRow reinforceRow_id reinforceRow_key).get i =
      (reg.db.get i).map fun r => if i = id then Db.touchRow t r else r := by
    intro i
    rw [Db.get_updateRow, Db.get_updateRow, Db.get_updateRow, Option.map_map, Option.map_map]
    refine congrArg (fun f => Option.map f (reg.db.get i)) (funext fun r => ?_)
    by_cases hi : i = id
    · simp [hi, Db.touchRow]
    · simp [hi]
  unfold touchBody
  simp only [bind_eq_ok, write_eq_ok]
  constructor
  · rintro ⟨_, u, ⟨_, _, ⟨hbump, rfl⟩, _, _, ⟨hpromote, rfl⟩, hreinforce, hu⟩, hne⟩
    cases hu
    refine ⟨hbump, hpromote, hreinforce, Classical.not_not.mp fun hno => hne ⟨fun i => (hget i).trans ?_, fun _ => rfl,
      fun _ => rfl, fun _ => rfl, fun _ => rfl⟩⟩
    cases hi : reg.db.get i with
    | none => rfl
    | some r =>
      split_ifs with hid
      · exact congrArg some (Classical.not_not.mp fun hr => hno ⟨r, hid ▸ hi, hr⟩)
      · rfl
  · rintro ⟨hbump, hpromote, hreinforce, r, hr, htouched⟩
    refine ⟨(), _, ⟨(), _, ⟨hbump, rfl⟩, (), _, ⟨hpromote, rfl⟩, hreinforce, rfl⟩, fun hsame => htouched ?_⟩
    have hid := (hget id).symm.trans (hsame.memories id)
    rw [hr, Option.map_some, if_pos rfl] at hid
    exact Option.some.inj hid

end Transactions

/-! ## `restore_archived` -/

section Restore

variable (faults : Faults) (fts : Fts) {reg : Registry} {id : String} {a : ArchivedRow} {m : Json}

theorem restoreRow_isOk_iff (now : String) {db : Db} (hfind : db.archived.find id = some a) :
    (∃ db', restoreRow db id now = .ok db' ∧ db'.get a.id ≠ none ∧ db'.archived = db.archived) ↔
      db.get a.id = none ∧ db.getKey a.key = none := by
  have hroom : (db.memories.insertNew? { AiMemory.restoreRow now a with metadata := a.metadata }).isSome ↔
      db.get a.id = none ∧ db.getKey a.key = none := Indexed.insertNew?_isSome
  rw [← hroom]
  unfold restoreRow
  rw [hfind]
  simp only
  cases ht : db.memories.insertNew? { AiMemory.restoreRow now a with metadata := a.metadata } with
  | none => exact iff_of_false (fun ⟨_, h, _⟩ => by cases h) Bool.false_ne_true
  | some t =>
    refine iff_of_true ⟨_, rfl, ?_, rfl⟩ rfl
    show t.find a.id ≠ none
    rw [Indexed.find_insertNew? ht]
    cases db.memories.find a.id with
    | none => exact (if_pos rfl : (if a.id = a.id then _ else _) = _) ▸ Option.some_ne_none _
    | some r => exact Option.some_ne_none r

theorem exec_restore_cases (now : String) (s : Session Registry) (hfind : s.now.db.archived.find id = some a) :
    (Moves faults s.now.db a ∧ ∃ u : Registry, u.db.get a.id ≠ none ∧
      exec (faults .restore) (fun reg => (restoreRow reg.db id now).map fun db => ((), { reg with db })) s = (.ok (), ⟨u, s.saved⟩)) ∨
    (¬Moves faults s.now.db a ∧ ∃ e,
      exec (faults .restore) (fun reg => (restoreRow reg.db id now).map fun db => ((), { reg with db })) s =
        (.error e, afterFault (faults .restore) s)) := by
  by_cases hfault : faults .restore = none
  · by_cases hroom : s.now.db.get a.id = none ∧ s.now.db.getKey a.key = none
    · obtain ⟨db', hdb, hget, -⟩ := (restoreRow_isOk_iff now hfind).mpr hroom
      exact Or.inl ⟨⟨hfault, hroom⟩, _, hget, exec_eq_ok.mpr ⟨hfault, _, by rw [hdb]; rfl, rfl⟩⟩
    · refine Or.inr ⟨fun h => hroom h.2, ?_⟩
      cases hr : restoreRow s.now.db id now with
      | error e =>
        have hafter : afterFault (faults .restore) s = s := by rw [hfault, afterFault_none]
        exact ⟨e, hafter.symm ▸ exec_of_error hfault (by simp only [hr]; rfl)⟩
      | ok db =>
        have hnew : (s.now.db.memories.insertNew? { AiMemory.restoreRow now a with metadata := a.metadata }).isSome := by
          unfold restoreRow at hr
          rw [hfind] at hr
          simp only at hr
          split at hr
          · rename_i t ht
            rw [ht]
            rfl
          · cases hr
        exact absurd (Indexed.insertNew?_isSome.mp hnew) hroom
  · exact Or.inr ⟨fun h => hfault h.1, exec_of_fault hfault⟩

theorem moveRow_cases (now : String) (s : Session Registry) (hfind : s.now.db.archived.find id = some a) :
    (Moves faults s.now.db a ∧ faults .unarchive = none ∧ ∃ u : Registry, u.db.get a.id ≠ none ∧
      moveRow faults id now s = (.ok true, ⟨u, s.saved⟩)) ∨
    (Moves faults s.now.db a ∧ faults .unarchive ≠ none ∧ ∃ e, ∃ u : Registry, u.db.get a.id ≠ none ∧
      moveRow faults id now s = (.error e, afterFault (faults .unarchive) ⟨u, s.saved⟩)) ∨
    (¬Moves faults s.now.db a ∧ ∃ e, moveRow faults id now s = (.error e, afterFault (faults .restore) s)) := by
  unfold moveRow
  rcases exec_restore_cases faults now s hfind with ⟨hmoves, u, hget, hexec⟩ | ⟨hmoves, e, hexec⟩
  · by_cases hfault : faults .unarchive = none
    · refine Or.inl ⟨hmoves, hfault, u.onDb fun db => { db with archived := db.archived.filter fun a => a.id ≠ id }, hget, ?_⟩
      exact (bind_of_ok hexec).trans (bind_of_ok (write_of_none hfault))
    · obtain ⟨e, he⟩ := exec_of_fault (s := ⟨u, s.saved⟩) (f := fun reg : Registry => .ok ((), reg.onDb fun db =>
        { db with archived := db.archived.filter fun a => a.id ≠ id })) hfault
      exact Or.inr (Or.inl ⟨hmoves, hfault, e, u, hget, (bind_of_ok hexec).trans (bind_of_error he)⟩)
  · exact Or.inr (Or.inr ⟨hmoves, e, bind_of_error hexec⟩)

theorem find_resetMetadata {db : Db} (hfind : db.archived.find id = some a) :
    (resetMetadata id db).archived.find id = some { a with metadata := .obj [] } := by
  have hmod := Table.find_modify (t := db.archived) (k := id) (f := fun a => { a with metadata := .obj [] }) (fun _ => rfl) id
  rw [show (resetMetadata id db).archived.find id = _ from hmod, hfind]
  simp

theorem accepts_empty : Accepts (validateMetadata (.obj [])) := by decide

/-- What `restore_archived` leaves after its checks, outside the transaction it has lost. -/
theorem moveBack_lost (now : String) (hfind : reg.db.archived.find id = some a) (hm : Accepts (validateMetadata m) ∨ m = a.metadata) :
    ∃ u, (moveBack faults id now m ⟨reg, none⟩).2 = ⟨u, none⟩ ∧
      (Same reg u ↔ ¬((¬Accepts (validateMetadata m) → faults .reset = none) ∧
        (¬Accepts (validateMetadata m) ∨ Moves faults reg.db a))) := by
  have hid := Table.find_key hfind
  obtain rfl : a.id = id := hid
  have hmoved : ∀ u : Registry, u.db.get a.id ≠ none → Moves faults reg.db a → ¬Same reg u :=
    fun u hget hmoves hsame => hget ((hsame.memories a.id).trans hmoves.2.1)
  unfold moveBack
  by_cases hbad : ¬Accepts (validateMetadata m)
  · rw [if_pos hbad]
    have hreset : ¬Same reg (reg.onDb (resetMetadata a.id)) := fun hsame => by
      have harch := (find_resetMetadata hfind).symm.trans (hsame.archived a.id)
      rw [hfind] at harch
      rcases hm with hok | rfl
      · exact hbad hok
      · have hmeta : Json.obj [] = a.metadata := congrArg (fun a : ArchivedRow => a.metadata) (Option.some.inj harch)
        exact hbad (hmeta ▸ accepts_empty)
    by_cases hfault : faults .reset = none
    · have hstart : (write (faults .reset) (·.onDb (resetMetadata a.id))) ⟨reg, none⟩ =
          (.ok (), ⟨reg.onDb (resetMetadata a.id), none⟩) := write_of_none hfault
      rw [bind_of_ok hstart]
      have hstays : ¬¬((¬Accepts (validateMetadata m) → faults .reset = none) ∧
          (¬Accepts (validateMetadata m) ∨ Moves faults reg.db a)) := fun h => h ⟨fun _ => hfault, Or.inl hbad⟩
      rcases moveRow_cases faults now ⟨reg.onDb (resetMetadata a.id), none⟩ (find_resetMetadata hfind) with
        ⟨hmoves, -, u, hget, hrun⟩ | ⟨hmoves, -, e, u, hget, hrun⟩ | ⟨-, e, hrun⟩
      · exact ⟨u, congrArg Prod.snd hrun, iff_of_false (hmoved u hget hmoves) hstays⟩
      · rw [afterFault_of_saved_none] at hrun
        exact ⟨u, congrArg Prod.snd hrun, iff_of_false (hmoved u hget hmoves) hstays⟩
      · rw [afterFault_of_saved_none] at hrun
        exact ⟨_, congrArg Prod.snd hrun, iff_of_false hreset hstays⟩
    · obtain ⟨e, he⟩ := write_alone (f := fun reg : Registry => reg.onDb (resetMetadata a.id)) hfault reg
      refine ⟨reg, congrArg Prod.snd (bind_of_error he), iff_of_true (Same.refl reg) fun h => hfault (h.1 hbad)⟩
  · rw [if_neg hbad]
    rcases moveRow_cases faults now ⟨reg, none⟩ hfind with ⟨hmoves, -, u, hget, hrun⟩ | ⟨hmoves, -, e, u, hget, hrun⟩ |
      ⟨hmoves, e, hrun⟩
    · exact ⟨u, congrArg Prod.snd hrun, iff_of_false (hmoved u hget hmoves) fun h => h ⟨fun hb => absurd hb hbad, Or.inr hmoves⟩⟩
    · rw [afterFault_of_saved_none] at hrun
      exact ⟨u, congrArg Prod.snd hrun, iff_of_false (hmoved u hget hmoves) fun h => h ⟨fun hb => absurd hb hbad, Or.inr hmoves⟩⟩
    · rw [afterFault_of_saved_none] at hrun
      exact ⟨reg, congrArg Prod.snd hrun, iff_of_true (Same.refl reg) fun h => h.2.elim hbad hmoves⟩

/-- The end of a transaction that is still open after the checks. -/
theorem moveBack_through_iff (now : String) (hfind : reg.db.archived.find id = some a) :
    (∃ b u, moveBack faults id now m ⟨reg, some reg⟩ = (.ok b, ⟨u, some reg⟩) ∧ ¬Same reg u) ↔
      (¬Accepts (validateMetadata m) → faults .reset = none) ∧ Moves faults reg.db a ∧ faults .unarchive = none := by
  have hmoved : ∀ u : Registry, u.db.get a.id ≠ none → Moves faults reg.db a → ¬Same reg u :=
    fun u hget hmoves hsame => hget ((hsame.memories a.id).trans hmoves.2.1)
  have hid := Table.find_key hfind
  obtain rfl : a.id = id := hid
  have hrest : ∀ start : Registry, ∀ a' : ArchivedRow, start.db.archived.find a.id = some a' → (Moves faults start.db a' ↔ Moves faults reg.db a) →
      a'.id = a.id → ((∃ b u, moveRow faults a.id now ⟨start, some reg⟩ = (.ok b, ⟨u, some reg⟩) ∧ ¬Same reg u) ↔
        Moves faults reg.db a ∧ faults .unarchive = none) := by
    intro start a' hstart hiff hid
    rcases moveRow_cases faults now ⟨start, some reg⟩ hstart with ⟨hmoves, hfault, u, hget, hrun⟩ |
      ⟨-, hfault, e, u, hget, hrun⟩ | ⟨hmoves, e, hrun⟩
    · exact iff_of_true ⟨true, u, hrun, hmoved u (hid ▸ hget) (hiff.mp hmoves)⟩ ⟨hiff.mp hmoves, hfault⟩
    · exact iff_of_false (fun ⟨_, _, heq, _⟩ => by rw [hrun] at heq; cases heq) fun h => hfault h.2
    · exact iff_of_false (fun ⟨_, _, heq, _⟩ => by rw [hrun] at heq; cases heq) fun h => hmoves (hiff.mpr h.1)
  unfold moveBack
  by_cases hbad : ¬Accepts (validateMetadata m)
  · rw [if_pos hbad]
    by_cases hfault : faults .reset = none
    · have hstart : (write (faults .reset) (·.onDb (resetMetadata a.id))) ⟨reg, some reg⟩ =
          (.ok (), ⟨reg.onDb (resetMetadata a.id), some reg⟩) := write_of_none hfault
      rw [bind_of_ok hstart]
      exact (hrest (reg.onDb (resetMetadata a.id)) _ (find_resetMetadata hfind) Iff.rfl rfl).trans (and_iff_right fun _ => hfault).symm
    · obtain ⟨e, he⟩ := exec_of_fault (s := ⟨reg, some reg⟩) (f := fun reg : Registry => .ok ((), reg.onDb (resetMetadata a.id))) hfault
      refine iff_of_false ?_ fun h => hfault (h.1 hbad)
      rintro ⟨_, _, heq, -⟩
      cases (bind_of_error he).symm.trans heq
  · rw [if_neg hbad]
    exact (hrest _ _ hfind Iff.rfl rfl).trans (and_iff_right fun hb => absurd hb hbad).symm

theorem stops_moveBack {t : Registry} {now : String} : Stops t (moveBack faults id now m) := by
  have hrow : Stops t (moveRow faults id now) :=
    stops_bind (stops_exec _ _) fun _ => stops_bind (stops_write _ _) fun _ => stops_pure _
  unfold moveBack
  by_cases hbad : ¬Accepts (validateMetadata m)
  · rw [if_pos hbad]
    exact stops_bind (stops_write _ _) fun _ => hrow
  · rw [if_neg hbad]
    exact hrow

theorem afterFault_afterFault (f g : Option Fault) (t : Registry) :
    afterFault g (afterFault f ⟨t, some t⟩) = ⟨t, if Lost f ∨ Lost g then none else some t⟩ := by
  unfold afterFault
  by_cases hf : Lost f
  · rw [if_pos hf, if_pos (Or.inl hf)]
    split_ifs <;> rfl
  · rw [if_neg hf]
    by_cases hg : Lost g
    · rw [if_pos hg, if_pos (Or.inr hg)]
      rfl
    · rw [if_neg hg, if_neg (not_or.mpr ⟨hf, hg⟩)]

theorem unchanged_restoreArchived_iff (id now : String) :
    Unchanged Same (restoreArchived faults id now) reg ↔ ¬(Op.restoreArchived id now).Spoils faults fts reg := by
  rw [Op.Spoils]
  unfold restoreArchived
  cases hbegin : faults .begin with
  | some f =>
    obtain hrun := transaction_of_begin_fault f (faults .commit) (restoreBody faults id now) reg
    exact iff_of_true ((unchanged_of_error hrun).mpr (Same.refl reg)) fun h => Option.some_ne_none f h.1
  | none =>
    have hpresent : orDefault (read (faults .present) fun reg => (reg.db.archived.find id).isSome) false ⟨reg, some reg⟩ =
        (.ok (if faults .present = none then (reg.db.archived.find id).isSome else false),
          afterFault (faults .present) ⟨reg, some reg⟩) := orDefault_read
    cases hfind : (if faults .present = none then reg.db.archived.find id else none) with
    | none =>
      have hno : (if faults .present = none then (reg.db.archived.find id).isSome else false) = false := by
        split_ifs at hfind ⊢ with hp
        · rw [hfind]
          rfl
        · rfl
      rw [hno] at hpresent
      refine iff_of_true (unchanged_of_idle (bind_of_ok hpresent)) ?_
      rintro ⟨-, hp, a, ha, -⟩
      rw [if_pos hp, ha] at hfind
      cases hfind
    | some a =>
      split_ifs at hfind with hp
      have hyes : orDefault (read (faults .present) fun reg => (reg.db.archived.find id).isSome) false ⟨reg, some reg⟩ =
          (.ok true, ⟨reg, some reg⟩) := by
        rw [hpresent, if_pos hp, hfind, hp]
        rfl
      have hright : (none = (none : Option Fault) ∧ faults .present = none ∧ ∃ a, reg.db.archived.find id = some a ∧
          (faults .live = none → reg.db.get id = none) ∧ RestoreSticks faults reg.db a) ↔
          (faults .live = none → reg.db.get id = none) ∧ RestoreSticks faults reg.db a := by
        constructor
        · rintro ⟨-, -, a', ha', h⟩
          cases hfind.symm.trans ha'
          exact h
        · exact fun h => ⟨rfl, hp, a, hfind, h⟩
      rw [hright]
      by_cases hstop : faults .live = none ∧ (reg.db.get id).isSome
      · have hlive : isLive (faults .live) id ⟨reg, some reg⟩ = (.ok true, afterFault (faults .live) ⟨reg, some reg⟩) := by
          rw [isLive_eq, if_pos hstop.1, hstop.2]
        refine iff_of_true (unchanged_of_idle ((bind_of_ok hyes).trans (bind_of_ok hlive))) fun h => ?_
        rw [h.1 hstop.1] at hstop
        cases hstop.2
      · have hlive : isLive (faults .live) id ⟨reg, some reg⟩ = (.ok false, afterFault (faults .live) ⟨reg, some reg⟩) := by
          rw [isLive_eq]
          split_ifs with hnone
          · rw [Bool.eq_false_iff.mpr fun hs => hstop ⟨hnone, hs⟩]
          · rfl
        have hfree : faults .live = none → reg.db.get id = none := fun hnone =>
          Option.not_isSome_iff_eq_none.mp fun hs => hstop ⟨hnone, hs⟩
        rw [and_iff_right hfree]
        set m := if faults .metadata = none then a.metadata else Json.obj [] with hm
        have hmeta : archivedMetadata faults id (afterFault (faults .live) ⟨reg, some reg⟩) =
            (.ok m, ⟨reg, if Lost (faults .live) ∨ Lost (faults .metadata) then none else some reg⟩) := by
          rw [← afterFault_afterFault]
          have hnow : (afterFault (faults .live) ⟨reg, some reg⟩).now = reg := by
            unfold afterFault
            split_ifs <;> rfl
          refine orDefault_read.trans ?_
          rw [hnow, hfind]
          rfl
        have hbody : restoreBody faults id now ⟨reg, some reg⟩ =
            moveBack faults id now m ⟨reg, if Lost (faults .live) ∨ Lost (faults .metadata) then none else some reg⟩ :=
          (bind_of_ok hyes).trans ((bind_of_ok hlive).trans (bind_of_ok hmeta))
        have hresets : ¬Accepts (validateMetadata m) ↔ Resets faults a := by
          rw [hm]
          split_ifs with hnone
          · exact (and_iff_right hnone).symm
          · exact iff_of_false (fun h => h accepts_empty) fun h => hnone h.1
        unfold RestoreSticks
        by_cases hlost : Lost (faults .live) ∨ Lost (faults .metadata)
        · rw [if_pos hlost] at hbody ⊢
          have hchoice : Accepts (validateMetadata m) ∨ m = a.metadata := by
            rw [hm]
            split_ifs
            · exact Or.inr rfl
            · exact Or.inl accepts_empty
          obtain ⟨u, hu, hsame⟩ := moveBack_lost faults now hfind hchoice
          rw [unchanged_of_lost (hbody ▸ hu), hsame, hresets]
        · rw [if_neg hlost] at hbody ⊢
          have hwithin : Within reg (restoreBody faults id now ⟨reg, some reg⟩).2 :=
            hbody ▸ within_of_stops (stops_moveBack faults) rfl
          refine (transaction_unchanged_iff Same.refl hwithin).trans (not_congr ?_)
          rw [hbody, moveBack_through_iff faults now hfind, hresets]
          tauto

end Restore

/-! ## `consolidate` -/

section Consolidation

variable (faults : Faults) (fts : Fts) {reg : Registry} {s s' : Session Registry} {ids : List String} {c c' : Consolidation} {k : ℕ}

theorem collect_eq_ok : collect faults k ids c s = (.ok c', s') ↔
    (∀ i < ids.length, faults (.source (k + i)) = none) ∧ s.now.db.collect ids c = .ok c' ∧ s' = s := by
  induction ids generalizing k c with
  | nil =>
    unfold collect Db.collect
    rw [pure_eq_ok]
    constructor
    · rintro ⟨hc, hs⟩
      exact ⟨fun i hi => absurd hi (Nat.not_lt_zero i), congrArg Except.ok hc, hs.symm⟩
    · rintro ⟨-, hc, hs⟩
      exact ⟨Except.ok.inj hc, hs.symm⟩
  | cons id ids ih =>
    unfold collect Db.collect
    rw [bind_eq_ok]
    constructor
    · rintro ⟨found, t, hread, hrest⟩
      obtain ⟨hnone, rfl, rfl⟩ := read_eq_ok.mp hread
      cases hget : t.now.db.get id with
      | none => rw [hget] at hrest; cases hrest
      | some mem =>
        rw [hget] at hrest
        obtain ⟨hall, hc, hs⟩ := ih.mp hrest
        refine ⟨fun i hi => ?_, hc, hs⟩
        cases i with
        | zero => exact hnone
        | succ i => exact (show k + 1 + i = k + (i + 1) by omega) ▸ hall i (Nat.lt_of_succ_lt_succ hi)
    · rintro ⟨hall, hc, rfl⟩
      refine ⟨_, s', read_eq_ok.mpr ⟨hall 0 (Nat.zero_lt_succ _), rfl, rfl⟩, ?_⟩
      cases hget : s'.now.db.get id with
      | none => rw [hget] at hc; cases hc
      | some mem =>
        rw [hget] at hc
        refine ih.mpr ⟨fun i hi => ?_, hc, rfl⟩
        exact (show k + (i + 1) = k + 1 + i by omega) ▸ hall (i + 1) (Nat.succ_lt_succ hi)

theorem stops_collect {t : Registry} : Stops t (collect faults k ids c) := by
  induction ids generalizing k c with
  | nil => exact stops_pure c
  | cons id ids ih =>
    refine stops_bind (stops_read _ _) fun found => ?_
    cases found with
    | none => exact stops_bail _
    | some mem => exact ih

/-- The `INSERT` of a row there is room for. -/
theorem exec_insert {fault : Option Fault} {row : MemoryRow} {t : Memories} (hnone : fault = none)
    (ht : reg.db.memories.insertNew? row = some t) :
    exec fault (fun reg : Registry =>
      match reg.db.memories.insertNew? row with
      | none => .error "UNIQUE constraint failed"
      | some t => .ok ((), reg.onDb fun db => { db with memories := t })) ⟨reg, some reg⟩ =
      (.ok (), ⟨reg.onDb fun db => { db with memories := t }, some reg⟩) :=
  exec_eq_ok.mpr ⟨hnone, _, by simp only [ht], rfl⟩

theorem deleteSource_eq_ok {id : String} : deleteSource faults k id s = (.ok (), s') ↔
    (faults (.standardsOf k) = none ∧ faults (.memoriesOf k) = none) ∧
      s' = { s with now := s.now.onDb fun db => (db.delete id).1 } := by
  unfold deleteSource
  simp only [bind_eq_ok, delete_eq_ok, pure_eq_ok, true_and]
  constructor
  · rintro ⟨_, _, ⟨h, h', -, rfl⟩, rfl⟩
    exact ⟨⟨h, h'⟩, rfl⟩
  · rintro ⟨⟨h, h'⟩, rfl⟩
    exact ⟨_, _, ⟨h, h', rfl, rfl⟩, rfl⟩

theorem deleteSources_eq_ok : each (deleteSource faults) k ids s = (.ok (), s') ↔
    (∀ i < ids.length, faults (.standardsOf (k + i)) = none ∧ faults (.memoriesOf (k + i)) = none) ∧
      s' = { s with now := ids.foldl (fun reg id => reg.onDb fun db => (db.delete id).1) s.now } := by
  exact each_eq_ok (p := deleteSource faults) (C := fun k => faults (.standardsOf k) = none ∧ faults (.memoriesOf k) = none)
    (f := fun reg id => reg.onDb fun db => (db.delete id).1) fun _ _ _ _ => deleteSource_eq_ok faults

theorem db_foldl_delete : (ids.foldl (fun (reg : Registry) id => reg.onDb fun db => (db.delete id).1) reg).db =
    ids.foldl (fun db id => (db.delete id).1) reg.db := by
  induction ids generalizing reg with
  | nil => rfl
  | cons id ids ih => exact ih

theorem unchanged_consolidate_iff (ids : List String) (title summary ns : String) (tier : Tier) (source agent newId now : String) :
    Unchanged Same (consolidate faults ids title summary ns tier source agent newId now) reg ↔
      ¬(Op.consolidate ids title summary ns tier source agent newId now).Spoils faults fts reg := by
  have hwithin : Within reg (consolidateBody faults ids title summary ns tier source agent newId now ⟨reg, some reg⟩).2 := by
    refine within_of_stops (stops_bind (stops_collect faults) fun c => ?_) rfl
    simp only
    split
    · exact stops_bail _
    · exact stops_bind (stops_exec _ _) fun _ => stops_bind
        (stops_each (fun _ _ => stops_bind (stops_delete _ _ _) fun _ => stops_pure _) _ _) fun _ => stops_pure _
  refine (transaction_unchanged_iff Same.refl hwithin).trans (not_congr (and_congr_right fun _ => and_congr_right fun _ => ?_))
  unfold consolidateBody
  constructor
  · rintro ⟨_, u, hbody, -⟩
    obtain ⟨c, t, hcollect, hrest⟩ := bind_eq_ok.mp hbody
    obtain ⟨hsource, hc, rfl⟩ := (collect_eq_ok faults).mp hcollect
    cases hmeta : validateMetadata (c.metadata ids agent) with
    | error e => rw [hmeta] at hrest; cases hrest
    | ok _ =>
      rw [hmeta] at hrest
      obtain ⟨_, t, hinsert, hrest⟩ := bind_eq_ok.mp hrest
      obtain ⟨hnone, t', hnew, rfl⟩ := exec_eq_ok.mp hinsert
      obtain ⟨_, t, hloop, -⟩ := bind_eq_ok.mp hrest
      obtain ⟨hall, -⟩ := (deleteSources_eq_ok faults).mp hloop
      have hroom : (reg.db.memories.insertNew? (c.row newId title summary ns tier source now (c.metadata ids agent))).isSome := by
        split at hnew
        · cases hnew
        · rename_i t ht
          rw [ht]
          rfl
      simp only [Nat.zero_add] at hsource hall
      exact ⟨hsource, hnone, hall, c, hc, hmeta, Indexed.insertNew?_isSome.mp hroom⟩
  · rintro ⟨hsource, hnone, hall, c, hc, hmeta, hroom⟩
    have hnew : (reg.db.memories.insertNew? (c.row newId title summary ns tier source now (c.metadata ids agent))).isSome :=
      Indexed.insertNew?_isSome.mpr hroom
    obtain ⟨t, ht⟩ := Option.isSome_iff_exists.mp hnew
    have hcollect : collect faults 0 ids {} ⟨reg, some reg⟩ = (.ok c, ⟨reg, some reg⟩) :=
      (collect_eq_ok faults).mpr ⟨fun i hi => by rw [Nat.zero_add]; exact hsource i hi, hc, rfl⟩
    have hloop : ∀ start : Registry, each (deleteSource faults) 0 ids ⟨start, some reg⟩ =
        (.ok (), ⟨ids.foldl (fun (reg : Registry) id => reg.onDb fun db => (db.delete id).1) start, some reg⟩) := fun start =>
      (deleteSources_eq_ok faults).mpr ⟨fun i hi => by rw [Nat.zero_add]; exact hall i hi, rfl⟩
    have hinsert := exec_insert hnone ht
    refine ⟨newId, ids.foldl (fun (reg : Registry) id => reg.onDb fun db => (db.delete id).1)
      (reg.onDb fun db => { db with memories := t }), (bind_of_ok hcollect).trans ?_, ?_⟩
    · rw [show validateMetadata (c.metadata ids agent) = .ok () from hmeta]
      exact (bind_of_ok hinsert).trans (bind_of_ok (hloop _))
    · intro hsame
      have hids : newId ∉ ids := fun hmem => Db.get_of_collect hc newId hmem hroom.1
      have hget := hsame.memories newId
      rw [db_foldl_delete, Db.get_foldl_remove Db.get_delete, if_neg hids, hroom.1] at hget
      have hlive : t.find newId = some (c.row newId title summary ns tier source now (c.metadata ids agent)) :=
        Indexed.find_of_mem ((Indexed.mem_insertNew? ht).mpr (Or.inr rfl))
      cases hlive.symm.trans hget

end Consolidation

/-! ## `promote_to_namespace` -/

section Promotion

variable (faults : Faults) (fts : Fts) {reg : Registry} {m : Memory}

theorem insert_eq_ok {fault : Option Fault} {id : String} {s s' : Session Registry} : insert fault m s = (.ok id, s') ↔
    fault = none ∧ ∃ db, s.now.db.insert m = .ok (db, id) ∧ s' = { s with now := { s.now with db } } := by
  unfold insert
  rw [exec_eq_ok]
  refine and_congr_right fun _ => ?_
  cases hi : s.now.db.insert m with
  | error e => exact iff_of_false (fun ⟨_, h, _⟩ => by cases h) fun ⟨_, h, _⟩ => by cases h
  | ok x => exact ⟨fun ⟨_, h, hs⟩ => by cases h; exact ⟨x.1, rfl, hs⟩, fun ⟨_, h, hs⟩ => by cases h; exact ⟨_, rfl, hs⟩⟩

/-- The rows after an upsert. -/
theorem same_insertOnConflict_iff {merge : MemoryRow → MemoryRow} {hid : ∀ r, (merge r).id = r.id}
    {hkey : ∀ r, (merge r).key = r.key} {db' : Db} {id : String} (h : reg.db.insertOnConflict m merge hid hkey = .ok (db', id)) :
    Same reg { reg with db := db' } ↔
      ¬match reg.db.getKey m.key with
        | some stored => merge stored ≠ stored
        | none => reg.db.get m.id = none := by
  have hframe := Db.insertOnConflict_frame h
  have hsame : Same reg { reg with db := db' } ↔ ∀ i, db'.get i = reg.db.get i := by
    refine ⟨fun hs => hs.memories, fun hget => ⟨hget, fun i => ?_, fun k => ?_, fun ns => ?_, fun _ => rfl⟩⟩ <;>
      show _ = _ <;> rw [hframe]
  rw [hsame]
  rcases Db.insertOnConflict_cases h with ⟨stored, hs, rfl, rfl⟩ | ⟨hnone, hfree, -, t, ht, rfl⟩
  · rw [hs]
    obtain ⟨hmem, -⟩ := Db.getKey_eq_some.mp hs
    constructor
    · intro hget hne
      have hself := hget stored.id
      rw [Db.get_updateRow, Db.get_of_mem hmem, Option.map_some, if_pos rfl] at hself
      exact hne (Option.some.inj hself)
    · intro heq i
      rw [Db.get_updateRow]
      cases hi : reg.db.get i with
      | none => rfl
      | some r =>
        split_ifs with hid
        · rw [hid, Db.get_of_mem hmem] at hi
          cases hi
          exact congrArg some (Classical.not_not.mp heq)
        · rfl
  · rw [hnone]
    refine iff_of_false (fun hget => ?_) fun h => h hfree
    have hlive : t.find m.id = some m.toRow := Indexed.find_of_mem ((Indexed.mem_insertNew? ht).mpr (Or.inr rfl))
    cases hlive.symm.trans ((hget m.id).trans hfree)

theorem same_insert_iff {db' : Db} {id : String} (h : reg.db.insert m = .ok (db', id)) :
    Same reg { reg with db := db' } ↔ ¬Alters reg.db m := same_insertOnConflict_iff h

theorem createLink_cases (relation now : String) {sourceId targetId : String} (hs : (reg.db.get sourceId).isSome) (ht : (reg.db.get targetId).isSome) :
    (∃ s, createLink faults sourceId targetId relation now ⟨reg, none⟩ = (.ok (), s) ∧
      faults .sourceEnd = none ∧ faults .targetEnd = none ∧ faults .link = none) ∨
    ∃ e, createLink faults sourceId targetId relation now ⟨reg, none⟩ = (.error e, ⟨reg, none⟩) ∧
      (faults .sourceEnd ≠ none ∨ faults .targetEnd ≠ none ∨ faults .link ≠ none) := by
  have hlive : ∀ fault id, isLive fault id ⟨reg, none⟩ = (.ok (if fault = none then (reg.db.get id).isSome else false), ⟨reg, none⟩) :=
    fun fault id => (isLive_eq fault id _).trans (by rw [afterFault_of_saved_none])
  have hsource := hlive (faults .sourceEnd) sourceId
  have htarget := hlive (faults .targetEnd) targetId
  unfold createLink
  by_cases h : faults .sourceEnd = none
  · rw [if_pos h, hs] at hsource
    by_cases h' : faults .targetEnd = none
    · rw [if_pos h', ht] at htarget
      by_cases h'' : faults .link = none
      · exact Or.inl ⟨_, (bind_of_ok hsource).trans ((bind_of_ok htarget).trans (write_of_none h'')), h, h', h''⟩
      · obtain ⟨e, he⟩ := write_alone (f := fun reg : Registry => reg.onDb (·.insertLink {
          sourceId, targetId, relation, createdAt := now, validFrom := some now, validUntil := none,
          signature := none, observedBy := none, attestLevel := some "unsigned" })) h'' reg
        exact Or.inr ⟨e, (bind_of_ok hsource).trans ((bind_of_ok htarget).trans he), Or.inr (Or.inr h'')⟩
    · rw [if_neg h'] at htarget
      exact Or.inr ⟨_, (bind_of_ok hsource).trans (bind_of_ok htarget), Or.inr (Or.inl h')⟩
  · rw [if_neg h] at hsource
    exact Or.inr ⟨_, bind_of_ok hsource, Or.inl h⟩

theorem unchanged_promote_iff (sourceId toNamespace newId now : String) :
    Unchanged Same (promoteToNamespace faults sourceId toNamespace newId now) reg ↔
      ¬(Op.promoteToNamespace sourceId toNamespace newId now).Spoils faults fts reg := by
  rw [Op.Spoils]
  unfold promoteToNamespace
  by_cases hempty : toNamespace = ""
  · rw [if_pos hempty]
    exact iff_of_true unchanged_bail fun h => h.1 hempty
  rw [if_neg hempty, unchanged_read_iff Same.refl]
  by_cases hfault : faults (.source 0) = none
  swap
  · exact iff_of_true (fun h => absurd h hfault) fun h => hfault h.2.1
  rw [forall_prop_of_true hfault]
  cases hget : reg.db.get sourceId with
  | none => exact iff_of_true unchanged_bail fun ⟨_, _, _, h, _⟩ => nomatch h
  | some source =>
    simp only
    split_ifs with hself hancestor
    · exact iff_of_true unchanged_bail fun ⟨_, _, _, h, hne, _⟩ => by cases h; exact hne hself
    swap
    · exact iff_of_true unchanged_bail fun ⟨_, _, _, h, _, hmem, _⟩ => by cases h; exact hancestor hmem
    set clone := promotionClone source.toMemory toNamespace newId now with hclone
    have hright : (toNamespace ≠ "" ∧ faults (.source 0) = none ∧ ∃ source', some source = some source' ∧ toNamespace ≠ source'.ns ∧
        toNamespace ∈ namespaceAncestors source'.ns ∧ faults .insert = none ∧
        Alters reg.db (promotionClone source'.toMemory toNamespace newId now) ∧
        (faults .sourceEnd ≠ none ∨ faults .targetEnd ≠ none ∨ faults .link ≠ none)) ↔
        faults .insert = none ∧ Alters reg.db clone ∧ (faults .sourceEnd ≠ none ∨ faults .targetEnd ≠ none ∨ faults .link ≠ none) :=
      ⟨fun ⟨_, _, _, h, _, _, hrest⟩ => by cases h; exact hrest,
        fun h => ⟨hempty, hfault, source, rfl, hself, hancestor, h⟩⟩
    rw [hright]
    cases hi : reg.db.insert clone with
    | error e =>
      have hfails : ¬(faults .insert = none ∧ Alters reg.db clone ∧
          (faults .sourceEnd ≠ none ∨ faults .targetEnd ≠ none ∨ faults .link ≠ none)) := by
        rintro ⟨-, halters, -⟩
        obtain ⟨hnone, htaken⟩ := Db.insertOnConflict_error_iff.mp ⟨e, hi⟩
        unfold Alters at halters
        rw [hnone] at halters
        exact htaken halters
      refine iff_of_true ?_ hfails
      by_cases hinsert : faults .insert = none
      · have hrun : insert (faults .insert) clone ⟨reg, none⟩ = (.error e, ⟨reg, none⟩) :=
          exec_of_error hinsert (by simp only [hi]; rfl)
        exact (unchanged_of_error (bind_of_error hrun)).mpr (Same.refl reg)
      · obtain ⟨e', he⟩ := exec_alone (f := fun reg : Registry =>
          (reg.db.insert clone).map fun x => (x.2, { reg with db := x.1 })) hinsert reg
        exact (unchanged_of_error (bind_of_error he)).mpr (Same.refl reg)
    | ok x =>
      obtain ⟨db', id⟩ := x
      by_cases hinsert : faults .insert = none
      swap
      · obtain ⟨e', he⟩ := exec_alone (f := fun reg : Registry =>
          (reg.db.insert clone).map fun x => (x.2, { reg with db := x.1 })) hinsert reg
        exact iff_of_true ((unchanged_of_error (bind_of_error he)).mpr (Same.refl reg)) fun h => hinsert h.1
      have hrun : insert (faults .insert) clone ⟨reg, none⟩ = (.ok id, ⟨{ reg with db := db' }, none⟩) :=
        insert_eq_ok.mpr ⟨hinsert, db', hi, rfl⟩
      obtain ⟨r, hr⟩ := Db.get_insertOnConflict_self hi
      have hsource := Db.get_insertOnConflict_of_some hi hget
      have hlinks := @createLink_cases faults { reg with db := db' } "derived_from" now id sourceId
        (Option.isSome_iff_exists.mpr ⟨r, hr⟩) (Option.isSome_iff_exists.mpr ⟨_, hsource⟩)
      rcases hlinks with ⟨s, hlink, h, h', h''⟩ | ⟨e, hlink, hbad⟩
      · refine iff_of_true (unchanged_of_ok ((bind_of_ok hrun).trans (bind_of_ok hlink))) ?_
        rintro ⟨-, -, hbad⟩
        rcases hbad with hbad | hbad | hbad
        · exact hbad h
        · exact hbad h'
        · exact hbad h''
      · rw [unchanged_of_error ((bind_of_ok hrun).trans (bind_of_error hlink)), same_insert_iff hi]
        exact ⟨fun h hn => h hn.2.1, fun h halters => h ⟨hinsert, halters, hbad⟩⟩

end Promotion

/-! ## `entity_register` -/

section Registration

variable (faults : Faults) (fts : Fts) {reg : Registry} {id now : String} {aliases : List String} {call : Call} {d : Draw}

def addAliases (id now : String) (aliases : List String) (reg : Registry) : Registry :=
  aliases.foldl (fun reg given => if trimmed given = "" then reg else reg.addAlias id (trimmed given) now) reg

theorem db_addAliases : (addAliases id now aliases reg).db = reg.db := by
  unfold addAliases
  induction aliases generalizing reg with
  | nil => rfl
  | cons given aliases ih =>
    rw [List.foldl_cons, ih]
    split_ifs <;> rfl

theorem mem_aliases_addAliases {row : AliasRow} (h : row ∈ reg.aliases) : row ∈ (addAliases id now aliases reg).aliases := by
  unfold addAliases
  induction aliases generalizing reg with
  | nil => exact h
  | cons given aliases ih =>
    refine ih ?_
    show row ∈ (if trimmed given = "" then reg else reg.addAlias id (trimmed given) now).aliases
    split_ifs
    · exact h
    · exact mem_aliases_addAlias _ _ _ _ h

theorem claims_addAliases (reg : Registry) (now : String) {a : String} (ha : a ∈ aliases) (hne : trimmed a ≠ "") : Claims (addAliases id now aliases reg) id a := by
  induction aliases generalizing reg with
  | nil => cases ha
  | cons given aliases ih =>
    rcases List.mem_cons.mp ha with rfl | hrest
    · refine (claims_addAlias reg id a now).mono fun row hrow => ?_
      show row ∈ (addAliases id now aliases (if trimmed a = "" then reg else reg.addAlias id (trimmed a) now)).aliases
      rw [if_neg hne]
      exact mem_aliases_addAliases hrow
    · exact ih _ hrest

theorem addAliases_of_claimed (h : ∀ a ∈ aliases, trimmed a ≠ "" → reg.aliases.find (id, trimmed a) ≠ none) :
    addAliases id now aliases reg = reg := by
  unfold addAliases
  induction aliases with
  | nil => rfl
  | cons given aliases ih =>
    rw [List.foldl_cons]
    have hstep : (if trimmed given = "" then reg else reg.addAlias id (trimmed given) now) = reg := by
      split_ifs with hblank
      · rfl
      · have hin : reg.aliases.insertNew? ⟨id, trimmed given, now⟩ = none :=
          Table.insertNew?_eq_none.mpr (Option.isSome_iff_ne_none.mpr (h given List.mem_cons_self hblank))
        unfold Registry.addAlias
        rw [hin]
        rfl
    rw [hstep]
    exact ih fun a ha => h a (List.mem_cons_of_mem _ ha)

theorem same_addAliases_iff : Same reg (addAliases id now aliases reg) ↔
    ∀ a ∈ aliases, trimmed a ≠ "" → reg.aliases.find (id, trimmed a) ≠ none := by
  refine ⟨fun h a ha hne hnone => ?_, fun h => (addAliases_of_claimed h).symm ▸ Same.refl reg⟩
  obtain ⟨row, hrow, hkey⟩ := claims_addAliases reg now ha hne
  have hfind := (h.aliases row.key).symm.trans (Table.find_of_mem hrow)
  rw [hkey, hnone] at hfind
  cases hfind

theorem claimAliases_cases (id now : String) (aliases : List String) (reg : Registry) :
    ((∀ k, ¬ClaimFails faults aliases k) ∧
      claimAliases faults id now aliases ⟨reg, none⟩ = (.ok (), ⟨addAliases id now aliases reg, none⟩)) ∨
    ∃ i, ClaimFails faults aliases i ∧ (∀ j < i, ¬ClaimFails faults aliases j) ∧
      ∃ e, claimAliases faults id now aliases ⟨reg, none⟩ = (.error e, ⟨addAliases id now (aliases.take i) reg, none⟩) := by
  have hiff : ∀ k, ¬ClaimFails faults aliases k ↔ ∀ a, aliases[k]? = some a → trimmed a = "" ∨ faults (.claim k) = none := by
    intro k
    unfold ClaimFails
    push Not
    exact forall_congr' fun a => imp_congr_right fun _ => ⟨fun h => or_iff_not_imp_left.mpr h, fun h => or_iff_not_imp_left.mp h⟩
  have hcases := each_cases (C := fun k a => trimmed a = "" ∨ faults (.claim k) = none)
    (p := fun k given => if trimmed given = "" then pure () else write (faults (.claim k)) fun reg : Registry =>
      reg.addAlias id (trimmed given) now)
    (f := fun reg given => if trimmed given = "" then reg else reg.addAlias id (trimmed given) now)
    (fun k a t h => by
      by_cases hblank : trimmed a = ""
      · simp only [if_pos hblank]
        rfl
      · simp only [if_neg hblank]
        exact write_of_none (h.resolve_left hblank))
    (fun k a t h => by
      obtain ⟨hblank, hfault⟩ := not_or.mp h
      simp only [if_neg hblank]
      exact write_alone hfault t) 0 aliases reg
  simp only [Nat.zero_add] at hcases
  rcases hcases with ⟨hall, hrun⟩ | ⟨i, a, ha, hfail, hbefore, e, hrun⟩
  · exact Or.inl ⟨fun k => (hiff k).mpr (hall k), hrun⟩
  · obtain ⟨hblank, hfault⟩ := not_or.mp hfail
    exact Or.inr ⟨i, ⟨a, ha, hblank, hfault⟩, fun j hj => (hiff j).mpr (hbefore j hj), e, hrun⟩

theorem read_of_none {α : Type} {fault : Option Fault} {f : Registry → α} (h : fault = none) (reg : Registry) :
    read fault f ⟨reg, none⟩ = (.ok (f reg), ⟨reg, none⟩) := read_eq_ok.mpr ⟨h, rfl, rfl⟩

theorem claimAll_cases (id now : String) (call : Call) (created : Bool) (reg : Registry) :
    ((∃ r s, claimAll faults id now call created ⟨reg, none⟩ = (.ok r, s)) ∧ faults .prepare = none ∧
      (∀ k, ¬ClaimFails faults call.aliases k) ∧ faults .listAliases = none) ∨
    ((∃ e, claimAll faults id now call created ⟨reg, none⟩ = (.error e, ⟨reg, none⟩)) ∧ faults .prepare ≠ none) ∨
    (faults .prepare = none ∧ ∃ i, ClaimFails faults call.aliases i ∧ (∀ j < i, ¬ClaimFails faults call.aliases j) ∧
      ∃ e, claimAll faults id now call created ⟨reg, none⟩ = (.error e, ⟨addAliases id now (call.aliases.take i) reg, none⟩)) ∨
    (faults .prepare = none ∧ (∀ k, ¬ClaimFails faults call.aliases k) ∧ faults .listAliases ≠ none ∧
      ∃ e, claimAll faults id now call created ⟨reg, none⟩ = (.error e, ⟨addAliases id now call.aliases reg, none⟩)) := by
  unfold claimAll
  by_cases hprepare : faults .prepare = none
  swap
  · obtain ⟨e, he⟩ := exec_alone (f := fun t => .ok ((), t)) hprepare reg
    exact Or.inr (Or.inl ⟨⟨e, bind_of_error he⟩, hprepare⟩)
  have hstart := read_of_none (f := fun _ => ()) hprepare reg
  rcases claimAliases_cases faults id now call.aliases reg with ⟨hall, hrun⟩ | ⟨i, hfail, hbefore, e, hrun⟩
  · by_cases hlist : faults .listAliases = none
    · exact Or.inl ⟨⟨_, _, (bind_of_ok hstart).trans ((bind_of_ok hrun).trans (bind_of_ok (read_of_none hlist _)))⟩, hprepare,
        hall, hlist⟩
    · obtain ⟨e, he⟩ := exec_alone (f := fun reg => .ok (reg.listEntityAliases id, reg)) hlist (addAliases id now call.aliases reg)
      exact Or.inr (Or.inr (Or.inr ⟨hprepare, hall, hlist, e, (bind_of_ok hstart).trans ((bind_of_ok hrun).trans (bind_of_error he))⟩))
  · exact Or.inr (Or.inr (Or.inl ⟨hprepare, i, hfail, hbefore, e, (bind_of_ok hstart).trans (bind_of_error hrun)⟩))

/-- For an entity that was there before. -/
theorem unchanged_claimAll_iff (id now : String) (call : Call) (created : Bool) (reg : Registry) :
    Unchanged Same (claimAll faults id now call created) reg ↔ ¬ClaimSticks faults reg id call.aliases := by
  rcases claimAll_cases faults id now call created reg with ⟨⟨r, s, hrun⟩, hprepare, hall, hlist⟩ | ⟨⟨e, hrun⟩, hprepare⟩ |
    ⟨hprepare, i, hfail, hbefore, e, hrun⟩ | ⟨hprepare, hall, hlist, e, hrun⟩
  · exact iff_of_true (unchanged_of_ok hrun) fun ⟨_, _, _, _, hlater⟩ => hlater.elim (fun ⟨j, hj⟩ => hall j hj) fun h => h hlist
  · exact iff_of_true ((unchanged_of_error hrun).mpr (Same.refl reg)) fun h => hprepare h.1
  · rw [unchanged_of_error hrun, same_addAliases_iff, ← not_iff_not, Classical.not_not]
    push Not
    constructor
    · rintro ⟨a, ha, hblank, hnew⟩
      obtain ⟨k, hk⟩ := List.mem_iff_getElem?.mp ha
      have hlt : k < i := by
        by_contra hge
        rw [List.getElem?_take_eq_none (by omega)] at hk
        cases hk
      rw [List.getElem?_take_of_lt hlt] at hk
      exact ⟨hprepare, k, ⟨a, hk, hblank, hnew⟩, fun j hj => hbefore j (by omega), Or.inl ⟨i, hfail⟩⟩
    · rintro ⟨-, k, ⟨a, hk, hblank, hnew⟩, hbefore', -⟩
      have hlt : k < i := by
        by_contra hge
        exact hbefore' i (by omega) hfail
      exact ⟨a, List.mem_iff_getElem?.mpr ⟨k, by rw [List.getElem?_take_of_lt hlt, hk]⟩, hblank, hnew⟩
  · rw [unchanged_of_error hrun, same_addAliases_iff, ← not_iff_not, Classical.not_not]
    push Not
    constructor
    · rintro ⟨a, ha, hblank, hnew⟩
      obtain ⟨k, hk⟩ := List.mem_iff_getElem?.mp ha
      exact ⟨hprepare, k, ⟨a, hk, hblank, hnew⟩, fun j _ => hall j, Or.inr hlist⟩
    · rintro ⟨-, k, ⟨a, hk, hblank, hnew⟩, -, -⟩
      exact ⟨a, List.mem_iff_getElem?.mpr ⟨k, hk⟩, hblank, hnew⟩

theorem unchanged_of_new_iff {p : Sql Registry EntityRegistration} {id now : String} {call : Call} {created : Bool} {reg' : Registry}
    (hrun : p ⟨reg, none⟩ = claimAll faults id now call created ⟨reg', none⟩) {i : String} (hold : reg.db.get i = none)
    (hnew : reg'.db.get i ≠ none) : Unchanged Same p reg ↔
      ¬(faults .prepare ≠ none ∨ (∃ j, ClaimFails faults call.aliases j) ∨ faults .listAliases ≠ none) := by
  have hchanged : ∀ as, ¬Same reg (addAliases id now as reg') := fun as hsame => by
    have hget := hsame.memories i
    rw [db_addAliases, hold] at hget
    exact hnew hget
  rcases claimAll_cases faults id now call created reg' with ⟨⟨r, s, hok⟩, hprepare, hall, hlist⟩ | ⟨⟨e, herr⟩, hprepare⟩ |
    ⟨hprepare, k, hfail, hbefore, e, herr⟩ | ⟨hprepare, hall, hlist, e, herr⟩
  · refine iff_of_true (unchanged_of_ok (hrun.trans hok)) ?_
    rintro (h | ⟨j, hj⟩ | h)
    · exact h hprepare
    · exact hall j hj
    · exact h hlist
  · rw [unchanged_of_error (hrun.trans herr)]
    exact iff_of_false (fun hsame => hnew ((hsame.memories i).trans hold)) fun h => h (Or.inl hprepare)
  · rw [unchanged_of_error (hrun.trans herr)]
    exact iff_of_false (hchanged _) fun h => h (Or.inr (Or.inl ⟨k, hfail⟩))
  · rw [unchanged_of_error (hrun.trans herr)]
    exact iff_of_false (hchanged _) fun h => h (Or.inr (Or.inr hlist))

theorem key_free_of_none (hentity : findEntity reg.db call = none) (hcollision : findCollision reg.db call = none) :
    reg.db.getKey call.key = none := by
  unfold findEntity at hentity
  unfold findCollision at hcollision
  cases hk : reg.db.getKey call.key with
  | none => rfl
  | some r =>
    rw [hk, Option.map_eq_none_iff, Option.filter_eq_none_iff] at hentity hcollision
    have hno := hentity r rfl
    have hyes := hcollision r rfl
    exact absurd (Bool.eq_false_iff.mpr hno) (by simpa using hyes)

theorem entityRegister_of_ok {s s' : Session Registry} {created : Bool} (h : entityOf faults call d s = (.ok (id, created), s')) :
    entityRegister faults call d s = claimAll faults id d.aliasNow call created s' := by
  show (entityOf faults call d >>= fun x => claimAll faults x.1 d.aliasNow call x.2) s = _
  rw [bind_of_ok h]

theorem entityRegister_of_error {s s' : Session Registry} {e : String} (h : entityOf faults call d s = (.error e, s')) :
    entityRegister faults call d s = (.error e, s') := by
  show (entityOf faults call d >>= fun x => claimAll faults x.1 d.aliasNow call x.2) s = _
  rw [bind_of_error h]

theorem insert_entity_cases (hfree : reg.db.getKey call.key = none) :
    (faults .insert = none ∧ reg.db.get d.newId = none ∧ ∃ db', db'.get d.newId ≠ none ∧
      insert (faults .insert) (call.memory d.newId d.now) ⟨reg, none⟩ = (.ok d.newId, ⟨{ reg with db := db' }, none⟩)) ∨
    ¬(faults .insert = none ∧ reg.db.get d.newId = none) ∧ ∃ e,
      insert (faults .insert) (call.memory d.newId d.now) ⟨reg, none⟩ = (.error e, ⟨reg, none⟩) := by
  by_cases hgo : faults .insert = none ∧ reg.db.get d.newId = none
  · have hok : ∃ db' id, reg.db.insert (call.memory d.newId d.now) = .ok (db', id) := Db.insert_isOk hgo.2
    obtain ⟨db', id, hi⟩ := hok
    obtain ⟨r, hr⟩ := Db.get_insertOnConflict_self hi
    obtain rfl : id = d.newId := by
      rcases Db.insertOnConflict_cases hi with ⟨stored, hs, -, -⟩ | ⟨-, -, hid, -⟩
      · exact absurd (hfree.symm.trans hs) nofun
      · exact hid
    exact Or.inl ⟨hgo.1, hgo.2, db', by rw [hr]; exact Option.some_ne_none r, insert_eq_ok.mpr ⟨hgo.1, db', hi, rfl⟩⟩
  · refine Or.inr ⟨hgo, ?_⟩
    by_cases hfault : faults .insert = none
    · have hi : ∃ e, reg.db.insert (call.memory d.newId d.now) = .error e :=
        Db.insertOnConflict_error_iff.mpr ⟨hfree, fun hget => hgo ⟨hfault, hget⟩⟩
      obtain ⟨e, hi⟩ := hi
      exact ⟨e, exec_of_error hfault (by simp only [hi]; rfl)⟩
    · exact exec_alone hfault reg

theorem unchanged_entityRegister_iff (call : Call) (d : Draw) :
    Unchanged Same (entityRegister faults call d) reg ↔ ¬(Op.entityRegister call d).Spoils faults fts reg := by
  rw [Op.Spoils]
  have hunchanged : ∀ e, entityOf faults call d ⟨reg, none⟩ = (.error e, ⟨reg, none⟩) → Unchanged Same (entityRegister faults call d) reg :=
    fun e he => (unchanged_of_error (entityRegister_of_error faults he)).mpr (Same.refl reg)
  unfold RegistrationSticks
  by_cases hentity : faults .entity = none
  swap
  · obtain ⟨e, he⟩ := exec_alone (f := fun reg : Registry => .ok (findEntity reg.db call, reg)) hentity reg
    exact iff_of_true (hunchanged e (bind_of_error he)) fun h => hentity h.1
  have hread := read_of_none (f := fun reg : Registry => findEntity reg.db call) hentity reg
  rw [and_iff_right hentity]
  cases hfind : findEntity reg.db call with
  | some id =>
    rw [hfind] at hread
    have hrun := entityRegister_of_ok faults (bind_of_ok hread : entityOf faults call d ⟨reg, none⟩ = (.ok (id, false), ⟨reg, none⟩))
    rw [← unchanged_claimAll_iff faults id d.aliasNow call false reg]
    unfold Unchanged
    rw [hrun]
  | none =>
    rw [hfind] at hread
    by_cases hcollision : faults .collision = none
    swap
    · obtain ⟨e, he⟩ := exec_alone (f := fun reg : Registry => .ok (findCollision reg.db call, reg)) hcollision reg
      exact iff_of_true (hunchanged e ((bind_of_ok hread).trans (bind_of_error he))) fun h => hcollision h.1
    have hread' := read_of_none (f := fun reg : Registry => findCollision reg.db call) hcollision reg
    rw [and_iff_right hcollision]
    cases hother : findCollision reg.db call with
    | some other =>
      rw [hother] at hread'
      exact iff_of_true (hunchanged _ ((bind_of_ok hread).trans (bind_of_ok hread'))) fun h => nomatch h.1
    | none =>
      rw [hother] at hread'
      rw [and_iff_right rfl]
      rcases insert_entity_cases faults (d := d) (key_free_of_none hfind hother) with ⟨hfault, hget, db', hnew, hinsert⟩ | ⟨hgo, e, he⟩
      · have hof : entityOf faults call d ⟨reg, none⟩ = (.ok (d.newId, true), ⟨{ reg with db := db' }, none⟩) :=
          (bind_of_ok hread).trans ((bind_of_ok hread').trans (bind_of_ok (context_eq_ok.mpr hinsert)))
        rw [unchanged_of_new_iff faults (entityRegister_of_ok faults hof) hget hnew, and_iff_right hfault, and_iff_right hget]
      · have hcontext : context "insert entity memory" (insert (faults .insert) (call.memory d.newId d.now)) ⟨reg, none⟩ =
            (.error "insert entity memory", ⟨reg, none⟩) := by
          unfold context
          rw [he]
        exact iff_of_true (hunchanged _ ((bind_of_ok hread).trans ((bind_of_ok hread').trans (bind_of_error hcontext))))
          fun h => hgo ⟨h.1, h.2.1⟩

end Registration

/-! ## The nine operations -/

variable (faults : Faults) (fts : Fts)

/-- A call that returns an error leaves the tables as they were, unless its statements fail in such a way. -/
theorem failed_unchanged_iff (op : Op) (reg : Registry) : Unchanged Same (op.run faults fts) reg ↔ ¬op.Spoils faults fts reg := by
  cases op with
  | delete => exact unchanged_outcome_iff.trans (unchanged_delete_iff ..)
  | forget => exact unchanged_outcome_iff.trans (unchanged_forget_iff ..)
  | promoteToNamespace => exact unchanged_outcome_iff.trans (unchanged_promote_iff ..)
  | entityRegister => exact unchanged_outcome_iff.trans (unchanged_entityRegister_iff ..)
  | archiveMemory => exact unchanged_outcome_iff.trans (unchanged_archiveMemory_iff ..)
  | restoreArchived => exact unchanged_outcome_iff.trans (unchanged_restoreArchived_iff ..)
  | gc => exact unchanged_outcome_iff.trans (unchanged_gc_iff ..)
  | consolidate => exact unchanged_outcome_iff.trans (unchanged_consolidate_iff ..)
  | touch => exact unchanged_outcome_iff.trans (unchanged_touch_iff ..)

/-- The second statement of `delete` fails. -/
def failingMemories : Faults := fun stmt => if stmt = .memories then some ⟨"disk I/O error", true⟩ else none

def standardOnly : Registry :=
  ⟨{ Db.single acmeNote.toRow with namespaceMeta := ⟨[⟨"crm", "n", none, "1"⟩], List.nodup_singleton _⟩ }, Table.empty⟩

/-- The namespace loses its standard to a deletion that failed. -/
theorem delete_drops_standard : ¬Unchanged Same (Op.run failingMemories (fun _ _ => false) (.delete "n")) standardOnly := by
  intro h
  have hsame := (h ⟨"disk I/O error", by decide⟩).namespaceMeta "crm"
  revert hsame
  decide

end Failures

end AiMemory
