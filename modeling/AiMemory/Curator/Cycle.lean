import AiMemory.Curator.Records
import AiMemory.Db.Updates

/-!
# A whole cycle beside other writers

`run_once` reads its candidates once. For each of them it writes the tags that the model answers, and a contradiction with the
next memory of the namespace, each time the whole metadata, made from the snapshot; the passes and the report follow. The
priority feedback writes the metadata that its `SELECT` read back with its `UPDATE`. Other connections may write metadata
between any two steps. A cycle keeps what it found and what others wrote if each snapshot is
still as good as the row when it is written back (`cycle_keeps`); the snapshot of a memory that was tagged in the same cycle is
not, so a contradiction found in it erases the tags (`tags_erased`).
-/

namespace AiMemory

open Relational Machine Updates

namespace Curator

def curatorKeys : List String := ["auto_tags", "curated_at", "confirmed_contradictions"]

/-- The cycle so far: the database, the memories counted in `auto_tagged` and `contradictions_found` with what was found, the
memory whose turn was left, the errors, and the row that the priority feedback has selected; and, to compare with, the metadata
last written by someone else. -/
structure Cycle where
  db : Db
  selected : Option MemoryRow := none
  autoTagged : List (String × List String) := []
  contradictionsFound : List (String × String) := []
  skipped : Option String := none
  errors : List String := []
  others : String → Option Json

/-- A new metadata from another connection. -/
structure Edit where
  id : String
  metadata : Json
  now : String

def adjacentMemory (db : Db) (mem : Memory) (now : String) : Option Memory :=
  (db.list { ListQuery.everything 8 with ns := some mem.ns } now).find? fun m =>
    m.id ≠ mem.id ∧ minContentLen ≤ Validate.byteLen m.content.toList

/-- What the turn of a candidate takes from outside: the answers of the language model, the clock, which access to the database
fails, and the edits before each of its writes. -/
structure Turn where
  before : List Edit := []
  autoTag : Except String (List String)
  tagFault : Option String := none
  curatedAt : String
  tagNow : String
  between : List Edit := []
  readFails : Bool := false
  readNow : String
  detect : String → Except String Bool
  contradictionFault : Option String := none
  contradictionNow : String

/-- The steps of a cycle and of the writers beside it. -/
inductive CycleStep where
  | edit (e : Edit)
  | tag (mem : Memory) (x : Turn)
  | compare (mem : Memory) (x : Turn)
  | act (a : Action) (d : Draw)
  | select (mem : Memory)
  | adjust (mem : Memory) (d : Draw)
  | report (content id ts : String)

def Cycle.tag (s : Cycle) (mem : Memory) (x : Turn) : Cycle :=
  match x.autoTag with
  | .ok [] => s
  | .ok tags =>
    let stored : Except String Db :=
      match x.tagFault with
      | some e => .error e
      | none => persistAutoTags s.db mem (tags.take 8) x.curatedAt x.tagNow
    match stored with
    | .ok db => { s with db, autoTagged := s.autoTagged ++ [(mem.id, tags.take 8)] }
    | .error e => { s with
        skipped := some mem.id
        errors := s.errors ++ [s!"auto_tag persist failed for {mem.id}: {e}"] }
  | .error e => { s with errors := s.errors ++ [s!"auto_tag failed for {mem.id}: {e}"] }

def Cycle.compare (s : Cycle) (mem : Memory) (x : Turn) : Cycle :=
  if s.skipped = some mem.id ∨ x.readFails then s
  else
    match adjacentMemory s.db mem x.readNow with
    | none => s
    | some sibling =>
      match x.detect sibling.content with
      | .ok true =>
        let stored : Except String Db :=
          match x.contradictionFault with
          | some e => .error e
          | none => persistContradiction s.db mem sibling.id x.contradictionNow
        match stored with
        | .ok db => { s with db, contradictionsFound := s.contradictionsFound ++ [(mem.id, sibling.id)] }
        | .error e => { s with errors := s.errors ++ [s!"contradiction persist failed for {mem.id}: {e}"] }
      | .ok false => s
      | .error e => { s with
          errors := s.errors ++ [s!"detect_contradiction failed ({mem.id} vs {sibling.id}): {e}"] }

def Cycle.edit (s : Cycle) (e : Edit) : Cycle :=
  match s.db.update e.id { metadata := some e.metadata } e.now with
  | .ok (db, _) => { s with db, others := Function.update s.others e.id (some e.metadata) }
  | .error _ => s

/-- The `SELECT` of the priority feedback. -/
def Cycle.select (s : Cycle) (mem : Memory) : Cycle := { s with selected := s.db.get mem.id }

/-- The `UPDATE` of the priority feedback, and the entry of `apply_priority_feedback`. -/
def Cycle.updated (s : Cycle) (c : Chrono) (mem : Memory) (d : Draw) : Db × Option RollbackEntry :=
  let after := priorityAfter c d.instant mem
  if after = mem.priority ∨ d.writeFault.isSome then (s.db, none)
  else
    match s.selected with
    | none => (s.db, some (.priorityAdjust mem.id mem.priority after))
    | some existing =>
      match write s.db mem.id { priority := some after } d.now existing with
      | (db, .ok _) => (db, some (.priorityAdjust mem.id mem.priority after))
      | (db, .error _) => (db, none)

section Run

variable (c : Chrono) (entryText : RollbackEntry → String) (eligible : List Memory)

/-- The `UPDATE` of the priority feedback, with the record of its entry. -/
def Cycle.adjust (s : Cycle) (mem : Memory) (d : Draw) : Cycle :=
  match s.updated c mem d with
  | (db, none) => { s with db }
  | (db, some entry) => { s with db := (record entryText false { db } entry d).db }

def Cycle.step (s : Cycle) : CycleStep → Cycle
  | .edit e => s.edit e
  | .tag mem x => s.tag mem x
  | .compare mem x => s.compare mem x
  | .act a d => { s with db := (act c entryText eligible false { db := s.db } (a, d)).db }
  | .select mem => s.select mem
  | .adjust mem d => s.adjust c entryText mem d
  | .report content id ts => { s with db := settled s.db (persistSelfReport s.db content id ts) }

end Run

theorem updated_select (c : Chrono) (eligible : List Memory) (s : Cycle) (mem : Memory) (d : Draw) :
    (s.select mem).updated c mem d =
      (after c eligible false s.db (.adjust mem, d), entryOf c eligible false s.db (.adjust mem, d)) := by
  unfold Cycle.updated Cycle.select after entryOf attempt tryAdjust
  by_cases hsame : priorityAfter c d.instant mem = mem.priority
  · simp only [hsame, true_or, if_true]
  · cases hfault : d.writeFault with
    | some e => simp [hsame]
    | none =>
      cases hget : s.db.get mem.id with
      | none => simp [hsame, Db.update, hget]
      | some existing =>
        simp only [hsame, update_eq_write hget, Bool.false_eq_true, if_false, false_or, Option.isSome_none]
        obtain ⟨b, hok, -⟩ | ⟨⟨e, he⟩, hdb⟩ :=
          write_cases s.db mem.id { priority := some (priorityAfter c d.instant mem) } d.now existing
        · rw [show write s.db mem.id { priority := some (priorityAfter c d.instant mem) } d.now existing =
            (_, .ok (true, b)) from Prod.ext rfl hok]
          rfl
        · rw [show write s.db mem.id { priority := some (priorityAfter c d.instant mem) } d.now existing =
            (s.db, .error e) from Prod.ext hdb he]
          rfl

theorem adjust_select (c : Chrono) (entryText : RollbackEntry → String) (eligible : List Memory) (s : Cycle) (mem : Memory)
    (d : Draw) : ((s.select mem).adjust c entryText mem d).db =
      (act c entryText eligible false { db := s.db } (.adjust mem, d)).db := by
  unfold Cycle.adjust
  rw [updated_select c eligible, act_db]
  cases entryOf c eligible false s.db (.adjust mem, d) <;> rfl

def turnSteps (mem : Memory) (x : Turn) : List CycleStep :=
  x.before.map .edit ++ .tag mem x :: (x.between.map .edit ++ [.compare mem x])

/-- The statements of an action, with the edits between those of the priority feedback. -/
def actionSteps (a : Action) (d : Draw) (between : List Edit) : List CycleStep :=
  match a with
  | .adjust mem => .select mem :: (between.map .edit ++ [.adjust mem d])
  | a => [.act a d]

def passSteps (steps : List (Action × Draw)) (edits between : ℕ → List Edit) : List CycleStep :=
  steps.zipIdx.flatMap fun x => (edits x.2).map .edit ++ actionSteps x.1.1 x.1.2 (between x.2)

/-- The actions of `run_autonomy_passes`. -/
def passActions (u : Unicode) (order : List String) (draws : Draws) (eligible : List Memory) : List (Action × Draw) :=
  ((drawn (findConsolidationClusters u order eligible) draws.merge).map fun x => (.consolidate x.1, x.2)) ++
    ((drawn eligible draws.forget).map fun x => (.forget x.1, x.2)) ++
    (drawn eligible draws.adjust).map fun x => (.adjust x.1, x.2)

/-- What a cycle takes from outside. -/
structure CycleInput where
  midNow : String
  longNow : String
  turns : ℕ → Turn
  unicode : Unicode
  order : List String
  draws : Draws
  passEdits : ℕ → List Edit
  adjustEdits : ℕ → List Edit
  lastEdits : List Edit
  reportContent : String
  reportId : String
  reportTs : String

def eligibleOf (cfg : CuratorConfig) (input : CycleInput) (db : Db) : List Memory :=
  (collectCandidates cfg input.midNow input.longNow db).filter (needsCuration cfg)

/-- The steps of `run_once`, with those of the other writers. -/
def cycleSteps (cfg : CuratorConfig) (input : CycleInput) (db : Db) : List CycleStep :=
  let eligible := eligibleOf cfg input db
  (eligible.take cfg.maxOpsPerCycle).zipIdx.flatMap (fun x => turnSteps x.1 (input.turns x.2)) ++
    passSteps (passActions input.unicode input.order input.draws eligible) input.passEdits input.adjustEdits ++
    input.lastEdits.map .edit ++ [.report input.reportContent input.reportId input.reportTs]

def Cycle.start (db : Db) : Cycle where
  db
  others id := (db.get id).map (·.metadata)

def runOnce (c : Chrono) (entryText : RollbackEntry → String) (cfg : CuratorConfig) (input : CycleInput) (db : Db) : Cycle :=
  (cycleSteps cfg input db).foldl (Cycle.step c entryText (eligibleOf cfg input db)) (.start db)

/-! ## What a cycle should keep -/

/-- The id is on the list of contradictions. -/
def Lists (metadata : Json) (id : String) : Prop :=
  match metadata.get "confirmed_contradictions" with
  | some (.arr ids) => .str id ∈ ids
  | _ => False

/-- The metadata has what the cycle found in the memory, and for the rest what someone else wrote last. -/
structure Carries (s : Cycle) (id : String) (metadata : Json) : Prop where
  tags : ∀ tags, (id, tags) ∈ s.autoTagged → metadata.get "auto_tags" = some (.arr (tags.map .str))
  contradictions : ∀ other, (id, other) ∈ s.contradictionsFound → Lists metadata other
  others : ∀ w, s.others id = some w → ∀ k ∉ curatorKeys, metadata.get k = w.get k

/-- Every live row carries what it should. -/
def Intact (s : Cycle) : Prop := ∀ id r, s.db.get id = some r → Carries s id r.metadata

/-- The snapshot is as good as the row that it will be written over. -/
def Current (s : Cycle) (mem : Memory) : Prop :=
  (s.db.get mem.id).isSome → mem.metadata.isObject ∧ Carries s mem.id mem.metadata

/-- No memory that the cycle or someone else wrote has had the id. -/
structure Unknown (s : Cycle) (id : String) : Prop where
  others : s.others id = none
  tags : ∀ tags, (id, tags) ∉ s.autoTagged
  contradictions : ∀ other, (id, other) ∉ s.contradictionsFound

/-- What makes a step harmless. -/
def Harmless (c : Chrono) (entryText : RollbackEntry → String) (eligible : List Memory) (s : Cycle) : CycleStep → Prop
  | .edit e => (s.db.get e.id).isSome →
      (∀ tags, (e.id, tags) ∈ s.autoTagged → e.metadata.get "auto_tags" = some (.arr (tags.map .str))) ∧
        ∀ other, (e.id, other) ∈ s.contradictionsFound → Lists e.metadata other
  | .tag mem x => x.autoTag.toOption.any (· ≠ []) → x.tagFault = none →
      Current s mem ∧ ∀ tags, (mem.id, tags) ∉ s.autoTagged
  | .compare mem x => ¬(s.skipped = some mem.id ∨ x.readFails = true) → x.contradictionFault = none →
      ∀ sibling, adjacentMemory s.db mem x.readNow = some sibling → x.detect sibling.content = .ok true → Current s mem
  | .act a d => Unknown s d.newId ∧ ∀ entry, entryOf c eligible false s.db (a, d) = some entry → d.entryFault = none →
      Unknown s d.entryId ∧ (after c eligible false s.db (a, d)).getKey
        (rollbackMemory entry (entryText entry) d.entryId d.entryTs).key = none
  | .select _ => True
  | .adjust mem d =>
    (priorityAfter c d.instant mem ≠ mem.priority → d.writeFault = none → (s.db.get mem.id).isSome →
      ∀ existing ∈ s.selected, Carries s mem.id existing.metadata) ∧
    ∀ entry, (s.updated c mem d).2 = some entry → d.entryFault = none → Unknown s d.entryId ∧
      (s.updated c mem d).1.getKey (rollbackMemory entry (entryText entry) d.entryId d.entryTs).key = none
  | .report content id ts => Unknown s id ∧ s.db.getKey (reportMemory content id ts).key = none

section Steps

variable {c : Chrono} {entryText : RollbackEntry → String} {eligible : List Memory} {s s' : Cycle} {mem : Memory}
  {id : String} {m : Json} {db' : Db} {now : String}

theorem unknown_of (hothers : s.others id = none) (htags : id ∉ s.autoTagged.map Prod.fst)
    (hcontra : id ∉ s.contradictionsFound.map Prod.fst) : Unknown s id where
  others := hothers
  tags _ h := htags (List.mem_map_of_mem h)
  contradictions _ h := hcontra (List.mem_map_of_mem h)

theorem get_updateMetadata {db : Db} {res : Bool × Bool} (h : db.update id { metadata := some m } now = .ok (db', res)) :
    (∀ i, i ≠ id → db'.get i = db.get i) ∧ ∀ r, db'.get id = some r → r.metadata = m ∧ (db.get id).isSome := by
  obtain ⟨found, changed⟩ := res
  rcases Db.update_cases h with ⟨hnone, -, rfl⟩ | ⟨existing, hsome, rfl, -, -⟩
  · exact ⟨fun i _ => rfl, fun r hr => absurd (hnone.symm.trans hr) (by simp)⟩
  · have hget := Db.get_update h
    refine ⟨fun i hi => ?_, fun r hr => ?_⟩
    · rw [hget]
      cases db.get i with
      | none => rfl
      | some r => rw [Option.map_some, if_neg hi]
    · rw [hget, hsome, Option.map_some, if_pos rfl] at hr
      exact ⟨Option.some.inj hr ▸ rfl, hsome ▸ rfl⟩

variable {r : MemoryRow}

theorem get_insertOrSkip_of_free {db : Db} (hkey : db.getKey mem.key = none)
    (h : (db.insertOrSkip mem).get id = some r) : db.get id = some r ∨ id = mem.id := by
  rcases Db.insertOrSkip_cases db mem with ⟨actual, hi⟩ | ⟨heq, -, -⟩
  · cases hr : db.get id with
    | none =>
      by_contra hne
      rw [not_or] at hne
      rw [Db.get_insertOnConflict_eq_none hi hr fun _ => Ne.symm hne.2] at h
      cases h
    | some old =>
      have hold : old.key ≠ mem.key := Indexed.findBy_eq_none.mp hkey old (Db.get_eq_some.mp hr).1
      rw [Db.get_insertOnConflict_of_some hi hr, if_neg hold] at h
      exact Or.inl h
  · exact Or.inl (heq ▸ h)

variable {d : Draw}

theorem get_after {db : Db} {a : Action} (h : (after c eligible false db (a, d)).get id = some r) :
    (∃ old, db.get id = some old ∧ r.metadata = old.metadata) ∨ id = d.newId := by
  have hspec := does c eligible db a d
  cases hget : db.get id with
  | none => exact Or.inr (hspec.fresh id hget r h).2
  | some old =>
    refine Or.inl ⟨old, rfl, ?_⟩
    by_cases hacts : Acts c eligible db a d
    · rw [(hspec.acted hacts).2 id old hget] at h
      cases a with
      | consolidate cluster =>
        unfold Action.writes at h
        simp only at h
        split_ifs at h
        exact Option.some.inj h ▸ rfl
      | forget mem =>
        unfold Action.writes at h
        simp only at h
        split_ifs at h
        exact Option.some.inj h ▸ rfl
      | adjust mem =>
        unfold Action.writes at h
        rw [← Option.some.inj h]
        split_ifs <;> rfl
    · rw [(hspec.idle hacts).2, hget] at h
      exact Option.some.inj h ▸ rfl

theorem intact_of_write (hs : Intact s) (hother : ∀ i, i ≠ id → s'.db.get i = s.db.get i)
    (hfound : ∀ i w, i ≠ id → Carries s i w → Carries s' i w)
    (hwrite : ∀ r, s'.db.get id = some r → Carries s' id r.metadata) : Intact s' := by
  intro i r hr
  by_cases hi : i = id
  · subst hi
    exact hwrite r hr
  · exact hfound i r.metadata hi (hs i r (hother i hi ▸ hr))

/-- A step that leaves each row with what it should carry, but for rows that nobody knows. -/
theorem intact_of_frame (h : ∀ i r, db'.get i = some r → Carries s i r.metadata ∨ Unknown s i) :
    Intact { s with db := db' } := by
  intro i r hr
  rcases h i r hr with hcarries | hunknown
  · exact ⟨hcarries.tags, hcarries.contradictions, hcarries.others⟩
  · refine ⟨fun tags hin => absurd hin (hunknown.tags tags), fun other hin => absurd hin (hunknown.contradictions other),
      fun w hw => ?_⟩
    have hnone := hunknown.others
    rw [show s.others i = some w from hw] at hnone
    cases hnone

theorem intact_noted {skipped : Option String} {errors : List String} (hs : Intact s) :
    Intact { s with skipped, errors } :=
  fun i r hr => ⟨(hs i r hr).tags, (hs i r hr).contradictions, (hs i r hr).others⟩

theorem carries_autoTagged {tags : List String} {curatedAt : String} (hobj : mem.metadata.isObject)
    (hs : Carries s mem.id mem.metadata) (hfirst : ∀ ts, (mem.id, ts) ∉ s.autoTagged) :
    Carries { s with db := db', autoTagged := s.autoTagged ++ [(mem.id, tags)] } mem.id (autoTagged mem tags curatedAt) where
  tags ts hts := by
    obtain h | h := List.mem_append.mp hts
    · exact absurd h (hfirst ts)
    · obtain rfl : ts = tags := by simpa using h
      rw [autoTagged, Json.get_set_of_ne (by decide), Json.get_set hobj]
  contradictions other hother := by
    have h := hs.contradictions other hother
    unfold Lists at h ⊢
    rwa [autoTagged, Json.get_set_of_ne (by decide), Json.get_set_of_ne (by decide)]
  others w hw k hk := by
    have hne : k ≠ "auto_tags" ∧ k ≠ "curated_at" := by
      simp only [curatorKeys, List.mem_cons, not_or] at hk
      exact ⟨hk.1, hk.2.1⟩
    rw [autoTagged, Json.get_set_of_ne hne.2, Json.get_set_of_ne hne.1]
    exact hs.others w hw k hk

theorem lists_contradicted {other against : String} (hobj : mem.metadata.isObject)
    (h : other = against ∨ Lists mem.metadata other) : Lists (contradicted mem against) other := by
  have hmem : other = against ∨ other ∈ (confirmedContradictions mem).filterMap Json.asStr := by
    refine h.imp_right fun h => ?_
    unfold Lists at h
    split at h
    · rename_i ids hids
      exact List.mem_filterMap.mpr ⟨.str other, by rwa [confirmedContradictions, hids], rfl⟩
    · exact h.elim
  unfold Lists contradicted
  rw [Json.get_set hobj]
  refine List.mem_map.mpr ⟨other, ?_, rfl⟩
  split_ifs with hin
  · exact hmem.elim (fun heq => heq ▸ hin) id
  · rw [List.mem_append, List.mem_singleton]
    exact hmem.symm

theorem carries_contradicted {against : String} (hobj : mem.metadata.isObject) (hs : Carries s mem.id mem.metadata) :
    Carries { s with db := db', contradictionsFound := s.contradictionsFound ++ [(mem.id, against)] } mem.id
      (contradicted mem against) where
  tags ts hts := by
    rw [contradicted, Json.get_set_of_ne (by decide)]
    exact hs.tags ts hts
  contradictions other hother := by
    refine lists_contradicted hobj ?_
    obtain h | h := List.mem_append.mp hother
    · exact Or.inr (hs.contradictions other h)
    · exact Or.inl (by simpa using h)
  others w hw k hk := by
    have hne : k ≠ "confirmed_contradictions" := fun heq => hk (by simp [curatorKeys, heq])
    rw [contradicted, Json.get_set_of_ne hne]
    exact hs.others w hw k hk

theorem intact_edit {e : Edit} (hs : Intact s) (h : Harmless c entryText eligible s (.edit e)) :
    Intact (s.edit e) := by
  unfold Cycle.edit
  cases hu : s.db.update e.id { metadata := some e.metadata } e.now with
  | error msg => exact hs
  | ok res =>
    obtain ⟨hother, hself⟩ := get_updateMetadata hu
    refine intact_of_write hs hother (fun i w hi hw => ⟨hw.tags, hw.contradictions, fun w' hw' => ?_⟩) fun r hr => ?_
    · exact hw.others w' ((Function.update_of_ne hi _ _).symm.trans hw')
    · obtain ⟨hmeta, hlive⟩ := hself r hr
      rw [hmeta]
      refine ⟨(h hlive).1, (h hlive).2, fun w hw => ?_⟩
      have heq : some e.metadata = some w := by simpa using hw
      exact Option.some.inj heq ▸ fun k _ => rfl

theorem intact_tag {x : Turn} (hs : Intact s) (h : Harmless c entryText eligible s (.tag mem x)) : Intact (s.tag mem x) := by
  unfold Cycle.tag
  split
  · exact hs
  · rename_i tags hne htags
    cases hfault : x.tagFault with
    | some e => exact intact_noted hs
    | none =>
      have hcond := h (by simpa [htags, Except.toOption] using hne) hfault
      unfold persistAutoTags
      cases hu : s.db.update mem.id { metadata := some (autoTagged mem (tags.take 8) x.curatedAt) } x.tagNow with
      | error e => exact intact_noted hs
      | ok res =>
        obtain ⟨hother, hself⟩ := get_updateMetadata hu
        refine intact_of_write hs hother (fun i w hi hw => ?_) fun r hr => ?_
        · exact ⟨fun ts hts => hw.tags ts ((List.mem_append.mp hts).resolve_right (by simp [hi])),
            hw.contradictions, hw.others⟩
        · obtain ⟨hmeta, hlive⟩ := hself r hr
          obtain ⟨hobj, hcarries⟩ := hcond.1 hlive
          rw [hmeta]
          exact carries_autoTagged hobj hcarries hcond.2
  · exact intact_noted hs

theorem intact_compare {x : Turn} (hs : Intact s) (h : Harmless c entryText eligible s (.compare mem x)) :
    Intact (s.compare mem x) := by
  unfold Cycle.compare
  split_ifs with hskip
  · exact hs
  · cases hsibling : adjacentMemory s.db mem x.readNow with
    | none => exact hs
    | some sibling =>
      simp only
      split
      · rename_i hdetect
        cases hfault : x.contradictionFault with
        | some e => exact intact_noted hs
        | none =>
          have hcurrent := h hskip hfault sibling hsibling hdetect
          unfold persistContradiction
          cases hu : s.db.update mem.id { metadata := some (contradicted mem sibling.id) } x.contradictionNow with
          | error e => exact intact_noted hs
          | ok res =>
            obtain ⟨hother, hself⟩ := get_updateMetadata hu
            refine intact_of_write hs hother (fun i w hi hw => ?_) fun r hr => ?_
            · exact ⟨hw.tags, fun o ho => hw.contradictions o ((List.mem_append.mp ho).resolve_right (by simp [hi])),
                hw.others⟩
            · obtain ⟨hmeta, hlive⟩ := hself r hr
              obtain ⟨hobj, hcarries⟩ := hcurrent hlive
              rw [hmeta]
              exact carries_contradicted hobj hcarries
      · exact hs
      · exact intact_noted hs

theorem carries_record {db : Db} {entry : RollbackEntry} {i : String}
    (hentry : d.entryFault = none → Unknown s d.entryId ∧
      db.getKey (rollbackMemory entry (entryText entry) d.entryId d.entryTs).key = none)
    (hdb : ∀ i r, db.get i = some r → Carries s i r.metadata ∨ Unknown s i)
    (hr : (record entryText false { db } entry d).db.get i = some r) : Carries s i r.metadata ∨ Unknown s i := by
  rw [record_db] at hr
  by_cases hfault : d.entryFault = none
  · rw [if_neg (by simp [hfault])] at hr
    obtain ⟨hunknown, hfree⟩ := hentry hfault
    rcases get_insertOrSkip_of_free hfree hr with hr | hi
    · exact hdb i r hr
    · exact Or.inr (hi ▸ hunknown)
  · rw [if_pos (Or.inr hfault)] at hr
    exact hdb i r hr

theorem intact_act {a : Action} (hs : Intact s) (h : Harmless c entryText eligible s (.act a d)) :
    Intact { s with db := (act c entryText eligible false { db := s.db } (a, d)).db } := by
  obtain ⟨hnew, hentry⟩ := h
  have hafter : ∀ i r, (after c eligible false s.db (a, d)).get i = some r → Carries s i r.metadata ∨ Unknown s i :=
    fun i r hr => (get_after hr).imp (fun ⟨old, hold, heq⟩ => heq ▸ hs i old hold) fun hi : i = d.newId => hi ▸ hnew
  refine intact_of_frame fun i r hr => ?_
  rw [act_db] at hr
  cases he : entryOf c eligible false s.db (a, d) with
  | none =>
    rw [he] at hr
    exact hafter i r hr
  | some entry =>
    rw [he] at hr
    exact carries_record (hentry entry he) hafter hr

/-- What the `UPDATE` of the priority feedback leaves: each metadata as it was, but for that of its row, which is as it was read. -/
theorem get_updated {i : String} (h : (s.updated c mem d).1.get i = some r) :
    (∃ old, s.db.get i = some old ∧ r.metadata = old.metadata) ∨
      i = mem.id ∧ (s.db.get mem.id).isSome ∧ priorityAfter c d.instant mem ≠ mem.priority ∧ d.writeFault = none ∧
        ∃ existing ∈ s.selected, r.metadata = existing.metadata := by
  have hkept : s.db.get i = some r → ∃ old, s.db.get i = some old ∧ r.metadata = old.metadata := fun hr => ⟨r, hr, rfl⟩
  unfold Cycle.updated at h
  simp only at h
  split_ifs at h with hidle
  · exact Or.inl (hkept h)
  obtain ⟨hchanges, hfault⟩ := not_or.mp hidle
  split at h
  · exact Or.inl (hkept h)
  · rename_i existing hselected
    by_cases hi : i = mem.id
    · subst hi
      obtain ⟨b, hok, hself⟩ | ⟨⟨e, he⟩, hdb⟩ :=
        write_cases s.db mem.id { priority := some (priorityAfter c d.instant mem) } d.now existing
      · rw [show write s.db mem.id { priority := some (priorityAfter c d.instant mem) } d.now existing =
          (_, .ok (true, b)) from Prod.ext rfl hok, hself] at h
        obtain ⟨old, hold, rfl⟩ := Option.map_eq_some_iff.mp h
        exact Or.inr ⟨rfl, Option.isSome_iff_exists.mpr ⟨old, hold⟩, hchanges, by simpa using hfault, existing, hselected, rfl⟩
      · rw [show write s.db mem.id { priority := some (priorityAfter c d.instant mem) } d.now existing =
          (s.db, .error e) from Prod.ext hdb he] at h
        exact Or.inl (hkept h)
    · have hother := @get_write_of_ne mem.id d.now { priority := some (priorityAfter c d.instant mem) } existing s.db i hi
      cases hwrite : write s.db mem.id { priority := some (priorityAfter c d.instant mem) } d.now existing with
      | mk db result =>
        rw [hwrite] at h hother
        cases result <;> exact Or.inl (hkept (hother ▸ h))

theorem intact_adjust (hs : Intact s) (h : Harmless c entryText eligible s (.adjust mem d)) :
    Intact (s.adjust c entryText mem d) := by
  obtain ⟨hselected, hentry⟩ := h
  have hupdated : ∀ i r, (s.updated c mem d).1.get i = some r → Carries s i r.metadata ∨ Unknown s i := by
    intro i r hr
    rcases get_updated hr with ⟨old, hold, heq⟩ | ⟨rfl, hlive, hchanges, hfault, existing, hread, heq⟩
    · exact Or.inl (heq ▸ hs i old hold)
    · exact Or.inl (heq ▸ hselected hchanges hfault hlive existing hread)
  unfold Cycle.adjust
  cases hcase : s.updated c mem d with
  | mk db entry =>
    rw [hcase] at hupdated hentry
    cases entry with
    | none => exact intact_of_frame hupdated
    | some entry => exact intact_of_frame fun i r hr => carries_record (hentry entry rfl) hupdated hr

theorem intact_report {content ts : String} (hs : Intact s) (h : Harmless c entryText eligible s (.report content id ts)) :
    Intact { s with db := settled s.db (persistSelfReport s.db content id ts) } := by
  obtain ⟨hunknown, hfree⟩ := h
  refine intact_of_frame fun i r hr => ?_
  rcases get_insertOrSkip_of_free hfree hr with hr | hi
  · exact Or.inl (hs i r hr)
  · exact Or.inr (hi ▸ hunknown)

theorem intact_step {x : CycleStep} (hs : Intact s) (h : Harmless c entryText eligible s x) :
    Intact (s.step c entryText eligible x) := by
  cases x with
  | edit e => exact intact_edit hs h
  | tag mem x => exact intact_tag hs h
  | compare mem x => exact intact_compare hs h
  | act a d => exact intact_act hs h
  | select mem => exact fun i r hr => ⟨(hs i r hr).tags, (hs i r hr).contradictions, (hs i r hr).others⟩
  | adjust mem d => exact intact_adjust hs h
  | report content id ts => exact intact_report hs h

end Steps

theorem intact_start (db : Db) : Intact (.start db) := fun id r hr =>
  ⟨fun _ h => absurd h List.not_mem_nil, fun _ h => absurd h List.not_mem_nil, fun w hw k _ => by
    have heq : some r.metadata = some w :=
      (congrArg (Option.map (fun row : MemoryRow => row.metadata)) hr).symm.trans hw
    exact Option.some.inj heq ▸ rfl⟩

/-- A cycle whose snapshots are as good as the rows they are written over keeps what it found and what others wrote. -/
theorem cycle_keeps (c : Chrono) (entryText : RollbackEntry → String) (cfg : CuratorConfig) (input : CycleInput) (db : Db)
    (h : Meets (Cycle.step c entryText (eligibleOf cfg input db)) (Harmless c entryText (eligibleOf cfg input db)) (.start db)
      (cycleSteps cfg input db)) :
    (∀ s ∈ states (Cycle.step c entryText (eligibleOf cfg input db)) (.start db) (cycleSteps cfg input db), Intact s) ∧
      Intact (runOnce c entryText cfg input db) := by
  have hall := forall_states_of_meets (fun s a hs ha => intact_step hs ha) (intact_start db) h
  exact ⟨hall, hall _ foldl_mem_states⟩

/-! ## Two notes of one namespace -/

def longNote (id : String) (tier : Tier) : Memory :=
  { noteAt id "the north gate of the old town is closed in winter and the road with it" "1" [] with tier }

def notes : Db := Db.empty.insertAll [longNote "a" .mid, longNote "b" .short]

/-- Tags and a contradiction for each candidate, and no one else. -/
def contested (detect : Bool) : CycleInput where
  midNow := "1"
  longNow := "1"
  turns _ :=
    { autoTag := .ok ["gates"]
      curatedAt := "1"
      tagNow := "1"
      readNow := "1"
      detect := fun _ => .ok detect
      contradictionNow := "1" }
  unicode := ascii
  order := ["notes"]
  draws := letteredDraws
  passEdits _ := []
  adjustEdits _ := []
  lastEdits := []
  reportContent := "a report"
  reportId := "r"
  reportTs := "2"

theorem eligible_notes (detect : Bool) : eligibleOf {} (contested detect) notes = [longNote "a" .mid] := by
  unfold eligibleOf collectCandidates Db.list
  dsimp only
  rw [List.mergeSort_of_pairwise (by decide +revert), List.mergeSort_of_pairwise (by decide +revert)]
  decide +revert

theorem steps_notes (detect : Bool) : cycleSteps {} (contested detect) notes =
    [.tag (longNote "a" .mid) ((contested detect).turns 0), .compare (longNote "a" .mid) ((contested detect).turns 0),
      .act (.forget (longNote "a" .mid)) (lettered 'y' 0), .select (longNote "a" .mid), .adjust (longNote "a" .mid) (lettered 'z' 0),
      .report "a report" "r" "2"] := by
  have hclusters : findConsolidationClusters (contested detect).unicode (contested detect).order [longNote "a" .mid] = [] := by
    decide +revert
  unfold cycleSteps passActions
  dsimp only
  rw [eligible_notes, hclusters]
  rfl

def tagged (detect : Bool) : Cycle := Cycle.tag (.start notes) (longNote "a" .mid) ((contested detect).turns 0)

theorem adjacent_tagged (detect : Bool) :
    adjacentMemory (tagged detect).db (longNote "a" .mid) ((contested detect).turns 0).readNow = some (longNote "b" .short) := by
  unfold adjacentMemory Db.list
  rw [List.mergeSort_of_pairwise (by decide +revert)]
  decide +revert

def untagged : Cycle where
  db := settled (tagged true).db (persistContradiction (tagged true).db (longNote "a" .mid) "b" "1")
  autoTagged := [("a", ["gates"])]
  contradictionsFound := [("a", "b")]
  others := (tagged true).others

theorem compare_tagged : (tagged true).compare (longNote "a" .mid) ((contested true).turns 0) = untagged := by
  unfold Cycle.compare
  rw [if_neg (by decide), adjacent_tagged]
  rfl

/-- The note is counted as tagged, and has no tags. -/
theorem tags_erased : ¬Intact (runOnce stopped entryNamed {} (contested true) notes) := by
  intro h
  unfold runOnce at h
  rw [steps_notes, eligible_notes, List.foldl_cons, show Cycle.step stopped entryNamed [longNote "a" .mid] (.start notes)
    (.tag (longNote "a" .mid) ((contested true).turns 0)) = tagged true from rfl, List.foldl_cons,
    show Cycle.step stopped entryNamed [longNote "a" .mid] (tagged true)
      (.compare (longNote "a" .mid) ((contested true).turns 0)) = untagged from compare_tagged] at h
  -- the passes and the report leave the note as it is
  obtain ⟨r, hr, hnone⟩ : ∃ r, Db.get (List.foldl (Cycle.step stopped entryNamed [longNote "a" .mid]) untagged
      [.act (.forget (longNote "a" .mid)) (lettered 'y' 0), .select (longNote "a" .mid), .adjust (longNote "a" .mid) (lettered 'z' 0),
        .report "a report" "r" "2"]).db "a" = some r ∧ r.metadata.get "auto_tags" = none :=
    by
    simpa only [Option.any_eq_true, decide_eq_true_eq] using
      (by decide : (Db.get _ _).any fun r => r.metadata.get "auto_tags" = none)
  have htags := (h "a" r hr).tags ["gates"] (List.mem_singleton.mpr rfl)
  rw [hnone] at htags
  cases htags

/-- Without a contradiction the tags stay. -/
theorem cycle_keeps_notes : Intact (runOnce stopped entryNamed {} (contested false) notes) := by
  refine (cycle_keeps stopped entryNamed {} (contested false) notes ?_).2
  have hcompare : (tagged false).compare (longNote "a" .mid) ((contested false).turns 0) = tagged false := by
    unfold Cycle.compare
    rw [if_neg (by decide), adjacent_tagged]
    rfl
  rw [steps_notes, eligible_notes]
  refine ⟨fun _ _ => ⟨fun _ => ⟨rfl, intact_start notes "a" _ rfl⟩, fun _ => List.not_mem_nil⟩,
    show Meets _ _ (tagged false) _ from ⟨fun _ _ m _ hdetect => absurd (Except.ok.inj hdetect) (by decide), ?_⟩⟩
  show Meets _ _ ((tagged false).compare _ _) _
  rw [hcompare]
  exact ⟨⟨unknown_of (by decide) (by decide) (by decide),
      fun entry he => (Option.ne_none_iff_exists'.mpr ⟨entry, he⟩ (by decide)).elim⟩,
    trivial, ⟨fun hchanges => absurd (by decide) hchanges,
      fun entry he => (Option.ne_none_iff_exists'.mpr ⟨entry, he⟩ (by decide)).elim⟩,
    ⟨unknown_of (by decide) (by decide) (by decide), by decide⟩, trivial⟩

end Curator

end AiMemory
