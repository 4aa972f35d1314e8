import AiMemory.Sync.Places

/-!
# The other phases that write rows

What the deletions, archivals, restores and links of a body leave behind, and when each of them finds nothing to do.
-/

namespace AiMemory

open Relational Convergence Validate Machine

namespace Push

/-! ## Deletions and archivals -/

/-- An id without a row, that no standard names. -/
def Gone (db : Db) (id : String) : Prop := db.get id = none ∧ ∀ e ∈ db.namespaceMeta, e.standardId ≠ id

/-- No link has the id at an end. -/
def Unlinked (db : Db) (id : String) : Prop := ∀ l ∈ db.links, l.sourceId ≠ id ∧ l.targetId ≠ id

/-- No link and no standard names the id. -/
def Bare (db : Db) (id : String) : Prop := Unlinked db id ∧ ∀ e ∈ db.namespaceMeta, e.standardId ≠ id

/-- A phase that removes the rows of the ids it is given, with their links and the standards that name them, and has nothing
to do where `Idle` holds. -/
structure Removes (f : Db → String → Db) (Idle : Db → String → Prop) : Prop where
  memories : ∀ db id, (f db id).memories =
    if Accepts (validateId id) then db.memories.filter fun r => r.id ≠ id else db.memories
  links : ∀ db id, ∀ l ∈ (f db id).links, l ∈ db.links ∧
    (Accepts (validateId id) → db.get id ≠ none → l.sourceId ≠ id ∧ l.targetId ≠ id)
  standards : ∀ db id, ∀ e ∈ (f db id).namespaceMeta, e ∈ db.namespaceMeta ∧
    (Accepts (validateId id) → db.get id ≠ none → e.standardId ≠ id)
  keeps : ∀ db id, ∀ e ∈ db.namespaceMeta, e.standardId ≠ id → e ∈ (f db id).namespaceMeta
  frame : ∀ db id, Bare db id → f db id = { db with memories := (f db id).memories, archived := (f db id).archived }
  idle : ∀ db id, (Accepts (validateId id) → Idle db id) → f db id = db
  mono : ∀ db d id, Idle db id → (db.get id = none → d.get id = none) → d.namespaceMeta = db.namespaceMeta → Idle d id

section Delete

variable {db : Db} {id : String}

theorem filter_eq_self_of_get (hget : db.get id = none) : (db.memories.filter fun r => r.id ≠ id) = db.memories := by
  refine Indexed.ext (List.filter_eq_self.mpr fun r hr => ?_)
  simpa using Indexed.find_eq_none.mp hget r hr

theorem all_get_iff (db : Db) (i id : String) : ((db.get i).all fun r : MemoryRow => r.id ≠ id) = true ↔
    (db.get id ≠ none → i ≠ id) := by
  cases hi : db.get i with
  | none => exact iff_of_true rfl fun hlive he => hlive (he ▸ hi)
  | some r =>
    have hid : r.id = i := (Db.get_eq_some.mp hi).2
    have hlive : i = id → db.get id ≠ none := fun he => by
      rw [← he, hi]
      exact Option.some_ne_none r
    simp only [Option.all_some, hid, decide_eq_true_eq]
    exact ⟨fun hne _ => hne, fun hne he => hne (hlive he) he⟩

theorem mem_links_delete {l : LinkRow} : l ∈ (db.delete id).1.links ↔
    l ∈ db.links ∧ (db.get id ≠ none → l.sourceId ≠ id ∧ l.targetId ≠ id) := by
  show l ∈ db.links.filter (fun l => ((db.get l.sourceId).all fun r => r.id ≠ id) &&
    ((db.get l.targetId).all fun r => r.id ≠ id)) ↔ _
  rw [Table.mem_filter, Bool.and_eq_true, all_get_iff, all_get_iff, ← forall_and]

theorem mem_standards_delete {e : NamespaceMetaEntry} :
    e ∈ (db.delete id).1.namespaceMeta ↔ e ∈ db.namespaceMeta ∧ e.standardId ≠ id := by
  show e ∈ db.namespaceMeta.filter (fun e => e.standardId ≠ id) ↔ _
  rw [Table.mem_filter, decide_eq_true_eq]

theorem delete_frame (hlinks : db.get id = none ∨ Unlinked db id) (hstd : ∀ e ∈ db.namespaceMeta, e.standardId ≠ id) :
    (db.delete id).1 = { db with memories := db.memories.filter fun r => r.id ≠ id } := by
  have hmeta : (db.namespaceMeta.filter fun e => e.standardId ≠ id) = db.namespaceMeta :=
    Table.ext (List.filter_eq_self.mpr fun e he => by simpa using hstd e he)
  have hkeep : (db.links.filter fun l => ((db.get l.sourceId).all fun r : MemoryRow => r.id ≠ id) &&
      ((db.get l.targetId).all fun r : MemoryRow => r.id ≠ id)) = db.links := by
    refine Table.ext (List.filter_eq_self.mpr fun l hl => ?_)
    rw [Bool.and_eq_true, all_get_iff, all_get_iff]
    rcases hlinks with hget | hfree
    · exact ⟨absurd hget, absurd hget⟩
    · exact ⟨fun _ => (hfree l hl).1, fun _ => (hfree l hl).2⟩
  show { db with
    memories := db.memories.filter fun r => r.id ≠ id
    namespaceMeta := db.namespaceMeta.filter fun e => e.standardId ≠ id
    links := db.links.filter fun l => ((db.get l.sourceId).all fun r : MemoryRow => r.id ≠ id) &&
      ((db.get l.targetId).all fun r : MemoryRow => r.id ≠ id) } = _
  rw [hmeta, hkeep]

theorem delete_eq_self (hg : Gone db id) : (db.delete id).1 = db := by
  rw [delete_frame (Or.inl hg.1) hg.2, filter_eq_self_of_get hg.1]

end Delete

section Removals

variable {t : Tick} {db : Db} {f : Db → String → Db} {Idle : Db → String → Prop} {ids : List String}
  {i id : String} {k : String × String}

theorem onDeletion_eq_self (hg : Accepts (validateId id) → Gone db id) : onDeletion db id = db := by
  unfold onDeletion
  split_ifs with hv
  · exact delete_eq_self (hg hv)
  · rfl

theorem removes_onDeletion : Removes onDeletion Gone := by
  have hacc : ∀ db id, Accepts (validateId id) → onDeletion db id = (db.delete id).1 := fun db id hv => if_pos hv
  have hrej : ∀ db id, ¬Accepts (validateId id) → onDeletion db id = db := fun db id hv => if_neg hv
  refine ⟨fun db id => ?_, fun db id => ?_, fun db id => ?_, fun db id => ?_, fun db id => ?_,
    fun db id => onDeletion_eq_self, fun db d id hg hget hmeta => ⟨hget hg.1, hmeta ▸ hg.2⟩⟩ <;>
    by_cases hv : Accepts (validateId id)
  · rw [hacc db id hv, if_pos hv]
    rfl
  · rw [hrej db id hv, if_neg hv]
  · rw [hacc db id hv]
    exact fun l hl => (mem_links_delete.mp hl).imp_right fun h _ => h
  · rw [hrej db id hv]
    exact fun l hl => ⟨hl, fun hc => absurd hc hv⟩
  · rw [hacc db id hv]
    exact fun e he => (mem_standards_delete.mp he).imp_right fun h _ _ => h
  · rw [hrej db id hv]
    exact fun e he => ⟨he, fun hc => absurd hc hv⟩
  · rw [hacc db id hv]
    exact fun e he hne => mem_standards_delete.mpr ⟨he, hne⟩
  · rw [hrej db id hv]
    exact fun e he _ => he
  · rw [hacc db id hv]
    intro hbare
    rw [delete_frame (Or.inr hbare.1) hbare.2]
  · rw [hrej db id hv]
    exact fun _ => rfl

theorem onArchive_of_get (hv : Accepts (validateId id)) (hget : db.get id ≠ none) : onArchive t db id =
    ((db.archiveWhere (fun r => r.id = id) (archiveRow t.now "sync_push")).delete id).1 := by
  unfold onArchive Db.archiveMemory
  rw [if_pos hv, if_neg (fun hc => hget (Option.isNone_iff_eq_none.mp hc))]
  rfl

theorem onArchive_eq_self (hg : Accepts (validateId id) → db.get id = none) : onArchive t db id = db := by
  unfold onArchive Db.archiveMemory
  split_ifs with hv hlive
  · rfl
  · rw [hg hv] at hlive
    exact absurd rfl hlive
  · rfl

theorem removes_onArchive : Removes (onArchive t) fun db id => db.get id = none := by
  have hself : ∀ db id, ¬(Accepts (validateId id) ∧ db.get id ≠ none) → onArchive t db id = db :=
    fun db id hn => onArchive_eq_self fun hv => by
      by_contra hget
      exact hn ⟨hv, hget⟩
  refine ⟨fun db id => ?_, fun db id => ?_, fun db id => ?_, fun db id => ?_, fun db id => ?_,
    fun db id => onArchive_eq_self, fun db d id hg hget _ => hget hg⟩ <;>
    by_cases hg : Accepts (validateId id) ∧ db.get id ≠ none
  · rw [onArchive_of_get hg.1 hg.2, if_pos hg.1]
    rfl
  · rw [hself db id hg]
    split_ifs with hv
    · rw [filter_eq_self_of_get (not_not.mp fun hget => hg ⟨hv, hget⟩)]
    · rfl
  · rw [onArchive_of_get hg.1 hg.2]
    exact fun l hl => (mem_links_delete.mp hl).imp_right fun h _ => h
  · rw [hself db id hg]
    exact fun l hl => ⟨hl, fun hv hget => absurd ⟨hv, hget⟩ hg⟩
  · rw [onArchive_of_get hg.1 hg.2]
    exact fun e he => (mem_standards_delete.mp he).imp_right fun h _ _ => h
  · rw [hself db id hg]
    exact fun e he => ⟨he, fun hv hget => absurd ⟨hv, hget⟩ hg⟩
  · rw [onArchive_of_get hg.1 hg.2]
    exact fun e he hne => mem_standards_delete.mpr ⟨he, hne⟩
  · rw [hself db id hg]
    exact fun e he _ => he
  · rw [onArchive_of_get hg.1 hg.2]
    intro hbare
    have hframe : ((db.archiveWhere (fun r => r.id = id) (archiveRow t.now "sync_push")).delete id).1 = _ :=
      delete_frame (Or.inr hbare.1) hbare.2
    rw [hframe]
    rfl
  · rw [hself db id hg]
    exact fun _ => rfl

theorem memories_foldl_removes (hf : Removes f Idle) (ids : List String) (db : Db) : (ids.foldl f db).memories =
    db.memories.filter fun r => ¬(Accepts (validateId r.id) ∧ r.id ∈ ids) := by
  induction ids generalizing db with
  | nil => exact Indexed.ext (List.filter_eq_self.mpr fun r _ => by simp).symm
  | cons id ids ih =>
    rw [List.foldl_cons, ih, hf.memories]
    refine Indexed.ext ?_
    by_cases hv : Accepts (validateId id)
    · rw [if_pos hv]
      show (db.memories.rows.filter _).filter _ = db.memories.rows.filter _
      rw [List.filter_filter]
      refine List.filter_congr fun r _ => ?_
      by_cases he : r.id = id
      · simp [he, hv]
      · simp [he]
    · rw [if_neg hv]
      refine List.filter_congr fun r _ => ?_
      by_cases he : r.id = id
      · simp [he, hv]
      · simp [he]

theorem get_foldl_removes (hf : Removes f Idle) (ids : List String) (db : Db) (i : String) : (ids.foldl f db).get i =
    if Accepts (validateId i) ∧ i ∈ ids then none else db.get i := by
  unfold Db.get
  rw [memories_foldl_removes hf, Indexed.find_filter]
  cases hi : db.memories.find i with
  | none => simp
  | some r =>
    have hid : r.id = i := (Indexed.find_eq_some.mp hi).2
    by_cases hc : Accepts (validateId i) ∧ i ∈ ids
    · simp [Option.filter, hid, hc]
    · rw [if_neg hc]
      simp only [Option.filter, hid, hc, not_false_eq_true, decide_true, if_true]

theorem links_foldl_removes (hf : Removes f Idle) (ids : List String) (db : Db) :
    ∀ l ∈ (ids.foldl f db).links, l ∈ db.links :=
  foldl_induct (P := fun d : Db => ∀ l ∈ d.links, l ∈ db.links)
    (fun d id _ hd l hl => hd l (hf.links d id l hl).1) fun _ hl => hl

theorem standards_foldl_removes (hf : Removes f Idle) (ids : List String) (db : Db) :
    ∀ e ∈ (ids.foldl f db).namespaceMeta, e ∈ db.namespaceMeta :=
  foldl_induct (P := fun d : Db => ∀ e ∈ d.namespaceMeta, e ∈ db.namespaceMeta)
    (fun d id _ hd e he => hd e (hf.standards d id e he).1) fun _ he => he

theorem keeps_foldl_removes (hf : Removes f Idle) {e : NamespaceMetaEntry} (he : e ∈ db.namespaceMeta)
    (hne : e.standardId ∉ ids) : e ∈ (ids.foldl f db).namespaceMeta :=
  foldl_induct (P := fun d : Db => e ∈ d.namespaceMeta)
    (fun d id hid hd => hf.keeps d id e hd fun heq => hne (heq ▸ hid)) he

theorem bare_foldl_removes (hf : Removes f Idle) (hv : Accepts (validateId i)) (hi : i ∈ ids) (hget : db.get i ≠ none) :
    Bare (ids.foldl f db) i := by
  induction ids generalizing db with
  | nil => cases hi
  | cons id ids ih =>
    rw [List.foldl_cons]
    by_cases hid : i = id
    · subst hid
      exact ⟨fun l hl => (hf.links db i l (links_foldl_removes hf ids _ l hl)).2 hv hget,
        fun e he => (hf.standards db i e (standards_foldl_removes hf ids _ e he)).2 hv hget⟩
    · refine ih ((List.mem_cons.mp hi).resolve_left hid) ?_
      have hkeep := get_foldl_removes hf [id] db i
      rw [if_neg fun hc => hid (List.mem_singleton.mp hc.2)] at hkeep
      rw [show f db id = [id].foldl f db from rfl, hkeep]
      exact hget

theorem foldl_removes_frame (hf : Removes f Idle)
    (hids : ∀ id ∈ ids, Accepts (validateId id) → Idle db id ∨ Bare db id) : ids.foldl f db =
      { db with memories := (ids.foldl f db).memories, archived := (ids.foldl f db).archived } := by
  induction ids generalizing db with
  | nil => rfl
  | cons id ids ih =>
    have hframe : f db id = { db with memories := (f db id).memories, archived := (f db id).archived } := by
      by_cases hbare : Bare db id
      · exact hf.frame db id hbare
      · rw [hf.idle db id fun hv => (hids id List.mem_cons_self hv).resolve_right hbare]
    rw [List.foldl_cons, ih fun j hj hv => ?_]
    · generalize (ids.foldl f (f db id)).memories = memories
      generalize (ids.foldl f (f db id)).archived = archived
      rw [hframe]
    · refine (hids j (List.mem_cons_of_mem id hj) hv).imp (fun hidle => hf.mono db _ j hidle (fun hget => ?_) ?_) fun hbare => ?_
      · rw [show f db id = [id].foldl f db from rfl, get_foldl_removes hf, hget, ite_self]
      · rw [hframe]
      · rw [hframe]
        exact hbare

theorem gone_foldl_onDeletion (hi : i ∈ ids) (hv : Accepts (validateId i)) :
    Gone (ids.foldl onDeletion db) i := by
  refine ⟨by rw [get_foldl_removes removes_onDeletion, if_pos ⟨hv, hi⟩], ?_⟩
  refine forall_foldl (Q := fun (d : Db) i => Accepts (validateId i) → ∀ e ∈ d.namespaceMeta, e.standardId ≠ i)
    (fun d id _ hv e he => ?_) (fun d id _ i hd hv e he => hd hv e (removes_onDeletion.standards d id e he).1) i hi hv
  rw [show onDeletion d id = (d.delete id).1 from if_pos hv] at he
  exact (mem_standards_delete.mp he).2

/-! ### What is filed -/

theorem find_archived_onArchive (db : Db) (id i : String) : (onArchive t db id).archived.find i =
    if Accepts (validateId i) ∧ i = id then
      ((db.get i).map (archiveRow t.now "sync_push")).or (db.archived.find i)
    else db.archived.find i := by
  by_cases hg : Accepts (validateId id) ∧ db.get id ≠ none
  · rw [onArchive_of_get hg.1 hg.2]
    show (db.archiveWhere _ _).archived.find i = _
    rw [Db.find_archived_archiveWhere fun _ => rfl]
    by_cases hi : i = id
    · subst hi
      rw [if_pos ⟨hg.1, rfl⟩]
      obtain ⟨r, hr⟩ := Option.ne_none_iff_exists'.mp hg.2
      rw [hr, Option.filter_some_pos (by simpa using (Db.get_eq_some.mp hr).2)]
    · rw [if_neg fun hc => hi hc.2]
      cases hr : db.get i with
      | none => rfl
      | some r =>
        rw [Option.filter_some_neg (by simpa [(Db.get_eq_some.mp hr).2] using hi)]
        rfl
  · rw [onArchive_eq_self fun hv => not_not.mp fun hget => hg ⟨hv, hget⟩]
    split_ifs with hc
    · obtain ⟨hv, rfl⟩ := hc
      rw [not_not.mp fun hget => hg ⟨hv, hget⟩]
      rfl
    · rfl

theorem find_archived_foldl_onArchive (ids : List String) (db : Db) (i : String) :
    (ids.foldl (onArchive t) db).archived.find i =
      if Accepts (validateId i) ∧ i ∈ ids then
        ((db.get i).map (archiveRow t.now "sync_push")).or (db.archived.find i)
      else db.archived.find i := by
  induction ids generalizing db with
  | nil => rw [if_neg fun hc => nomatch hc.2]; rfl
  | cons id ids ih =>
    have hget : (onArchive t db id).get i = if Accepts (validateId i) ∧ i ∈ [id] then none else db.get i :=
      get_foldl_removes removes_onArchive [id] db i
    rw [List.foldl_cons, ih, find_archived_onArchive, hget]
    by_cases hv : Accepts (validateId i)
    · by_cases hid : i = id
      · subst hid
        simp [hv]
      · simp [hv, hid]
    · simp [hv]

end Removals

/-! ## Restores -/

/-- Nothing is archived under the id, or there is no room for it. -/
def NoRestore (db : Db) (id : String) : Prop :=
  ∀ a, db.archived.find id = some a → db.get id ≠ none ∨ db.getKey a.key ≠ none

section Restores

variable {t : Tick} {db : Db} {ids : List String} {i id : String}

theorem onRestore_cases (t : Tick) (db : Db) (id : String) :
    (onRestore t db id = db ∧ (Accepts (validateId id) → NoRestore db id)) ∨
    (∃ a table, Accepts (validateId id) ∧ db.archived.find id = some a ∧ db.get id = none ∧
      db.memories.insertNew? (restoreRow t.now a) = some table ∧
      onRestore t db id = { db with memories := table, archived := db.archived.filter fun a => a.id ≠ id }) := by
  unfold onRestore
  by_cases hv : Accepts (validateId id)
  · rw [if_pos hv]
    cases hr : db.restoreArchived id t.now with
    | ok res =>
      obtain ⟨ha, -, hdb⟩ | ⟨a, table, ha, -, hget, ht, hdb⟩ := Db.restoreArchived_cases hr
      · refine Or.inl ⟨hdb, fun _ a ha' => ?_⟩
        rw [ha] at ha'
        cases ha'
      · exact Or.inr ⟨a, table, hv, ha, hget, ht, hdb⟩
    | error e =>
      refine Or.inl ⟨rfl, fun _ a ha => ?_⟩
      by_contra hc
      rw [not_or, not_not, not_not] at hc
      have hid : (restoreRow t.now a).id = id := (Table.find_eq_some.mp ha).2
      have hroom := (Indexed.insertNew?_isSome (t := db.memories) (r := restoreRow t.now a)).mpr
        ⟨by rw [hid]; exact hc.1, hc.2⟩
      obtain ⟨table, ht⟩ := Option.isSome_iff_exists.mp hroom
      unfold Db.restoreArchived at hr
      rw [ha] at hr
      simp only [hc.1, Option.isSome_none, Bool.false_eq_true, if_false, ht] at hr
      cases hr
  · rw [if_neg hv]
    exact Or.inl ⟨rfl, fun hc => absurd hc hv⟩

theorem onRestore_eq_self (hno : Accepts (validateId id) → NoRestore db id) : onRestore t db id = db := by
  obtain ⟨he, -⟩ | ⟨a, table, hv, ha, hget, ht, -⟩ := onRestore_cases t db id
  · exact he
  · have hfree := (Indexed.insertNew?_isSome.mp (by rw [ht]; rfl)).2
    exact absurd hfree ((hno hv a ha).resolve_left (not_not.mpr hget))

variable {k : String × String}

theorem getKey_onRestore {r : MemoryRow} (hr : db.getKey k = some r) :
    (onRestore t db id).getKey k = some r := by
  obtain ⟨he, -⟩ | ⟨a, table, -, -, -, ht, he⟩ := onRestore_cases t db id
  · rwa [he]
  · rw [he]
    show table.findBy k = some r
    rw [Indexed.findBy_insertNew? ht, show db.memories.findBy k = some r from hr]
    rfl

theorem get_onRestore_ne_none (hget : db.get i ≠ none) : (onRestore t db id).get i ≠ none := by
  obtain ⟨he, -⟩ | ⟨a, table, -, -, -, ht, he⟩ := onRestore_cases t db id
  · rwa [he]
  · obtain ⟨r, hr⟩ := Option.ne_none_iff_exists'.mp hget
    rw [he]
    show table.find i ≠ none
    rw [Indexed.find_insertNew? ht, show db.memories.find i = some r from hr]
    exact Option.some_ne_none r

theorem noRestore_onRestore (hv : Accepts (validateId id)) : NoRestore (onRestore t db id) id := by
  obtain ⟨he, hno⟩ | ⟨a, table, -, -, -, ht, he⟩ := onRestore_cases t db id
  · rw [he]
    exact hno hv
  · intro a' ha'
    rw [he, show ({ db with memories := table, archived := db.archived.filter fun a => a.id ≠ id } : Db).archived =
      db.archived.filter fun a => a.id ≠ id from rfl] at ha'
    have hmem := (Table.mem_filter.mp (Table.find_mem ha')).2
    exact absurd (Table.find_key ha') (by simpa using hmem)

theorem NoRestore.onRestore (hno : NoRestore db i) : NoRestore (onRestore t db id) i := by
  intro a ha
  have hold : db.archived.find i = some a := by
    obtain ⟨he, -⟩ | ⟨a', table, -, -, -, -, he⟩ := onRestore_cases t db id
    · rwa [he] at ha
    · rw [he] at ha
      have := Table.find_filter (t := db.archived) (k := i) fun a => a.id ≠ id
      rw [show (db.archived.filter fun a => a.id ≠ id).find i = some a from ha] at this
      exact (Option.filter_eq_some_iff.mp this.symm).1
  refine (hno a hold).imp get_onRestore_ne_none fun hkey => ?_
  obtain ⟨r, hr⟩ := Option.ne_none_iff_exists'.mp hkey
  rw [getKey_onRestore hr]
  exact Option.some_ne_none r

theorem noRestore_foldl (hi : i ∈ ids) (hv : Accepts (validateId i)) :
    NoRestore (ids.foldl (onRestore t) db) i :=
  forall_foldl (Q := fun d i => Accepts (validateId i) → NoRestore d i)
    (fun _ _ _ hv => noRestore_onRestore hv) (fun _ _ _ _ hd hv => (hd hv).onRestore) i hi hv

theorem getKey_foldl_onRestore {r : MemoryRow} (hr : db.getKey k = some r) :
    (ids.foldl (onRestore t) db).getKey k = some r :=
  foldl_induct (P := fun d : Db => d.getKey k = some r) (fun _ _ _ hd => getKey_onRestore hd) hr

theorem find_archived_onRestore (hi : i ≠ id) : (onRestore t db id).archived.find i = db.archived.find i := by
  obtain ⟨he, -⟩ | ⟨a, table, -, -, -, -, he⟩ := onRestore_cases t db id
  · rw [he]
  · rw [he]
    show (db.archived.filter fun a => a.id ≠ id).find i = _
    rw [Table.find_filter]
    cases ha : db.archived.find i with
    | none => rfl
    | some a => exact Option.filter_some_pos (by simpa [Table.find_key ha] using hi)

theorem find_archived_of_onRestore {a : ArchivedRow} (ha : (onRestore t db id).archived.find i = some a) :
    db.archived.find i = some a := by
  by_cases hi : i = id
  · subst hi
    obtain ⟨he, -⟩ | ⟨a', table, -, -, -, -, he⟩ := onRestore_cases t db i
    · rwa [he] at ha
    · rw [he, show ({ db with memories := table, archived := db.archived.filter fun a => a.id ≠ i } : Db).archived =
        db.archived.filter fun a => a.id ≠ i from rfl, Table.find_filter] at ha
      exact (Option.filter_eq_some_iff.mp ha).1
  · rwa [find_archived_onRestore hi] at ha

theorem find_archived_foldl_onRestore (hi : i ∉ ids) :
    (ids.foldl (onRestore t) db).archived.find i = db.archived.find i := by
  refine foldl_induct (P := fun d : Db => d.archived.find i = db.archived.find i) (fun d id hid hd => ?_) rfl
  have hne : i ≠ id := fun e => hi (e ▸ hid)
  exact (find_archived_onRestore hne).trans hd

theorem find_archived_of_foldl_onRestore {a : ArchivedRow} (ha : (ids.foldl (onRestore t) db).archived.find i = some a) :
    db.archived.find i = some a :=
  foldl_induct (P := fun d : Db => ∀ a, d.archived.find i = some a → db.archived.find i = some a)
    (fun _ _ _ hd a ha => hd a (find_archived_of_onRestore ha)) (fun _ ha => ha) a ha

theorem mem_foldl_onRestore {r : MemoryRow} (hr : r ∈ (ids.foldl (onRestore t) db).memories) : r ∈ db.memories ∨
    r.id ∈ ids ∧ Accepts (validateId r.id) ∧ db.getKey r.key = none ∧
      ∃ a, db.archived.find r.id = some a ∧ a.key = r.key := by
  refine (foldl_induct (P := fun d : Db => (∀ i a, d.archived.find i = some a → db.archived.find i = some a) ∧
    (∀ k, d.getKey k = none → db.getKey k = none) ∧ ∀ r ∈ d.memories, r ∈ db.memories ∨
    r.id ∈ ids ∧ Accepts (validateId r.id) ∧ db.getKey r.key = none ∧
      ∃ a, db.archived.find r.id = some a ∧ a.key = r.key) (fun d id hid hd => ?_) ⟨fun _ _ ha => ha, fun _ hk => hk,
    fun r hr => Or.inl hr⟩).2.2 r hr
  obtain ⟨harch, hkeys, hrows⟩ := hd
  refine ⟨fun i a ha => harch i a (find_archived_of_onRestore ha), fun k hk => hkeys k ?_, fun r hr => ?_⟩
  · by_contra hne
    obtain ⟨r, hr⟩ := Option.ne_none_iff_exists'.mp hne
    rw [getKey_onRestore hr] at hk
    cases hk
  · obtain ⟨he, -⟩ | ⟨a, table, hv, ha, -, ht, he⟩ := onRestore_cases t d id
    · rw [he] at hr
      exact hrows r hr
    · rw [he] at hr
      rcases (Indexed.mem_insertNew? ht).mp hr with hr | rfl
      · exact hrows r hr
      · have hid' : a.id = id := (Table.find_eq_some.mp ha).2
        refine Or.inr ⟨by rw [show (restoreRow t.now a).id = id from hid']; exact hid,
          by rw [show (restoreRow t.now a).id = id from hid']; exact hv,
          hkeys _ (Indexed.insertNew?_isSome.mp (by rw [ht]; rfl)).2, a, ?_, rfl⟩
        rw [show (restoreRow t.now a).id = id from hid']
        exact harch id a ha

theorem get_foldl_onRestore (hget : db.get i = none) (hi : i ∈ ids → Accepts (validateId i) →
    ∀ a, db.archived.find i = some a → db.getKey a.key ≠ none) : (ids.foldl (onRestore t) db).get i = none := by
  cases hr : (ids.foldl (onRestore t) db).get i with
  | none => rfl
  | some r =>
    obtain ⟨hmem, rfl⟩ := Db.get_eq_some.mp hr
    rcases mem_foldl_onRestore hmem with hold | ⟨hin, hv, hkey, a, ha, hak⟩
    · rw [Db.get_of_mem hold] at hget
      cases hget
    · exact absurd (hak ▸ hkey) (hi hin hv a ha)

theorem getKey_foldl_onRestore_eq_none (hkey : db.getKey k = none)
    (hids : ∀ id ∈ ids, Accepts (validateId id) → ∀ a, db.archived.find id = some a → a.key ≠ k) :
    (ids.foldl (onRestore t) db).getKey k = none := by
  cases hr : (ids.foldl (onRestore t) db).getKey k with
  | none => rfl
  | some r =>
    obtain ⟨hmem, rfl⟩ := Db.getKey_eq_some.mp hr
    rcases mem_foldl_onRestore hmem with hold | ⟨hin, hv, -, a, ha, hak⟩
    · rw [Db.getKey_of_mem hold] at hkey
      cases hkey
    · exact absurd hak (hids r.id hin hv a ha)

theorem onRestore_links (db : Db) (id : String) : (onRestore t db id).links = db.links := by
  obtain ⟨he, -⟩ | ⟨a, table, -, -, -, -, he⟩ := onRestore_cases t db id <;> rw [he]

theorem onRestore_namespaceMeta (db : Db) (id : String) : (onRestore t db id).namespaceMeta = db.namespaceMeta := by
  obtain ⟨he, -⟩ | ⟨a, table, -, -, -, -, he⟩ := onRestore_cases t db id <;> rw [he]

end Restores

/-! ## Links -/

/-- A link that would be filed is there already. -/
def Linked (h : Host) (db : Db) (l : MemoryLink) : Prop :=
  Accepts (validateLink l.sourceId l.targetId l.relation) → attestLevel h l ≠ none →
    db.checkEnds l.sourceId l.targetId = .ok () → db.links.find (l.sourceId, l.targetId, l.relation) ≠ none

section Links

variable {h : Host} {t : Tick} {db : Db} {l l' : MemoryLink} {ls : List MemoryLink}

theorem onLink_cases (h : Host) (t : Tick) (db : Db) (l : MemoryLink) :
    (onLink h t db l = db ∧ Linked h db l) ∨
    (Accepts (validateLink l.sourceId l.targetId l.relation) ∧ attestLevel h l ≠ none ∧
      db.checkEnds l.sourceId l.targetId = .ok () ∧
      ∃ row table, row.key = (l.sourceId, l.targetId, l.relation) ∧ db.links.insertNew? row = some table ∧
      onLink h t db l = { db with links := table }) := by
  unfold onLink
  by_cases hv : Accepts (validateLink l.sourceId l.targetId l.relation)
  · rw [if_pos hv]
    cases hlevel : attestLevel h l with
    | none => exact Or.inl ⟨rfl, fun _ hc => absurd hlevel hc⟩
    | some level =>
      simp only
      unfold Db.createLinkInbound
      cases hends : db.checkEnds l.sourceId l.targetId with
      | error e => exact Or.inl ⟨rfl, fun _ _ hc => by rw [hends] at hc; cases hc⟩
      | ok u =>
        simp only [Db.insertLink]
        cases ht : db.links.insertNew? (Db.inboundRow l level t.now) with
        | none =>
          refine Or.inl ⟨rfl, fun _ _ _ => ?_⟩
          exact Option.ne_none_iff_isSome.mpr (Table.insertNew?_eq_none.mp ht)
        | some table =>
          exact Or.inr ⟨hv, Option.some_ne_none level, trivial,
            Db.inboundRow l level t.now, table, rfl, ht, rfl⟩
  · rw [if_neg hv]
    exact Or.inl ⟨rfl, fun hc => absurd hc hv⟩

theorem onLink_eq_self (hl : Linked h db l) : onLink h t db l = db := by
  obtain ⟨he, -⟩ | ⟨hv, hlevel, hends, row, table, hkey, ht, -⟩ := onLink_cases h t db l
  · exact he
  · have hsome := hl hv hlevel hends
    rw [← hkey, Option.ne_none_iff_isSome, ← Table.insertNew?_eq_none, ht] at hsome
    cases hsome

theorem onLink_frame (h : Host) (t : Tick) (db : Db) (l : MemoryLink) :
    onLink h t db l = { db with links := (onLink h t db l).links } := by
  obtain ⟨he, -⟩ | ⟨-, -, -, row, table, -, -, he⟩ := onLink_cases h t db l <;> rw [he]

theorem linked_onLink : Linked h (onLink h t db l) l := by
  obtain ⟨he, hl⟩ | ⟨-, -, -, row, table, hkey, ht, he⟩ := onLink_cases h t db l
  · rwa [he]
  · intro _ _ _
    rw [he]
    show table.find _ ≠ none
    rw [Table.find_insertNew? ht, if_pos hkey]
    cases db.links.find (l.sourceId, l.targetId, l.relation) <;> exact Option.some_ne_none _

theorem Linked.onLink (hl : Linked h db l') : Linked h (onLink h t db l) l' := by
  obtain ⟨he, -⟩ | ⟨-, -, -, row, table, -, ht, he⟩ := onLink_cases h t db l
  · rwa [he]
  · intro hv hlevel hends
    rw [he] at hends ⊢
    obtain ⟨r, hr⟩ := Option.ne_none_iff_exists'.mp (hl hv hlevel hends)
    show table.find _ ≠ none
    rw [Table.find_insertNew? ht, hr]
    exact Option.some_ne_none r

theorem unlinked_foldl {i : String} (hget : db.get i = none) (hfree : Unlinked db i) : Unlinked (ls.foldl (onLink h t) db) i := by
  refine (foldl_induct (P := fun d : Db => d.memories = db.memories ∧ Unlinked d i) (fun d l _ hd => ?_) ⟨rfl, hfree⟩).2
  obtain ⟨he, -⟩ | ⟨-, -, hends, row, table, hkey, ht, he⟩ := onLink_cases h t d l
  · rwa [he]
  · refine ⟨by rw [he]; exact hd.1, fun x hx => ?_⟩
    rw [he] at hx
    rcases (Table.mem_insertNew? ht).mp hx with hx | rfl
    · exact hd.2 x hx
    · have hgone : d.get i = none := by
        unfold Db.get
        rw [hd.1]
        exact hget
      rw [Db.checkEnds_eq_ok] at hends
      have hsrc : x.sourceId = l.sourceId := congrArg Prod.fst hkey
      have htgt : x.targetId = l.targetId := congrArg (fun k => k.2.1) hkey
      refine ⟨fun e => ?_, fun e => ?_⟩
      · rw [← hsrc, e, hgone] at hends
        cases hends.1
      · rw [← htgt, e, hgone] at hends
        cases hends.2

theorem linked_foldl (hl : l ∈ ls) : Linked h (ls.foldl (onLink h t) db) l :=
  forall_foldl (Q := fun d l => Linked h d l) (fun _ _ _ => linked_onLink)
    (fun _ _ _ _ hd => hd.onLink) l hl

end Links

/-! ## The first five phases -/

def rows (h : Host) (t : Tick) (b : SyncPushBody) (db : Db) : Db :=
  let db := b.memories.foldl h.takeIn db
  let db := b.deletions.foldl onDeletion db
  let db := b.archives.foldl (onArchive t) db
  let db := b.restores.foldl (onRestore t) db
  b.links.foldl (onLink h t) db

def filings (h : Host) (t : Tick) (b : SyncPushBody) (db : Db) : Db :=
  let db := b.pendings.foldl onPending db
  let db := b.pendingDecisions.foldl (onDecision h t) db
  let db := b.namespaceMeta.foldl (onNamespaceMeta t) db
  b.namespaceMetaClears.foldl onNamespaceMetaClear db

theorem writes_eq (h : Host) (t : Tick) (b : SyncPushBody) (db : Db) :
    writes h t b db = filings h t b (rows h t b db) := rfl

section Phases

variable {h : Host} {t : Tick} {b : SyncPushBody} {db : Db}

theorem foldl_onLink_frame (ls : List MemoryLink) :
    ls.foldl (onLink h t) db = { db with links := (ls.foldl (onLink h t) db).links } := by
  refine foldl_induct (P := fun d : Db => d = { db with links := d.links }) (fun d l _ hd => ?_) rfl
  calc onLink h t d l = { d with links := (onLink h t d l).links } := onLink_frame h t d l
    _ = { db with links := (onLink h t d l).links } := by
      generalize (onLink h t d l).links = links
      rw [hd]

theorem rows_pending (h : Host) (t : Tick) (b : SyncPushBody) (db : Db) : (rows h t b db).pending = db.pending := by
  have hdel : ∀ (d : Db) id, (onDeletion d id).pending = d.pending := by
    intro d id
    unfold onDeletion
    split_ifs <;> rfl
  have harch : ∀ (d : Db) id, (onArchive t d id).pending = d.pending := by
    intro d id
    unfold onArchive Db.archiveMemory
    split_ifs <;> rfl
  have hrest : ∀ (d : Db) id, (onRestore t d id).pending = d.pending := by
    intro d id
    obtain ⟨he, -⟩ | ⟨a, table, -, -, -, -, he⟩ := onRestore_cases t d id <;> rw [he]
  unfold rows
  simp only
  rw [foldl_onLink_frame]
  show (b.restores.foldl (onRestore t) _).pending = _
  rw [foldl_keeps hrest, foldl_keeps harch, foldl_keeps hdel, foldl_takeIn_frame]

end Phases

end Push

end AiMemory
