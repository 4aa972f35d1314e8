import AiMemory.Sync.Settled

/-!
# Pending actions and standards after a body

The last four phases of a push, read one row at a time: the row of a pending action after a body depends
on the row before and on the records of its id only, and so does the row of a namespace as long as every
parent that is looked up has a standard in both pushes or in neither.
-/

namespace AiMemory

open Relational Validate Machine

namespace Push

/-! ## Pending actions -/

/-- The row of a pending action after `upsert_pending_action`. -/
def fileInto (p : Option PendingRow) (pa : PendingAction) : Option PendingRow :=
  some ((p.map fun r => { r with toPendingAction := pa }).getD pa.toRow)

def decideRow (now : String) (dec : PendingDecision) (r : PendingRow) : PendingRow :=
  if r.status = "pending" then
    { r with
      status := if dec.approved then "approved" else "rejected"
      decidedBy := some dec.decider
      decidedAt := some now }
  else r

def decideInto (now : String) (p : Option PendingRow) (dec : PendingDecision) : Option PendingRow :=
  p.map (decideRow now dec)

/-- Still to be decided. -/
def IsPending (p : Option PendingRow) : Prop := ∃ r, p = some r ∧ r.status = "pending"

def filesOf (b : SyncPushBody) (i : String) : List PendingAction :=
  b.pendings.filter fun pa => Accepts (validateId pa.id) ∧ pa.id = i

def decisionsOf (b : SyncPushBody) (i : String) : List PendingDecision :=
  b.pendingDecisions.filter fun dec => Accepts (validateId dec.id) ∧ dec.id = i

section Pendings

variable {h : Host} {t : Tick} {b : SyncPushBody} {db : Db} {now now' : String} {p : Option PendingRow}
  {fs : List PendingAction} {ds : List PendingDecision}

theorem find_onPending (db : Db) (pa : PendingAction) (i : String) : (onPending db pa).pending.find i =
    if Accepts (validateId pa.id) ∧ pa.id = i then fileInto (db.pending.find i) pa
    else db.pending.find i := by
  unfold onPending
  by_cases hv : Accepts (validateId pa.id)
  · rw [if_pos hv, Db.find_upsertPendingAction]
    by_cases hi : pa.id = i
    · rw [if_pos hi.symm, if_pos ⟨hv, hi⟩]
      rfl
    · rw [if_neg (Ne.symm hi), if_neg fun hc => hi hc.2]
  · rw [if_neg hv, if_neg fun hc => hv hc.1]

/-- An executed action leaves the decision as it is. -/
theorem find_onDecision (db : Db) (dec : PendingDecision) (i : String) :
    (onDecision h t db dec).pending.find i =
      if Accepts (validateId dec.id) ∧ dec.id = i then decideInto t.now (db.pending.find i) dec
      else db.pending.find i := by
  unfold onDecision
  by_cases hv : Accepts (validateId dec.id)
  · have hpend : (decide h t db dec).1.pending =
        (db.decidePendingAction dec.id dec.approved dec.decider t.now).1.pending := by
      unfold decide
      cases hp : db.decidePendingAction dec.id dec.approved dec.decider t.now with
      | mk db₁ changed =>
        cases changed with
        | false => rfl
        | true =>
          simp only
          split_ifs
          · split
            · rename_i hx
              exact (executePendingAction_frame hx).2
            · rfl
          · rfl
    rw [if_pos hv, hpend]
    unfold Db.decidePendingAction
    rw [Db.find_updatePending]
    by_cases hi : dec.id = i
    · rw [if_pos (show Accepts (validateId dec.id) ∧ dec.id = i from ⟨hv, hi⟩)]
      unfold decideInto decideRow
      congr 1
      funext r
      simp only [hi, true_and]
    · rw [if_neg (show ¬(Accepts (validateId dec.id) ∧ dec.id = i) from fun hc => hi hc.2)]
      simp only [Ne.symm hi, false_and, if_false, Option.map_id']
  · rw [if_neg hv, if_neg fun hc => hv hc.1]

theorem find_foldl_onPending (i : String) : (b.pendings.foldl onPending db).pending.find i =
    (filesOf b i).foldl fileInto (db.pending.find i) :=
  foldl_view (P := fun _ => True) (fun d : Db => d.pending.find i) _ fileInto (fun _ _ _ _ => trivial)
    (fun d pa _ _ => by simpa using find_onPending d pa i) trivial

theorem find_foldl_onDecision (i : String) :
    (b.pendingDecisions.foldl (onDecision h t) db).pending.find i =
      (decisionsOf b i).foldl (decideInto t.now) (db.pending.find i) :=
  foldl_view (P := fun _ => True) (fun d : Db => d.pending.find i) _ (decideInto t.now)
    (fun _ _ _ _ => trivial) (fun d dec _ _ => by simpa using find_onDecision d dec i) trivial

/-! ### The same records again -/

theorem fileInto_foldl_decideInto (p : Option PendingRow) (ds : List PendingDecision) (pa : PendingAction) :
    fileInto (ds.foldl (decideInto now) p) pa = fileInto p pa := by
  refine foldl_keeps (g := fun p => fileInto p pa) (fun p dec => ?_) p ds
  cases p with
  | none => rfl
  | some r =>
    unfold decideInto decideRow fileInto
    simp only [Option.map_some]
    split_ifs <;> rfl

theorem fileInto_foldl_fileInto (p : Option PendingRow) (fs : List PendingAction) (pa : PendingAction) :
    fileInto (fs.foldl fileInto p) pa = fileInto p pa := by
  refine foldl_keeps (g := fun p => fileInto p pa) (fun p x => ?_) p fs
  cases p <;> rfl

theorem not_isPending_decideInto (p : Option PendingRow) (dec : PendingDecision) :
    ¬IsPending (decideInto now p dec) := by
  rintro ⟨r, hr, hst⟩
  obtain ⟨r₀, -, rfl⟩ := Option.map_eq_some_iff.mp hr
  unfold decideRow at hst
  by_cases hp : r₀.status = "pending"
  · rw [if_pos hp] at hst
    have hword : (if dec.approved then "approved" else "rejected") = "pending" := hst
    revert hword
    cases dec.approved <;> decide
  · rw [if_neg hp] at hst
    exact hp hst

theorem not_isPending_foldl_decideInto (hne : ds ≠ []) : ¬IsPending (ds.foldl (decideInto now) p) := by
  obtain ⟨dec, ds, rfl⟩ := List.exists_cons_of_ne_nil hne
  rw [List.foldl_cons]
  exact foldl_induct (P := fun p => ¬IsPending p) (fun p dec _ _ => not_isPending_decideInto p dec)
    (not_isPending_decideInto p dec)

theorem foldl_decideInto_eq_self (hp : ¬IsPending p) : ds.foldl (decideInto now) p = p := by
  refine foldl_eq_self fun dec _ => ?_
  cases p with
  | none => rfl
  | some r =>
    have hst : r.status ≠ "pending" := fun e => hp ⟨r, rfl, e⟩
    unfold decideInto decideRow
    rw [Option.map_some, if_neg hst]

def undated (r : PendingRow) : PendingRow := { r with decidedAt := none }

theorem undated_decideInto {p p' : Option PendingRow} (hp : p.map undated = p'.map undated)
    (ds : List PendingDecision) :
    (ds.foldl (decideInto now) p).map undated = (ds.foldl (decideInto now') p').map undated := by
  induction ds generalizing p p' with
  | nil => exact hp
  | cons dec ds ih =>
    refine ih ?_
    cases p with
    | none =>
      rw [Option.map_eq_none_iff.mp hp.symm]
      rfl
    | some r =>
      obtain ⟨r', rfl, hr⟩ := Option.map_eq_some_iff.mp hp.symm
      have hst : (undated r').status = (undated r).status := by rw [hr]
      replace hst : r'.status = r.status := hst
      unfold decideInto decideRow
      simp only [Option.map_some, Option.some.injEq, hst]
      by_cases hpend : r.status = "pending"
      · rw [if_pos hpend, if_pos hpend]
        show ({ undated r with
          status := if dec.approved then "approved" else "rejected", decidedBy := some dec.decider } : PendingRow) =
          { undated r' with
            status := if dec.approved then "approved" else "rejected", decidedBy := some dec.decider }
        rw [hr]
      · rw [if_neg hpend, if_neg hpend]
        exact hr.symm

theorem foldl_fileInto_again (p : Option PendingRow) (ds : List PendingDecision) (hne : fs ≠ []) :
    fs.foldl fileInto (ds.foldl (decideInto now) (fs.foldl fileInto p)) = fs.foldl fileInto p := by
  obtain ⟨pa, fs, rfl⟩ := List.exists_cons_of_ne_nil hne
  rw [List.foldl_cons, fileInto_foldl_decideInto, fileInto_foldl_fileInto, List.foldl_cons]

theorem undated_again (p : Option PendingRow) (fs : List PendingAction) (ds : List PendingDecision) :
    (ds.foldl (decideInto now') (fs.foldl fileInto (ds.foldl (decideInto now) (fs.foldl fileInto p)))).map undated =
      (ds.foldl (decideInto now) (fs.foldl fileInto p)).map undated := by
  by_cases hfs : fs = []
  · subst hfs
    by_cases hne : ds = []
    · subst hne
      rfl
    · rw [List.foldl_nil, List.foldl_nil, foldl_decideInto_eq_self (not_isPending_foldl_decideInto hne)]
  · rw [foldl_fileInto_again p ds hfs]
    exact undated_decideInto rfl ds

/-! ### Executed actions -/

/-- A decision that runs its action: an approval, the first on its id, of a pending action. -/
def Runs (ds : List PendingDecision) (db : Db) (dec : PendingDecision) : Prop :=
  (ds.find? fun d => Accepts (validateId d.id) ∧ d.id = dec.id) = some dec ∧ dec.approved ∧
    IsPending (db.pending.find dec.id)

theorem isPending_iff : IsPending p ↔ p.any (fun r => r.status = "pending") = true := by
  cases p with
  | none => exact iff_of_false (by rintro ⟨r, hr, -⟩; cases hr) (by simp)
  | some r => simp [IsPending]

theorem onDecision_frame {dec : PendingDecision} (hno : Accepts (validateId dec.id) → dec.approved →
      ¬IsPending (db.pending.find dec.id)) :
    onDecision h t db dec = { db with pending := (onDecision h t db dec).pending } := by
  unfold onDecision
  split_ifs with hv
  · have hframe : (decide h t db dec).1 = (db.decidePendingAction dec.id dec.approved dec.decider t.now).1 := by
      unfold decide
      cases hp : db.decidePendingAction dec.id dec.approved dec.decider t.now with
      | mk db₁ changed =>
        cases changed with
        | false => rfl
        | true =>
          simp only
          split_ifs with ha
          · exact absurd (isPending_iff.mpr (congrArg Prod.snd hp)) (hno hv ha)
          · rfl
    rw [hframe]
    rfl
  · rfl

end Pendings

/-! ## Standards -/

/-- A row of `namespace_meta` up to its time. -/
def unstamped (e : NamespaceMetaEntry) : NamespaceMetaEntry := { e with updatedAt := "" }

/-- An entry that sets the standard of its namespace. -/
def Sets (db : Db) (e : NamespaceMetaEntry) : Prop :=
  Accepts (validateNamespace e.ns) ∧ Accepts (validateId e.standardId) ∧
    db.get e.standardId ≠ none ∧ e.parentNamespace ≠ some e.ns

instance (db : Db) (e : NamespaceMetaEntry) : Decidable (Sets db e) := inferInstanceAs (Decidable (_ ∧ _))

def resolved (db : Db) (e : NamespaceMetaEntry) : NamespaceMetaEntry :=
  unstamped { e with parentNamespace := e.parentNamespace.or (db.autoDetectParent e.ns) }

/-- The namespaces that `auto_detect_parent` looks at. -/
def dashParents (ns : String) : List String := (Db.dashPrefixes ns.toList).map String.ofList

/-- Cleared by the body. -/
def Clears (b : SyncPushBody) (ns : String) : Prop :=
  Accepts (validateNamespace ns) ∧ ns ∈ b.namespaceMetaClears

/-- A parent that is looked up was set by the body before; or it is not cleared, and is stored or not set from there on; or it
is cleared and not stored. -/
def LookupsOk (b : SyncPushBody) (db : Db) : Prop :=
  ∀ l e l', b.namespaceMeta = l ++ e :: l' → e.parentNamespace = none → ∀ c ∈ dashParents e.ns,
    (∃ x ∈ l, Sets db x ∧ x.ns = c) ∨
    (¬Clears b c ∧ (db.namespaceMeta.find c ≠ none ∨ ∀ x ∈ e :: l', Sets db x → x.ns ≠ c)) ∨
    (Clears b c ∧ db.namespaceMeta.find c = none)

def standards (t : Tick) (b : SyncPushBody) (db : Db) : Db :=
  b.namespaceMetaClears.foldl onNamespaceMetaClear (b.namespaceMeta.foldl (onNamespaceMeta t) db)

section Standards

variable {t t' : Tick} {b : SyncPushBody} {db d : Db} {e : NamespaceMetaEntry} {ns : String}

theorem onNamespaceMeta_cases (t : Tick) (db : Db) (e : NamespaceMetaEntry) :
    (¬Sets db e ∧ onNamespaceMeta t db e = db) ∨
    (Sets db e ∧ ∃ table, onNamespaceMeta t db e = { db with namespaceMeta := table } ∧
      ∀ ns, table.find ns = if ns = e.ns then
        some ⟨e.ns, e.standardId, e.parentNamespace.or (db.autoDetectParent e.ns), t.now⟩
      else db.namespaceMeta.find ns) := by
  unfold onNamespaceMeta Sets
  by_cases hv : Accepts (validateNamespace e.ns) ∧ Accepts (validateId e.standardId)
  · rw [if_pos hv]
    unfold Db.setNamespaceStandard
    by_cases hlive : (db.get e.standardId).isNone
    · rw [if_pos hlive]
      exact Or.inl ⟨fun hc => hc.2.2.1 (Option.isNone_iff_eq_none.mp hlive), rfl⟩
    · rw [if_neg hlive]
      by_cases hself : e.parentNamespace = some e.ns
      · rw [if_pos hself]
        exact Or.inl ⟨fun hc => hc.2.2.2 hself, rfl⟩
      · rw [if_neg hself]
        refine Or.inr ⟨⟨hv.1, hv.2, fun hc => hlive (Option.isNone_iff_eq_none.mpr hc), hself⟩, _, rfl, fun ns => ?_⟩
        rw [Table.find_upsert]
        split_ifs with hns
        · cases hx : db.namespaceMeta.find ns with
          | none => rfl
          | some x =>
            have hkey : x.ns = e.ns := (Table.find_eq_some.mp hx).2.trans hns
            simp [hkey]
        · rfl
  · rw [if_neg hv]
    exact Or.inl ⟨fun hc => hv ⟨hc.1, hc.2.1⟩, rfl⟩

theorem onNamespaceMeta_memories (t : Tick) (db : Db) (e : NamespaceMetaEntry) :
    (onNamespaceMeta t db e).memories = db.memories := by
  obtain ⟨-, he⟩ | ⟨-, table, he, -⟩ := onNamespaceMeta_cases t db e <;> rw [he]

theorem find_onNamespaceMeta_of_ne (hne : ns ≠ e.ns) :
    (onNamespaceMeta t db e).namespaceMeta.find ns = db.namespaceMeta.find ns := by
  obtain ⟨-, he⟩ | ⟨-, table, he, hfind⟩ := onNamespaceMeta_cases t db e
  · rw [he]
  · rw [he]
    exact (hfind ns).trans (if_neg hne)

theorem unstamped_onNamespaceMeta (t : Tick) (db : Db) (e : NamespaceMetaEntry) (ns : String) :
    ((onNamespaceMeta t db e).namespaceMeta.find ns).map unstamped =
      if Sets db e ∧ e.ns = ns then some (resolved db e) else (db.namespaceMeta.find ns).map unstamped := by
  obtain ⟨hno, he⟩ | ⟨hset, table, he, hfind⟩ := onNamespaceMeta_cases t db e
  · rw [he, if_neg fun hc => hno hc.1]
  · rw [he]
    show (table.find ns).map unstamped = _
    rw [hfind]
    by_cases hns : e.ns = ns
    · rw [if_pos hns.symm, if_pos ⟨hset, hns⟩]
      rfl
    · rw [if_neg (Ne.symm hns), if_neg fun hc => hns hc.2]

theorem find_onNamespaceMetaClear (db : Db) (c ns : String) :
    (onNamespaceMetaClear db c).namespaceMeta.find ns =
      if Accepts (validateNamespace c) ∧ c = ns then none else db.namespaceMeta.find ns := by
  unfold onNamespaceMetaClear
  by_cases hv : Accepts (validateNamespace c)
  · rw [if_pos hv]
    show (db.namespaceMeta.filter fun e => e.ns ≠ c).find ns = _
    rw [Table.find_filter]
    cases hx : db.namespaceMeta.find ns with
    | none => simp
    | some x =>
      have hkey : x.ns = ns := (Table.find_eq_some.mp hx).2
      by_cases hc : c = ns
      · subst hc
        simp [Option.filter, hkey, hv]
      · simp [Option.filter, hkey, hc, Ne.symm hc]
  · rw [if_neg hv, if_neg fun hc => hv hc.1]

theorem find_foldl_onNamespaceMetaClear (cs : List String) (db : Db) (ns : String) :
    (cs.foldl onNamespaceMetaClear db).namespaceMeta.find ns =
      if Accepts (validateNamespace ns) ∧ ns ∈ cs then none else db.namespaceMeta.find ns := by
  induction cs generalizing db with
  | nil => rw [if_neg fun hc => by cases hc.2]; rfl
  | cons c cs ih =>
    rw [List.foldl_cons, ih, find_onNamespaceMetaClear]
    by_cases hin : Accepts (validateNamespace ns) ∧ ns ∈ cs
    · rw [if_pos hin, if_pos ⟨hin.1, List.mem_cons_of_mem c hin.2⟩]
    · rw [if_neg hin]
      by_cases hc : Accepts (validateNamespace c) ∧ c = ns
      · obtain ⟨hv, rfl⟩ := hc
        rw [if_pos ⟨hv, rfl⟩, if_pos ⟨hv, List.mem_cons_self⟩]
      · rw [if_neg hc, if_neg]
        rintro ⟨hv, hmem⟩
        rcases List.mem_cons.mp hmem with rfl | hmem
        · exact hc ⟨hv, rfl⟩
        · exact hin ⟨hv, hmem⟩

theorem autoDetectParent_congr (hfind : ∀ c ∈ dashParents ns,
      (d.namespaceMeta.find c).isSome = (db.namespaceMeta.find c).isSome) : d.autoDetectParent ns = db.autoDetectParent ns := by
  unfold Db.autoDetectParent
  refine List.find?_congr fun c hc => ?_
  unfold Db.getNamespaceStandard
  rw [Option.isSome_map, Option.isSome_map, hfind c hc]

theorem sets_congr (hget : ∀ id, d.get id = none ↔ db.get id = none) (e : NamespaceMetaEntry) : Sets d e ↔ Sets db e :=
  and_congr_right fun _ => and_congr_right fun _ => and_congr_left fun _ => not_congr (hget e.standardId)

/-! ### The entries of a body -/

section Entries

variable {l : List NamespaceMetaEntry}

theorem foldl_onNamespaceMeta_memories (t : Tick) (db : Db) (l : List NamespaceMetaEntry) :
    (l.foldl (onNamespaceMeta t) db).memories = db.memories :=
  foldl_keeps (g := fun d : Db => d.memories) (onNamespaceMeta_memories t) db l

theorem sets_foldl_iff (t : Tick) (db : Db) (l : List NamespaceMetaEntry) (e : NamespaceMetaEntry) :
    Sets (l.foldl (onNamespaceMeta t) db) e ↔ Sets db e := by
  refine sets_congr (fun id => ?_) e
  unfold Db.get
  rw [foldl_onNamespaceMeta_memories]

theorem find_foldl_onNamespaceMeta_ne_none (h : db.namespaceMeta.find ns ≠ none) :
    (l.foldl (onNamespaceMeta t) db).namespaceMeta.find ns ≠ none := by
  refine foldl_induct (P := fun d : Db => d.namespaceMeta.find ns ≠ none) (fun d e _ hd => ?_) h
  obtain ⟨-, he⟩ | ⟨-, table, he, hfind⟩ := onNamespaceMeta_cases t d e
  · rwa [he]
  · rw [he]
    show table.find ns ≠ none
    rw [hfind]
    split_ifs
    · exact Option.some_ne_none _
    · exact hd

theorem find_foldl_onNamespaceMeta_of_unset (h : ∀ x ∈ l, Sets db x → x.ns ≠ ns) :
    (l.foldl (onNamespaceMeta t) db).namespaceMeta.find ns = db.namespaceMeta.find ns := by
  refine (foldl_induct (P := fun d : Db => d.memories = db.memories ∧
    d.namespaceMeta.find ns = db.namespaceMeta.find ns) (fun d e he hd => ?_) ⟨rfl, rfl⟩).2
  refine ⟨(onNamespaceMeta_memories t d e).trans hd.1, ?_⟩
  obtain ⟨-, heq⟩ | ⟨hset, -⟩ := onNamespaceMeta_cases t d e
  · rw [heq]
    exact hd.2
  · have hset' : Sets db e := by
      refine (sets_congr (fun id => ?_) e).mp hset
      unfold Db.get
      rw [hd.1]
    rw [find_onNamespaceMeta_of_ne (Ne.symm (h e he hset'))]
    exact hd.2

end Entries

theorem find_standards (t : Tick) (b : SyncPushBody) (db : Db) (ns : String) (hns : ¬Clears b ns) :
    (standards t b db).namespaceMeta.find ns = (b.namespaceMeta.foldl (onNamespaceMeta t) db).namespaceMeta.find ns := by
  unfold standards
  rw [find_foldl_onNamespaceMetaClear]
  exact if_neg hns

theorem find_standards_of_clears (t : Tick) (b : SyncPushBody) (db : Db) (ns : String) (hns : Clears b ns) :
    (standards t b db).namespaceMeta.find ns = none := by
  unfold standards
  rw [find_foldl_onNamespaceMetaClear]
  exact if_pos hns

theorem isSome_of_unstamped {x y : Option NamespaceMetaEntry} (h : x.map unstamped = y.map unstamped) :
    x.isSome = y.isSome := by
  have hsome := congrArg Option.isSome h
  rwa [Option.isSome_map, Option.isSome_map] at hsome

/-- A parent that an entry looks up is found in the second push exactly when it was found in the first. -/
theorem lookup_again (hok : LookupsOk b db) (hmeta : d.namespaceMeta = (standards t b db).namespaceMeta)
    {l l' : List NamespaceMetaEntry} (hb : b.namespaceMeta = l ++ e :: l') (hp : e.parentNamespace = none)
    (hrun : ∀ ns, (∃ x ∈ l, Sets db x ∧ x.ns = ns) →
      (((l.foldl (onNamespaceMeta t') d).namespaceMeta.find ns).map unstamped =
        ((l.foldl (onNamespaceMeta t) db).namespaceMeta.find ns).map unstamped))
    (hsame : ∀ x, Sets d x ↔ Sets db x) {c : String} (hc : c ∈ dashParents e.ns) :
    ((l.foldl (onNamespaceMeta t') d).namespaceMeta.find c).isSome =
      ((l.foldl (onNamespaceMeta t) db).namespaceMeta.find c).isSome := by
  by_cases hset : ∃ x ∈ l, Sets db x ∧ x.ns = c
  · exact isSome_of_unstamped (hrun c hset)
  · have hunset : ∀ x ∈ l, Sets db x → x.ns ≠ c := fun x hx hs he => hset ⟨x, hx, hs, he⟩
    rw [find_foldl_onNamespaceMeta_of_unset hunset,
      find_foldl_onNamespaceMeta_of_unset fun x hx hs => hunset x hx ((hsame x).mp hs), hmeta]
    rcases (hok l e l' hb hp c hc).resolve_left hset with ⟨hno, hstored | hfree⟩ | ⟨hclear, hnone⟩
    · rw [find_standards t b db c hno, Option.isSome_iff_ne_none.mpr hstored]
      exact Option.isSome_iff_ne_none.mpr (find_foldl_onNamespaceMeta_ne_none hstored)
    · rw [find_standards t b db c hno, find_foldl_onNamespaceMeta_of_unset fun x hx hs => ?_]
      rw [hb] at hx
      exact (List.mem_append.mp hx).elim (fun hx => hunset x hx hs) fun hx => hfree x hx hs
    · rw [find_standards_of_clears t b db c hclear, hnone]

theorem entries_again (hok : LookupsOk b db) (hget : ∀ id, d.get id = none ↔ db.get id = none)
    (hmeta : d.namespaceMeta = (standards t b db).namespaceMeta) (l l' : List NamespaceMetaEntry)
    (hb : b.namespaceMeta = l ++ l') (ns : String) (hset : ∃ x ∈ l, Sets db x ∧ x.ns = ns) :
    ((l.foldl (onNamespaceMeta t') d).namespaceMeta.find ns).map unstamped =
      ((l.foldl (onNamespaceMeta t) db).namespaceMeta.find ns).map unstamped := by
  induction l using List.reverseRecOn generalizing l' ns with
  | nil =>
    obtain ⟨x, hx, -⟩ := hset
    cases hx
  | append_singleton l e ih =>
    have hb' : b.namespaceMeta = l ++ e :: l' := by rw [hb, List.append_assoc]; rfl
    have hrun := fun ns => ih (e :: l') hb' ns
    rw [List.foldl_append, List.foldl_append, List.foldl_cons, List.foldl_cons, List.foldl_nil, List.foldl_nil,
      unstamped_onNamespaceMeta, unstamped_onNamespaceMeta]
    simp only [sets_foldl_iff, sets_congr hget]
    by_cases hself : Sets db e ∧ e.ns = ns
    · rw [if_pos hself, if_pos hself]
      unfold resolved
      cases hp : e.parentNamespace with
      | some p => rfl
      | none =>
        rw [autoDetectParent_congr fun c hc => lookup_again hok hmeta hb' hp hrun (sets_congr hget) hc]
    · rw [if_neg hself, if_neg hself]
      refine hrun ns ?_
      obtain ⟨x, hx, hs, he⟩ := hset
      rcases List.mem_append.mp hx with hx | hx
      · exact ⟨x, hx, hs, he⟩
      · cases List.mem_singleton.mp hx
        exact absurd ⟨hs, he⟩ hself

theorem standards_again (hok : LookupsOk b db) (hget : ∀ id, d.get id = none ↔ db.get id = none)
    (hmeta : d.namespaceMeta = (standards t b db).namespaceMeta) (ns : String) :
    ((standards t' b d).namespaceMeta.find ns).map unstamped =
      ((standards t b db).namespaceMeta.find ns).map unstamped := by
  by_cases hns : Clears b ns
  · rw [find_standards_of_clears t' b d ns hns, find_standards_of_clears t b db ns hns]
  · rw [find_standards t' b d ns hns]
    by_cases hset : ∃ x ∈ b.namespaceMeta, Sets db x ∧ x.ns = ns
    · rw [find_standards t b db ns hns]
      exact entries_again hok hget hmeta b.namespaceMeta [] (List.append_nil _).symm ns hset
    · rw [find_foldl_onNamespaceMeta_of_unset fun x hx hs he => hset ⟨x, hx, (sets_congr hget x).mp hs, he⟩, hmeta]

theorem mem_standards {x : NamespaceMetaEntry} (hx : x ∈ (standards t b db).namespaceMeta) :
    x ∈ db.namespaceMeta ∨ db.get x.standardId ≠ none := by
  have hentries : ∀ x ∈ (b.namespaceMeta.foldl (onNamespaceMeta t) db).namespaceMeta,
      x ∈ db.namespaceMeta ∨ db.get x.standardId ≠ none := by
    refine (foldl_induct (P := fun d : Db => d.memories = db.memories ∧
      ∀ x ∈ d.namespaceMeta, x ∈ db.namespaceMeta ∨ db.get x.standardId ≠ none)
      (fun d e _ hd => ?_) ⟨rfl, fun x hx => Or.inl hx⟩).2
    refine ⟨(onNamespaceMeta_memories t d e).trans hd.1, fun x hx => ?_⟩
    obtain ⟨-, he⟩ | ⟨hset, table, he, hfind⟩ := onNamespaceMeta_cases t d e
    · rw [he] at hx
      exact hd.2 x hx
    · rw [he] at hx
      have hx' := (hfind x.ns).symm.trans (Table.find_of_mem (t := table) hx)
      split_ifs at hx'
      · cases hx'
        refine Or.inr ?_
        unfold Db.get
        rw [← hd.1]
        exact hset.2.2.1
      · exact hd.2 x (Table.find_mem hx')
  have hfind := Table.find_of_mem hx
  unfold standards at hfind
  rw [find_foldl_onNamespaceMetaClear] at hfind
  split_ifs at hfind
  exact hentries x (Table.find_mem hfind)

theorem standards_frame (t : Tick) (b : SyncPushBody) (db : Db) :
    standards t b db = { db with namespaceMeta := (standards t b db).namespaceMeta } := by
  have hentry : ∀ d e, d = { db with namespaceMeta := d.namespaceMeta } →
      onNamespaceMeta t d e = { db with namespaceMeta := (onNamespaceMeta t d e).namespaceMeta } := by
    intro d e hd
    obtain ⟨-, he⟩ | ⟨-, table, he, -⟩ := onNamespaceMeta_cases t d e
    · rwa [he]
    · rw [he, hd]
  have hclear : ∀ d c, d = { db with namespaceMeta := d.namespaceMeta } →
      onNamespaceMetaClear d c = { db with namespaceMeta := (onNamespaceMetaClear d c).namespaceMeta } := by
    intro d c hd
    unfold onNamespaceMetaClear
    split_ifs
    · rw [hd]
      rfl
    · exact hd
  exact foldl_induct (P := fun d : Db => d = { db with namespaceMeta := d.namespaceMeta })
    (fun d c _ hd => hclear d c hd) (foldl_induct
      (P := fun d : Db => d = { db with namespaceMeta := d.namespaceMeta }) (fun d e _ hd => hentry d e hd) rfl)

end Standards

/-! ## The last four phases -/

section Filings

variable {h : Host} {t : Tick} {b : SyncPushBody} {db : Db}

theorem filings_eq (h : Host) (t : Tick) (b : SyncPushBody) (db : Db) : filings h t b db =
    standards t b (b.pendingDecisions.foldl (onDecision h t) (b.pendings.foldl onPending db)) := rfl

theorem find_filings (i : String) : (filings h t b db).pending.find i =
    (decisionsOf b i).foldl (decideInto t.now) ((filesOf b i).foldl fileInto (db.pending.find i)) := by
  rw [filings_eq, standards_frame]
  show Table.find (b.pendingDecisions.foldl (onDecision h t) _).pending i = _
  rw [find_foldl_onDecision, find_foldl_onPending]

theorem foldl_onPending_frame (pas : List PendingAction) :
    pas.foldl onPending db = { db with pending := (pas.foldl onPending db).pending } := by
  refine foldl_induct (P := fun d : Db => d = { db with pending := d.pending }) (fun d pa _ hd => ?_) rfl
  unfold onPending
  split_ifs
  · rw [hd]
    rfl
  · exact hd

end Filings

end Push

end AiMemory
