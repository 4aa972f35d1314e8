import AiMemory.Sync.Executed
import AiMemory.Sync.Filings

/-!
# The decisions of a body

A decision runs its action when it is the first one on it, approves it, and finds it pending. `decisions_induct` carries what
every such action keeps over all decisions of a body; `calm_decisions` says so of a calm database, and
`foldl_onDecision_spent` of one in which every action is spent.
-/

namespace AiMemory

open Relational Convergence Validate

namespace Push

/-- The action that a decision of the clock `t` runs. -/
def approvedAction (t : Tick) (dec : PendingDecision) (r : PendingRow) : PendingAction :=
  { r.toPendingAction with status := "approved", decidedBy := some dec.decider, decidedAt := some t.now }

section Decisions

variable {h : Host} {t : Tick} {b : SyncPushBody} {db d : Db} {dec d₀ : PendingDecision} {ds : List PendingDecision}
  {r : PendingRow}

/-- A decision that approves a pending action runs it. -/
theorem onDecision_of_pending (h : Host) (t : Tick) (hv : Accepts (validateId dec.id)) (ha : dec.approved)
    (hr : db.pending.find dec.id = some r) (hst : r.status = "pending") : ∃ pending,
    ({ db with pending } : Db).getPendingAction dec.id = some (approvedAction t dec r) ∧
      ((∃ res, ({ db with pending } : Db).executePendingAction ⟨h.memoryFromValue, t.newId dec.id, t.now⟩ dec.id =
          .ok (onDecision h t db dec, res)) ∨
        ∃ e, ({ db with pending } : Db).executePendingAction ⟨h.memoryFromValue, t.newId dec.id, t.now⟩ dec.id = .error e ∧
          onDecision h t db dec = { db with pending }) := by
  have hchanged : (db.decidePendingAction dec.id dec.approved dec.decider t.now).2 = true := by
    show (db.pending.find dec.id).any _ = true
    rw [hr]
    simpa using hst
  have hpa : (db.decidePendingAction dec.id dec.approved dec.decider t.now).1.getPendingAction dec.id =
      some (approvedAction t dec r) := by
    unfold Db.decidePendingAction Db.getPendingAction
    rw [Db.find_updatePending, hr, ha]
    simp [hst, approvedAction]
  have hrun : (∀ res, (db.decidePendingAction dec.id dec.approved dec.decider t.now).1.executePendingAction
      ⟨h.memoryFromValue, t.newId dec.id, t.now⟩ dec.id = .ok res → onDecision h t db dec = res.1) ∧
      ∀ e, (db.decidePendingAction dec.id dec.approved dec.decider t.now).1.executePendingAction
        ⟨h.memoryFromValue, t.newId dec.id, t.now⟩ dec.id = .error e →
        onDecision h t db dec = (db.decidePendingAction dec.id dec.approved dec.decider t.now).1 := by
    unfold onDecision decide
    rw [if_pos hv]
    cases hp : db.decidePendingAction dec.id dec.approved dec.decider t.now with
    | mk db₁ changed =>
      rw [show changed = true from (congrArg Prod.snd hp).symm.trans hchanged]
      simp only [ha, if_true]
      exact ⟨fun res hx => by rw [hx], fun e hx => by rw [hx]⟩
  refine ⟨(db.decidePendingAction dec.id dec.approved dec.decider t.now).1.pending, hpa, ?_⟩
  show (∃ res, (db.decidePendingAction dec.id dec.approved dec.decider t.now).1.executePendingAction _ _ = _) ∨
    ∃ e, (db.decidePendingAction dec.id dec.approved dec.decider t.now).1.executePendingAction _ _ = _ ∧
      _ = (db.decidePendingAction dec.id dec.approved dec.decider t.now).1
  cases hx : (db.decidePendingAction dec.id dec.approved dec.decider t.now).1.executePendingAction
      ⟨h.memoryFromValue, t.newId dec.id, t.now⟩ dec.id with
  | ok res =>
    rw [hrun.1 res hx]
    exact Or.inl ⟨res.2, rfl⟩
  | error e => exact Or.inr ⟨e, rfl, hrun.2 e hx⟩

theorem onDecision_cases (h : Host) (t : Tick) (db : Db) (dec : PendingDecision) :
    (∃ pending, onDecision h t db dec = { db with pending }) ∨
    (Accepts (validateId dec.id) ∧ dec.approved ∧ ∃ r, db.pending.find dec.id = some r ∧ r.status = "pending" ∧
      ∃ pending res, ({ db with pending } : Db).getPendingAction dec.id = some (approvedAction t dec r) ∧
        ({ db with pending } : Db).executePendingAction ⟨h.memoryFromValue, t.newId dec.id, t.now⟩ dec.id =
          .ok (onDecision h t db dec, res)) := by
  by_cases hrun : Accepts (validateId dec.id) ∧ dec.approved ∧ IsPending (db.pending.find dec.id)
  · obtain ⟨hv, ha, r, hr, hst⟩ := hrun
    obtain ⟨pending, hpa, ⟨res, he⟩ | ⟨e, -, he⟩⟩ := onDecision_of_pending h t hv ha hr hst
    · exact Or.inr ⟨hv, ha, r, hr, hst, pending, res, hpa, he⟩
    · exact Or.inl ⟨pending, he⟩
  · exact Or.inl ⟨_, onDecision_frame fun hv ha hp => hrun ⟨hv, ha, hp⟩⟩

theorem onDecision_of_delete {mid : String} (hr : Runs (dec :: ds) db dec) (hrow : db.pending.find dec.id = some r)
    (hkind : r.actionType = "delete") (hmid : r.memoryId = some mid) :
    ∃ pending, onDecision h t db dec = (({ db with pending } : Db).delete mid).1 := by
  obtain ⟨hfirst, ha, r', hrow', hst⟩ := hr
  cases hrow.symm.trans hrow'
  have hv : Accepts (validateId dec.id) := by
    have hfound := List.find?_some hfirst
    simp only [decide_eq_true_eq] at hfound
    exact hfound.1
  obtain ⟨pending, hpa, hres⟩ := onDecision_of_pending h t hv ha hrow hst
  have hx : ({ db with pending } : Db).executePendingAction ⟨h.memoryFromValue, t.newId dec.id, t.now⟩ dec.id =
      .ok ((({ db with pending } : Db).delete mid).1, some mid) := by
    unfold Db.executePendingAction
    rw [hpa]
    simp [approvedAction, hkind, hmid]
  refine ⟨pending, ?_⟩
  rcases hres with ⟨res, he⟩ | ⟨e, he, -⟩
  · rw [hx, Except.ok.injEq] at he
    exact (congrArg Prod.fst he).symm
  · rw [hx] at he
    cases he

/-! ### Which decisions run -/

theorem Runs.tail (hr : Runs ds (onDecision h t db d₀) dec) : Runs (d₀ :: ds) db dec ∧
    (onDecision h t db d₀).pending.find dec.id = db.pending.find dec.id := by
  obtain ⟨hfirst, ha, hp⟩ := hr
  have hfind := find_onDecision (h := h) (t := t) db d₀ dec.id
  by_cases hsame : Accepts (validateId d₀.id) ∧ d₀.id = dec.id
  · rw [hfind, if_pos hsame] at hp
    exact absurd hp (not_isPending_decideInto _ d₀)
  · rw [if_neg hsame] at hfind
    rw [hfind] at hp
    refine ⟨⟨?_, ha, hp⟩, hfind⟩
    rw [List.find?_cons_of_neg (by simpa using hsame)]
    exact hfirst

theorem Runs.cons (hr : Runs (d₀ :: ds) db dec) : dec = d₀ ∨ Runs ds (onDecision h t db d₀) dec := by
  obtain ⟨hfirst, ha, hp⟩ := hr
  by_cases hsame : Accepts (validateId d₀.id) ∧ d₀.id = dec.id
  · rw [List.find?_cons_of_pos (by simpa using hsame), Option.some.injEq] at hfirst
    exact Or.inl hfirst.symm
  · rw [List.find?_cons_of_neg (by simpa using hsame)] at hfirst
    refine Or.inr ⟨hfirst, ha, ?_⟩
    rwa [find_onDecision, if_neg hsame]

theorem runs_cons_self (hv : Accepts (validateId d₀.id)) (ha : d₀.approved) (hr : db.pending.find d₀.id = some r)
    (hst : r.status = "pending") : Runs (d₀ :: ds) db d₀ :=
  ⟨List.find?_cons_of_pos (by simpa using hv), ha, r, hr, hst⟩

theorem decisions_induct {P : Db → Prop} (hpending : ∀ d pending, P d → P { d with pending })
    (hexec : ∀ dec r, Runs ds db dec → db.pending.find dec.id = some r → ∀ d d' res, P d →
      d.getPendingAction dec.id = some (approvedAction t dec r) →
      d.executePendingAction ⟨h.memoryFromValue, t.newId dec.id, t.now⟩ dec.id = .ok (d', res) → P d')
    (h0 : P db) : P (ds.foldl (onDecision h t) db) := by
  induction ds generalizing db with
  | nil => exact h0
  | cons d₀ ds ih =>
    rw [List.foldl_cons]
    refine ih (fun dec r hr hrow => ?_) ?_
    · obtain ⟨hold, hsame⟩ := hr.tail
      exact hexec dec r hold (hsame ▸ hrow)
    · obtain ⟨pending, he⟩ | ⟨hv, ha, r, hrow, hst, pending, res, hpa, he⟩ := onDecision_cases h t db d₀
      · rw [he]
        exact hpending db pending h0
      · exact hexec d₀ r (runs_cons_self hv ha hrow hst) hrow _ _ res (hpending db pending h0) hpa he

/-! ### In a calm database -/

variable {new : String → Prop} {Filed : PendingDecision → Prop}

/-- What the actions of a body need. -/
structure RunsOk (h : Host) (t : Tick) (b : SyncPushBody) (db : Db) (new : String → Prop) (Filed : PendingDecision → Prop)
    (ds : List PendingDecision) (d : Db) : Prop where
  action : ∀ dec r, Runs ds d dec → d.pending.find dec.id = some r → ActionOk h b t.now db (Filed dec) r.toPendingAction
  target : ∀ dec r, Runs ds d dec → d.pending.find dec.id = some r → ∀ mid, r.memoryId = some mid → ¬new mid
  fresh : ∀ dec, Runs ds d dec → new (t.newId dec.id)
  named : ∀ i, Named h b i → ¬new i

/-- A row that an action of the body deletes. -/
def Deleted (ds : List PendingDecision) (d : Db) (i : String) : Prop :=
  ∃ dec r, Runs ds d dec ∧ d.pending.find dec.id = some r ∧ r.actionType = "delete" ∧ r.memoryId = some i

theorem calm_of_tables {d' : Db} (hc : Calm h b db new d) (hnamed : ∀ i, Named h b i → ¬new i)
    (hm : d'.memories = d.memories) (hl : d'.links = d.links) (hs : d'.namespaceMeta = d.namespaceMeta)
    (ha : d'.archived = d.archived) : Calm h b db new d' := by
  refine Grows.calm ⟨fun r hr => ⟨r, hm ▸ hr, rfl, rfl⟩, fun r hr => Or.inl ⟨r, hm ▸ hr, rfl, rfl⟩,
    fun m _ hk => kept_congr ?_ hk, fun k hk => hl ▸ hk, fun l hl' => Or.inl (hl ▸ hl'), fun e he => Or.inl (hs ▸ he), ha⟩
    hnamed hc
  unfold Db.getKey
  rw [hm]

theorem RunsOk.tail (hok : RunsOk h t b db new Filed (d₀ :: ds) d) :
    RunsOk h t b db new Filed ds (onDecision h t d d₀) := by
  refine ⟨fun dec r hr hrow => ?_, fun dec r hr hrow => ?_, fun dec hr => hok.fresh dec hr.tail.1, hok.named⟩
  · exact hok.action dec r hr.tail.1 (hr.tail.2 ▸ hrow)
  · exact hok.target dec r hr.tail.1 (hr.tail.2 ▸ hrow)

/-- What the actions of a body do: each grows the database and leaves its standards, or deletes a row. -/
theorem decisions_keep {P : Db → Prop} (hok : RunsOk h t b db new Filed ds d) (hc : Calm h b db new d)
    (hpending : ∀ d pending, P d → P { d with pending })
    (hgrows : ∀ e e', Grows h b new e e' → e'.namespaceMeta = e.namespaceMeta → P e → P e')
    (hdelete : ∀ e mid, Deleted ds d mid → P e → P (e.delete mid).1) (h0 : P d) :
    Calm h b db new (ds.foldl (onDecision h t) d) ∧ P (ds.foldl (onDecision h t) d) := by
  refine decisions_induct (P := fun e => Calm h b db new e ∧ P e) (fun e pending he =>
    ⟨calm_of_tables he.1 hok.named rfl rfl rfl rfl, hpending e pending he.2⟩) (fun dec r hr hrow e e' res he hpa hx => ?_) ⟨hc, h0⟩
  obtain ⟨hstore, hdel, hclone, hpromote⟩ := hok.action dec r hr hrow
  have haction : ActionOk h b t.now db (Filed dec) (approvedAction t dec r) := ⟨hstore, hdel, hclone, hpromote⟩
  rcases executed_cases he.1 haction (hok.fresh dec hr) (hok.target dec r hr hrow) hpa hx with ⟨hg, hmeta⟩ | ⟨hkind, mid, hmid, hor, rfl⟩
  · exact ⟨hg.calm hok.named he.1, hgrows e e' hg hmeta he.2⟩
  · exact ⟨he.1.delete hor (hok.target dec r hr hrow mid hmid), hdelete e mid ⟨dec, r, hr, hrow, hkind, hmid⟩ he.2⟩

theorem calm_decisions (hok : RunsOk h t b db new Filed ds d) (hc : Calm h b db new d) :
    Calm h b db new (ds.foldl (onDecision h t) d) :=
  (decisions_keep (P := fun _ => True) hok hc (fun _ _ _ => trivial) (fun _ _ _ _ _ => trivial)
    (fun _ _ _ _ => trivial) trivial).1

/-- A row stays live unless an action deletes it. -/
theorem get_decisions_ne_none {i : String} (hok : RunsOk h t b db new Filed ds d) (hc : Calm h b db new d)
    (hi : ¬Deleted ds d i) (hget : d.get i ≠ none) : (ds.foldl (onDecision h t) d).get i ≠ none :=
  (decisions_keep (P := fun e => e.get i ≠ none) hok hc (fun _ _ he => he) (fun _ _ hg _ he => hg.old.get_ne_none he)
    (fun e mid hd he => by rwa [Db.get_delete, if_neg fun e : i = mid => hi (e ▸ hd)]) hget).2

/-- A standard stays unless an action deletes its memory. -/
theorem mem_standards_decisions {x : NamespaceMetaEntry} (hok : RunsOk h t b db new Filed ds d) (hc : Calm h b db new d)
    (hx : ¬Deleted ds d x.standardId) (hmem : x ∈ d.namespaceMeta) : x ∈ (ds.foldl (onDecision h t) d).namespaceMeta :=
  (decisions_keep (P := fun e : Db => x ∈ e.namespaceMeta) hok hc (fun _ _ he => he) (fun _ _ _ hmeta he => hmeta ▸ he)
    (fun _ _ hd he => mem_standards_delete.mpr ⟨he, fun e => hx (e ▸ hd)⟩) hmem).2

theorem standards_decisions_subset {x : NamespaceMetaEntry} (hok : RunsOk h t b db new Filed ds d) (hc : Calm h b db new d)
    (hmem : x ∈ (ds.foldl (onDecision h t) d).namespaceMeta) : x ∈ d.namespaceMeta :=
  (decisions_keep (P := fun e : Db => ∀ x ∈ e.namespaceMeta, x ∈ d.namespaceMeta) hok hc (fun _ _ he => he)
    (fun _ _ _ hmeta he x hx => he x (hmeta ▸ hx)) (fun _ _ _ he x hx => he x (mem_standards_delete.mp hx).1)
    fun _ hx => hx).2 x hmem

theorem gone_delete {i mid : String} (hg : Gone d i) : Gone (d.delete mid).1 i := by
  refine ⟨by rw [Db.get_delete, hg.1, ite_self], fun e he => hg.2 e (mem_standards_delete.mp he).1⟩

/-- What an action of the body deletes is gone after its decisions. -/
theorem gone_decisions {i : String} (hok : RunsOk h t b db new Filed ds d) (hc : Calm h b db new d) (hi : Deleted ds d i) :
    Gone (ds.foldl (onDecision h t) d) i := by
  have hnew : ¬new i := by
    obtain ⟨dec, r, hr, hrow, -, hmid⟩ := hi
    exact hok.target dec r hr hrow i hmid
  induction ds generalizing d with
  | nil =>
    obtain ⟨dec, r, hr, -⟩ := hi
    cases hr.1
  | cons d₀ ds ih =>
    have hstep : Calm h b db new (onDecision h t d d₀) := by
      have hone : RunsOk h t b db new Filed [d₀] d := by
        have hsub : ∀ dec, Runs [d₀] d dec → Runs (d₀ :: ds) d dec := by
          rintro dec ⟨hfirst, hrest⟩
          have hself : dec = d₀ := List.mem_singleton.mp (List.mem_of_find?_eq_some hfirst)
          have hfound := List.find?_some hfirst
          rw [hself] at hfound hrest ⊢
          exact ⟨List.find?_cons_of_pos hfound, hrest⟩
        exact ⟨fun dec r hr => hok.action dec r (hsub dec hr), fun dec r hr => hok.target dec r (hsub dec hr),
          fun dec hr => hok.fresh dec (hsub dec hr), hok.named⟩
      exact calm_decisions hone hc
    obtain ⟨dec, r, hr, hrow, hkind, hmid⟩ := hi
    rw [List.foldl_cons]
    rcases hr.cons (h := h) (t := t) with rfl | hrest
    · refine (decisions_keep (P := fun e => Gone e i) hok.tail hstep (fun _ _ he => he) (fun _ _ hg _ he => hg.gone hnew he)
        (fun _ _ _ he => gone_delete he) ?_).2
      obtain ⟨pending, he⟩ := onDecision_of_delete (h := h) (t := t) hr hrow hkind hmid
      rw [he]
      refine ⟨by rw [Db.get_delete, if_pos rfl], fun x hx => (mem_standards_delete.mp hx).2⟩
    · have hold := (hrest.tail (h := h) (t := t)).2
      exact ih hok.tail hstep ⟨dec, r, hrest, hold.trans hrow, hkind, hmid⟩

theorem spent_of_tables {d' : Db} {pa : PendingAction} (hm : d'.memories = d.memories) (hn : d'.namespaceMeta = d.namespaceMeta)
    (hs : Spent h d pa) : Spent h d' pa := by
  have hget : ∀ i, d'.get i = d.get i := fun i => by
    unfold Db.get
    rw [hm]
  refine ⟨hs.store, fun hkind mid hmid => ⟨?_, ?_⟩, fun hkind mid hmid => ?_⟩
  · rw [hget]
    exact (hs.delete hkind mid hmid).1
  · rw [hn]
    exact (hs.delete hkind mid hmid).2
  · rw [hget]
    exact hs.promote hkind mid hmid

theorem foldl_onDecision_spent (hs : ∀ dec r, Runs ds db dec → db.pending.find dec.id = some r → Spent h db r.toPendingAction) :
    ds.foldl (onDecision h t) db = { db with pending := (ds.foldl (onDecision h t) db).pending } := by
  refine decisions_induct (P := fun d : Db => d = { db with pending := d.pending }) (fun d pending hd => ?_)
    (fun dec r hr hrow d d' res hd hpa he => ?_) rfl
  · show ({ d with pending } : Db) = { db with pending }
    rw [hd]
  · obtain ⟨hstore, hdel, hpromote⟩ := hs dec r hr hrow
    have hspent : Spent h db (approvedAction t dec r) := ⟨hstore, hdel, hpromote⟩
    rw [executed_spent (spent_of_tables (by rw [hd]) (by rw [hd]) hspent) hpa he]
    exact hd

end Decisions

end Push

end AiMemory
