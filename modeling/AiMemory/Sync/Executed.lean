import AiMemory.Identity.Links
import AiMemory.Sync.Leftover

/-!
# Executed actions

What the approved actions of a body do to a quiet database. A store, a promotion or a clone only adds to it (`Grows`); a
deletion takes one row away. `ActionOk` says when the database stays calm (`calm_executed`): the action writes no title that
the memories of the body would write again, and deletes no row that they or the restores would bring back.
-/

namespace AiMemory

open Relational Convergence

namespace Push

/-- An id that the rows or links of a body name. -/
def Named (h : Host) (b : SyncPushBody) (i : String) : Prop :=
  (∃ m ∈ h.merges b.memories, m.id = i) ∨ i ∈ b.deletions ∨ i ∈ b.archives ∨
    ∃ l ∈ b.links, l.sourceId = i ∨ l.targetId = i

/-- A write that leaves every row under its id and title, adds rows under new ids only, and changes nothing that the
memories of a body would change back. -/
structure Grows (h : Host) (b : SyncPushBody) (new : String → Prop) (d d' : Db) : Prop where
  old : d.LiveOn d'
  rows : ∀ r' ∈ d'.memories, (∃ r ∈ d.memories, r'.id = r.id ∧ r'.key = r.key) ∨
    new r'.id ∧ ∀ m ∈ h.merges b.memories, m.key ≠ r'.key
  kept : ∀ m ∈ h.merges b.memories, Kept h b d m → Kept h b d' m
  links : ∀ k, d.links.find k ≠ none → d'.links.find k ≠ none
  ends : ∀ l ∈ d'.links, l ∈ d.links ∨ d'.get l.sourceId ≠ none ∧ d'.get l.targetId ≠ none
  standards : ∀ e ∈ d'.namespaceMeta, e ∈ d.namespaceMeta ∨ d'.get e.standardId ≠ none
  archived : d'.archived = d.archived

section Grow

variable {h : Host} {b : SyncPushBody} {db d d' : Db} {new : String → Prop} {m : Memory} {i : String}
  {k : String × String}

theorem Grows.get_eq_none (hg : Grows h b new d d') (hnew : ¬new i) (hget : d.get i = none) : d'.get i = none := by
  cases hr : d'.get i with
  | none => rfl
  | some r' =>
    obtain ⟨hmem, rfl⟩ := Db.get_eq_some.mp hr
    rcases hg.rows r' hmem with ⟨r, hold, hid, -⟩ | ⟨hin, -⟩
    · rw [hid, Db.get_of_mem hold] at hget
      cases hget
    · exact absurd hin hnew

theorem Grows.getKey_eq_none (hg : Grows h b new d d') (hm : m ∈ h.merges b.memories) (hkey : d.getKey m.key = none) :
    d'.getKey m.key = none := by
  cases hr : d'.getKey m.key with
  | none => rfl
  | some r' =>
    obtain ⟨hmem, hrkey⟩ := Db.getKey_eq_some.mp hr
    rcases hg.rows r' hmem with ⟨r, hold, -, hsame⟩ | ⟨-, hother⟩
    · rw [← hrkey, hsame, Db.getKey_of_mem hold] at hkey
      cases hkey
    · exact absurd hrkey.symm (hother m hm)

theorem Grows.bare (hg : Grows h b new d d') (hget : d'.get i = none) (hbare : Bare d i) : Bare d' i := by
  refine ⟨fun l hl => ?_, fun e he hid => ?_⟩
  · rcases hg.ends l hl with hold | ⟨hsrc, htgt⟩
    · exact hbare.1 l hold
    · exact ⟨fun e => hsrc (e ▸ hget), fun e => htgt (e ▸ hget)⟩
  · rcases hg.standards e he with hold | hlive
    · exact hbare.2 e hold hid
    · exact hlive (hid ▸ hget)

theorem Grows.gone (hg : Grows h b new d d') (hnew : ¬new i) (hgone : Gone d i) : Gone d' i := by
  have hget := hg.get_eq_none hnew hgone.1
  refine ⟨hget, fun e he hid => ?_⟩
  rcases hg.standards e he with hold | hlive
  · exact hgone.2 e hold hid
  · exact hlive (hid ▸ hget)

theorem Grows.quiet (hg : Grows h b new d d') (hnew : ∀ i, Named h b i → ¬new i) (hq : Quiet h b d) : Quiet h b d' := by
  refine ⟨fun m hm => ?_, fun id hid hv => ?_, fun id hid hv => ?_, fun id hid hv a ha => ?_, fun l hl hv hlevel hends => ?_⟩
  · have hfree : ¬new m.id := hnew m.id (Or.inl ⟨m, hm, rfl⟩)
    rcases hq.memories m hm with hkept | ⟨hnone, hor⟩
    · exact Or.inl (hg.kept m hm hkept)
    · refine Or.inr ⟨hg.getKey_eq_none hm hnone, hor.imp hg.old.get_ne_none fun hpass => ?_⟩
      have hget := hg.get_eq_none hfree hpass.free
      refine ⟨hget, hg.bare hget hpass.bare, hpass.goes.imp_right fun hr => ⟨hr.archives, hr.ids, fun x hx hid => ?_, ?_⟩⟩
      · exact (hr.alone x hx hid).imp_right hg.old.getKey_ne_none
      · rw [hg.archived]
        exact hr.archived
  · exact hg.gone (hnew id (Or.inr (Or.inl hid))) (hq.deletions id hid hv)
  · exact hg.get_eq_none (hnew id (Or.inr (Or.inr (Or.inl hid)))) (hq.archives id hid hv)
  · rw [hg.archived] at ha
    exact (hq.restores id hid hv a ha).imp hg.old.get_ne_none hg.old.getKey_ne_none
  · have hlive : ∀ i, (l.sourceId = i ∨ l.targetId = i) → (d'.get i).isSome → (d.get i).isSome := by
      intro i hi hsome
      by_contra hnone
      have hget : d.get i = none := by simpa using hnone
      rw [hg.get_eq_none (hnew i (Or.inr (Or.inr (Or.inr ⟨l, hl, hi⟩)))) hget] at hsome
      cases hsome
    rw [Db.checkEnds_eq_ok] at hends
    refine hg.links _ (hq.links l hl hv hlevel ?_)
    rw [Db.checkEnds_eq_ok]
    exact ⟨hlive l.sourceId (Or.inl rfl) hends.1, hlive l.targetId (Or.inr rfl) hends.2⟩

theorem Grows.calm (hg : Grows h b new d d') (hnew : ∀ i, Named h b i → ¬new i) (hc : Calm h b db new d) :
    Calm h b db new d' := by
  refine ⟨hg.quiet hnew hc.quiet, fun m hm r' hr' => ?_, fun m hm i hi hleft => ?_, fun r' hr' => ?_, ?_⟩
  · obtain ⟨hmem, hkey⟩ := Db.getKey_eq_some.mp hr'
    rcases hg.rows r' hmem with ⟨r, hold, hid, hsame⟩ | ⟨-, hother⟩
    · rw [hid]
      exact hc.titled m hm r (by rw [← hkey, hsame]; exact Db.getKey_of_mem hold)
    · exact absurd hkey.symm (hother m hm)
  · exact hg.old.getKey_ne_none (hc.stays m hm i hi hleft)
  · rcases hg.rows r' hr' with ⟨r, hold, hid, hsame⟩ | ⟨hin, -⟩
    · rw [hid, hsame]
      exact hc.known r hold
    · exact Or.inr hin
  · rw [hg.archived]
    exact hc.archived

end Grow

/-! ## What an action may do -/

section Conditions

variable (h : Host) (b : SyncPushBody) (now : String) (db : Db)

/-- A store over the row of `m`: newer than its memories, with no expiry that competes, and with an `agent_id` that SQL
hands back as it is. -/
structure Overwrites (mem m : Memory) : Prop where
  row : ∃ i, Placed h b db i m.key ∧ ¬Drops b i
  older : ∀ x ∈ h.merges b.memories, x.key = m.key → x.updatedAt < now
  expiry : mem.tier = .long ∨ mem.expiresAt = none ∨ ∀ x ∈ h.merges b.memories, x.key = m.key → x.expiresAt = none
  agent : mem.metadata.isObject ∧ mem.metadata.StableAt "agent_id"

/-- A deletion of a row that nothing in the body would bring back. -/
structure Undoes (mid : String) : Prop where
  titles : ∀ m ∈ h.merges b.memories, ¬Placed h b db mid m.key
  ids : ∀ m ∈ h.merges b.memories, m.id = mid → ∃ i, Placed h b db i m.key ∧ ¬Drops b i
  restores : ∀ id ∈ b.restores, Accepts (Validate.validateId id) → ∀ a, db.archived.find id = some a →
    id ≠ mid ∧ ¬Placed h b db mid a.key

/-- An id that has no row when the actions run. -/
def Rowless (mid : String) : Prop := Drops b mid ∨ ∀ k, ¬Had h b db mid k

/-- An action that leaves the database calm; `filed` says that the body files it itself, so that a second push runs it
again. -/
structure ActionOk (filed : Prop) (pa : PendingAction) : Prop where
  store : pa.actionType = "store" → ∀ mem, h.memoryFromValue pa.payload = .ok mem →
    ¬filed ∧ ∀ m ∈ h.merges b.memories, m.key = mem.key → Overwrites h b now db mem m
  delete : pa.actionType = "delete" → ∀ mid, pa.memoryId = some mid → Drops b mid ∨ Undoes h b db mid
  clone : pa.actionType = "promote" → ∀ mid toNs, pa.memoryId = some mid →
    (pa.payload.get "to_namespace").bind Json.asStr = some toNs → Rowless h b db mid ∨
      ¬filed ∧ ∀ m ∈ h.merges b.memories, m.ns = toNs → ∀ k, Had h b db mid k → k.1 ≠ m.title
  promote : pa.actionType = "promote" → ∀ mid, pa.memoryId = some mid →
    (pa.payload.get "to_namespace").bind Json.asStr = none → Rowless h b db mid ∨
      ¬filed ∧ ∀ m ∈ h.merges b.memories, Placed h b db mid m.key → m.updatedAt < now

/-- An action that changes nothing: a store without a memory, or a write to a row that is gone. -/
structure Spent (d : Db) (pa : PendingAction) : Prop where
  store : pa.actionType = "store" → ∀ mem, h.memoryFromValue pa.payload ≠ .ok mem
  delete : pa.actionType = "delete" → ∀ mid, pa.memoryId = some mid → Gone d mid
  promote : pa.actionType = "promote" → ∀ mid, pa.memoryId = some mid → d.get mid = none

end Conditions

section Steps

variable {h : Host} {b : SyncPushBody} {now newId : String} {db d d' : Db} {new : String → Prop} {mem m : Memory}
  {mid id : String} {i : String} {k : String × String}

theorem getKey_delete (db : Db) (id : String) (k : String × String) :
    (db.delete id).1.getKey k = (db.getKey k).filter fun r => r.id ≠ id := by
  show ((db.dropStandard id).deleteMemories fun r => r.id ≠ id).getKey k = _
  rw [Db.getKey_deleteMemories]
  rfl

theorem Calm.id_ne (hc : Calm h b db new d) (hok : Drops b mid ∨ Undoes h b db mid) (hm : m ∈ h.merges b.memories)
    {r : MemoryRow} (hr : d.getKey m.key = some r) : r.id ≠ mid := by
  rintro rfl
  have hlive : d.get r.id ≠ none := Db.get_ne_none_iff.mpr ⟨r, (Db.getKey_eq_some.mp hr).1, rfl⟩
  exact (hok.resolve_left (hc.quiet.not_drops hlive)).titles m hm (hc.titled m hm r hr)

theorem Calm.getKey_delete (hc : Calm h b db new d) (hok : Drops b mid ∨ Undoes h b db mid)
    (hm : m ∈ h.merges b.memories) : (d.delete mid).1.getKey m.key = d.getKey m.key := by
  rw [Push.getKey_delete]
  cases hr : d.getKey m.key with
  | none => rfl
  | some r => exact Option.filter_some_pos (by simpa using hc.id_ne hok hm hr)

theorem Calm.noRestore_delete (hc : Calm h b db new d) (hok : Drops b mid ∨ Undoes h b db mid) (hnew : ¬new mid)
    (hi : id ∈ b.restores) (hv : Accepts (Validate.validateId id)) : NoRestore (d.delete mid).1 id := by
  intro a ha
  have harch := hc.archived id hi hv a ha
  rw [Db.get_delete, Push.getKey_delete]
  by_cases hget : d.get mid = none
  · refine (hc.quiet.restores id hi hv a ha).imp (fun hlive => ?_) fun hkey => ?_
    · rwa [if_neg fun e : id = mid => hlive (e ▸ hget)]
    · obtain ⟨r, hr⟩ := Option.ne_none_iff_exists'.mp hkey
      have hne : r.id ≠ mid := fun e => by
        rw [← e, Db.get_of_mem (Db.getKey_eq_some.mp hr).1] at hget
        cases hget
      rw [hr, Option.filter_some_pos (by simpa using hne)]
      exact Option.some_ne_none r
  · have hun := hok.resolve_left (hc.quiet.not_drops hget)
    obtain ⟨hne, hplace⟩ := hun.restores id hi hv a harch
    refine (hc.quiet.restores id hi hv a ha).imp (fun hlive => ?_) fun hkey => ?_
    · rwa [if_neg hne]
    · obtain ⟨r, hr⟩ := Option.ne_none_iff_exists'.mp hkey
      obtain ⟨hmem, hrkey⟩ := Db.getKey_eq_some.mp hr
      have hother : r.id ≠ mid := by
        rintro rfl
        rcases hc.known r hmem with (hp | ⟨hin, hv', a', ha', -⟩) | hnew'
        · exact hplace (hrkey ▸ hp)
        · exact (hun.restores r.id hin hv' a' ha').1 rfl
        · exact hnew hnew'
      rw [hr, Option.filter_some_pos (by simpa using hother)]
      exact Option.some_ne_none r

theorem Calm.linked_delete {l : MemoryLink} (hc : Calm h b db new d) (hl : l ∈ b.links) : Linked h (d.delete mid).1 l := by
  intro hv hlevel hends
  rw [Db.checkEnds_eq_ok, Db.get_delete, Db.get_delete] at hends
  obtain ⟨hsrc, htgt⟩ := hends
  have hlive : ∀ i, (if i = mid then none else d.get i).isSome → i ≠ mid ∧ (d.get i).isSome := by
    intro i hi
    split_ifs at hi with hmid
    · cases hi
    · exact ⟨hmid, hi⟩
  have hold := hc.quiet.links l hl hv hlevel
    (Db.checkEnds_eq_ok.mpr ⟨(hlive _ hsrc).2, (hlive _ htgt).2⟩)
  obtain ⟨row, hrow⟩ := Option.ne_none_iff_exists'.mp hold
  obtain ⟨hmem, hkey⟩ := Table.find_eq_some.mp hrow
  have hends' : row.sourceId = l.sourceId ∧ row.targetId = l.targetId :=
    ⟨congrArg Prod.fst hkey, congrArg (fun k => k.2.1) hkey⟩
  have hstill : row ∈ (d.delete mid).1.links :=
    mem_links_delete.mpr ⟨hmem, fun _ => by rw [hends'.1, hends'.2]; exact ⟨(hlive _ hsrc).1, (hlive _ htgt).1⟩⟩
  rw [Table.find_eq_some.mpr ⟨hstill, hkey⟩]
  exact Option.some_ne_none row

theorem Calm.delete (hc : Calm h b db new d) (hok : Drops b mid ∨ Undoes h b db mid) (hnew : ¬new mid) :
    Calm h b db new (d.delete mid).1 := by
  have hgone : ∀ i, d.get i = none → (d.delete mid).1.get i = none := fun i hi => by
    rw [Db.get_delete, hi, ite_self]
  have hbare : ∀ i, Bare d i → Bare (d.delete mid).1 i := fun i hi =>
    ⟨fun l hl => hi.1 l (mem_links_delete.mp hl).1, fun e he => hi.2 e (mem_standards_delete.mp he).1⟩
  have hq := hc.quiet
  refine ⟨⟨fun m hm => ?_, fun id hid hv => ?_, fun id hid hv => hgone id (hq.archives id hid hv),
    fun id hid hv => hc.noRestore_delete hok hnew hid hv, fun l hl => hc.linked_delete hl⟩,
    fun m hm r hr => ?_, fun m hm i hi hleft => ?_, fun r hr => hc.known r (Db.mem_deleteMemories.mp hr).1, hc.archived⟩
  · rw [hc.getKey_delete hok hm]
    rcases hq.memories m hm with ⟨r, hr, hfix⟩ | ⟨hnone, hlive | hpass⟩
    · exact Or.inl ⟨r, (hc.getKey_delete hok hm).trans hr, hfix⟩
    · refine Or.inr ⟨hnone, Or.inl ?_⟩
      have hne : m.id ≠ mid := by
        intro hid
        have hun := hok.resolve_left (hid ▸ hq.not_drops hlive)
        obtain ⟨i, hi, hleft⟩ := hun.ids m hm hid
        exact hc.stays m hm i hi hleft hnone
      rwa [Db.get_delete, if_neg hne]
    · refine Or.inr ⟨hnone, Or.inr ⟨hgone m.id hpass.free, hbare m.id hpass.bare, hpass.goes.imp_right fun hr =>
        ⟨hr.archives, hr.ids, fun x hx hid => (hr.alone x hx hid).imp_right fun hkey => ?_, hr.archived⟩⟩⟩
      rwa [hc.getKey_delete hok hx]
  · obtain ⟨hget, hstd⟩ := hq.deletions id hid hv
    exact ⟨hgone id hget, fun e he => hstd e (mem_standards_delete.mp he).1⟩
  · rw [hc.getKey_delete hok hm] at hr
    exact hc.titled m hm r hr
  · rw [hc.getKey_delete hok hm]
    exact hc.stays m hm i hi hleft

/-! ### Writes -/

theorem fix_upsertRow {r : MemoryRow} {l : List Memory} (hfix : l.foldl mergeNewer r = r) (hnew : ∀ x ∈ l, x.updatedAt < mem.updatedAt)
    (hexp : mem.tier = .long ∨ mem.expiresAt = none ∨ ∀ x ∈ l, x.expiresAt = none)
    (hagent : mem.metadata.isObject ∧ mem.metadata.StableAt "agent_id") :
    l.foldl mergeNewer (upsertRow r mem) = upsertRow r mem := by
  have htier : (upsertRow r mem).tier = max r.tier mem.tier := mergeTier_eq_max r.tier mem.tier
  have hlong : (upsertRow r mem).tier = .long ↔ mem.tier = .long ∨ r.tier = .long := by
    rw [htier]
    cases r.tier <;> cases mem.tier <;> decide
  refine foldl_mergeNewer_of_newer hfix (agentId_keepAgentId hagent.1 hagent.2).2 hnew
    ⟨by rw [htier]; exact le_max_left _ _, le_max_left _ _, le_max_left _ _, le_rfl⟩ ?_
  have hexpires : (upsertRow r mem).expiresAt =
      if mem.tier = .long ∨ r.tier = .long then none else mem.expiresAt.or r.expiresAt := rfl
  rw [hexpires]
  simp only [hlong]
  split_ifs with hc
  · rfl
  · rw [not_or] at hc
    have hold := lastExpiry_or_of_fix hfix hc.2
    rcases hexp.resolve_left hc.1 with hnone | hnone
    · rw [hnone, Option.none_or, hold]
    · cases hlast : lastExpiry l with
      | none => rfl
      | some e =>
        obtain ⟨x, hx, he⟩ := lastExpiry_eq_some hlast
        rw [hnone x hx] at he
        cases he

theorem fix_promoted {r : MemoryRow} {l : List Memory} (hl : ∀ x ∈ l, x.metadata.isObject) (hne : l ≠ [])
    (hfix : l.foldl mergeNewer r = r) (hnew : ∀ x ∈ l, x.updatedAt < now) :
    l.foldl mergeNewer (applyUpdate { tier := some .long, expiresAt := some "" } now r) =
      applyUpdate { tier := some .long, expiresAt := some "" } now r := by
  have htier : (applyUpdate { tier := some .long, expiresAt := some "" } now r).tier = .long := by
    show effectiveTier (some .long) r.tier = .long
    cases r.tier <;> rfl
  have hstable : r.metadata.StableAt "agent_id" := stableAt_of_fix hl hne hfix
  refine foldl_mergeNewer_of_newer hfix hstable hnew ⟨?_, le_rfl, le_rfl, le_rfl⟩ ?_
  · rw [htier]
    cases r.tier <;> decide
  · rw [if_pos htier]
    rfl

theorem kept_congr (hkey : d'.getKey m.key = d.getKey m.key) (hk : Kept h b d m) : Kept h b d' m := by
  obtain ⟨r, hr, hfix⟩ := hk
  exact ⟨r, hkey.trans hr, hfix⟩

theorem ofKey_objects (hm : m ∈ h.merges b.memories) : (∀ x ∈ ofKey (h.merges b.memories) m.key, x.metadata.isObject) ∧
    ofKey (h.merges b.memories) m.key ≠ [] :=
  ⟨fun _ hx => (canMerge_of_mem (mem_ofKey.mp hx).1).1.isObject, List.ne_nil_of_mem (mem_ofKey.mpr ⟨hm, rfl⟩)⟩

/-- A store grows the database. -/
theorem grows_insert (now : String) (hc : Calm h b db new d) (hnew : new mem.id)
    (hok : ∀ m ∈ h.merges b.memories, m.key = mem.key → mem.updatedAt = now ∧ Overwrites h b now db mem m)
    (hi : d.insert mem = .ok (d', id)) : Grows h b new d d' := by
  have hframe := Db.insertOnConflict_frame hi
  refine ⟨Db.liveOn_insertOnConflict hi, fun r' hr' => ?_, fun m hm hk => ?_, fun k hk => ?_, fun l hl => ?_,
    fun e he => ?_, by rw [hframe]⟩
  · rcases Db.mem_insertOnConflict hi hr' with hold | ⟨r, hr, -, rfl⟩ | rfl
    · exact Or.inl ⟨r', hold, rfl, rfl⟩
    · exact Or.inl ⟨r, hr, rfl, rfl⟩
    · by_cases hstored : d.getKey mem.key = none
      · refine Or.inr ⟨hnew, fun m hm hkey => ?_⟩
        obtain ⟨i, hp, hleft⟩ := (hok m hm hkey).2.row
        have hkey' : m.key = mem.key := hkey
        exact hc.stays m hm i hp hleft (hkey' ▸ hstored)
      · left
        obtain ⟨r, hr⟩ := Option.ne_none_iff_exists'.mp hstored
        have hmerged := Db.getKey_insertOnConflict hi
        rw [hr, Option.map_some, Option.getD_some, show mem.key = mem.toRow.key from rfl, Db.getKey_of_mem hr',
          Option.some.injEq] at hmerged
        rw [hmerged]
        exact ⟨r, (Db.getKey_eq_some.mp hr).1, rfl, rfl⟩
  · by_cases hkey : m.key = mem.key
    · obtain ⟨r, hr, hfix⟩ := hk
      obtain ⟨hnow, hover⟩ := hok m hm hkey
      have hmerged := Db.getKey_insertOnConflict hi
      rw [← hkey, hr, Option.map_some, Option.getD_some] at hmerged
      refine ⟨_, hmerged, fix_upsertRow hfix (fun x hx => ?_) ?_ hover.agent⟩
      · obtain ⟨hx, hxk⟩ := mem_ofKey.mp hx
        rw [hnow]
        exact hover.older x hx hxk
      · refine hover.expiry.imp_right fun hor => hor.imp_right fun hall x hx => ?_
        obtain ⟨hx, hxk⟩ := mem_ofKey.mp hx
        exact hall x hx hxk
    · exact kept_congr (Db.getKey_insertOnConflict_of_ne hi hkey) hk
  · rwa [hframe]
  · rw [hframe] at hl
    exact Or.inl hl
  · rw [hframe] at he
    exact Or.inl he

theorem Grows.trans {d'' : Db} (h₁ : Grows h b new d d') (h₂ : Grows h b new d' d'') : Grows h b new d d'' := by
  refine ⟨h₁.old.trans h₂.old, fun r hr => ?_, fun m hm hk => h₂.kept m hm (h₁.kept m hm hk), fun k hk => h₂.links k (h₁.links k hk),
    fun l hl => ?_, fun e he => ?_, h₂.archived.trans h₁.archived⟩
  · rcases h₂.rows r hr with ⟨r', hr', hid, hkey⟩ | hin
    · rw [hid, hkey]
      rcases h₁.rows r' hr' with ⟨x, hx, hxid, hxkey⟩ | hin
      · exact Or.inl ⟨x, hx, hxid, hxkey⟩
      · exact Or.inr hin
    · exact Or.inr hin
  · rcases h₂.ends l hl with hold | hlive
    · exact (h₁.ends l hold).imp_right fun hlive => ⟨h₂.old.get_ne_none hlive.1, h₂.old.get_ne_none hlive.2⟩
    · exact Or.inr hlive
  · rcases h₂.standards e he with hold | hlive
    · exact (h₁.standards e hold).imp_right h₂.old.get_ne_none
    · exact Or.inr hlive

theorem Grows.refl (d : Db) : Grows h b new d d :=
  ⟨.refl d, fun r hr => Or.inl ⟨r, hr, rfl, rfl⟩, fun _ _ hk => hk, fun _ hk => hk,
    fun _ hl => Or.inl hl, fun _ he => Or.inl he, rfl⟩

theorem grows_createLink {s t rel : String} (hl : d.createLink s t rel now = .ok d') : Grows h b new d d' := by
  obtain ⟨hends, rfl⟩ := Db.createLink_eq_ok.mp hl
  rw [Db.checkEnds_eq_ok] at hends
  refine ⟨.refl d, fun r hr => Or.inl ⟨r, hr, rfl, rfl⟩, fun m _ hk => hk, fun k hk => ?_,
    fun l hl => ?_, fun e he => Or.inl he, rfl⟩
  · obtain ⟨x, hx⟩ := Option.ne_none_iff_exists'.mp hk
    obtain ⟨hmem, hkey⟩ := Table.find_eq_some.mp hx
    rw [Table.find_eq_some.mpr ⟨Db.mem_insertLink.mpr (Or.inl hmem), hkey⟩]
    exact Option.some_ne_none x
  · refine (Db.mem_insertLink.mp hl).imp_right fun ⟨he, _⟩ => ?_
    rw [he]
    exact ⟨Option.ne_none_iff_isSome.mpr hends.1, Option.ne_none_iff_isSome.mpr hends.2⟩

/-- A promotion grows the database. -/
theorem grows_update {res : Bool × Bool} (hc : Calm h b db new d)
    (hok : ∀ m ∈ h.merges b.memories, Placed h b db mid m.key → m.updatedAt < now)
    (hu : d.update mid { tier := some .long, expiresAt := some "" } now = .ok (d', res)) : Grows h b new d d' := by
  obtain ⟨found, changed⟩ := res
  obtain ⟨-, -, rfl⟩ | ⟨existing, -, -, hframe, hrows⟩ := Db.update_cases hu
  · exact .refl _
  · have hmem : ∀ x, x ∈ d'.memories ↔ ∃ r ∈ d.memories,
        (if r.id = mid then applyUpdate { tier := some .long, expiresAt := some "" } now r else r) = x := by
      intro x
      show x ∈ d'.memories.rows ↔ _
      rw [hrows]
      exact List.mem_map
    have hsame : ∀ r : MemoryRow, (if r.id = mid then applyUpdate { tier := some .long, expiresAt := some "" } now r else r).id =
        r.id ∧ (if r.id = mid then applyUpdate { tier := some .long, expiresAt := some "" } now r else r).key = r.key := by
      intro r
      split_ifs <;> exact ⟨rfl, rfl⟩
    refine ⟨fun r hr => ⟨_, (hmem _).mpr ⟨r, hr, rfl⟩, hsame r⟩, fun r' hr' => ?_, fun m hm hk => ?_, fun k hk => ?_,
      fun l hl => ?_, fun e he => ?_, by rw [hframe]⟩
    · obtain ⟨r, hr, rfl⟩ := (hmem r').mp hr'
      exact Or.inl ⟨r, hr, hsame r⟩
    · obtain ⟨r, hr, hfix⟩ := hk
      obtain ⟨hrmem, hrkey⟩ := Db.getKey_eq_some.mp hr
      have hafter : d'.getKey m.key =
          some (if r.id = mid then applyUpdate { tier := some .long, expiresAt := some "" } now r else r) := by
        rw [← hrkey, ← (hsame r).2]
        exact Db.getKey_of_mem ((hmem _).mpr ⟨r, hrmem, rfl⟩)
      refine ⟨_, hafter, ?_⟩
      split_ifs with hmid
      · obtain ⟨hobj, hne⟩ := ofKey_objects hm
        refine fix_promoted hobj hne hfix fun x hx => ?_
        obtain ⟨hx, hxk⟩ := mem_ofKey.mp hx
        refine hok x hx ?_
        rw [hxk, ← hmid]
        exact hc.titled m hm r hr
      · exact hfix
    · rwa [hframe]
    · rw [hframe] at hl
      exact Or.inl hl
    · rw [hframe] at he
      exact Or.inl he

theorem Calm.get_rowless (hc : Calm h b db new d) (hr : Rowless h b db mid) (hnew : ¬new mid) : d.get mid = none := by
  by_contra hget
  obtain ⟨r, hmem, rfl⟩ := Db.get_ne_none_iff.mp hget
  rcases hr with hdrops | hno
  · exact hc.quiet.not_drops hget hdrops
  · exact (hc.known r hmem).elim (hno r.key) hnew

/-! ### One action -/

variable {filed : Prop} {pa : PendingAction} {res : Option String}

/-- An action of the body grows the database and leaves its standards, or deletes a row. -/
theorem executed_cases (hc : Calm h b db new d) (hok : ActionOk h b now db filed pa) (hid : new newId)
    (hmid : ∀ mid, pa.memoryId = some mid → ¬new mid) (hpa : d.getPendingAction id = some pa)
    (he : d.executePendingAction ⟨h.memoryFromValue, newId, now⟩ id = .ok (d', res)) :
    (Grows h b new d d' ∧ d'.namespaceMeta = d.namespaceMeta) ∨
    (pa.actionType = "delete" ∧ ∃ mid, pa.memoryId = some mid ∧ (Drops b mid ∨ Undoes h b db mid) ∧
      d' = (d.delete mid).1) := by
  obtain ⟨pa', hpa', -, ⟨hkind, mem, actualId, hmem, -, hi⟩ | ⟨hkind, mid, hm, rfl⟩ | ⟨hkind, mid, toNs, cloneId, hm, hns, hp⟩ |
    ⟨hkind, mid, res', hm, hns, hu⟩ | ⟨-, hsame⟩⟩ := Db.executePendingAction_spec he
  all_goals rw [hpa, Option.some.injEq] at hpa'
  · obtain ⟨-, hover⟩ := hok.store (hpa' ▸ hkind) mem (hpa' ▸ hmem)
    refine Or.inl ⟨grows_insert now hc hid (fun m hm hkey => ?_) hi, ?_⟩
    · obtain ⟨hrow, holder, hexp, hagent⟩ := hover m hm hkey
      exact ⟨rfl, hrow, holder, hexp, hagent⟩
    · rw [Db.insertOnConflict_frame hi]
  · exact Or.inr ⟨hpa' ▸ hkind, mid, hpa' ▸ hm, hok.delete (hpa' ▸ hkind) mid (hpa' ▸ hm), rfl⟩
  · obtain ⟨-, source, db₁, hs, -, -, hi, hl⟩ := Db.promoteToNamespace_eq_ok.mp hp
    obtain ⟨hmem, hsid⟩ := Db.get_eq_some.mp hs
    have hclone := (hok.clone (hpa' ▸ hkind) mid toNs (hpa' ▸ hm) (hpa' ▸ hns)).resolve_left fun hr => by
      rw [hc.get_rowless hr (hmid mid (hpa' ▸ hm))] at hs
      cases hs
    have hhad : Had h b db mid source.key :=
      hsid ▸ (hc.known source hmem).resolve_right (hsid.symm ▸ hmid mid (hpa' ▸ hm))
    refine Or.inl ⟨(grows_insert now hc hid (fun m hm' hkey => ?_) hi).trans (grows_createLink hl), ?_⟩
    · exact absurd (congrArg Prod.fst hkey).symm (hclone.2 m hm' (congrArg Prod.snd hkey) source.key hhad)
    · rw [Db.createLink_frame hl, Db.insertOnConflict_frame hi]
  · left
    rcases hok.promote (hpa' ▸ hkind) mid (hpa' ▸ hm) (hpa' ▸ hns) with hr | ⟨-, holder⟩
    · rw [Db.update, hc.get_rowless hr (hmid mid (hpa' ▸ hm))] at hu
      cases hu
      exact ⟨Grows.refl d, rfl⟩
    · refine ⟨grows_update hc holder hu, ?_⟩
      obtain ⟨found, changed⟩ := res'
      obtain ⟨-, -, rfl⟩ | ⟨-, -, -, hframe, -⟩ := Db.update_cases hu
      · rfl
      · rw [hframe]
  · rw [hsame]
    exact Or.inl ⟨Grows.refl d, rfl⟩

theorem executed_spent (hs : Spent h d pa) (hpa : d.getPendingAction id = some pa)
    (he : d.executePendingAction ⟨h.memoryFromValue, newId, now⟩ id = .ok (d', res)) : d' = d := by
  obtain ⟨pa', hpa', -, ⟨hkind, mem, actualId, hmem, -, hi⟩ | ⟨hkind, mid, hm, rfl⟩ | ⟨hkind, mid, toNs, cloneId, hm, hns, hp⟩ |
    ⟨hkind, mid, res', hm, hns, hu⟩ | ⟨-, hsame⟩⟩ := Db.executePendingAction_spec he
  all_goals rw [hpa, Option.some.injEq] at hpa'
  · exact absurd (hpa' ▸ hmem) (hs.store (hpa' ▸ hkind) mem)
  · exact delete_eq_self (hs.delete (hpa' ▸ hkind) mid (hpa' ▸ hm))
  · obtain ⟨-, source, -, hget, -⟩ := Db.promoteToNamespace_eq_ok.mp hp
    rw [hs.promote (hpa' ▸ hkind) mid (hpa' ▸ hm)] at hget
    cases hget
  · rw [Db.update, hs.promote (hpa' ▸ hkind) mid (hpa' ▸ hm)] at hu
    cases hu
    rfl
  · exact hsame

end Steps

end Push

end AiMemory
