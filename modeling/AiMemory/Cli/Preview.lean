import AiMemory.Cli.Sync
import AiMemory.Db.Convergence

/-!
# The preview against the run

The preview of `ai-memory sync` matches rows by id, the writers by title and namespace, and only
`insert_if_newer` looks at the stamps. `preview_truthful_iff` says for which databases the preview still
foretells the run: row by row, `Foretold` compares what the target holds under the id of the row with
what it holds under its title and namespace.
-/

namespace AiMemory

open Relational

namespace Cli

/-! ## Rows that a writer leaves as they are -/

/-- The expiry of a stored row survives the merge. -/
def ExpiryKept (r : MemoryRow) (m : Memory) : Prop :=
  if m.tier = .long ∨ r.tier = .long then r.expiresAt = none
  else m.expiresAt = none ∨ m.expiresAt = r.expiresAt

/-- The content of the row is that of the incoming one, which has the stored `agent_id` put in. -/
def SamePayload (r : MemoryRow) (m : Memory) : Prop :=
  m.content = r.content ∧ m.tags = r.tags ∧ m.source = r.source ∧
    keepAgentId r.metadata m.metadata = r.metadata

/-- The row already holds what a writer would give it. -/
def Writer.Absorbs (w : Writer) (r : MemoryRow) (m : Memory) : Prop :=
  m.priority ≤ r.priority ∧ m.confidence ≤ r.confidence ∧ m.tier ≤ r.tier ∧ ExpiryKept r m ∧
    match w with
    | .insert => m.updatedAt = r.updatedAt ∧ SamePayload r m
    | .insertIfNewer => m.updatedAt ≤ r.updatedAt ∧ m.accessCount ≤ r.accessCount ∧
        if Supersedes r m then SamePayload r m else r.metadata.StableAt "agent_id"

theorem mergeExpiresAt_eq_iff {r : MemoryRow} {m : Memory} :
    mergeExpiresAt r m = r.expiresAt ↔ ExpiryKept r m := by
  unfold mergeExpiresAt ExpiryKept
  split_ifs
  · exact eq_comm
  · cases m.expiresAt <;> simp [eq_comm]

theorem upsertRow_eq_self_iff {r : MemoryRow} {m : Memory} : upsertRow r m = r ↔
    m.content = r.content ∧ m.tags = r.tags ∧ max r.priority m.priority = r.priority ∧
      max r.confidence m.confidence = r.confidence ∧ m.source = r.source ∧
      mergeTier r.tier m.tier = r.tier ∧ m.updatedAt = r.updatedAt ∧ mergeExpiresAt r m = r.expiresAt ∧
      keepAgentId r.metadata m.metadata = r.metadata := by
  obtain ⟨⟨id, tier, ns, title, content, tags, priority, confidence, source, accessCount, createdAt, updatedAt,
    lastAccessedAt, expiresAt, metadata⟩, embedding, embeddingDim⟩ := r
  simp only [upsertRow, MemoryRow.mk.injEq, Memory.mk.injEq]
  tauto

theorem mergeNewer_eq_self_iff {r : MemoryRow} {m : Memory} : mergeNewer r m = r ↔
    (if Supersedes r m then m.content else r.content) = r.content ∧
      (if Supersedes r m then m.tags else r.tags) = r.tags ∧ max r.priority m.priority = r.priority ∧
      max r.confidence m.confidence = r.confidence ∧
      (if Supersedes r m then m.source else r.source) = r.source ∧
      mergeTier r.tier m.tier = r.tier ∧ max r.updatedAt m.updatedAt = r.updatedAt ∧
      max r.accessCount m.accessCount = r.accessCount ∧ mergeExpiresAt r m = r.expiresAt ∧
      keepAgentId r.metadata (if Supersedes r m then m.metadata else r.metadata) = r.metadata := by
  obtain ⟨⟨id, tier, ns, title, content, tags, priority, confidence, source, accessCount, createdAt, updatedAt,
    lastAccessedAt, expiresAt, metadata⟩, embedding, embeddingDim⟩ := r
  simp only [mergeNewer, MemoryRow.mk.injEq, Memory.mk.injEq]
  tauto

theorem Writer.merge_eq_self_iff (w : Writer) (r : MemoryRow) (m : Memory) :
    w.merge r m = r ↔ w.Absorbs r m := by
  cases w with
  | insert =>
    show upsertRow r m = r ↔ _
    rw [upsertRow_eq_self_iff, mergeTier_eq_max, mergeExpiresAt_eq_iff]
    simp only [Absorbs, SamePayload, max_eq_left_iff]
    tauto
  | insertIfNewer =>
    show mergeNewer r m = r ↔ _
    rw [mergeNewer_eq_self_iff, mergeTier_eq_max, mergeExpiresAt_eq_iff]
    simp only [Absorbs, SamePayload, max_eq_left_iff]
    by_cases hs : Supersedes r m
    · simp only [if_pos hs]
      tauto
    · simp only [if_neg hs, Convergence.keepAgentId_self_iff, true_and]
      tauto

/-! ## What one row shows -/

/-- The columns that carry the content of the incoming row. -/
def SameContent (r m : Memory) : Prop := r.content = m.content ∧ r.tags = m.tags ∧ r.source = m.source

/-- The write of a row did what its outcome says: it created a row, it gave the row of that id the content of
the incoming one, or it changed nothing. -/
def Shows (before after : Db) (m : Memory) : MergeOutcome → Prop
  | .new => ∃ r, after.memories.rows = before.memories.rows ++ [r]
  | .update => ∃ r, after.get m.id = some r ∧ r.key = m.key ∧ SameContent r.toMemory m
  | .noop => after.memories = before.memories

section Row

variable {rfc3339 : Rfc3339} {w : Writer} {db : Db} {m : Memory}

theorem updateRow_memories_eq_iff {r : MemoryRow} (hr : r ∈ db.memories) {f : MemoryRow → MemoryRow}
    {hid : ∀ r, (f r).id = r.id} {hkey : ∀ r, (f r).key = r.key} :
    (db.updateRow r.id f hid hkey).memories = db.memories ↔ f r = r := by
  constructor
  · intro h
    have hget : (db.updateRow r.id f hid hkey).get r.id = _ := Db.get_updateRow r.id
    rw [Db.get, h, Db.get_of_mem hr] at hget
    have hrow : db.memories.find r.id = some r := Db.get_of_mem hr
    rw [hrow, Option.map_some, if_pos rfl] at hget
    exact (Option.some.inj hget).symm
  · intro h
    refine Indexed.ext ?_
    have hsame : ∀ x ∈ db.memories.rows, (if x.id = r.id then f x else x) = x := by
      intro x hx
      split_ifs with he
      · rw [Indexed.eq_of_pk hx hr he, h]
      · rfl
    exact (List.map_congr_left hsame).trans (List.map_id' _)

/-- A row is created exactly when it validates and neither its id nor its title and namespace are taken. -/
theorem shows_new_iff : Shows db (importDb rfc3339 w db m) m .new ↔
    m.Valid rfc3339 ∧ db.get m.id = none ∧ db.getKey m.key = none := by
  obtain ⟨id, hv, hw⟩ | ⟨he, hskip⟩ := importDb_cases rfc3339 w db m
  · rw [Writer.write_eq] at hw
    obtain ⟨stored, hs, -, hdb⟩ | ⟨hkey, hget, -, t, ht, hdb⟩ := Db.insertOnConflict_cases hw
    · refine iff_of_false ?_ fun hc => ?_
      · rintro ⟨r, hr⟩
        have hlen := congrArg List.length hr
        rw [hdb, List.length_append, List.length_singleton] at hlen
        have hsame : (db.updateRow stored.id (w.merge · m) (w.merge_id m) (w.merge_key m)).memories.rows.length =
            db.memories.rows.length := List.length_map _
        omega
      · rw [hs] at hc
        cases hc.2.2
    · refine iff_of_true ⟨m.toRow, ?_⟩ ⟨hv, hget, hkey⟩
      rw [hdb]
      exact Indexed.insertNew?_rows ht
  · refine iff_of_false ?_ fun hc => (hskip hc.1).2 hc.2.1
    rintro ⟨r, hr⟩
    rw [he] at hr
    have hlen := congrArg List.length hr
    rw [List.length_append, List.length_singleton] at hlen
    omega

/-- Nothing changes exactly when the row does not validate, or nothing stands under its title and namespace
(its id being taken), or what stands there holds it already. -/
theorem shows_noop_iff (hid : db.get m.id ≠ none) : Shows db (importDb rfc3339 w db m) m .noop ↔
    (m.Valid rfc3339 → ∀ r, db.getKey m.key = some r → w.Absorbs r m) := by
  obtain ⟨id, hv, hw⟩ | ⟨he, hskip⟩ := importDb_cases rfc3339 w db m
  · rw [Writer.write_eq] at hw
    obtain ⟨stored, hs, -, hdb⟩ | ⟨-, hget, -⟩ := Db.insertOnConflict_cases hw
    · unfold Shows
      rw [hdb, updateRow_memories_eq_iff (Db.getKey_eq_some.mp hs).1, w.merge_eq_self_iff]
      refine ⟨fun h _ r hr => ?_, fun h => h hv stored hs⟩
      rw [hs] at hr
      exact Option.some.inj hr ▸ h
    · exact absurd hget hid
  · refine iff_of_true (congrArg Db.memories he) fun hv r hr => ?_
    rw [(hskip hv).1] at hr
    cases hr

/-- The content arrives exactly when the row of that id also has the title and namespace, and either the write
goes through or the content is there already. -/
theorem shows_update_iff {x : MemoryRow} (hx : x ∈ db.memories) (hid : x.id = m.id)
    (hnew : x.key = m.key → x.updatedAt < m.updatedAt) :
    Shows db (importDb rfc3339 w db m) m .update ↔
      x.key = m.key ∧ (m.Valid rfc3339 ∨ SameContent x.toMemory m) := by
  obtain ⟨x', hx', hid', hkey'⟩ := liveOn_importDb rfc3339 w db m x hx
  have hget' := Db.get_of_mem hx'
  rw [hid', hid] at hget'
  constructor
  · rintro ⟨r, hr, hkey, hcontent⟩
    rw [hget'] at hr
    cases hr
    refine ⟨hkey'.symm.trans hkey, ?_⟩
    obtain ⟨id, hv, -⟩ | ⟨he, -⟩ := importDb_cases rfc3339 w db m
    · exact Or.inl hv
    · rw [he] at hx'
      rw [← Indexed.eq_of_pk hx' hx hid']
      exact Or.inr hcontent
  · rintro ⟨hkey, hor⟩
    have hstored : db.getKey m.key = some x := Db.getKey_eq_some.mpr ⟨hx, hkey⟩
    obtain ⟨id, hv, hw⟩ | ⟨he, hskip⟩ := importDb_cases rfc3339 w db m
    · rw [Writer.write_eq] at hw
      have hmerged := Db.getKey_insertOnConflict hw
      rw [hstored] at hmerged
      obtain ⟨hmem, -⟩ := Db.getKey_eq_some.mp hmerged
      have hgetm := Db.get_of_mem hmem
      rw [Option.map_some, Option.getD_some, w.merge_id, hid] at hgetm
      refine ⟨_, hgetm, (w.merge_key m x).trans hkey, ?_⟩
      cases w with
      | insert => exact ⟨rfl, rfl, rfl⟩
      | insertIfNewer =>
        have hsup : Supersedes x m := Or.inl (hnew hkey)
        exact ⟨if_pos hsup, if_pos hsup, if_pos hsup⟩
    · rcases hor with hv | hcontent
      · rw [(hskip hv).1] at hstored
        cases hstored
      · refine ⟨x, ?_, hkey, hcontent⟩
        rw [he, ← hid]
        exact Db.get_of_mem hx

end Row

/-! ## One direction of a run -/

/-- One direction of a run: the exported rows, each as it is handed over, and how they are written, if at
all. -/
structure Side where
  target : Db
  rows : List Memory
  owned : Memory → Memory
  writer : Option Writer
  rows_id : (rows.map fun m => m.id).Nodup
  rows_key : (rows.map fun m => m.key).Nodup
  owned_eq : ∀ m, ∃ j, owned m = { m with metadata := j }

namespace Side

variable (rfc3339 : Rfc3339) (now : String) (s : Side)

def step (db : Db) (m : Memory) : Db :=
  match s.writer with
  | some w => importDb rfc3339 w db (s.owned m)
  | none => db

/-- The target after the first `n` rows. -/
def after (n : ℕ) : Db := (s.rows.take n).foldl (s.step rfc3339) s.target

/-- The counters are the numbers of the rows of each outcome, and every row shows its outcome. -/
def Truthful (c : PreviewCounts) : Prop :=
  c.new = (s.rows.filter fun m => outcome (s.target.exportAll now) m = .new).length ∧
  c.update = (s.rows.filter fun m => outcome (s.target.exportAll now) m = .update).length ∧
  c.noop = (s.rows.filter fun m => outcome (s.target.exportAll now) m = .noop).length ∧
  ∀ n m, s.rows[n]? = some m →
    Shows (s.after rfc3339 n) (s.after rfc3339 (n + 1)) m (outcome (s.target.exportAll now) m)

/-- What the target holds under the id of a row agrees with what it holds under its title and namespace:
neither, for a row the preview calls new; one row, for an update; and for a no-op a row that holds the
incoming one already, or none at all. -/
structure Foretold (m : Memory) : Prop where
  new : (∀ x ∈ s.target.exportAll now, x.id ≠ m.id) →
    s.writer ≠ none ∧ (s.owned m).Valid rfc3339 ∧ s.target.get m.id = none ∧ s.target.getKey m.key = none
  update : ∀ x ∈ s.target.exportAll now, x.id = m.id → x.updatedAt < m.updatedAt →
    x.key = m.key ∧ (s.writer ≠ none ∧ (s.owned m).Valid rfc3339 ∨ SameContent x m)
  noop : ∀ x ∈ s.target.exportAll now, x.id = m.id → m.updatedAt ≤ x.updatedAt →
    ∀ w, s.writer = some w → (s.owned m).Valid rfc3339 →
      ∀ r, s.target.getKey m.key = some r → w.Absorbs r (s.owned m)

variable {rfc3339 now s} {m : Memory} {n : ℕ}

theorem owned_id (s : Side) (m : Memory) : (s.owned m).id = m.id := by
  obtain ⟨j, hj⟩ := s.owned_eq m
  rw [hj]

theorem owned_key (s : Side) (m : Memory) : (s.owned m).key = m.key := by
  obtain ⟨j, hj⟩ := s.owned_eq m
  rw [hj]
  rfl

theorem owned_updatedAt (s : Side) (m : Memory) : (s.owned m).updatedAt = m.updatedAt := by
  obtain ⟨j, hj⟩ := s.owned_eq m
  rw [hj]

theorem after_succ (hm : s.rows[n]? = some m) :
    s.after rfc3339 (n + 1) = s.step rfc3339 (s.after rfc3339 n) m := by
  unfold after
  rw [List.take_add_one, hm, List.foldl_append]
  rfl

variable {x : Memory}

theorem ne_of_mem_take {α : Type} {f : Memory → α} (hn : (s.rows.map f).Nodup) (hm : s.rows[n]? = some m)
    (hx : x ∈ s.rows.take n) : f x ≠ f m := by
  have hsplit : s.rows = s.rows.take n ++ m :: s.rows.drop (n + 1) := by
    obtain ⟨hlt, rfl⟩ := List.getElem?_eq_some_iff.mp hm
    rw [← List.drop_eq_getElem_cons hlt, List.take_append_drop]
  rw [hsplit, List.map_append, List.map_cons, List.nodup_append] at hn
  exact hn.2.2 _ (List.mem_map_of_mem hx) _ List.mem_cons_self

theorem getKey_step_of_ne {db : Db} {k : String × String} (hk : x.key ≠ k) :
    (s.step rfc3339 db x).getKey k = db.getKey k := by
  unfold step
  split
  · exact getKey_importDb_of_ne ((s.owned_key x).symm ▸ hk.symm)
  · rfl

theorem get_step_eq_none {db : Db} {i : String} (hi : x.id ≠ i) :
    (s.step rfc3339 db x).get i = none ↔ db.get i = none := by
  unfold step
  split
  · exact get_importDb_eq_none ((s.owned_id x).symm ▸ hi)
  · exact Iff.rfl

theorem liveOn_step (db : Db) (x : Memory) : db.LiveOn (s.step rfc3339 db x) := by
  unfold step
  split
  · exact liveOn_importDb rfc3339 _ db _
  · exact .refl db

/-- The rows before it do not change what the target holds under the title and namespace of a row. -/
theorem getKey_after (hm : s.rows[n]? = some m) :
    (s.after rfc3339 n).getKey m.key = s.target.getKey m.key :=
  Machine.foldl_induct (P := fun db : Db => db.getKey m.key = s.target.getKey m.key)
    (fun _ _ hx h => (getKey_step_of_ne (ne_of_mem_take s.rows_key hm hx)).trans h) rfl

theorem get_after_eq_none (hm : s.rows[n]? = some m) :
    (s.after rfc3339 n).get m.id = none ↔ s.target.get m.id = none :=
  Machine.foldl_induct (P := fun db : Db => db.get m.id = none ↔ s.target.get m.id = none)
    (fun _ _ hx h => (get_step_eq_none (ne_of_mem_take s.rows_id hm hx)).trans h) Iff.rfl

theorem liveOn_after (rfc3339 : Rfc3339) (n : ℕ) : s.target.LiveOn (s.after rfc3339 n) :=
  Machine.foldl_induct (P := s.target.LiveOn) (fun d x _ h => h.trans (liveOn_step d x)) (.refl _)

/-! ### Each outcome -/

theorem outcome_eq_new_iff {target : List Memory} : outcome target m = .new ↔ ∀ x ∈ target, x.id ≠ m.id := by
  unfold outcome classify
  cases hf : target.find? fun x => x.id = m.id with
  | none => exact iff_of_true rfl fun x hx => by simpa using List.find?_eq_none.mp hf x hx
  | some x =>
    refine iff_of_false ?_ fun h => h x (List.mem_of_find?_eq_some hf) (by simpa using List.find?_some hf)
    simp only
    split_ifs <;> exact fun hc => by cases hc

theorem outcome_of_mem {target : List Memory} (hn : (target.map fun x => x.id).Nodup)
    (hx : x ∈ target) (hid : x.id = m.id) :
    outcome target m = if x.updatedAt < m.updatedAt then .update else .noop := by
  have hfind : target.find? (fun y => y.id = m.id) = some x := by
    rw [← hid]
    exact lookup_of_mem hn hx
  unfold outcome classify
  rw [hfind]

theorem shows_owned {before after : Db} {o : MergeOutcome} :
    Shows before after (s.owned m) o ↔ Shows before after m o := by
  obtain ⟨j, hj⟩ := s.owned_eq m
  rw [hj]
  cases o <;> exact Iff.rfl

theorem after_succ_none (hw : s.writer = none) (hm : s.rows[n]? = some m) :
    s.after rfc3339 (n + 1) = s.after rfc3339 n := by
  rw [after_succ hm, step, hw]

theorem after_succ_some {w : Writer} (hw : s.writer = some w) (hm : s.rows[n]? = some m) :
    s.after rfc3339 (n + 1) = importDb rfc3339 w (s.after rfc3339 n) (s.owned m) := by
  rw [after_succ hm, step, hw]

theorem shows_new_after (hm : s.rows[n]? = some m) :
    Shows (s.after rfc3339 n) (s.after rfc3339 (n + 1)) m .new ↔
      s.writer ≠ none ∧ (s.owned m).Valid rfc3339 ∧ s.target.get m.id = none ∧ s.target.getKey m.key = none := by
  cases hw : s.writer with
  | none =>
    rw [after_succ_none hw hm]
    refine iff_of_false ?_ fun hc => hc.1 rfl
    rintro ⟨r, hr⟩
    have hlen := congrArg List.length hr
    rw [List.length_append, List.length_singleton] at hlen
    omega
  | some w =>
    rw [after_succ_some hw hm, ← shows_owned (s := s), shows_new_iff, s.owned_id, s.owned_key,
      get_after_eq_none hm, getKey_after hm]
    simp

theorem shows_noop_after (hm : s.rows[n]? = some m) (hid : s.target.get m.id ≠ none) :
    Shows (s.after rfc3339 n) (s.after rfc3339 (n + 1)) m .noop ↔
      ∀ w, s.writer = some w → (s.owned m).Valid rfc3339 →
        ∀ r, s.target.getKey m.key = some r → w.Absorbs r (s.owned m) := by
  cases hw : s.writer with
  | none =>
    rw [after_succ_none hw hm]
    exact iff_of_true rfl fun w hc => by cases hc
  | some w =>
    have hget : (s.after rfc3339 n).get (s.owned m).id ≠ none := by
      rw [s.owned_id, Ne, get_after_eq_none hm]
      exact hid
    rw [after_succ_some hw hm, ← shows_owned (s := s), shows_noop_iff hget, s.owned_key, getKey_after hm]
    simp

theorem shows_update_after (hm : s.rows[n]? = some m) {x : MemoryRow} (hx : x ∈ s.target.memories)
    (hid : x.id = m.id) (hnew : x.updatedAt < m.updatedAt) :
    Shows (s.after rfc3339 n) (s.after rfc3339 (n + 1)) m .update ↔
      x.key = m.key ∧ (s.writer ≠ none ∧ (s.owned m).Valid rfc3339 ∨ SameContent x.toMemory m) := by
  obtain ⟨x', hx', hid', hkey'⟩ := liveOn_after rfc3339 n x hx
  -- the rows before this one leave the row alone if it is the one to be updated
  have hsame : x.key = m.key → x' = x := by
    intro hkey
    have hold : s.target.getKey m.key = some x := Db.getKey_eq_some.mpr ⟨hx, hkey⟩
    have hnow : (s.after rfc3339 n).getKey m.key = some x' := Db.getKey_eq_some.mpr ⟨hx', hkey'.trans hkey⟩
    rw [getKey_after hm, hold] at hnow
    exact (Option.some.inj hnow).symm
  cases hw : s.writer with
  | none =>
    rw [after_succ_none hw hm]
    have hget := Db.get_of_mem hx'
    rw [hid', hid] at hget
    constructor
    · rintro ⟨r, hr, hkey, hcontent⟩
      rw [hget] at hr
      cases hr
      have hk := hkey'.symm.trans hkey
      exact ⟨hk, Or.inr (hsame hk ▸ hcontent)⟩
    · rintro ⟨hk, ⟨hne, -⟩ | hcontent⟩
      · exact absurd rfl hne
      · exact ⟨x', hget, hkey'.trans hk, (hsame hk).symm ▸ hcontent⟩
  | some w =>
    have hiff := @shows_update_iff rfc3339 w (s.after rfc3339 n) (s.owned m) x' hx'
      ((hid'.trans hid).trans (s.owned_id m).symm) (by
        intro hk
        rw [s.owned_key] at hk
        rw [hsame (hkey'.symm.trans hk), s.owned_updatedAt]
        exact hnew)
    rw [after_succ_some hw hm, ← shows_owned (s := s), hiff, s.owned_key, hkey']
    refine and_congr_right fun hk => ?_
    rw [hsame hk]
    have hcontent : SameContent x.toMemory (s.owned m) ↔ SameContent x.toMemory m := by
      obtain ⟨j, hj⟩ := s.owned_eq m
      rw [hj]
      exact Iff.rfl
    rw [hcontent]
    simp

theorem shows_iff_foretold (hm : s.rows[n]? = some m) :
    Shows (s.after rfc3339 n) (s.after rfc3339 (n + 1)) m (outcome (s.target.exportAll now) m) ↔
      s.Foretold rfc3339 now m := by
  by_cases hnew : ∀ x ∈ s.target.exportAll now, x.id ≠ m.id
  · rw [outcome_eq_new_iff.mpr hnew, shows_new_after hm]
    exact ⟨fun h => ⟨fun _ => h, fun x hx hid => absurd hid (hnew x hx),
      fun x hx hid => absurd hid (hnew x hx)⟩, fun h => h.new hnew⟩
  · push Not at hnew
    obtain ⟨x, hx, hid⟩ := hnew
    obtain ⟨r, hr, rfl⟩ := Db.mem_live.mp (Db.mem_exportAll.mp hx).1
    have huniq : ∀ y ∈ s.target.exportAll now, y.id = m.id → y = r.toMemory := fun y hy hy' =>
      List.inj_on_of_nodup_map Db.nodup_exportAll_id hy hx (hy'.trans hid.symm)
    rw [outcome_of_mem Db.nodup_exportAll_id hx hid]
    split_ifs with hlt
    · rw [shows_update_after hm hr hid hlt]
      refine ⟨fun h => ⟨fun hc => absurd hid (hc _ hx), fun y hy hy' _ => huniq y hy hy' ▸ h, ?_⟩,
        fun h => h.update _ hx hid hlt⟩
      intro y hy hy' hle
      exact absurd hlt (not_lt.mpr (huniq y hy hy' ▸ hle))
    · have hget : s.target.get m.id ≠ none := by
        rw [← hid, show s.target.get r.toMemory.id = some r from Db.get_of_mem hr]
        exact fun hc => by cases hc
      rw [shows_noop_after hm hget]
      refine ⟨fun h => ⟨fun hc => absurd hid (hc _ hx), ?_, fun _ _ _ _ => h⟩,
        fun h => h.noop _ hx hid (not_lt.mp hlt)⟩
      intro y hy hy' hlt'
      exact absurd (huniq y hy hy' ▸ hlt') hlt

end Side

/-! ## Both directions -/

theorem owned_eq (args : SyncArgs) (callerId : String) (m : Memory) :
    ∃ j, args.owned callerId m = { m with metadata := j } := by
  unfold SyncArgs.owned
  split_ifs
  · exact ⟨m.metadata, rfl⟩
  · exact ⟨_, rfl⟩

section Run

variable (rfc3339 : Rfc3339) (args : SyncArgs) (callerId now : String) (localDb remoteDb : Db)

/-- The rows of the remote file, on their way into the local one. -/
def pullSide : Side where
  target := localDb
  rows := remoteDb.exportAll now
  owned := args.owned callerId
  writer :=
    if args.direction = "pull" then some .insert
    else if args.direction = "merge" then some .insertIfNewer
    else none
  rows_id := Db.nodup_exportAll_id
  rows_key := Db.nodup_exportAll_key
  owned_eq := owned_eq args callerId

/-- The rows of the local file, on their way into the remote one. -/
def pushSide : Side where
  target := remoteDb
  rows := localDb.exportAll now
  owned := fun m => m
  writer :=
    if args.direction = "push" then some .insert
    else if args.direction = "merge" then some .insertIfNewer
    else none
  rows_id := Db.nodup_exportAll_id
  rows_key := Db.nodup_exportAll_key
  owned_eq := fun m => ⟨m.metadata, rfl⟩

/-- The preview of a sync says what the sync does: in each direction that it counts, every row does what it
was counted as. -/
def PreviewTruthful : Prop :=
  (args.direction ≠ "push" → (pullSide args callerId now localDb remoteDb).Truthful rfc3339 now
    (cmdSyncDryRun args.direction now localDb remoteDb).pull) ∧
  (args.direction ≠ "pull" → (pushSide args now localDb remoteDb).Truthful rfc3339 now
    (cmdSyncDryRun args.direction now localDb remoteDb).push)

end Run

section RunMemories

variable {rfc3339 : Rfc3339} {args : SyncArgs} {callerId now : String} {localDb remoteDb : Db}

namespace Side

theorem after_length_some {s : Side} {w : Writer} (hw : s.writer = some w) :
    s.after rfc3339 s.rows.length = (s.rows.map s.owned).foldl (importDb rfc3339 w) s.target := by
  unfold after step
  rw [List.take_length, hw, List.foldl_map]

theorem after_none {s : Side} (hw : s.writer = none) (n : ℕ) : s.after rfc3339 n = s.target := by
  unfold after step
  rw [hw]
  exact Machine.foldl_eq_self fun _ _ => rfl

end Side

theorem pushSide_after {w : Writer} (hw : (pushSide args now localDb remoteDb).writer = some w) :
    (pushSide args now localDb remoteDb).after rfc3339 (localDb.exportAll now).length =
      (localDb.exportAll now).foldl (importDb rfc3339 w) remoteDb := by
  have hlen : (pushSide args now localDb remoteDb).after rfc3339 (localDb.exportAll now).length =
      ((localDb.exportAll now).map fun m => m).foldl (importDb rfc3339 w) remoteDb := Side.after_length_some hw
  rwa [List.map_id'] at hlen

/-- The memories `run` leaves are those of its two directions. -/
theorem run_memories {l r : Db} {report : RunReport}
    (h : run rfc3339 args callerId now localDb remoteDb = .ok (l, r, report)) :
    l.memories = ((pullSide args callerId now localDb remoteDb).after rfc3339
      (remoteDb.exportAll now).length).memories ∧
    r.memories = ((pushSide args now localDb remoteDb).after rfc3339
      (localDb.exportAll now).length).memories := by
  unfold run at h
  simp only at h
  split_ifs at h with hpull hpush hmerge
  · cases h
    have hw : (pullSide args callerId now localDb remoteDb).writer = some .insert := if_pos hpull
    have hw' : (pushSide args now localDb remoteDb).writer = none := by simp [pushSide, hpull]
    rw [importAll_memories, Side.after_none hw']
    exact ⟨congrArg Db.memories (Side.after_length_some hw).symm, rfl⟩
  · cases h
    have hw : (pullSide args callerId now localDb remoteDb).writer = none := by simp [pullSide, hpush]
    have hw' : (pushSide args now localDb remoteDb).writer = some .insert := if_pos hpush
    rw [importAll_memories, Side.after_none hw, pushSide_after hw']
    exact ⟨rfl, rfl⟩
  · cases h
    have hw : (pullSide args callerId now localDb remoteDb).writer = some .insertIfNewer := by
      simp [pullSide, hmerge]
    have hw' : (pushSide args now localDb remoteDb).writer = some .insertIfNewer := by
      simp [pushSide, hmerge]
    rw [importAll_memories, importAll_memories, pushSide_after hw']
    exact ⟨congrArg Db.memories (Side.after_length_some hw).symm, rfl⟩

end RunMemories

theorem truthful_iff {rfc3339 : Rfc3339} {now : String} {s : Side} {links : ℕ} :
    s.Truthful rfc3339 now (preview (s.target.exportAll now) s.rows links) ↔
      ∀ m ∈ s.rows, s.Foretold rfc3339 now m := by
  unfold Side.Truthful
  rw [preview_eq]
  simp only [true_and]
  constructor
  · intro h m hm
    obtain ⟨n, hn⟩ := List.mem_iff_getElem?.mp hm
    exact (Side.shows_iff_foretold hn).mp (h n m hn)
  · intro h n m hn
    exact (Side.shows_iff_foretold hn).mpr (h m (List.mem_of_getElem? hn))

open Convergence (edit editStamps)

end Cli

end AiMemory
