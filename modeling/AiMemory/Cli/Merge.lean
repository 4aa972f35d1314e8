import AiMemory.Cli.Sync
import AiMemory.Db.Convergence

/-!
# When a merge leaves both files in agreement

`ai-memory sync --direction merge` writes the rows of each file into the other, from exports taken before
either changes. Rows meet under their title and namespace and keep the id of the file they are in, while
links are copied by id. `merge_agrees_iff` says for which files both end with the same rows and the same
links between titles and namespaces; the condition looks at the files as they were.
-/

namespace AiMemory

open Relational Convergence

namespace Cli

open Convergence (columns payload maxima)

/-! ## Two rows of one title and namespace -/

/-- Both files end with one `agent_id`: the losing row keeps its own. -/
def AgentKept (winner loser : Json) : Prop :=
  agentId loser = agentId winner ∨ agentId loser = none ∧ winner.StableAt "agent_id"

/-- Merging each of two rows into the other leaves the same columns. -/
structure Reconcile (x y : MemoryRow) : Prop where
  expiry : x.tier = .long ∨ y.tier = .long ∨ x.expiresAt = none ∨ y.expiresAt = none ∨
    x.expiresAt = y.expiresAt
  tied : x.updatedAt = y.updatedAt → x.id = y.id → x.content = y.content ∧ x.tags = y.tags ∧
    x.source = y.source ∧ keepAgentId x.metadata x.metadata = keepAgentId y.metadata y.metadata
  yWins : Supersedes x y.toMemory → AgentKept y.metadata x.metadata
  xWins : Supersedes y x.toMemory → AgentKept x.metadata y.metadata

section Rows

variable {x y : MemoryRow}

theorem keepAgentId_eq_iff {winner loser : Json} (hobj : winner.isObject) :
    keepAgentId loser winner = keepAgentId winner winner ↔ AgentKept winner loser := by
  unfold AgentKept
  cases hl : agentId loser with
  | none =>
    have hnone : keepAgentId loser winner = winner := by
      unfold keepAgentId
      rw [hl]
    rw [hnone]
    constructor
    · intro h
      refine Or.inr ⟨rfl, ?_⟩
      rw [h]
      exact (agentId_keepAgentId_self winner).2
    · rintro (hw | ⟨-, hs⟩)
      · unfold keepAgentId
        rw [← hw]
      · unfold keepAgentId
        cases hw : agentId winner with
        | none => rfl
        | some a => exact (Json.set_extract hs hw).symm
  | some a =>
    have hread : agentId (keepAgentId loser winner) = some a := by
      unfold keepAgentId
      rw [hl]
      exact (agentId_set hobj hl).1
    constructor
    · intro h
      rw [h, (agentId_keepAgentId_self winner).1] at hread
      exact Or.inl hread.symm
    · rintro (hw | ⟨hc, -⟩)
      · exact keepAgentId_congr (hl.trans hw) winner
      · cases hc

theorem mergeExpiresAt_comm_iff : mergeExpiresAt x y.toMemory = mergeExpiresAt y x.toMemory ↔
    (x.tier = .long ∨ y.tier = .long ∨ x.expiresAt = none ∨ y.expiresAt = none ∨ x.expiresAt = y.expiresAt) := by
  unfold mergeExpiresAt
  by_cases hx : x.tier = .long
  · simp [hx]
  · by_cases hy : y.tier = .long
    · simp [hy]
    · simp only [hx, hy, or_self, if_false, false_or]
      cases x.expiresAt <;> cases y.expiresAt <;> simp [eq_comm]

theorem supersedes_or (x y : MemoryRow) : Supersedes x y.toMemory ∨ Supersedes y x.toMemory ∨
    x.updatedAt = y.updatedAt ∧ x.id = y.id := by
  rcases lt_trichotomy x.updatedAt y.updatedAt with h | h | h
  · exact Or.inl (Or.inl h)
  · rcases lt_trichotomy x.id y.id with h' | h' | h'
    · exact Or.inl (Or.inr ⟨h.symm, h'⟩)
    · exact Or.inr (Or.inr ⟨h, h'⟩)
    · exact Or.inr (Or.inl (Or.inr ⟨h, h'⟩))
  · exact Or.inr (Or.inl (Or.inl h))

theorem not_supersedes_of_supersedes (h : Supersedes x y.toMemory) : ¬Supersedes y x.toMemory := by
  rintro (h' | ⟨he', h'⟩)
  · rcases h with h | ⟨he, -⟩
    · exact lt_asymm h h'
    · exact h'.ne he
  · rcases h with h | ⟨-, h⟩
    · exact h.ne he'
    · exact lt_asymm h h'

theorem payload_mergeNewer_of (h : Supersedes x y.toMemory) : payload (mergeNewer x y.toMemory).toMemory =
    { payload y.toMemory with metadata := keepAgentId x.metadata y.metadata } := by
  unfold mergeNewer payload
  simp only [if_pos h]

theorem payload_mergeNewer_of_not (h : ¬Supersedes x y.toMemory) :
    payload (mergeNewer x y.toMemory).toMemory =
      { payload x.toMemory with metadata := keepAgentId x.metadata x.metadata } := by
  unfold mergeNewer payload
  simp only [if_neg h]

/-- One row wins on both sides: what is left to agree on is the `agent_id`. -/
theorem payload_comm_iff_of (hobj : y.metadata.isObject) (h : Supersedes x y.toMemory) :
    payload (mergeNewer x y.toMemory).toMemory = payload (mergeNewer y x.toMemory).toMemory ↔
      AgentKept y.metadata x.metadata := by
  rw [payload_mergeNewer_of h, payload_mergeNewer_of_not (not_supersedes_of_supersedes h),
    ← keepAgentId_eq_iff hobj]
  simp [Payload.mk.injEq]

theorem columns_comm_iff (hx : x.metadata.isObject) (hy : y.metadata.isObject) :
    columns (mergeNewer x y.toMemory) = columns (mergeNewer y x.toMemory) ↔ Reconcile x y := by
  have hmax : maxima (mergeNewer x y.toMemory).toMemory = maxima (mergeNewer y x.toMemory).toMemory := by
    rw [maxima_mergeNewer, maxima_mergeNewer, sup_comm]
  have hexp : (mergeNewer x y.toMemory).expiresAt = (mergeNewer y x.toMemory).expiresAt ↔ _ :=
    mergeExpiresAt_comm_iff
  have hsplit : columns (mergeNewer x y.toMemory) = columns (mergeNewer y x.toMemory) ↔
      payload (mergeNewer x y.toMemory).toMemory = payload (mergeNewer y x.toMemory).toMemory ∧
        (mergeNewer x y.toMemory).expiresAt = (mergeNewer y x.toMemory).expiresAt := by
    unfold columns
    rw [hmax]
    simp
  rw [hsplit, hexp]
  rcases supersedes_or x y with h | h | ⟨hstamp, hid⟩
  · have hno := not_supersedes_of_supersedes h
    rw [payload_comm_iff_of hy h]
    refine ⟨fun hc => ⟨hc.2, fun hs hi => ?_, fun _ => hc.1, fun hx => absurd hx hno⟩,
      fun hr => ⟨hr.yWins h, hr.expiry⟩⟩
    rcases h with h | ⟨-, h⟩
    · exact absurd hs h.ne
    · exact absurd hi h.ne
  · have hno := not_supersedes_of_supersedes h
    rw [eq_comm, payload_comm_iff_of hx h]
    refine ⟨fun hc => ⟨hc.2, fun hs hi => ?_, fun hx => absurd hx hno, fun _ => hc.1⟩,
      fun hr => ⟨hr.xWins h, hr.expiry⟩⟩
    rcases h with h | ⟨-, h⟩
    · exact absurd hs h.ne'
    · exact absurd hi h.ne'
  · have hno : ¬Supersedes x y.toMemory := by
      rintro (h | ⟨-, h⟩)
      · exact h.ne hstamp
      · exact h.ne hid
    have hno' : ¬Supersedes y x.toMemory := by
      rintro (h | ⟨-, h⟩)
      · exact h.ne' hstamp
      · exact h.ne' hid
    rw [payload_mergeNewer_of_not hno, payload_mergeNewer_of_not hno']
    simp only [payload, Payload.mk.injEq]
    exact ⟨fun hc => ⟨hc.2, fun _ _ => hc.1, fun hx => absurd hx hno, fun hx => absurd hx hno'⟩,
      fun hr => ⟨hr.tied hstamp hid, hr.expiry⟩⟩

end Rows

/-! ## The rows of the other file -/

section Import

variable {rfc3339 : Rfc3339} {w : Writer} {db : Db} {mems : List Memory} {m : Memory} {k : String × String}

theorem getKey_foldl_of_not_mem (hk : ∀ x ∈ mems, x.key ≠ k) :
    (mems.foldl (importDb rfc3339 w) db).getKey k = db.getKey k :=
  Machine.foldl_induct (P := fun d : Db => d.getKey k = db.getKey k)
    (fun _ x hx h => (getKey_importDb_of_ne (hk x hx).symm).trans h) rfl

theorem get_foldl_eq_none {i : String} (hi : ∀ x ∈ mems, x.id ≠ i) :
    (mems.foldl (importDb rfc3339 w) db).get i = none ↔ db.get i = none :=
  Machine.foldl_induct (P := fun d : Db => d.get i = none ↔ db.get i = none)
    (fun _ x hx h => (get_importDb_eq_none (hi x hx)).trans h) Iff.rfl

theorem liveOn_foldl_importDb (rfc3339 : Rfc3339) (w : Writer) (db : Db) (mems : List Memory) :
    db.LiveOn (mems.foldl (importDb rfc3339 w) db) :=
  Machine.foldl_induct (P := db.LiveOn) (fun d x _ h => h.trans (liveOn_importDb rfc3339 w d x)) (.refl db)

/-- The step: a valid row is merged into the one of its title and namespace, or filed if its id is free. -/
theorem getKey_importDb (hv : m.Valid rfc3339) : (importDb rfc3339 w db m).getKey m.key =
    match db.getKey m.key with
    | some stored => some (w.merge stored m)
    | none => if db.get m.id = none then some m.toRow else none := by
  obtain ⟨id, -, hw⟩ | ⟨he, hskip⟩ := importDb_cases rfc3339 w db m
  · rw [Writer.write_eq] at hw
    rw [Db.getKey_insertOnConflict hw]
    obtain ⟨stored, hs, -⟩ | ⟨hkey, hget, -⟩ := Db.insertOnConflict_cases hw
    · rw [hs]
      rfl
    · rw [hkey]
      exact (if_pos hget).symm
  · obtain ⟨hkey, hget⟩ := hskip hv
    rw [he, hkey]
    exact (if_neg hget).symm

/-- The run: every row is merged into the one of its title and namespace, or filed if its id is free. -/
theorem getKey_foldl_importDb (hid : (mems.map fun m => m.id).Nodup) (hkey : (mems.map fun m => m.key).Nodup)
    (hm : m ∈ mems) (hv : m.Valid rfc3339) : (mems.foldl (importDb rfc3339 w) db).getKey m.key =
    match db.getKey m.key with
    | some stored => some (w.merge stored m)
    | none => if db.get m.id = none then some m.toRow else none := by
  obtain ⟨before, after, rfl⟩ := List.append_of_mem hm
  rw [List.map_append, List.map_cons, List.nodup_append, List.nodup_cons] at hid hkey
  have hids : ∀ x ∈ before, x.id ≠ m.id := fun x hx =>
    hid.2.2 _ (List.mem_map_of_mem hx) _ List.mem_cons_self
  have hkeys : ∀ x ∈ before, x.key ≠ m.key := fun x hx =>
    hkey.2.2 _ (List.mem_map_of_mem hx) _ List.mem_cons_self
  have hrest : ∀ x ∈ after, x.key ≠ m.key := fun x hx he =>
    hkey.2.1.1 (he ▸ List.mem_map_of_mem (f := fun m : Memory => m.key) hx)
  rw [List.foldl_append, List.foldl_cons, getKey_foldl_of_not_mem hrest, getKey_importDb hv,
    getKey_foldl_of_not_mem hkeys]
  simp only [get_foldl_eq_none hids]

theorem get_foldl_of_no_new {i : String} (hget : db.get i = none)
    (hknown : ∀ x ∈ mems, x.id = i → db.getKey x.key ≠ none) :
    (mems.foldl (importDb rfc3339 w) db).get i = none := by
  have hinv : ∀ d : Db, d.get i = none ∧ (∀ x ∈ mems, x.id = i → d.getKey x.key ≠ none) → ∀ x ∈ mems,
      (importDb rfc3339 w d x).get i = none ∧
        ∀ y ∈ mems, y.id = i → (importDb rfc3339 w d x).getKey y.key ≠ none := by
    rintro d ⟨hd, hk⟩ x hx
    constructor
    · obtain ⟨id, -, hw⟩ | ⟨he, -⟩ := importDb_cases rfc3339 w d x
      · rw [Writer.write_eq] at hw
        exact Db.get_insertOnConflict_eq_none hw hd fun hnone hxi => hk x hx hxi hnone
      · rwa [he]
    · intro y hy hyi hnone
      exact (liveOn_importDb rfc3339 w d x).getKey_ne_none (hk y hy hyi) hnone
  exact (Machine.foldl_induct (P := fun d : Db => d.get i = none ∧ ∀ x ∈ mems, x.id = i → d.getKey x.key ≠ none)
    (fun d x hx h => hinv d h x hx) ⟨hget, hknown⟩).1

end Import

/-! ## Links by title and namespace -/

def keyOf (db : Db) (id : String) : Option (String × String) := (db.get id).map fun r => r.key

/-- The title and namespace an id stands for once the rows of `other` are merged into `db`: those it has in
`db`, or in `other` under a title and namespace that `db` does not have. -/
def resolve (db other : Db) (id : String) : Option (String × String) :=
  (keyOf db id).or ((keyOf other id).filter fun k => (db.getKey k).isNone)

/-- A link with its ends named by title and namespace. -/
abbrev LinkName := (String × String) × (String × String) × String

def linkName (name : String → Option (String × String)) (sourceId targetId relation : String) :
    Option LinkName :=
  match name sourceId, name targetId with
  | some s, some t => some (s, t, relation)
  | _, _ => none

/-- The database has a link of that name. -/
def HasLink (db : Db) (n : LinkName) : Prop :=
  ∃ l ∈ db.links, linkName (keyOf db) l.sourceId l.targetId l.relation = some n

/-- The link passes `validate_link`. -/
def LinkValid (l : MemoryLink) : Prop := Accepts (Validate.validateLink l.sourceId l.targetId l.relation)

/-- A valid link of `other` whose ids stand for the ends of that name in `db`. -/
def Places (db other : Db) (n : LinkName) : Prop :=
  ∃ l ∈ other.links, LinkValid l.toMemoryLink ∧
    linkName (resolve db other) l.sourceId l.targetId l.relation = some n

section Links

variable {now : String} {db : Db} {links : List MemoryLink} {k : String × String × String}

/-- The database has a link of that primary key. -/
def HasLinkKey (db : Db) (k : String × String × String) : Prop := ∃ l ∈ db.links, l.key = k

theorem hasLinkKey_iff : HasLinkKey db k ↔ (db.links.find k).isSome := by
  unfold HasLinkKey Table.find
  rw [lookup_isSome]
  rfl

theorem hasLinkKey_insertLink (l : LinkRow) : HasLinkKey (db.insertLink l) k ↔ HasLinkKey db k ∨ l.key = k := by
  rw [hasLinkKey_iff, hasLinkKey_iff]
  unfold Db.insertLink
  cases hi : db.links.insertNew? l with
  | none =>
    refine ⟨Or.inl, fun h => h.elim id fun hk => ?_⟩
    rw [← hk]
    exact Table.insertNew?_eq_none.mp hi
  | some t =>
    show (t.find k).isSome ↔ _
    rw [Table.find_insertNew? hi]
    by_cases hk : l.key = k
    · simp [hk]
    · simp [hk]

theorem hasLinkKey_importLink (link : MemoryLink) : HasLinkKey (importLink now db link) k ↔ HasLinkKey db k ∨
    LinkValid link ∧ (db.get link.sourceId).isSome ∧ (db.get link.targetId).isSome ∧
      (link.sourceId, link.targetId, link.relation) = k := by
  unfold importLink LinkValid
  by_cases hv : Accepts (Validate.validateLink link.sourceId link.targetId link.relation)
  · rw [if_neg (not_not.mpr hv)]
    unfold Db.createLink
    cases he : db.checkEnds link.sourceId link.targetId with
    | ok u =>
      obtain ⟨hs, ht⟩ := Db.checkEnds_eq_ok.mp he
      show HasLinkKey (db.insertLink _) k ↔ _
      rw [hasLinkKey_insertLink]
      simp [hv, hs, ht, LinkRow.key]
    | error e =>
      refine ⟨Or.inl, fun h => h.elim id fun ⟨_, hs, ht, _⟩ => ?_⟩
      rw [Db.checkEnds_eq_ok.mpr ⟨hs, ht⟩] at he
      cases he
  · rw [if_pos hv]
    exact ⟨Or.inl, fun h => h.elim id fun hc => absurd hc.1 hv⟩

theorem hasLinkKey_foldl : HasLinkKey (links.foldl (importLink now) db) k ↔ HasLinkKey db k ∨
    ∃ link ∈ links, LinkValid link ∧ (db.get link.sourceId).isSome ∧ (db.get link.targetId).isSome ∧
      (link.sourceId, link.targetId, link.relation) = k := by
  induction links generalizing db with
  | nil => simp
  | cons link links ih =>
    have hget : ∀ id, (importLink now db link).get id = db.get id := fun id => by
      unfold Db.get
      rw [importLink_memories]
    rw [List.foldl_cons, ih, hasLinkKey_importLink]
    simp only [hget, List.mem_cons, exists_eq_or_imp, or_assoc]

theorem linkName_eq_some {name : String → Option (String × String)} {s t rel : String} {n : LinkName} :
    linkName name s t rel = some n ↔ name s = some n.1 ∧ name t = some n.2.1 ∧ rel = n.2.2 := by
  obtain ⟨a, b, c⟩ := n
  unfold linkName
  cases name s <;> cases name t <;> simp

end Links

/-! ## One side of a merge -/

/-- A file that holds only valid rows that have not expired, and links between them. -/
structure Sound (rfc3339 : Rfc3339) (now : String) (db : Db) : Prop where
  valid : ∀ m ∈ db.live, m.Valid rfc3339
  unexpired : ∀ m ∈ db.live, Db.unexpired now m = true
  ends : ∀ l ∈ db.links, (db.get l.sourceId).isSome ∧ (db.get l.targetId).isSome

/-- A file after the rows and links of the other are merged into it. -/
def merged (rfc3339 : Rfc3339) (now : String) (db other : Db) : Db :=
  (importAll rfc3339 .insertIfNewer now (other.exportAll now) (other.exportLinks now) db).1

section Merged

variable {rfc3339 : Rfc3339} {now : String} {db other : Db} {k : String × String}

theorem Sound.mem_exportAll (h : Sound rfc3339 now db) {m : Memory} : m ∈ db.exportAll now ↔ m ∈ db.live :=
  Db.mem_exportAll.trans (and_iff_left_of_imp (h.unexpired m))

theorem Sound.exportLinks (h : Sound rfc3339 now db) :
    db.exportLinks now = db.links.rows.map fun l => l.toMemoryLink := by
  unfold Db.exportLinks
  rw [List.filter_eq_self.mpr]
  intro l hl
  obtain ⟨hs, ht⟩ := h.ends l hl
  obtain ⟨s, hs⟩ := Option.isSome_iff_exists.mp hs
  obtain ⟨t, ht⟩ := Option.isSome_iff_exists.mp ht
  have hlive : ∀ {i : String} {r : MemoryRow}, db.get i = some r → Db.unexpired now r.toMemory = true :=
    fun hr => h.unexpired _ (Db.mem_live.mpr ⟨_, (Db.get_eq_some.mp hr).1, rfl⟩)
  rw [hs, ht]
  simp [hlive hs, hlive ht]

theorem getKey_merged (db other : Db) (k : String × String) : (merged rfc3339 now db other).getKey k =
    ((other.exportAll now).foldl (importDb rfc3339 .insertIfNewer) db).getKey k := by
  unfold Db.getKey merged
  rw [importAll_memories]

theorem get_merged (db other : Db) (id : String) : (merged rfc3339 now db other).get id =
    ((other.exportAll now).foldl (importDb rfc3339 .insertIfNewer) db).get id := by
  unfold Db.get merged
  rw [importAll_memories]

theorem getKey_merged_of_some (h : Sound rfc3339 now other) {y : MemoryRow} (hy : other.getKey k = some y) :
    (merged rfc3339 now db other).getKey k =
      match db.getKey k with
      | some x => some (mergeNewer x y.toMemory)
      | none => if db.get y.id = none then some y.toMemory.toRow else none := by
  obtain ⟨hmem, rfl⟩ := Db.getKey_eq_some.mp hy
  have hlive : y.toMemory ∈ other.live := Db.mem_live.mpr ⟨y, hmem, rfl⟩
  rw [getKey_merged]
  exact getKey_foldl_importDb Db.nodup_exportAll_id Db.nodup_exportAll_key (h.mem_exportAll.mpr hlive)
    (h.valid _ hlive)

theorem getKey_merged_of_none (hy : other.getKey k = none) :
    (merged rfc3339 now db other).getKey k = db.getKey k := by
  rw [getKey_merged]
  refine getKey_foldl_of_not_mem fun m hm hk => ?_
  obtain ⟨r, hr, rfl⟩ := Db.mem_live.mp (Db.mem_exportAll.mp hm).1
  have hsome : other.getKey r.key = some r := Db.getKey_of_mem hr
  rw [show r.key = k from hk, hy] at hsome
  cases hsome

/-- After a merge an id stands for what it resolves to. -/
theorem keyOf_merged (h : Sound rfc3339 now other) (id : String) :
    keyOf (merged rfc3339 now db other) id = resolve db other id := by
  have hrow : ∀ {d : Db} {r : MemoryRow}, r ∈ d.memories → keyOf d r.id = some r.key := fun hr => by
    unfold keyOf
    rw [Db.get_of_mem hr]
    rfl
  unfold resolve
  cases hg : db.get id with
  | some x =>
    obtain ⟨hx, rfl⟩ := Db.get_eq_some.mp hg
    rw [hrow hx, Option.some_or]
    obtain ⟨x', hx', hid, hkey⟩ := liveOn_foldl_importDb rfc3339 .insertIfNewer db (other.exportAll now) x hx
    have hkeyOf := hrow hx'
    unfold keyOf at hkeyOf ⊢
    rwa [get_merged, ← hid, ← hkey]
  | none =>
    have hnone : keyOf db id = none := by
      unfold keyOf
      rw [hg]
      rfl
    rw [hnone, Option.none_or]
    cases ho : other.get id with
    | none =>
      have hunknown : (merged rfc3339 now db other).get id = none := by
        rw [get_merged]
        refine get_foldl_of_no_new hg fun m hm hmi => ?_
        obtain ⟨r, hr, rfl⟩ := Db.mem_live.mp (Db.mem_exportAll.mp hm).1
        have hsome : other.get r.id = some r := Db.get_of_mem hr
        rw [show r.id = id from hmi, ho] at hsome
        cases hsome
      unfold keyOf
      rw [hunknown, ho]
      rfl
    | some y =>
      obtain ⟨hy, rfl⟩ := Db.get_eq_some.mp ho
      rw [hrow hy]
      cases hk : db.getKey y.key with
      | none =>
        have hnew := @getKey_merged_of_some rfc3339 now db other y.key h y (Db.getKey_of_mem hy)
        rw [hk] at hnew
        simp only [hg, if_true] at hnew
        have hfiled := hrow (Db.getKey_eq_some.mp hnew).1
        rw [Option.filter_some, hk]
        exact hfiled
      | some x =>
        have hunknown : (merged rfc3339 now db other).get y.id = none := by
          rw [get_merged]
          refine get_foldl_of_no_new hg fun m hm hmi => ?_
          obtain ⟨r, hr, rfl⟩ := Db.mem_live.mp (Db.mem_exportAll.mp hm).1
          have hry : r = y := Indexed.eq_of_pk hr hy hmi
          rw [hry, show db.getKey y.toMemory.key = some x from hk]
          exact fun hc => by cases hc
        unfold keyOf
        rw [hunknown, Option.filter_some, hk]
        rfl

theorem hasLink_iff {n : LinkName} : HasLink db n ↔
    ∃ s t rel, HasLinkKey db (s, t, rel) ∧ linkName (keyOf db) s t rel = some n := by
  constructor
  · rintro ⟨l, hl, hn⟩
    exact ⟨l.sourceId, l.targetId, l.relation, ⟨l, hl, rfl⟩, hn⟩
  · rintro ⟨s, t, rel, ⟨l, hl, hk⟩, hn⟩
    cases hk
    exact ⟨l, hl, hn⟩

theorem hasLinkKey_merged (h : Sound rfc3339 now other) (k : String × String × String) :
    HasLinkKey (merged rfc3339 now db other) k ↔ HasLinkKey db k ∨
      ∃ l ∈ other.links, LinkValid l.toMemoryLink ∧ (resolve db other l.sourceId).isSome ∧
        (resolve db other l.targetId).isSome ∧ l.key = k := by
  have hget : ∀ id, (((other.exportAll now).foldl (importDb rfc3339 .insertIfNewer) db).get id).isSome =
      (resolve db other id).isSome := fun id => by
    rw [← keyOf_merged h, keyOf, Option.isSome_map, get_merged]
  unfold merged importAll
  simp only
  rw [foldl_importRow_fst, hasLinkKey_foldl, h.exportLinks]
  simp only [hget, List.mem_map]
  have hlinks : HasLinkKey ((other.exportAll now).foldl (importDb rfc3339 .insertIfNewer) db) k ↔
      HasLinkKey db k := by
    unfold HasLinkKey
    rw [foldl_importDb_links]
  rw [hlinks]
  refine or_congr Iff.rfl ?_
  constructor
  · rintro ⟨_, ⟨l, hl, rfl⟩, hv, hs, ht, hk⟩
    exact ⟨l, hl, hv, hs, ht, hk⟩
  · rintro ⟨l, hl, hv, hs, ht, hk⟩
    exact ⟨_, ⟨l, hl, rfl⟩, hv, hs, ht, hk⟩

theorem hasLink_merged (hdb : Sound rfc3339 now db) (h : Sound rfc3339 now other) (n : LinkName) :
    HasLink (merged rfc3339 now db other) n ↔ HasLink db n ∨ Places db other n := by
  have hown : ∀ id, (db.get id).isSome → resolve db other id = keyOf db id := fun id hs => by
    obtain ⟨r, hr⟩ := Option.isSome_iff_exists.mp hs
    unfold resolve keyOf
    rw [hr]
    rfl
  have hname : keyOf (merged rfc3339 now db other) = resolve db other := funext (keyOf_merged h)
  rw [hasLink_iff]
  simp only [hasLinkKey_merged h, hname]
  constructor
  · rintro ⟨s, t, rel, ⟨l, hl, hk⟩ | ⟨l, hl, hv, -, -, hk⟩, hn⟩
    · cases hk
      obtain ⟨hs, ht⟩ := hdb.ends l hl
      refine Or.inl ⟨l, hl, ?_⟩
      rw [linkName_eq_some, hown _ hs, hown _ ht] at hn
      exact linkName_eq_some.mpr hn
    · cases hk
      exact Or.inr ⟨l, hl, hv, hn⟩
  · rintro (⟨l, hl, hn⟩ | ⟨l, hl, hv, hn⟩)
    · obtain ⟨hs, ht⟩ := hdb.ends l hl
      refine ⟨l.sourceId, l.targetId, l.relation, Or.inl ⟨l, hl, rfl⟩, ?_⟩
      rw [linkName_eq_some, hown _ hs, hown _ ht]
      exact linkName_eq_some.mp hn
    · obtain ⟨hs, ht, -⟩ := linkName_eq_some.mp hn
      exact ⟨l.sourceId, l.targetId, l.relation,
        Or.inr ⟨l, hl, hv, by rw [hs]; rfl, by rw [ht]; rfl, rfl⟩, hn⟩

end Merged

/-! ## Both sides -/

/-- Two files hold the same rows and the same links, up to ids. -/
structure Agree (l r : Db) : Prop where
  rows : ∀ k, (l.getKey k).map columns = (r.getKey k).map columns
  links : ∀ n, HasLink l n ↔ HasLink r n

/-- The rows of two files that a merge brings to agreement. -/
structure RowsAgree (l r : Db) : Prop where
  shared : ∀ k x y, l.getKey k = some x → r.getKey k = some y → Reconcile x y
  leftNew : ∀ x ∈ l.memories, r.getKey x.key = none → r.get x.id = none
  rightNew : ∀ y ∈ r.memories, l.getKey y.key = none → l.get y.id = none

/-- The links of two files that a merge brings to agreement: every link is on the other side or can be placed
there, and none is placed between other rows. -/
structure LinksAgree (l r : Db) : Prop where
  leftCarried : ∀ n, HasLink l n → HasLink r n ∨ Places r l n
  rightCarried : ∀ n, HasLink r n → HasLink l n ∨ Places l r n
  leftStays : ∀ n, Places l r n → HasLink r n ∨ Places r l n
  rightStays : ∀ n, Places r l n → HasLink l n ∨ Places l r n

section Agreement

variable {rfc3339 : Rfc3339} {now : String} {l r : Db}

theorem columns_merged_iff (hl : Sound rfc3339 now l) (hr : Sound rfc3339 now r) (k : String × String) :
    ((merged rfc3339 now l r).getKey k).map columns = ((merged rfc3339 now r l).getKey k).map columns ↔
      match l.getKey k, r.getKey k with
      | some x, some y => Reconcile x y
      | some x, none => r.get x.id = none
      | none, some y => l.get y.id = none
      | none, none => True := by
  have hobj : ∀ (d : Db) (x : MemoryRow), Sound rfc3339 now d → d.getKey k = some x → x.metadata.isObject :=
    fun d x hd hx => (hd.valid _ (Db.mem_live.mpr ⟨x, (Db.getKey_eq_some.mp hx).1, rfl⟩)).isObject
  cases hx : l.getKey k with
  | some x =>
    cases hy : r.getKey k with
    | some y =>
      rw [getKey_merged_of_some hr hy, getKey_merged_of_some hl hx, hx, hy]
      simp only [Option.map_some, Option.some.injEq]
      exact columns_comm_iff (hobj l x hl hx) (hobj r y hr hy)
    | none =>
      rw [getKey_merged_of_none hy, getKey_merged_of_some hl hx, hx, hy]
      by_cases hget : r.get x.id = none
      · simp only [if_pos hget]
        exact iff_of_true rfl hget
      · simp only [if_neg hget]
        exact iff_of_false (fun hc => by cases hc) hget
  | none =>
    cases hy : r.getKey k with
    | some y =>
      rw [getKey_merged_of_some hr hy, getKey_merged_of_none hx, hx, hy]
      by_cases hget : l.get y.id = none
      · simp only [if_pos hget]
        exact iff_of_true rfl hget
      · simp only [if_neg hget]
        exact iff_of_false (fun hc => by cases hc) hget
    | none =>
      rw [getKey_merged_of_none hy, getKey_merged_of_none hx, hx, hy]
      exact iff_of_true rfl trivial

theorem rowsAgree_iff : RowsAgree l r ↔ ∀ k,
    match l.getKey k, r.getKey k with
    | some x, some y => Reconcile x y
    | some x, none => r.get x.id = none
    | none, some y => l.get y.id = none
    | none, none => True := by
  constructor
  · intro h k
    cases hx : l.getKey k with
    | some x =>
      obtain ⟨hmem, hk⟩ := Db.getKey_eq_some.mp hx
      cases hy : r.getKey k with
      | some y => exact h.shared k x y hx hy
      | none => exact h.leftNew x hmem (hk ▸ hy)
    | none =>
      cases hy : r.getKey k with
      | some y =>
        obtain ⟨hmem, hk⟩ := Db.getKey_eq_some.mp hy
        exact h.rightNew y hmem (hk ▸ hx)
      | none => trivial
  · intro h
    refine ⟨fun k x y hx hy => ?_, fun x hx hnone => ?_, fun y hy hnone => ?_⟩
    · have hk := h k
      rwa [hx, hy] at hk
    · have hk := h x.key
      rwa [Db.getKey_of_mem hx, hnone] at hk
    · have hk := h y.key
      rwa [Db.getKey_of_mem hy, hnone] at hk

theorem run_merge (rfc3339 : Rfc3339) (callerId now : String) (l r : Db) :
    ∃ report, run rfc3339 { direction := "merge", trustSource := true } callerId now l r =
      .ok (merged rfc3339 now l r, merged rfc3339 now r l, report) := by
  have howned : (r.exportAll now).map (SyncArgs.owned { direction := "merge", trustSource := true } callerId) =
      r.exportAll now := List.map_id' _
  unfold run
  rw [howned]
  exact ⟨_, rfl⟩

end Agreement

open Convergence (edit editStamps)

theorem sound_single {rfc3339 : Rfc3339} {now : String} {m : Memory} (hv : m.Valid rfc3339)
    (hlive : Db.unexpired now m) : Sound rfc3339 now (Db.single m.toRow) := by
  refine ⟨fun x hx => ?_, fun x hx => ?_, fun x hx => ?_⟩
  · rw [List.mem_singleton.mp hx]
    exact hv
  · rw [List.mem_singleton.mp hx]
    exact hlive
  · exact absurd hx List.not_mem_nil

end Cli

end AiMemory
