import AiMemory.Mcp.Effects

/-!
# The two merges of a store

A store under `on_conflict = merge` whose title and namespace are taken either updates the row that the full-text search found, or, where
the search did not find it, upserts. The two agree on the tier, the content and the tags. On the other columns they have rules of their
own, and only the upsert is charged to the quota and followed by the autonomy hooks. `oneMeaning_iff` says when this makes no difference.
-/

namespace AiMemory

namespace Mcp

open MemoryApi Audit Quotas Relational

/-- The same row, but for its times, its counter and its embedding. -/
structure SameContent (r r' : MemoryRow) : Prop where
  content : r'.content = r.content
  tags : r'.tags = r.tags
  source : r'.source = r.source
  tier : r'.tier = r.tier
  priority : r'.priority = r.priority
  confidence : r'.confidence = r.confidence
  expiresAt : r'.expiresAt = r.expiresAt
  metadata : r'.metadata = r.metadata

def Host.searching (h : Host) (fts : Fts) (ranks : Db → String → MemoryRow → MemoryRow → Bool) : Host :=
  { h with app := { h.app with fts }, ranks }

/-- The quota of the agent admits the store. -/
def Admits (n : Node) (now : String) (req : StoreRequest) : Prop :=
  (charge n.quotas req.agentId (.memory (payloadBytes req.mem)) now).2 = .ok ()

/-- Neither gate holds the store up. -/
structure Passes (h : Host) (t : Draw h.app.chrono) (n : Node) (req : StoreRequest) : Prop where
  permitted : h.Permits n .memoryStore req.mem.ns req.agentId (h.app.memoryToValue req.mem)
  governed : n.db.enforceGovernance h.app.mode .store req.mem.ns req.agentId none none (h.app.memoryToValue req.mem) (t.newId 1)
    t.now.text = .ok (n.db, .allow)

/-- A store of a memory that merges into `r`, with both gates open. -/
structure Merges (h : Host) (t : Draw h.app.chrono) (params : Json) (mcpClient : Option String) (n : Node) (req : StoreRequest)
    (r : MemoryRow) : Prop where
  request : h.storeRequest t params mcpClient n.db = .ok req
  policy : req.onConflict = .merge
  stored : n.db.getKey req.mem.key = some r
  passes : Passes h t n req

/-- Whatever the search finds, the store leaves the row that `insert` leaves. -/
def OneMeaning (h : Host) (t : Draw h.app.chrono) (params : Json) (mcpClient : Option String) (n : Node) (req : StoreRequest) : Prop :=
  ∃ db id row, n.db.insert req.mem = .ok (db, id) ∧ db.getKey req.mem.key = some row ∧ ∀ fts ranks, ∃ row',
    (handleStore (h.searching fts ranks) t params mcpClient n).1.db.getKey req.mem.key = some row' ∧ SameContent row row'

/-- The hooks persist nothing that the upsert does not. -/
def HooksQuiet (h : Host) (n : Node) (mem : Memory) (r : MemoryRow) : Prop :=
  ∀ fts ranks, r ∉ (h.searching fts ranks).findContradictions n.db mem.title mem.ns → ∀ metadata,
    hookMetadata mem.metadata (h.hookFindings mem r.id ((h.searching fts ranks).findContradictions n.db mem.title mem.ns)) =
      some metadata → metadata = keepAgentId r.metadata mem.metadata

/-- The rules of the two merges come to the same on these columns, and the quota and the hooks make no difference. -/
structure Indifferent (h : Host) (t : Draw h.app.chrono) (n : Node) (req : StoreRequest) (r : MemoryRow) : Prop where
  source : req.mem.source = r.source
  priority : r.priority ≤ req.mem.priority
  confidence : r.confidence ≤ req.mem.confidence
  expiresAt : mergeExpiresAt r req.mem = r.expiresAt
  metadata : preserveAgentId r.metadata req.mem.metadata = keepAgentId r.metadata req.mem.metadata
  quota : Admits n t.now.text req ∨ SameContent (upsertRow r req.mem) r
  hooks : Admits n t.now.text req → HooksQuiet h n req.mem r

section Rows

variable {h : Host} {n : Node} {db : Db} {r dup : MemoryRow} {mem : Memory} {u : UpdateMemory} {id now : String}

theorem effectiveTier_eq_mergeTier (stored excluded : Tier) : effectiveTier (some excluded) stored = mergeTier stored excluded := by
  cases stored <;> cases excluded <;> rfl

theorem SameContent.of_toMemory {r' : MemoryRow} (h : r'.toMemory = r.toMemory) : SameContent r r' := by
  have hcolumn : ∀ {α : Type} (f : Memory → α), f r'.toMemory = f r.toMemory := fun f => congrArg f h
  exact ⟨hcolumn fun m => m.content, hcolumn fun m => m.tags, hcolumn fun m => m.source, hcolumn fun m => m.tier,
    hcolumn fun m => m.priority, hcolumn fun m => m.confidence, hcolumn fun m => m.expiresAt, hcolumn fun m => m.metadata⟩

theorem SameContent.trans {r₁ r₂ r₃ : MemoryRow} (h₁ : SameContent r₁ r₂) (h₂ : SameContent r₂ r₃) : SameContent r₁ r₃ :=
  ⟨h₂.content.trans h₁.content, h₂.tags.trans h₁.tags, h₂.source.trans h₁.source, h₂.tier.trans h₁.tier,
    h₂.priority.trans h₁.priority, h₂.confidence.trans h₁.confidence, h₂.expiresAt.trans h₁.expiresAt,
    h₂.metadata.trans h₁.metadata⟩

theorem SameContent.symm {r' : MemoryRow} (h : SameContent r r') : SameContent r' r :=
  ⟨h.content.symm, h.tags.symm, h.source.symm, h.tier.symm, h.priority.symm, h.confidence.symm, h.expiresAt.symm, h.metadata.symm⟩

theorem getKey_of_get {r' : MemoryRow} (hget : db.get id = some r') : db.getKey r'.key = some r' :=
  Db.getKey_of_mem (Db.get_eq_some.mp hget).1

/-! ## The explicit update -/

def updatedRow (now : String) (mem : Memory) (r : MemoryRow) : MemoryRow :=
  applyUpdate (duplicateUpdate mem (preserveAgentId r.metadata mem.metadata)) now r

theorem get_storeDuplicate (h : Host) (now : String) (mem : Memory) (hr : n.db.get dup.id = some dup) :
    ∃ r', (storeDuplicate h now mem dup n).1.db.get dup.id = some r' ∧ r'.toMemory = (updatedRow now mem dup).toMemory := by
  obtain ⟨db', changed, hu, hget⟩ :=
    update_in_place (u := duplicateUpdate mem (preserveAgentId dup.metadata mem.metadata)) hr rfl rfl now
  unfold storeDuplicate
  simp only
  rw [hu]
  cases changed with
  | false => exact ⟨_, hget, rfl⟩
  | true => exact get_refresh_self _ _ hget

/-- The update writes the row of the upsert exactly when the rules of the columns come to the same. -/
theorem sameContent_updatedRow_iff (now : String) : SameContent (upsertRow r mem) (updatedRow now mem r) ↔
    mem.source = r.source ∧ r.priority ≤ mem.priority ∧ r.confidence ≤ mem.confidence ∧ mergeExpiresAt r mem = r.expiresAt ∧
      preserveAgentId r.metadata mem.metadata = keepAgentId r.metadata mem.metadata := by
  constructor
  · rintro ⟨-, -, hsource, -, hpriority, hconfidence, hexpires, hmetadata⟩
    exact ⟨hsource.symm, max_eq_right_iff.mp hpriority.symm, max_eq_right_iff.mp hconfidence.symm, hexpires.symm, hmetadata⟩
  · rintro ⟨hsource, hpriority, hconfidence, hexpires, hmetadata⟩
    exact ⟨rfl, rfl, hsource.symm, effectiveTier_eq_mergeTier _ _, (max_eq_right hpriority).symm, (max_eq_right hconfidence).symm,
      hexpires.symm, hmetadata⟩

/-! ## The upsert -/

def hookedRow (r : MemoryRow) (metadata : Option Json) : MemoryRow := { r with metadata := metadata.getD r.metadata }

theorem get_persistHooks (now : String) (metadata : Option Json) (hr : db.get id = some r) :
    ∃ r', (persistHooks db id now metadata).get id = some r' ∧ r'.key = r.key ∧ SameContent (hookedRow r metadata) r' := by
  cases metadata with
  | none => exact ⟨r, hr, rfl, SameContent.of_toMemory rfl⟩
  | some metadata =>
    obtain ⟨db', changed, hu, hget⟩ := update_in_place (u := { metadata := some metadata }) hr rfl rfl now
    refine ⟨applyUpdate { metadata := some metadata } now r, ?_, rfl, ⟨rfl, rfl, rfl, rfl, rfl, rfl, rfl, rfl⟩⟩
    unfold persistHooks
    simp only
    rw [hu]
    exact hget

theorem insert_of_stored (hr : db.getKey mem.key = some r) :
    ∃ db', db.insert mem = .ok (db', r.id) ∧ db'.get r.id = some (upsertRow r mem) ∧ db'.getKey mem.key = some (upsertRow r mem) := by
  have hi : db.insert mem = .ok (db.updateRow r.id (upsertRow · mem) (fun _ => rfl) (fun _ => rfl), r.id) := by
    unfold Db.insert Db.insertOnConflict
    rw [hr]
  obtain ⟨hmem, hkey⟩ := Db.getKey_eq_some.mp hr
  have hget := Db.get_insertOnConflict_of_some hi (Indexed.find_of_mem hmem)
  rw [if_pos hkey] at hget
  exact ⟨_, hi, hget, hkey ▸ getKey_of_get hget⟩

variable {req : StoreRequest}

theorem admits_iff : Admits n now req ↔
    ∃ quotas, charge n.quotas req.agentId (.memory (payloadBytes req.mem)) now = (quotas, .ok ()) := by
  unfold Admits
  generalize charge n.quotas req.agentId (.memory (payloadBytes req.mem)) now = res
  obtain ⟨quotas, answer⟩ := res
  exact ⟨fun hok => ⟨quotas, Prod.ext rfl hok⟩, fun ⟨_, hok⟩ => (Prod.ext_iff.mp hok).2⟩

theorem storeNew_refused (h : Host) (mcpClient : Option String) (existing : List MemoryRow)
    (hno : ¬Admits n now req) : (storeNew h now mcpClient req existing n).1.db = n.db := by
  unfold storeNew
  simp only
  generalize hres : charge n.quotas req.agentId (.memory (payloadBytes req.mem)) now = res
  obtain ⟨quotas, answer⟩ := res
  cases answer with
  | error e => rfl
  | ok u => exact absurd (admits_iff.mpr ⟨quotas, hres⟩) hno

theorem getKey_storeNew (h : Host) (mcpClient : Option String) (existing : List MemoryRow)
    (hquota : Admits n now req) (hr : n.db.getKey req.mem.key = some r) :
    ∃ r', (storeNew h now mcpClient req existing n).1.db.getKey req.mem.key = some r' ∧
      SameContent (hookedRow (upsertRow r req.mem) (hookMetadata req.mem.metadata (h.hookFindings req.mem r.id existing))) r' := by
  obtain ⟨quotas, hres⟩ := admits_iff.mp hquota
  obtain ⟨db₁, hi, hget, -⟩ := insert_of_stored hr
  obtain ⟨r₂, hr₂, hm₂⟩ := get_refresh_self h.app (req.mem.title ++ " " ++ req.mem.content) hget
  obtain ⟨r₃, hr₃, hkey₃, hsame₃⟩ := get_persistHooks now
    (hookMetadata req.mem.metadata (h.hookFindings req.mem r.id existing)) hr₂
  have hkey : r₃.key = req.mem.key := by
    have hkey₂ : r₂.key = (upsertRow r req.mem).key := congrArg Memory.key hm₂
    rw [hkey₃, hkey₂]
    exact (Db.getKey_eq_some.mp hr).2
  refine ⟨r₃, ?_, ?_⟩
  · unfold storeNew
    simp only [hres, hi]
    exact hkey ▸ getKey_of_get hr₃
  · have hsame := SameContent.of_toMemory hm₂
    exact ⟨hsame₃.content.trans hsame.content, hsame₃.tags.trans hsame.tags, hsame₃.source.trans hsame.source,
      hsame₃.tier.trans hsame.tier, hsame₃.priority.trans hsame.priority, hsame₃.confidence.trans hsame.confidence,
      hsame₃.expiresAt.trans hsame.expiresAt, hsame₃.metadata.trans (congrArg (Option.getD _) hsame.metadata)⟩

end Rows

/-! ## Which of the two runs -/

section Stores

variable {h : Host} {t : Draw h.app.chrono} {params : Json} {mcpClient : Option String} {n : Node} {req : StoreRequest} {r : MemoryRow}
  {fts : Fts} {ranks : Db → String → MemoryRow → MemoryRow → Bool}

theorem mem_findContradictions {db : Db} {title ns : String} {x : MemoryRow} (hx : x ∈ h.findContradictions db title ns) :
    x ∈ db.memories ∧ x.ns = ns := by
  have hsorted := List.mem_of_mem_take hx
  rw [List.mem_mergeSort, List.mem_filter, Bool.and_eq_true, decide_eq_true_eq] at hsorted
  exact ⟨hsorted.1, hsorted.2.2⟩

theorem handleStore_of_passes (hreq : h.storeRequest t params mcpClient n.db = .ok req) (hp : Passes h t n req) :
    handleStore h t params mcpClient n = storeAllowed h t.now.text mcpClient req n := by
  unfold handleStore
  rw [hreq]
  simp only
  rw [permitted_of hp.permitted, governed_of hp.governed]

theorem storeAllowed_of_mem (hm : Merges h t params mcpClient n req r)
    (hr : r ∈ h.findContradictions n.db req.mem.title req.mem.ns) (now : String) :
    storeAllowed h now mcpClient req n = storeDuplicate h now req.mem r n := by
  obtain ⟨hmem, hkey⟩ := Db.getKey_eq_some.mp hm.stored
  obtain ⟨htitle, hns⟩ := Prod.ext_iff.mp hkey
  have hfind : ((h.findContradictions n.db req.mem.title req.mem.ns).find? fun c => c.title = req.mem.title ∧ c.ns = req.mem.ns) =
      some r := by
    cases hf : (h.findContradictions n.db req.mem.title req.mem.ns).find? fun c => c.title = req.mem.title ∧ c.ns = req.mem.ns with
    | none =>
      have hno := List.find?_eq_none.mp hf r hr
      exact absurd (decide_eq_true ⟨htitle, hns⟩) hno
    | some x =>
      have hx : x.title = req.mem.title ∧ x.ns = req.mem.ns := by simpa using List.find?_some hf
      have hxmem := (mem_findContradictions (List.mem_of_find?_eq_some hf)).1
      exact congrArg some (Indexed.eq_of_uk hxmem hmem ((Prod.ext hx.1 hx.2 : x.key = req.mem.key).trans hkey.symm))
  unfold storeAllowed StoreRequest.exactDup
  simp only
  rw [if_pos hm.policy, hfind]

theorem storeAllowed_of_not_mem (hm : Merges h t params mcpClient n req r)
    (hr : r ∉ h.findContradictions n.db req.mem.title req.mem.ns) (now : String) :
    storeAllowed h now mcpClient req n =
      storeNew h now mcpClient req (h.findContradictions n.db req.mem.title req.mem.ns) n := by
  obtain ⟨hmem, hkey⟩ := Db.getKey_eq_some.mp hm.stored
  have hfind : ((h.findContradictions n.db req.mem.title req.mem.ns).find? fun c => c.title = req.mem.title ∧ c.ns = req.mem.ns) =
      none := by
    refine List.find?_eq_none.mpr fun x hx htrue => hr ?_
    obtain ⟨htitle, hns⟩ := of_decide_eq_true htrue
    have hxkey : x.key = req.mem.key := Prod.ext htitle hns
    exact Indexed.eq_of_uk (mem_findContradictions hx).1 hmem (hxkey.trans hkey.symm) ▸ hx
  unfold storeAllowed StoreRequest.exactDup
  simp only
  rw [if_pos hm.policy, hfind]

theorem Merges.searching (hm : Merges h t params mcpClient n req r) (fts : Fts) (ranks : Db → String → MemoryRow → MemoryRow → Bool) :
    Merges (h.searching fts ranks) t params mcpClient n req r :=
  ⟨hm.request, hm.policy, hm.stored, ⟨hm.passes.permitted, hm.passes.governed⟩⟩

theorem exists_finding (hm : Merges h t params mcpClient n req r) :
    ∃ fts ranks, r ∈ (h.searching fts ranks).findContradictions n.db req.mem.title req.mem.ns := by
  obtain ⟨hmem, hkey⟩ := Db.getKey_eq_some.mp hm.stored
  refine ⟨fun _ x => x = r, fun _ _ _ _ => true, ?_⟩
  have hone : (n.db.memories.rows.filter fun x => decide (x = r) && decide (x.ns = req.mem.ns)) = [r] := by
    have hns : r.ns = req.mem.ns := (Prod.ext_iff.mp hkey).2
    have hsame : (fun x : MemoryRow => decide (x = r) && decide (x.ns = req.mem.ns)) = fun x => x == r := by
      funext x
      by_cases hx : x = r
      · simp [hx, hns]
      · simp [hx]
    rw [hsame, List.filter_beq, List.count_eq_one_of_mem _ hmem, List.replicate_one]
    exact List.Nodup.of_map _ n.db.memories.nodup
  unfold Host.findContradictions
  show r ∈ ((n.db.memories.rows.filter fun x => decide (x = r) && decide (x.ns = req.mem.ns)).mergeSort _).take 5
  rw [hone, List.mergeSort_singleton]
  exact List.mem_singleton_self r

theorem findContradictions_nothing (h : Host) (db : Db) (title ns : String) (ranks : Db → String → MemoryRow → MemoryRow → Bool) :
    (h.searching (fun _ _ => false) ranks).findContradictions db title ns = [] := by
  unfold Host.findContradictions
  show ((db.memories.rows.filter fun x => false && decide (x.ns = ns)).mergeSort _).take 5 = []
  simp

theorem handleStore_of_mem (hm : Merges h t params mcpClient n req r)
    (hr : r ∈ (h.searching fts ranks).findContradictions n.db req.mem.title req.mem.ns) :
    ∃ row, (handleStore (h.searching fts ranks) t params mcpClient n).1.db.getKey req.mem.key = some row ∧
      SameContent (updatedRow t.now.text req.mem r) row := by
  have hs := hm.searching fts ranks
  obtain ⟨hmem, hkey⟩ := Db.getKey_eq_some.mp hm.stored
  obtain ⟨row, hget, hsame⟩ := get_storeDuplicate (h.searching fts ranks) t.now.text req.mem
    (Indexed.find_of_mem hmem : n.db.get r.id = some r)
  have hrow : row.key = req.mem.key := (congrArg Memory.key hsame).trans hkey
  refine ⟨row, ?_, SameContent.of_toMemory hsame⟩
  rw [handleStore_of_passes hs.request hs.passes, storeAllowed_of_mem hs hr]
  exact hrow ▸ getKey_of_get hget

theorem handleStore_of_not_mem (hm : Merges h t params mcpClient n req r)
    (hr : r ∉ (h.searching fts ranks).findContradictions n.db req.mem.title req.mem.ns) :
    ∃ row, (handleStore (h.searching fts ranks) t params mcpClient n).1.db.getKey req.mem.key = some row ∧
      (Admits n t.now.text req → SameContent (hookedRow (upsertRow r req.mem) (hookMetadata req.mem.metadata
        (h.hookFindings req.mem r.id ((h.searching fts ranks).findContradictions n.db req.mem.title req.mem.ns)))) row) ∧
      (¬Admits n t.now.text req → row = r) := by
  have hs := hm.searching fts ranks
  rw [handleStore_of_passes hs.request hs.passes, storeAllowed_of_not_mem hs hr]
  by_cases hquota : Admits n t.now.text req
  · obtain ⟨row, hget, hsame⟩ := getKey_storeNew (h.searching fts ranks) mcpClient
      ((h.searching fts ranks).findContradictions n.db req.mem.title req.mem.ns) hquota hm.stored
    exact ⟨row, hget, fun _ => hsame, fun hno => absurd hquota hno⟩
  · refine ⟨r, ?_, fun hyes => absurd hyes hquota, fun _ => rfl⟩
    have hkept := storeNew_refused (h.searching fts ranks) mcpClient
      ((h.searching fts ranks).findContradictions n.db req.mem.title req.mem.ns) hquota
    exact hkept.symm ▸ hm.stored

theorem sameContent_hookedRow_iff {metadata : Option Json} :
    SameContent r (hookedRow r metadata) ↔ ∀ m, metadata = some m → m = r.metadata := by
  constructor
  · rintro hsame m rfl
    exact hsame.metadata
  · intro hm
    refine ⟨rfl, rfl, rfl, rfl, rfl, rfl, rfl, ?_⟩
    cases metadata with
    | none => rfl
    | some m => exact hm m rfl

/-- A merging store leaves the row of the upsert whatever the search finds, exactly when the two merges agree on the columns where
their rules differ, the quota does not refuse a change, and the hooks persist nothing new. -/
theorem oneMeaning_iff (hm : Merges h t params mcpClient n req r) :
    OneMeaning h t params mcpClient n req ↔ Indifferent h t n req r := by
  obtain ⟨db, hi, -, hkeyed⟩ := insert_of_stored hm.stored
  have hrow : OneMeaning h t params mcpClient n req ↔ ∀ fts ranks, ∃ row',
      (handleStore (h.searching fts ranks) t params mcpClient n).1.db.getKey req.mem.key = some row' ∧
        SameContent (upsertRow r req.mem) row' := by
    constructor
    · rintro ⟨db', id, row, hi', hkeyed', hall⟩
      cases hi.symm.trans hi'
      cases hkeyed.symm.trans hkeyed'
      exact hall
    · exact fun hall => ⟨db, r.id, upsertRow r req.mem, hi, hkeyed, hall⟩
  rw [hrow]
  constructor
  · intro hall
    have hfound : SameContent (upsertRow r req.mem) (updatedRow t.now.text req.mem r) := by
      obtain ⟨fts, ranks, hr⟩ := exists_finding hm
      obtain ⟨row', hrow', hsame⟩ := hall fts ranks
      obtain ⟨row, hget, hupdated⟩ := handleStore_of_mem hm hr
      cases hget.symm.trans hrow'
      exact hsame.trans hupdated.symm
    obtain ⟨hsource, hpriority, hconfidence, hexpires, hmetadata⟩ := (sameContent_updatedRow_iff t.now.text).mp hfound
    refine ⟨hsource, hpriority, hconfidence, hexpires, hmetadata, ?_, ?_⟩
    · by_cases hquota : Admits n t.now.text req
      · exact Or.inl hquota
      · obtain ⟨row', hrow', hsame⟩ := hall (fun _ _ => false) fun _ _ _ _ => true
        have hnothing : r ∉ (h.searching (fun _ _ => false) fun _ _ _ _ => true).findContradictions n.db req.mem.title req.mem.ns :=
          findContradictions_nothing h n.db req.mem.title req.mem.ns _ ▸ List.not_mem_nil
        obtain ⟨row, hget, -, hkept⟩ := handleStore_of_not_mem hm hnothing
        cases hget.symm.trans hrow'
        exact Or.inr (hkept hquota ▸ hsame)
    · intro hquota fts ranks hr metadata hfindings
      obtain ⟨row', hrow', hsame⟩ := hall fts ranks
      obtain ⟨row, hget, hhooked, -⟩ := handleStore_of_not_mem hm hr
      cases hget.symm.trans hrow'
      exact sameContent_hookedRow_iff.mp (hsame.trans (hhooked hquota).symm) metadata hfindings
  · rintro ⟨hsource, hpriority, hconfidence, hexpires, hmetadata, hquota, hhooks⟩ fts ranks
    by_cases hr : r ∈ (h.searching fts ranks).findContradictions n.db req.mem.title req.mem.ns
    · obtain ⟨row, hget, hupdated⟩ := handleStore_of_mem hm hr
      have hsame := (sameContent_updatedRow_iff t.now.text).mpr ⟨hsource, hpriority, hconfidence, hexpires, hmetadata⟩
      exact ⟨row, hget, hsame.trans hupdated⟩
    · obtain ⟨row, hget, hhooked, hkept⟩ := handleStore_of_not_mem hm hr
      refine ⟨row, hget, ?_⟩
      by_cases hadmits : Admits n t.now.text req
      · exact (sameContent_hookedRow_iff.mpr fun m => hhooks hadmits fts ranks hr m).trans (hhooked hadmits)
      · rw [hkept hadmits]
        exact hquota.resolve_left hadmits

end Stores

/-! ## A priority that one merge keeps -/

/-- The plan of `alice`, as it is stored. -/
def plan (priority : ℤ) : MemoryRow where
  id := "m-1"
  tier := .long
  ns := "notes"
  title := "Plan"
  content := "draft"
  tags := []
  priority
  confidence := 1
  source := "claude"
  accessCount := 0
  createdAt := "2026-03-01T09:00:00+00:00"
  updatedAt := "2026-03-01T09:00:00+00:00"
  lastAccessedAt := none
  expiresAt := none
  metadata := .obj [("agent_id", .str "alice")]
  embedding := none
  embeddingDim := none

/-- What `alice` stores over it. -/
def planRequest : StoreRequest where
  mem := { (plan 5).toMemory with id := "m-2", content := "final", createdAt := nine.text, updatedAt := nine.text }
  agentId := "alice"
  scope := none
  onConflict := .merge

theorem planRequest_merges : Merges host (draw nine ["m-2", "p-1"]) (storeParams "Plan" "final") none
    (.start (.single (plan 5))) planRequest (plan 5) := by
  have hallowed : host.evaluate (.start (.single (plan 5))) .memoryStore planRequest.mem.ns planRequest.agentId
      (host.app.memoryToValue planRequest.mem) = .allow := rfl
  refine ⟨by decide, rfl, rfl, ⟨⟨fun reason h => ?_, fun prompt h => ?_⟩, rfl⟩⟩
  · rw [hallowed] at h
    cases h
  · rw [hallowed] at h
    cases h

theorem plan_oneMeaning : OneMeaning host (draw nine ["m-2", "p-1"]) (storeParams "Plan" "final") none
    (.start (.single (plan 5))) planRequest := by
  refine (oneMeaning_iff planRequest_merges).mpr
    ⟨rfl, le_rfl, le_rfl, rfl, by decide, Or.inl rfl, fun _ fts ranks _ metadata h => ?_⟩
  cases h

/-- The plan has priority 9. A store with priority 5 that finds it lowers the priority; one that does not find it keeps it. -/
theorem plan_two_meanings :
    (∃ fts ranks, ((handleStore (host.searching fts ranks) (draw nine ["m-2", "p-1"]) (storeParams "Plan" "final") none
      (.start (.single (plan 9)))).1.db.getKey ("Plan", "notes")).map (fun r => r.priority) = some 5) ∧
    (∃ fts ranks, ((handleStore (host.searching fts ranks) (draw nine ["m-2", "p-1"]) (storeParams "Plan" "final") none
      (.start (.single (plan 9)))).1.db.getKey ("Plan", "notes")).map (fun r => r.priority) = some 9) ∧
    ¬OneMeaning host (draw nine ["m-2", "p-1"]) (storeParams "Plan" "final") none (.start (.single (plan 9))) planRequest := by
  have hfound : ((handleStore (host.searching (fun _ _ => true) fun _ _ _ _ => true) (draw nine ["m-2", "p-1"])
      (storeParams "Plan" "final") none (.start (.single (plan 9)))).1.db.getKey ("Plan", "notes")).map (fun r => r.priority) =
        some 5 := by decide +kernel
  have hmissed : ((handleStore (host.searching (fun _ _ => false) fun _ _ _ _ => true) (draw nine ["m-2", "p-1"])
      (storeParams "Plan" "final") none (.start (.single (plan 9)))).1.db.getKey ("Plan", "notes")).map (fun r => r.priority) =
        some 9 := by decide +kernel
  refine ⟨⟨_, _, hfound⟩, ⟨_, _, hmissed⟩, ?_⟩
  rintro ⟨db, id, row, -, -, hall⟩
  obtain ⟨row₁, hrow₁, hsame₁⟩ := hall (fun _ _ => true) fun _ _ _ _ => true
  obtain ⟨row₂, hrow₂, hsame₂⟩ := hall (fun _ _ => false) fun _ _ _ _ => true
  rw [show planRequest.mem.key = ("Plan", "notes") from rfl] at hrow₁ hrow₂
  rw [hrow₁, Option.map_some, Option.some.injEq] at hfound
  rw [hrow₂, Option.map_some, Option.some.injEq] at hmissed
  have hpriority := hsame₁.priority.trans hsame₂.priority.symm
  rw [hfound, hmissed] at hpriority
  exact absurd hpriority (by decide)

end Mcp

end AiMemory
