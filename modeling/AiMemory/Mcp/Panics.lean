import AiMemory.Kg.FindPaths
import AiMemory.Mcp.Inbox
import AiMemory.Mcp.Recall
import AiMemory.Mcp.Verify

/-!
# Arguments that crash the server

The tools take their arguments out of untyped JSON by hand. Numbers that are too large are saturated in the tools that read, but
`handle_store`, `handle_update` and `handle_notify` convert `priority` to an `i32` with `expect`, before they validate it. A call
returns exactly when it does not reach that conversion or the priority fits (`call_returns_iff`).
-/

namespace AiMemory

open Recall Validate

namespace Mcp

open Fallible MemoryApi

/-! ## The conversion of a priority -/

/-- A number is in the range of an `i32`. -/
def FitsI32 (n : ℤ) : Prop := -2 ^ 31 ≤ n ∧ n < 2 ^ 31

instance (n : ℤ) : Decidable (FitsI32 n) := inferInstanceAs (Decidable (_ ∧ _))

/-- `i32::try_from(n).expect("i64 as i32")`. -/
def expectI32 (n : ℤ) : Fallible String ℤ := expect "i64 as i32" (if FitsI32 n then some n else none)

theorem collapse_expectI32 (n : ℤ) : (expectI32 n).collapse = i32Of n := by
  unfold expectI32 i32Of
  by_cases hn : FitsI32 n
  · rw [if_pos hn, if_pos (show _ ∧ _ from hn)]
    rfl
  · rw [if_neg hn, if_neg (show ¬(_ ∧ _) from hn)]
    rfl

theorem returns_expectI32_bind {α : Type} {n : ℤ} {f : ℤ → Fallible String α} :
    (expectI32 n >>= f).Returns ↔ FitsI32 n ∧ (f n).Returns := by
  unfold expectI32
  split
  · rename_i hn
    simp [hn]
  · rename_i hn
    simp [hn]

/-- The priority of a call fits, if it is a 64-bit integer. -/
def PriorityFits (params : Json) : Prop := ∀ n ∈ intParam params "priority", FitsI32 n

theorem fitsI32_getD {params : Json} : FitsI32 ((intParam params "priority").getD 5) ↔ PriorityFits params := by
  unfold PriorityFits
  cases intParam params "priority" with
  | none => exact iff_of_true (by decide) nofun
  | some n => simp

/-! ## `handle_store` -/

/-- The part of `handle_store` before the gates, with its panic. -/
def Host.storeArguments (h : Host) (t : Draw h.app.chrono) (params : Json) (mcpClient : Option String) (db : Db) :
    Fallible String StoreRequest := do
  let title ← required params "title"
  let content ← required params "content"
  let tier ← tierOf ((strParam params "tier").getD "mid")
  let ns := (strParam params "namespace").getD "global"
  let source := (strParam params "source").getD "claude"
  let onConflict ← ((strParam params "on_conflict").map OnConflict.parse).getD (.ok (defaultOnConflictForClient mcpClient))
  let priority ← expectI32 ((intParam params "priority").getD 5)
  let confidence := (h.floatParam params "confidence").getD 1
  let tags := (stringsParam params "tags").getD []
  validateTitle title
  validateContent content
  validateNamespace ns
  validateSource source
  validateTags tags
  validatePriority priority
  validateConfidence confidence
  let metadata := (objectParam params "metadata").getD (.obj [])
  let agentId ← h.process.resolveAgentId ((strParam params "agent_id").or (strParam metadata "agent_id")) mcpClient
  let scope := (strParam params "scope").or (strParam metadata "scope")
  ifSome validateScope scope
  let metadata := storeMetadata metadata agentId scope
  validateMetadata metadata
  let title ← resolvedTitle db title ns onConflict
  return {
    mem := {
      id := t.newId 0
      tier
      ns
      title
      content
      tags
      priority := max 1 (min priority 10)
      confidence := max 0 (min confidence 1)
      source
      accessCount := 0
      createdAt := t.now.text
      updatedAt := t.now.text
      lastAccessedAt := none
      metadata
      expiresAt := (h.app.ttlForTier tier).map fun s => h.app.chrono.toRfc3339 (t.now.instant + s * 10 ^ 9) }
    agentId
    scope
    onConflict }

/-- The arguments of a store are those that `handle_store` is modelled with. -/
theorem collapse_storeArguments (h : Host) (t : Draw h.app.chrono) (params : Json) (mcpClient : Option String) (db : Db) :
    (h.storeArguments t params mcpClient db).collapse = h.storeRequest t params mcpClient db := by
  unfold Host.storeArguments Host.storeRequest
  simp only [collapse_bind, collapse_liftM, collapse_expectI32, collapse_pure]
  rfl

/-- A store comes to the conversion: it has a title and a content, and what it says of its tier and of conflicts is readable. -/
structure StoreConverts (params : Json) : Prop where
  title : (strParam params "title").isSome
  content : (strParam params "content").isSome
  tier : (Tier.fromStr ((strParam params "tier").getD "mid")).isSome
  onConflict : ∀ s ∈ strParam params "on_conflict", s = "error" ∨ s = "merge" ∨ s = "version"

theorem exists_required {params : Json} {key : String} : (∃ s, required params key = .ok s) ↔ (strParam params key).isSome := by
  simp only [required_eq_ok, Option.isSome_iff_exists]

theorem exists_tierOf {s : String} : (∃ tier, tierOf s = .ok tier) ↔ (Tier.fromStr s).isSome := by
  unfold tierOf
  cases Tier.fromStr s <;> simp

theorem exists_parse {s : String} : (∃ policy, OnConflict.parse s = .ok policy) ↔ s = "error" ∨ s = "merge" ∨ s = "version" := by
  unfold OnConflict.parse
  split_ifs <;> simp_all

theorem exists_onConflict {params : Json} {mcpClient : Option String} :
    (∃ policy, ((strParam params "on_conflict").map OnConflict.parse).getD (.ok (defaultOnConflictForClient mcpClient)) = .ok policy) ↔
      ∀ s ∈ strParam params "on_conflict", s = "error" ∨ s = "merge" ∨ s = "version" := by
  cases strParam params "on_conflict" with
  | none => simp
  | some s => simpa using exists_parse

/-- A store panics exactly when it comes to the conversion with a priority that is out of range. -/
theorem storeArguments_returns_iff (h : Host) (t : Draw h.app.chrono) (params : Json) (mcpClient : Option String) (db : Db) :
    (h.storeArguments t params mcpClient db).Returns ↔ (StoreConverts params → PriorityFits params) := by
  unfold Host.storeArguments
  simp only [returns_liftM_bind, returns_expectI32_bind, returns_pure, implies_true, and_true, fitsI32_getD]
  constructor
  · rintro hreturns ⟨htitle, hcontent, htier, honConflict⟩
    obtain ⟨title, htitle⟩ := exists_required.mpr htitle
    obtain ⟨content, hcontent⟩ := exists_required.mpr hcontent
    obtain ⟨tier, htier⟩ := exists_tierOf.mpr htier
    obtain ⟨policy, hpolicy⟩ := exists_onConflict.mpr honConflict
    exact hreturns title htitle content hcontent tier htier policy hpolicy
  · intro hfits title htitle content hcontent tier htier policy hpolicy
    exact hfits ⟨exists_required.mp ⟨title, htitle⟩, exists_required.mp ⟨content, hcontent⟩, exists_tierOf.mp ⟨tier, htier⟩,
      exists_onConflict.mp ⟨policy, hpolicy⟩⟩

/-! ## `handle_update` -/

/-- `get_by_prefix`, which unwraps the only row. -/
def prefixMatch (db : Db) (idPrefix : String) : Fallible String (Option MemoryRow) :=
  let rows := db.memories.rows.filter fun r => Like.like '\\' (Like.escape '\\' idPrefix.toList ++ ['%']) r.id.toList
  match rows.length with
  | 0 => pure none
  | 1 => do
    let r ← expect "len checked" rows.head?
    pure (some r)
  | n =>
    let ids := "\n".intercalate (rows.map fun r => r.id)
    throw s!"ambiguous ID prefix '{idPrefix}': {n} matches\n{ids}"

theorem prefixMatch_eq (db : Db) (idPrefix : String) : prefixMatch db idPrefix = liftM (db.getByPrefix idPrefix) := by
  unfold prefixMatch Db.getByPrefix
  generalize db.memories.rows.filter _ = rows
  match rows with
  | [] => rfl
  | [_] => rfl
  | _ :: _ :: _ => rfl

def updateTarget (params : Json) (db : Db) : Fallible String MemoryRow := do
  let id ← required params "id"
  validateId id
  match db.get id with
  | some r => pure r
  | none =>
    match ← prefixMatch db id with
    | some r => pure r
    | none => throw "memory not found"

/-- The arguments of `handle_update`, with its panic. -/
def Host.updateArguments (h : Host) (params : Json) (db : Db) : Fallible String (MemoryRow × UpdateMemory) := do
  let target ← updateTarget params db
  let priority ← match intParam params "priority" with
    | some p => do
      let p ← expectI32 p
      pure (some p)
    | none => pure none
  let u : UpdateMemory := {
    title := strParam params "title"
    content := strParam params "content"
    tier := (strParam params "tier").bind Tier.fromStr
    ns := strParam params "namespace"
    tags := stringsParam params "tags"
    priority
    confidence := h.floatParam params "confidence"
    expiresAt := strParam params "expires_at"
    metadata := objectParam params "metadata" }
  validateUpdate h.app.chrono.rfc3339 u
  return (target, u)

/-- The memory that the parameter `id` names. -/
def targetOf (params : Json) (db : Db) : Except String MemoryRow :=
  match required params "id" with
  | .error e => .error e
  | .ok id =>
    match validateId id with
    | .error e => .error e
    | .ok () =>
      match db.resolveId id with
      | .error e => .error e
      | .ok none => .error "memory not found"
      | .ok (some target) => .ok target

theorem withTarget_eq (params : Json) (n : Node) (next : MemoryRow → Node × Except String Json) :
    withTarget params n next = match targetOf params n.db with
      | .error e => (n, .error e)
      | .ok target => next target := by
  unfold withTarget targetOf
  cases required params "id" with
  | error e => rfl
  | ok id =>
    simp only
    cases validateId id with
    | error e => rfl
    | ok _ =>
      cases n.db.resolveId id with
      | error e => rfl
      | ok found => cases found <;> rfl

theorem updateTarget_eq (params : Json) (db : Db) : updateTarget params db = liftM (targetOf params db) := by
  unfold updateTarget targetOf Db.resolveId
  simp only [prefixMatch_eq]
  cases required params "id" with
  | error e => rfl
  | ok id =>
    rw [liftM_ok_bind]
    simp only
    cases validateId id with
    | error e => rfl
    | ok _ =>
      cases db.get id with
      | some r => rfl
      | none =>
        cases db.getByPrefix id with
        | error e => rfl
        | ok found => cases found <;> rfl

/-- The arguments of an update are those that `handle_update` is modelled with. -/
theorem collapse_updateArguments (h : Host) (params : Json) (db : Db) : (h.updateArguments params db).collapse = do
    let target ← targetOf params db
    let u ← h.updateRequest params
    return (target, u) := by
  unfold Host.updateArguments Host.updateRequest
  rw [updateTarget_eq, collapse_bind, collapse_liftM]
  refine congrArg (targetOf params db >>= ·) (funext fun target => ?_)
  have hok : ∀ {α β : Type} (a : α) (f : α → Except String β), (Except.ok a >>= f) = f a := fun _ _ => rfl
  cases intParam params "priority" with
  | none =>
    simp only [pure_bind, collapse_bind, collapse_liftM, collapse_pure, hok]
    generalize validateUpdate _ _ = valid
    cases valid <;> rfl
  | some p =>
    simp only [pure_bind, bind_assoc, collapse_bind, collapse_liftM, collapse_pure, collapse_expectI32]
    cases i32Of p with
    | error e => rfl
    | ok p =>
      simp only [Except.map, hok]
      generalize validateUpdate _ _ = valid
      cases valid <;> rfl

theorem updateArguments_returns_iff (h : Host) (params : Json) (db : Db) :
    (h.updateArguments params db).Returns ↔ ((∃ target, targetOf params db = .ok target) → PriorityFits params) := by
  unfold Host.updateArguments PriorityFits
  rw [updateTarget_eq, returns_liftM_bind]
  cases intParam params "priority" with
  | none => simp only [pure_bind, returns_liftM_bind, returns_pure, implies_true, Option.not_mem_none, false_implies]
  | some p =>
    simp only [pure_bind, returns_expectI32_bind, returns_liftM_bind, returns_pure, implies_true, and_true,
      Option.mem_some_iff, forall_eq', forall_exists_index]

/-! ## `handle_notify` -/

/-- The part of `handle_notify` before the store, with its panic. -/
def Host.notifyArguments (h : Host) (t : Draw h.app.chrono) (params : Json) (mcpClient : Option String) :
    Fallible String NotifyRequest := do
  let recipient ← required params "target_agent_id"
  let title ← required params "title"
  let payload ← required params "payload"
  let priority ← expectI32 ((intParam params "priority").getD 5)
  let tier ← tierOf ((strParam params "tier").getD "mid")
  validateAgentId recipient
  validateTitle title
  validateContent payload
  let sender ← h.process.resolveAgentId none mcpClient
  return {
    mem := {
      id := t.newId 0
      tier
      ns := messagesNamespaceFor recipient
      title
      content := payload
      tags := ["_message"]
      priority := max 1 (min priority 10)
      confidence := 1
      source := "notify"
      accessCount := 0
      createdAt := t.now.text
      updatedAt := t.now.text
      lastAccessedAt := none
      metadata := .obj [("agent_id", .str sender), ("message_kind", .str "notify"), ("recipient_agent_id", .str recipient)]
      expiresAt := (h.app.ttlForTier tier).map fun s => h.app.chrono.toRfc3339 (t.now.instant + s * 10 ^ 9) }
    sender
    recipient }

/-- The arguments of a message are those that `handle_notify` is modelled with. -/
theorem collapse_notifyArguments (h : Host) (t : Draw h.app.chrono) (params : Json) (mcpClient : Option String) :
    (h.notifyArguments t params mcpClient).collapse = h.notifyRequest t params mcpClient := by
  unfold Host.notifyArguments Host.notifyRequest
  simp only [collapse_bind, collapse_liftM, collapse_expectI32, collapse_pure]
  rfl

/-- A message comes to the conversion: it has a target, a title and a payload. -/
structure NotifyConverts (params : Json) : Prop where
  recipient : (strParam params "target_agent_id").isSome
  title : (strParam params "title").isSome
  payload : (strParam params "payload").isSome

/-- A message panics exactly when it comes to the conversion with a priority that is out of range. -/
theorem notifyArguments_returns_iff (h : Host) (t : Draw h.app.chrono) (params : Json) (mcpClient : Option String) :
    (h.notifyArguments t params mcpClient).Returns ↔ (NotifyConverts params → PriorityFits params) := by
  unfold Host.notifyArguments
  simp only [returns_liftM_bind, returns_expectI32_bind, returns_pure, implies_true, and_true, fitsI32_getD]
  constructor
  · rintro hreturns ⟨hrecipient, htitle, hpayload⟩
    obtain ⟨recipient, hrecipient⟩ := exists_required.mpr hrecipient
    obtain ⟨title, htitle⟩ := exists_required.mpr htitle
    obtain ⟨payload, hpayload⟩ := exists_required.mpr hpayload
    exact hreturns recipient hrecipient title htitle payload hpayload
  · intro hfits recipient hrecipient title htitle payload hpayload
    exact hfits ⟨exists_required.mp ⟨recipient, hrecipient⟩, exists_required.mp ⟨title, htitle⟩,
      exists_required.mp ⟨payload, hpayload⟩⟩

/-! ## Tools that read -/

/-- `handle_list`. A limit that is too large is saturated. -/
def handleList (h : Host) (now : String) (params : Json) (db : Db) : Except String Json := do
  let agentId := strParam params "agent_id"
  ifSome validateAgentId agentId
  let results := db.list ⟨strParam params "namespace", (strParam params "tier").bind Tier.fromStr,
    min ((natParam params "limit").getD 20) 200, 0, none, none, none, none, agentId⟩ now
  return .obj [("count", .int results.length), ("memories", .arr (results.map h.app.memoryToValue))]

inductive Family where
  | core
  | lifecycle
  | graph
  | governance
  | power
  | meta'
  | archive
  | other

def Family.all : List Family := [core, lifecycle, graph, governance, power, meta', archive, other]

def Family.name : Family → String
  | core => "core"
  | lifecycle => "lifecycle"
  | graph => "graph"
  | governance => "governance"
  | power => "power"
  | meta' => "meta"
  | archive => "archive"
  | other => "other"

/-- `Family::from_str`, with the texts of its errors. -/
def Family.fromStr (s : String) : Except String Family :=
  if s.toList.any fun c => c.isUpper then
    .error s!"profile '{s}' contains uppercase letters; profile vocabulary is case-sensitive lowercase (e.g. 'core', not 'Core')"
  else
    match Family.all.find? fun f => f.name = s with
    | some f => .ok f
    | none =>
      let valid := ", ".intercalate (Family.all.map Family.name)
      .error (s!"unknown profile or family '{s}'. Valid profiles: core, graph, admin, power, full. " ++ s!"Valid families: {valid}.")

/-- The `WHERE` clause of `handle_load_family`. -/
def familyFilters (ns : Option String) (familyName now : String) (m : Memory) : Bool :=
  ns.all (m.ns = ·) && m.metadata.extract "family" = some (.str familyName) && m.expiresAt.all (now < ·)

/-- `handle_load_family`. The number of memories is clamped between 1 and 100. -/
def handleLoadFamily (h : Host) (now : String) (params : Json) (db : Db) : Except String Json := do
  let familyRaw ← required params "family"
  let family ← Family.fromStr familyRaw
  let ns := strParam params "namespace"
  ifSome validateNamespace ns
  let k := max 1 (min ((natParam params "k").getD 20) 100)
  let memories := ((db.live.filter (familyFilters ns family.name now)).mergeSort Db.listBefore).take k
  return .obj [("count", .int memories.length), ("family", .str family.name), ("k", .int k),
    ("memories", .arr (memories.map h.app.memoryToValue)), ("namespace", optStr ns)]

/-- `handle_find_paths`. The query may take `fuel` rows from its queue. -/
def handleFindPaths (params : Json) (db : Db) (fuel : ℕ) : Option (Except String Json) :=
  let checked : Except String (String × String) := do
    let sourceId ← required params "source_id"
    let targetId ← required params "target_id"
    validateId sourceId
    validateId targetId
    return (sourceId, targetId)
  match checked with
  | .error e => some (.error e)
  | .ok (sourceId, targetId) =>
    (Kg.findPaths db sourceId targetId (natParam params "max_depth") (natParam params "max_results") fuel).map fun found =>
      found.map fun paths => .obj [("count", .int paths.length), ("paths", .arr (paths.map fun path => .arr (path.map .str))),
        ("source_id", .str sourceId), ("target_id", .str targetId)]

theorem findPaths_ends (params : Json) (db : Db) : ∃ enough, ∀ fuel, enough ≤ fuel → ∃ r, handleFindPaths params db fuel = some r := by
  unfold handleFindPaths
  simp only
  split
  · exact ⟨0, fun _ _ => ⟨_, rfl⟩⟩
  · rename_i sourceId targetId _
    refine ⟨(Kg.walks db sourceId ((natParam params "max_depth").getD Kg.findPathsDefaultDepth)).length + 1, fun fuel hfuel => ?_⟩
    unfold Kg.findPaths
    simp only
    split_ifs with hzero hmax hself
    · exact ⟨_, rfl⟩
    · exact ⟨_, rfl⟩
    · exact ⟨_, rfl⟩
    · rw [Kg.run_pathStart (by omega) hfuel]
      exact ⟨_, rfl⟩

/-! ## The calls -/

/-- The tools whose handlers are called here. -/
inductive Handler where
  | memoryStore
  | memoryUpdate
  | memoryNotify
  | memoryInbox
  | memoryList
  | memoryLoadFamily
  | memoryRecall
  | memoryLink
  | memoryVerify
  | memoryFindPaths

/-- What all the handlers get from outside. -/
structure Hosts (F32 F64 : Type) where
  tools : Host
  recaller : RecallHost F32 F64
  peers : AiMemory.Host

section Calls

variable {F32 F64 : Type} [Arith F32] [Arith F64] (hs : Hosts F32 F64)

/-- A call of a handler: the node after it and its answer, or the panic. -/
def Handler.call (handler : Handler) (t : Draw hs.tools.app.chrono) (params : Json) (mcpClient : Option String) (n : Node) (fuel : ℕ) :
    Option (Except Panic (Node × Except String Json)) :=
  match handler with
  | .memoryStore => some <| (hs.tools.storeArguments t params mcpClient n.db).run.map fun _ => handleStore hs.tools t params mcpClient n
  | .memoryUpdate => some <| (hs.tools.updateArguments params n.db).run.map fun _ => handleUpdate hs.tools t params n
  | .memoryNotify => some <| (hs.tools.notifyArguments t params mcpClient).run.map fun _ => handleNotify hs.tools t params mcpClient n
  | .memoryInbox => some (.ok (n, handleInbox hs.tools t.now.text params mcpClient n))
  | .memoryList => some (.ok (n, handleList hs.tools t.now.text params n.db))
  | .memoryLoadFamily => some (.ok (n, handleLoadFamily hs.tools t.now.text params n.db))
  | .memoryRecall => some <| (handleRecall hs.tools hs.recaller params n.db).map fun out => ({ n with db := out.1 }, out.2)
  | .memoryLink => some (.ok (handleLink hs.tools t params n))
  | .memoryVerify => some (.ok (n, handleVerify hs.peers n.db params))
  | .memoryFindPaths => (handleFindPaths params n.db fuel).map fun answer => .ok (n, answer)

/-- The call comes to an end with an answer. -/
def Answers (call : ℕ → Option (Except Panic (Node × Except String Json))) : Prop :=
  ∃ enough, ∀ fuel, enough ≤ fuel → ∃ out, call fuel = some (.ok out)

/-- A call comes to the conversion of its priority. -/
def Handler.Converts (params : Json) (db : Db) : Handler → Prop
  | .memoryStore => StoreConverts params
  | .memoryUpdate => ∃ target, targetOf params db = .ok target
  | .memoryNotify => NotifyConverts params
  | _ => False

theorem answers_run {α : Type} {x : Fallible String α} {f : Except String α → Node × Except String Json} :
    Answers (fun _ => some (x.run.map f)) ↔ x.Returns := by
  unfold Answers Returns
  cases x.run with
  | error p =>
    refine iff_of_false ?_ (by simp)
    rintro ⟨enough, h⟩
    obtain ⟨out, hout⟩ := h enough le_rfl
    cases hout
  | ok r => exact iff_of_true ⟨0, fun _ _ => ⟨f r, rfl⟩⟩ ⟨r, rfl⟩

theorem answers_ok (out : Node × Except String Json) : Answers fun _ => some (.ok out) := ⟨0, fun _ _ => ⟨out, rfl⟩⟩

/-- A call of any of the handlers returns exactly when it does not come to the conversion of a priority or the priority is a 32-bit
integer, for all its arguments and every database that SQLite can hold. -/
theorem call_returns_iff (handler : Handler) (t : Draw hs.tools.app.chrono) (params : Json) (mcpClient : Option String) (n : Node)
    (hsize : Storable n.db) :
    Answers (handler.call hs t params mcpClient n) ↔ (handler.Converts params n.db → PriorityFits params) := by
  cases handler with
  | memoryStore => exact answers_run.trans (storeArguments_returns_iff hs.tools t params mcpClient n.db)
  | memoryUpdate => exact answers_run.trans (updateArguments_returns_iff hs.tools params n.db)
  | memoryNotify => exact answers_run.trans (notifyArguments_returns_iff hs.tools t params mcpClient)
  | memoryInbox => exact iff_of_true (answers_ok _) nofun
  | memoryList => exact iff_of_true (answers_ok _) nofun
  | memoryLoadFamily => exact iff_of_true (answers_ok _) nofun
  | memoryRecall =>
    refine iff_of_true ?_ nofun
    obtain ⟨out, hout⟩ := handleRecall_returns hs.tools hs.recaller params hsize
    refine ⟨0, fun _ _ => ⟨({ n with db := out.1 }, out.2), ?_⟩⟩
    show some ((handleRecall hs.tools hs.recaller params n.db).map _) = _
    rw [hout]
    rfl
  | memoryLink => exact iff_of_true (answers_ok _) nofun
  | memoryVerify => exact iff_of_true (answers_ok _) nofun
  | memoryFindPaths =>
    refine iff_of_true ?_ nofun
    obtain ⟨enough, hends⟩ := findPaths_ends params n.db
    refine ⟨enough, fun fuel hfuel => ?_⟩
    obtain ⟨answer, hanswer⟩ := hends fuel hfuel
    refine ⟨(n, answer), ?_⟩
    show (handleFindPaths params n.db fuel).map _ = _
    rw [hanswer]
    rfl

end Calls

/-! ## A priority that is too large -/

attribute [local instance] ratArith

def hosts : Hosts ℚ ℚ where
  tools := host
  recaller := {
    env := Crowd.env
    ftsRank := fun _ _ _ => 0
    embedder := none
    vectorIndex := none
    reranker := none
    times := fun _ => ⟨"", "", ""⟩
    rounded := fun _ => .null
    display := fun _ => "" }
  peers := Identity.aliceHost ⟨fun _ _ => [], fun _ _ _ => false⟩

def urgentParams (priority : ℤ) : Json := .obj [("content", .str "draft"), ("priority", .int priority), ("title", .str "Plan")]

theorem call_returns_iff_five :
    Answers (Handler.call hosts .memoryStore (draw nine ["m-2", "p-1"]) (urgentParams 5) none (.start (.single Crowd.target))) ↔
      (Handler.Converts (urgentParams 5) (.single Crowd.target) .memoryStore → PriorityFits (urgentParams 5)) :=
  call_returns_iff hosts .memoryStore (draw nine ["m-2", "p-1"]) (urgentParams 5) none (.start (.single Crowd.target))
    (by unfold Storable; decide)

/-- A store of the priority 2147483648 panics. -/
theorem priority_panics :
    Handler.call hosts .memoryStore (draw nine ["m-1", "p-1"]) (urgentParams 2147483648) none (.start .empty) 0 =
      some (.error ⟨"i64 as i32"⟩) ∧
    ¬Answers (Handler.call hosts .memoryStore (draw nine ["m-1", "p-1"]) (urgentParams 2147483648) none (.start .empty)) := by
  have hpanics : ∀ fuel, Handler.call hosts .memoryStore (draw nine ["m-1", "p-1"]) (urgentParams 2147483648) none (.start .empty) fuel =
      some (.error ⟨"i64 as i32"⟩) := fun _ => rfl
  refine ⟨hpanics 0, ?_⟩
  rintro ⟨enough, hanswers⟩
  obtain ⟨out, hout⟩ := hanswers enough le_rfl
  cases (hpanics enough).symm.trans hout

end Mcp

end AiMemory
