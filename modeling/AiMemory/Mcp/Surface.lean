import AiMemory.Mcp.Profiles

/-!
# The tool surface

What the server says about its tools, and what it does with a call: `tools/list`, the dispatch of `tools/call`, the tool entries
and family tables of `memory_capabilities`, and the expansion of a family. The dispatch takes the tools that are listed and no
others (`surfaces_agree`). The entries of `memory_capabilities` say the same but for the tool itself, and an expansion hands
out schemas without changing what can be called.

The schemas are a parameter, since only their names matter here; the listing strips them of prose and of optional parameters.
-/

namespace AiMemory.Mcp

open Json

/-! ## Tables -/

/-- `Family::for_tool`, by the arms of its `match`. -/
def Family.arms : List (List String × Family) :=
  [(["memory_store", "memory_recall", "memory_list", "memory_get", "memory_search", "memory_load_family",
       "memory_smart_load"], .core),
    (["memory_update", "memory_delete", "memory_forget", "memory_gc", "memory_promote"], .lifecycle),
    (["memory_kg_query", "memory_kg_timeline", "memory_kg_invalidate", "memory_link", "memory_get_links",
       "memory_entity_register", "memory_entity_get_by_alias", "memory_get_taxonomy", "memory_replay",
       "memory_verify", "memory_find_paths"], .graph),
    (["memory_pending_list", "memory_pending_approve", "memory_pending_reject", "memory_namespace_set_standard",
       "memory_namespace_get_standard", "memory_namespace_clear_standard", "memory_subscribe", "memory_unsubscribe"],
         .governance),
    (["memory_consolidate", "memory_detect_contradiction", "memory_check_duplicate", "memory_auto_tag",
       "memory_expand_query", "memory_inbox", "memory_subscription_replay", "memory_subscription_dlq_list",
       "memory_quota_status"], .power),
    (["memory_capabilities", "memory_agent_register", "memory_agent_list", "memory_session_start", "memory_stats"], .meta'),
    (["memory_archive_list", "memory_archive_purge", "memory_archive_restore", "memory_archive_stats"], .archive),
    (["memory_list_subscriptions", "memory_notify"], .other)]

def Family.forTool (name : String) : Option Family := (Family.arms.find? fun arm => name ∈ arm.1).map Prod.snd

def Family.toolNames : Family → List String
  | core => ["memory_store", "memory_recall", "memory_list", "memory_get", "memory_search", "memory_load_family",
     "memory_smart_load"]
  | lifecycle => ["memory_update", "memory_delete", "memory_forget", "memory_gc", "memory_promote"]
  | graph => ["memory_kg_query", "memory_kg_timeline", "memory_kg_invalidate", "memory_link", "memory_get_links",
     "memory_entity_register", "memory_entity_get_by_alias", "memory_get_taxonomy", "memory_replay", "memory_verify",
     "memory_find_paths"]
  | governance => ["memory_pending_list", "memory_pending_approve", "memory_pending_reject", "memory_namespace_set_standard",
     "memory_namespace_get_standard", "memory_namespace_clear_standard", "memory_subscribe", "memory_unsubscribe"]
  | power => ["memory_consolidate", "memory_detect_contradiction", "memory_check_duplicate", "memory_auto_tag",
     "memory_expand_query", "memory_inbox", "memory_subscription_replay", "memory_subscription_dlq_list",
     "memory_quota_status"]
  | meta' => ["memory_capabilities", "memory_agent_register", "memory_agent_list", "memory_session_start", "memory_stats"]
  | archive => ["memory_archive_list", "memory_archive_purge", "memory_archive_restore", "memory_archive_stats"]
  | other => ["memory_list_subscriptions", "memory_notify"]

/-- The names in `tool_definitions`, in order. -/
def catalog : List String :=
  ["memory_store", "memory_recall", "memory_search", "memory_list", "memory_load_family", "memory_smart_load",
   "memory_get_taxonomy", "memory_check_duplicate", "memory_entity_register", "memory_entity_get_by_alias",
   "memory_kg_timeline", "memory_kg_invalidate", "memory_kg_query", "memory_find_paths", "memory_delete",
   "memory_promote", "memory_forget", "memory_stats", "memory_update", "memory_get", "memory_link",
   "memory_get_links", "memory_verify", "memory_replay", "memory_consolidate", "memory_capabilities",
   "memory_expand_query", "memory_auto_tag", "memory_detect_contradiction", "memory_archive_list",
   "memory_archive_restore", "memory_archive_purge", "memory_archive_stats", "memory_gc", "memory_session_start",
   "memory_namespace_set_standard", "memory_namespace_get_standard", "memory_namespace_clear_standard",
   "memory_pending_list", "memory_pending_approve", "memory_pending_reject", "memory_agent_register",
   "memory_agent_list", "memory_notify", "memory_inbox", "memory_subscribe", "memory_unsubscribe",
   "memory_list_subscriptions", "memory_subscription_replay", "memory_subscription_dlq_list", "memory_quota_status"]

/-- The arms of the dispatch in `handle_request`, in order. -/
def dispatchArms : List String :=
  ["memory_store", "memory_recall", "memory_search", "memory_list", "memory_load_family", "memory_smart_load",
   "memory_get_taxonomy", "memory_check_duplicate", "memory_entity_register", "memory_entity_get_by_alias",
   "memory_kg_timeline", "memory_kg_invalidate", "memory_kg_query", "memory_find_paths", "memory_delete",
   "memory_promote", "memory_pending_list", "memory_pending_approve", "memory_pending_reject", "memory_forget",
   "memory_stats", "memory_update", "memory_get", "memory_link", "memory_get_links", "memory_verify", "memory_replay",
   "memory_consolidate", "memory_capabilities", "memory_expand_query", "memory_auto_tag",
   "memory_detect_contradiction", "memory_archive_list", "memory_archive_restore", "memory_archive_purge",
   "memory_archive_stats", "memory_gc", "memory_session_start", "memory_namespace_set_standard",
   "memory_namespace_get_standard", "memory_namespace_clear_standard", "memory_agent_register", "memory_agent_list",
   "memory_notify", "memory_inbox", "memory_subscribe", "memory_unsubscribe", "memory_list_subscriptions",
   "memory_subscription_replay", "memory_subscription_dlq_list", "memory_quota_status"]

def alwaysOnTools : List String := ["memory_capabilities"]

def Profile.loads (p : Profile) (toolName : String) : Bool :=
  toolName ∈ alwaysOnTools || (Family.forTool toolName).any p.includes

/-- `v.get(key).and_then(Value::as_str)`. -/
def textAt (key : String) (v : Json) : Option String := (v.get key).bind Json.asStr

/-- The array `tools` of `tool_definitions`. -/
structure Definitions where
  tools : List Json
  names : tools.map (textAt "name") = catalog.map some

/-! ## Trimmed schemas -/

def c4KeepOptionalParams : List String := ["namespace", "format"]

/-- Rewrites the field of a key, as through `get_mut`. -/
def modifyField (k : String) (f : Json → Json) (fs : List (String × Json)) : List (String × Json) :=
  fs.map fun e => if e.1 = k then (e.1, f e.2) else e

def modifyAt (k : String) (f : Json → Json) : Json → Json
  | .obj fs => .obj (modifyField k f fs)
  | v => v

def modifyAll (f : Json → Json) : Json → Json
  | .obj fs => .obj (fs.map fun e => (e.1, f e.2))
  | v => v

/-- `Map::remove`. -/
def removeKey (k : String) : Json → Json
  | .obj fs => .obj (fs.filter fun e => e.1 ≠ k)
  | v => v

/-- The names in `required`. -/
def requiredNames (inputSchema : Json) : List String :=
  match inputSchema.get "required" with
  | some (.arr items) => items.filterMap Json.asStr
  | _ => []

def keepsParam (required : List String) (k : String) : Bool := k ∈ required || k ∈ c4KeepOptionalParams

def trimProperties (required : List String) : Json → Json
  | .obj props => .obj (props.filter fun e => keepsParam required e.1)
  | v => v

def trimSchema (inputSchema : Json) : Json := modifyAt "properties" (trimProperties (requiredNames inputSchema)) inputSchema

def droppedParams (inputSchema : Json) : ℕ :=
  match inputSchema.get "properties" with
  | some (.obj props) => (props.filter fun e => !keepsParam (requiredNames inputSchema) e.1).length
  | _ => 0

/-- `trim_optional_params`, with the count it returns. -/
def trimOptionalParams (tools : List Json) : List Json × ℕ :=
  (tools.map (modifyAt "inputSchema" trimSchema),
    (tools.map fun t => (t.get "inputSchema").elim 0 droppedParams).sum)

/-- A parameter without its prose, nor that of the parameters nested in it. -/
def stripParam (prop : Json) : Json := modifyAt "properties" (modifyAll (removeKey "description"))
    (removeKey "description" prop)

def stripTool (tool : Json) : Json := modifyAt "inputSchema" (modifyAt "properties" (modifyAll stripParam))
    (removeKey "docs" tool)

def stripDocsFromTools (tools : List Json) : List Json := tools.map stripTool

/-! ## What is listed, and what is called -/

def toolDefinitionsForProfileVerbose (d : Definitions) (p : Profile) : List Json :=
  stripDocsFromTools (d.tools.filter fun t => (textAt "name" t).any p.loads)

/-- The answer to `tools/list`. -/
def toolDefinitionsForProfile (d : Definitions) (p : Profile) : List Json :=
  (trimOptionalParams (toolDefinitionsForProfileVerbose d p)).1

/-- What `handle_request` makes of `tools/call`: a handler is called, or an error is answered. -/
inductive Routed where
  | handler (toolName : String)
  | error (code : ℤ) (message : String)
  deriving DecidableEq

def notLoadedHint (toolName : String) : String :=
  match Family.forTool toolName with
  | some f =>
    "tool '" ++ toolName ++ "' is in family '" ++ f.name ++
      "' which is not loaded under the active profile. Restart with `--profile <name>` or `--profile core," ++
      f.name ++ "` to load it, or call `memory_capabilities --include-schema family=" ++ f.name ++ "` to expand at runtime."
  | none => "tool '" ++ toolName ++ "' is not registered in this build. Call `memory_capabilities` to see available tools."

/-- The dispatch of `tools/call`. -/
def routeCall (p : Profile) (params : Json) : Routed :=
  match textAt "name" params with
  | none | some "" => .error (-32602) "missing or empty tool name"
  | some toolName =>
    if !p.loads toolName then .error (-32601) (notLoadedHint toolName)
    else if toolName ∈ dispatchArms then .handler toolName
    else .error (-32601) ("unknown tool: " ++ toolName)

/-! ## What `memory_capabilities` says -/

structure ToolEntry where
  name : String
  family : String
  loaded : Bool
  callableNow : Bool
  deriving DecidableEq

def permits (mcpConfig : Option McpConfig) (agentId : Option String) (f : Family) : Bool :=
  match mcpConfig with
  | some cfg => cfg.allowlistDecision agentId f.name ≠ .deny
  | none => true

/-- The entries of the families, before the tools that are always on. -/
def familyEntries (p : Profile) (mcpConfig : Option McpConfig) (agentId : Option String) : List ToolEntry :=
  Family.all.flatMap fun f => f.toolNames.map fun name => {
    name
    family := f.name
    loaded := p.includes f
    callableNow := p.includes f && permits mcpConfig agentId f }

def buildCapabilitiesTools (p : Profile) (mcpConfig : Option McpConfig) (agentId : Option String) : List ToolEntry :=
  alwaysOnTools.foldl (fun entries name =>
    if entries.any fun e => e.name = name then entries else entries ++ [⟨name, "always_on", true, true⟩])
    (familyEntries p mcpConfig agentId)

def buildAgentPermittedFamilies (mcpConfig : Option McpConfig) (agentId : Option String) : Option (List String) := do
  let cfg ← mcpConfig
  let aid ← agentId
  let table ← cfg.allowlist
  if table = [] then none
  else some ((Family.all.filter fun f => cfg.allowlistDecision (some aid) f.name = .allow).map Family.name)

/-- A row of `families_overview`. -/
structure FamilyRow where
  name : String
  toolCount : ℕ
  loaded : Bool
  tools : List String

def definedNames (tools : List Json) : List String := tools.filterMap (textAt "name")

def familiesOverview (d : Definitions) (p : Profile) : List FamilyRow :=
  Family.all.map fun f =>
    let toolsInFamily := (definedNames d.tools).filter fun n => Family.forTool n = some f
    ⟨f.name, toolsInFamily.length, p.includes f, toolsInFamily⟩

/-- A row of the audit log for an expansion. -/
structure ExpansionRow where
  agentId : Option String
  requestedFamily : String
  granted : Bool
  deriving DecidableEq

/-- What an expansion hands out: the definitions of a family, or their names. -/
inductive Expansion where
  | schemas (f : Family) (loadedUnderActiveProfile verbose : Bool) (tools : List Json)
  | names (f : Family) (loadedUnderActiveProfile : Bool) (tools : List String)

/-- The definitions of a family, trimmed and stripped unless `verbose`. -/
def familyTools (d : Definitions) (verbose : Bool) (f : Family) : List Json :=
  let defs := if verbose then d.tools else (trimOptionalParams d.tools).1
  let inFamily := defs.filter fun t => (textAt "name" t).bind Family.forTool = some f
  if verbose then inFamily else stripDocsFromTools inFamily

/-- `handle_capabilities_family`, with the rows it hands to `record_capability_expansion`. -/
def handleCapabilitiesFamily (d : Definitions) (familyName : String) (includeSchema verbose : Bool) (p : Profile)
    (allowlistCfg : Option McpConfig) (agentId : Option String) : Except String Expansion × List ExpansionRow :=
  if familyName = "" then (.error "memory_capabilities: 'family' must not be empty", [])
  else
    match Family.all.find? fun f => f.name = familyName with
    | none => (.error ("unknown family '" ++ familyName ++ "'. Valid families: " ++
        ", ".intercalate (Family.all.map Family.name) ++ "."), [])
    | some f =>
      if includeSchema && !permits allowlistCfg agentId f then
        (.error ("agent '" ++ agentId.getD "<anonymous>" ++ "' is not permitted to expand family '" ++ f.name ++
          "' under [mcp.allowlist]. Ask an operator to add a matching rule to config.toml or pass an allowed agent_id."),
          [⟨agentId, f.name, false⟩])
      else
        let inFamily := familyTools d verbose f
        if includeSchema then (.ok (.schemas f (p.includes f) verbose inFamily), [⟨agentId, f.name, true⟩])
        else (.ok (.names f (p.includes f) (definedNames inFamily)), [])

/-! ## The tables agree -/

section Names

variable {n : String} {f : Family} {p : Profile}

theorem arms_eq : ∀ arm ∈ Family.arms, arm.1 = arm.2.toolNames := by decide

theorem forTool_of_mem : ∀ f ∈ Family.all, ∀ n ∈ f.toolNames, Family.forTool n = some f := by decide

theorem forTool_eq_some_iff : Family.forTool n = some f ↔ n ∈ f.toolNames := by
  constructor
  · intro h
    obtain ⟨arm, harm, rfl⟩ := Option.map_eq_some_iff.mp h
    rw [← arms_eq arm (List.mem_of_find?_eq_some harm)]
    simpa using List.find?_some harm
  · exact forTool_of_mem f f.mem_all n

theorem catalog_perm : (Family.all.flatMap Family.toolNames).Perm catalog := by decide

theorem mem_catalog_of_family (h : n ∈ f.toolNames) : n ∈ catalog :=
  catalog_perm.mem_iff.mp (List.mem_flatMap.mpr ⟨f, f.mem_all, h⟩)

theorem dispatchArms_perm : catalog.Perm dispatchArms := by decide

theorem loads_iff : p.loads n = true ↔ n = "memory_capabilities" ∨ ∃ f, n ∈ f.toolNames ∧ p.includes f = true := by
  rw [Profile.loads, Bool.or_eq_true, decide_eq_true_eq, alwaysOnTools, List.mem_singleton, Option.any_eq_true]
  simp only [forTool_eq_some_iff]

theorem mem_catalog_of_loads (h : p.loads n = true) : n ∈ catalog := by
  obtain rfl | ⟨f, hf, -⟩ := loads_iff.mp h
  · decide
  · exact mem_catalog_of_family hf

end Names

section Listing

variable {k : String} {g : Json → Json} {v : Json} {fs : List (String × Json)} {d : Definitions} {p : Profile}

variable {j : String}

theorem getField_modifyField_of_ne (h : j ≠ k) : getField j (modifyField k g fs) = getField j fs := by
  induction fs with
  | nil => rfl
  | cons e fs ih =>
    obtain ⟨l, w⟩ := e
    rw [modifyField, List.map_cons]
    by_cases hl : l = k
    · rw [if_pos hl, getField, getField, if_neg (fun he => h (he.symm.trans hl)), if_neg (fun he => h (he.symm.trans hl))]
      exact ih
    · rw [if_neg hl, getField, getField]
      split
      · rfl
      · exact ih

theorem getField_modifyField : getField k (modifyField k g fs) = (getField k fs).map g := by
  induction fs with
  | nil => rfl
  | cons e fs ih =>
    obtain ⟨l, w⟩ := e
    rw [modifyField, List.map_cons]
    by_cases hl : l = k
    · rw [if_pos hl, getField, getField, if_pos hl, if_pos hl]
      rfl
    · rw [if_neg hl, getField, getField, if_neg hl, if_neg hl]
      exact ih

theorem get_modifyAt_of_ne (h : j ≠ k) : (modifyAt k g v).get j = v.get j := by
  cases v with
  | obj fs => exact getField_modifyField_of_ne h
  | _ => rfl

theorem get_modifyAt : (modifyAt k g v).get k = (v.get k).map g := by
  cases v with
  | obj fs => exact getField_modifyField
  | _ => rfl

theorem getField_filter {P : String → Bool} :
    getField j (fs.filter fun e => P e.1) = if P j then getField j fs else none := by
  induction fs with
  | nil => cases P j <;> rfl
  | cons e fs ih =>
    obtain ⟨l, w⟩ := e
    rw [List.filter_cons]
    dsimp only
    by_cases hlj : l = j
    · subst hlj
      split
      · next hl => rw [getField, if_pos rfl, getField, if_pos rfl]
      · next hl => rw [ih, if_neg hl]
    · split
      · rw [getField, if_neg hlj, ih, getField, if_neg hlj]
      · rw [ih, getField, if_neg hlj]

theorem get_removeKey_of_ne (h : j ≠ k) : (removeKey k v).get j = v.get j := by
  cases v with
  | obj fs => exact (getField_filter (P := fun l => decide (l ≠ k)) (j := j)).trans (if_pos (decide_eq_true h))
  | _ => rfl

theorem textAt_stripTool (t : Json) : textAt "name" (stripTool t) = textAt "name" t := by
  rw [textAt, stripTool, get_modifyAt_of_ne (by decide), get_removeKey_of_ne (by decide), textAt]

theorem textAt_trimmed (t : Json) : textAt "name" (modifyAt "inputSchema" trimSchema t) = textAt "name" t := by
  rw [textAt, get_modifyAt_of_ne (by decide), textAt]

theorem definedNames_map {l : List Json} (h : ∀ t, textAt "name" (g t) = textAt "name" t) :
    definedNames (l.map g) = definedNames l := by
  rw [definedNames, List.filterMap_map, definedNames]
  exact List.filterMap_congr fun t _ => h t

theorem definedNames_filter {l : List Json} {c : List String} (h : l.map (textAt "name") = c.map some) (q : String → Bool) :
    definedNames (l.filter fun t => (textAt "name" t).any q) = c.filter q := by
  induction l generalizing c with
  | nil =>
    cases c with
    | nil => rfl
    | cons => cases h
  | cons t l ih =>
    cases c with
    | nil => cases h
    | cons n c =>
      obtain ⟨hn, hrest⟩ := List.cons.inj h
      rw [List.filter_cons, hn, Option.any_some, List.filter_cons]
      split
      · rw [definedNames, List.filterMap_cons_some hn]
        exact congrArg _ (ih hrest)
      · exact ih hrest

theorem definedNames_list (d : Definitions) (p : Profile) :
    definedNames (toolDefinitionsForProfile d p) = catalog.filter p.loads := by
  rw [toolDefinitionsForProfile, trimOptionalParams, definedNames_map textAt_trimmed, toolDefinitionsForProfileVerbose,
    stripDocsFromTools, definedNames_map textAt_stripTool, definedNames_filter d.names]

theorem definedNames_all (d : Definitions) : definedNames d.tools = catalog := by
  have h := definedNames_filter d.names fun _ => true
  rw [List.filter_eq_self.mpr fun _ _ => rfl, List.filter_eq_self.mpr] at h
  · exact h
  · intro t ht
    have hmem : textAt "name" t ∈ d.tools.map (textAt "name") := List.mem_map_of_mem ht
    rw [d.names] at hmem
    obtain ⟨n, -, hn⟩ := List.mem_map.mp hmem
    rw [← hn]
    rfl

end Listing

/-! ## What is said and what is done -/

section Agreement

variable {d : Definitions} {p : Profile} {mcpConfig : Option McpConfig} {agentId : Option String} {e : ToolEntry}

/-- The surfaces of one server. -/
structure Agreement (d : Definitions) (p : Profile) (mcpConfig : Option McpConfig) (agentId : Option String) : Prop where
  listed : ∀ n, n ∈ definedNames (toolDefinitionsForProfile d p) ↔ p.loads n = true
  called : ∀ params n, textAt "name" params = some n → n ≠ "" →
    routeCall p params = if p.loads n then .handler n else .error (-32601) (notLoadedHint n)
  entries : ((buildCapabilitiesTools p mcpConfig agentId).map ToolEntry.name).Perm catalog
  loaded : ∀ e ∈ buildCapabilitiesTools p mcpConfig agentId,
    (e.loaded = true ↔ p.loads e.name = true ∧ (e.name = "memory_capabilities" → p.includes .meta' = true))
  callable : ∀ e ∈ buildCapabilitiesTools p mcpConfig agentId, ∃ f, Family.forTool e.name = some f ∧ e.family = f.name ∧
    (e.callableNow = true ↔ e.loaded = true ∧ permits mcpConfig agentId f = true)
  permitted : ∀ l, buildAgentPermittedFamilies mcpConfig agentId = some l →
    ∀ f : Family, f.name ∈ l ↔ permits mcpConfig agentId f = true
  overview : ∀ row ∈ familiesOverview d p, ∃ f : Family, row.name = f.name ∧ row.tools.Perm f.toolNames ∧
    row.toolCount = f.toolNames.length ∧ (row.loaded = true ↔ ∀ n ∈ row.tools, n ≠ "memory_capabilities" → p.loads n = true)

theorem names_familyEntries : (familyEntries p mcpConfig agentId).map ToolEntry.name =
    Family.all.flatMap Family.toolNames := by
  rw [familyEntries, List.map_flatMap]
  refine List.flatMap_congr fun f _ => ?_
  rw [List.map_map]
  exact List.map_id _

theorem buildCapabilitiesTools_eq : buildCapabilitiesTools p mcpConfig agentId = familyEntries p mcpConfig agentId := by
  have hmem : "memory_capabilities" ∈ (familyEntries p mcpConfig agentId).map ToolEntry.name := by
    rw [names_familyEntries]
    decide
  obtain ⟨e, he, hname⟩ := List.mem_map.mp hmem
  have hany : ((familyEntries p mcpConfig agentId).any fun e => e.name = "memory_capabilities") = true :=
    List.any_eq_true.mpr ⟨e, he, decide_eq_true hname⟩
  rw [buildCapabilitiesTools, alwaysOnTools, List.foldl_cons, List.foldl_nil, if_pos hany]

theorem mem_familyEntries (h : e ∈ familyEntries p mcpConfig agentId) : ∃ f, e.name ∈ f.toolNames ∧ e.family = f.name ∧
    e.loaded = p.includes f ∧ e.callableNow = (p.includes f && permits mcpConfig agentId f) := by
  obtain ⟨f, -, hf⟩ := List.mem_flatMap.mp h
  obtain ⟨name, hname, rfl⟩ := List.mem_map.mp hf
  exact ⟨f, hname, rfl, rfl, rfl⟩

variable {f : Family}

theorem loads_of_family {n : String} (h : n ∈ f.toolNames) :
    p.loads n = true ↔ n = "memory_capabilities" ∨ p.includes f = true := by
  rw [loads_iff]
  refine or_congr_right ⟨?_, fun hf => ⟨f, h, hf⟩⟩
  rintro ⟨g, hg, hincl⟩
  have hsame : some g = some f := (forTool_eq_some_iff.mpr hg).symm.trans (forTool_eq_some_iff.mpr h)
  rwa [← Option.some.inj hsame]

theorem family_of_capabilities (h : "memory_capabilities" ∈ f.toolNames) : f = .meta' := by
  have hmeta : Family.forTool "memory_capabilities" = some .meta' := by decide
  exact Option.some.inj ((forTool_eq_some_iff.mpr h).symm.trans hmeta)

theorem loaded_iff {n : String} (h : n ∈ f.toolNames) :
    p.includes f = true ↔ p.loads n = true ∧ (n = "memory_capabilities" → p.includes .meta' = true) := by
  rw [loads_of_family h]
  constructor
  · intro hf
    refine ⟨.inr hf, fun hn => ?_⟩
    rw [hn] at h
    rwa [← family_of_capabilities h]
  · rintro ⟨rfl | hf, himp⟩
    · rw [family_of_capabilities h]
      exact himp rfl
    · exact hf

theorem perm_toolNames (f : Family) : ((catalog.filter fun n => Family.forTool n = some f)).Perm f.toolNames := by
  have hfamily : ∀ g : Family,
      (g.toolNames.filter fun n => Family.forTool n = some f) = if g = f then f.toolNames else [] := by
    intro g
    split
    · next heq =>
      rw [heq]
      exact List.filter_eq_self.mpr fun n hn => decide_eq_true (forTool_eq_some_iff.mpr hn)
    · next hne =>
      refine List.filter_eq_nil_iff.mpr fun n hn hf => hne ?_
      exact Option.some.inj ((forTool_eq_some_iff.mpr hn).symm.trans (of_decide_eq_true hf))
  have hall : (Family.all.flatMap fun g => if g = f then f.toolNames else []) = f.toolNames := by cases f <;> rfl
  refine (catalog_perm.filter _).symm.trans (List.Perm.of_eq ?_)
  rw [List.filter_flatMap, ← hall]
  exact List.flatMap_congr fun g _ => hfamily g

theorem exists_tool (f : Family) : ∃ n ∈ f.toolNames, n ≠ "memory_capabilities" := by
  cases f <;> exact ⟨_, List.mem_cons_of_mem _ List.mem_cons_self, by decide⟩

theorem overview_row {row : FamilyRow} (h : row ∈ familiesOverview d p) : ∃ f : Family, row.name = f.name ∧
    row.tools.Perm f.toolNames ∧ row.toolCount = f.toolNames.length ∧
    (row.loaded = true ↔ ∀ n ∈ row.tools, n ≠ "memory_capabilities" → p.loads n = true) := by
  obtain ⟨f, -, rfl⟩ := List.mem_map.mp h
  have hperm : ((definedNames d.tools).filter fun n => Family.forTool n = some f).Perm f.toolNames := by
    rw [definedNames_all]
    exact perm_toolNames f
  refine ⟨f, rfl, hperm, hperm.length_eq, fun hf n hn _ => ?_, fun hall => ?_⟩
  · exact (loads_of_family (hperm.mem_iff.mp hn)).mpr (.inr hf)
  · obtain ⟨n, hn, hne⟩ := exists_tool f
    exact ((loads_of_family hn).mp (hall n (hperm.mem_iff.mpr hn) hne)).resolve_left hne

theorem name_injective : Function.Injective Family.name := by
  intro f g h
  cases f <;> cases g <;> first | rfl | exact absurd h (by decide)

theorem mem_permittedFamilies {l : List String} (h : buildAgentPermittedFamilies mcpConfig agentId = some l) :
    f.name ∈ l ↔ permits mcpConfig agentId f = true := by
  simp only [buildAgentPermittedFamilies, Option.bind_eq_bind, Option.bind_eq_some_iff] at h
  obtain ⟨cfg, rfl, aid, rfl, table, htable, h⟩ := h
  split at h
  · cases h
  next hne =>
  cases h
  have hon : cfg.allowlistDecision (some aid) f.name ≠ .disabled := fun he =>
    hne (allowlistDecision_eq_disabled_iff.mp he table htable)
  have hmem : f.name ∈ ((Family.all.filter fun f => cfg.allowlistDecision (some aid) f.name = .allow).map Family.name) ↔
      cfg.allowlistDecision (some aid) f.name = .allow := by
    rw [List.mem_map_of_injective name_injective, List.mem_filter, decide_eq_true_eq]
    exact and_iff_right f.mem_all
  rw [hmem, permits, decide_eq_true_eq]
  cases hd : cfg.allowlistDecision (some aid) f.name with
  | disabled => exact absurd hd hon
  | allow => decide
  | deny => decide

/-- The server lists the tools it takes calls of; the entries of `memory_capabilities` say the same of every tool but itself,
which they call unloaded where its family is. Whether a call is taken does not depend on the allowlist, though `callableNow`
does. -/
theorem surfaces_agree (d : Definitions) (p : Profile) (mcpConfig : Option McpConfig) (agentId : Option String) :
    Agreement d p mcpConfig agentId where
  listed n := by
    rw [definedNames_list, List.mem_filter]
    exact and_iff_right_of_imp mem_catalog_of_loads
  called params n hn hne := by
    unfold routeCall
    rw [hn]
    split
    · next h => cases h
    · next h => exact absurd (Option.some.inj h) hne
    · next m h =>
      cases Option.some.inj h
      cases hloads : p.loads n with
      | false => rfl
      | true =>
        rw [Bool.not_true, if_neg Bool.false_ne_true, if_pos rfl, if_pos]
        exact dispatchArms_perm.mem_iff.mp (mem_catalog_of_loads hloads)
  entries := by
    rw [buildCapabilitiesTools_eq, names_familyEntries]
    exact catalog_perm
  loaded e he := by
    rw [buildCapabilitiesTools_eq] at he
    obtain ⟨f, hname, -, hloaded, -⟩ := mem_familyEntries he
    rw [hloaded]
    exact loaded_iff hname
  callable e he := by
    rw [buildCapabilitiesTools_eq] at he
    obtain ⟨f, hname, hfamily, hloaded, hcallable⟩ := mem_familyEntries he
    exact ⟨f, forTool_eq_some_iff.mpr hname, hfamily, by rw [hcallable, hloaded, Bool.and_eq_true]⟩
  permitted l hl f := mem_permittedFamilies hl
  overview row hrow := overview_row hrow

end Agreement

/-! ## What a trimmed schema keeps -/

section Trimmed

variable {s t : Json} {q : String} {required : List String}

def param (s : Json) (q : String) : Option Json := (s.get "properties").bind fun props => props.get q

/-- A listed tool beside its definition: the parameters that stay are the required ones and two more, without their prose. -/
structure Listed (t t' : Json) : Prop where
  fields : ∀ k, k ≠ "docs" → k ≠ "inputSchema" → t'.get k = t.get k
  schema : ∀ s, t.get "inputSchema" = some s → ∃ s', t'.get "inputSchema" = some s' ∧
    (∀ k, k ≠ "properties" → s'.get k = s.get k) ∧
    ∀ q, param s' q = if keepsParam (requiredNames s) q then (param s q).map stripParam else none

theorem getField_map (g : Json → Json) (fs : List (String × Json)) :
    getField q (fs.map fun e => (e.1, g e.2)) = (getField q fs).map g := by
  induction fs with
  | nil => rfl
  | cons e fs ih =>
    rw [List.map_cons, getField, getField, ih]
    split <;> rfl

theorem get_modifyAll (g : Json → Json) (v : Json) : (modifyAll g v).get q = (v.get q).map g := by
  cases v with
  | obj fs => exact getField_map g fs
  | _ => rfl

theorem get_trimProperties (v : Json) : (trimProperties required v).get q =
    if keepsParam required q then v.get q else none := by
  cases v with
  | obj fs => exact getField_filter
  | _ => exact (ite_self none).symm

theorem requiredNames_modifyAt (g : Json → Json) (s : Json) : requiredNames (modifyAt "properties" g s) =
    requiredNames s := by
  unfold requiredNames
  rw [get_modifyAt_of_ne (by decide)]

theorem param_modifyAt (g : Json → Json) (s : Json) : param (modifyAt "properties" g s) q =
    (s.get "properties").bind fun props => (g props).get q := by
  rw [param, get_modifyAt, Option.bind_map]
  rfl

theorem modifyAt_modifyAt {g : Json → Json} (hg : ∀ v, g (g v) = g v) (k : String) (v : Json) :
    modifyAt k g (modifyAt k g v) = modifyAt k g v := by
  cases v with
  | obj fs =>
    rw [modifyAt, modifyAt, modifyField, modifyField, List.map_map]
    refine congrArg Json.obj (List.map_congr_left fun e _ => ?_)
    by_cases he : e.1 = k
    · simp only [Function.comp_apply, if_pos he, hg]
    · simp only [Function.comp_apply, if_neg he]
  | _ => rfl

theorem trimSchema_trimSchema (s : Json) : trimSchema (trimSchema s) = trimSchema s := by
  have htwice : ∀ v, trimProperties (requiredNames s) (trimProperties (requiredNames s) v) =
    trimProperties (requiredNames s) v := by
    intro v
    cases v with
    | obj props => rw [trimProperties, trimProperties, List.filter_filter]; simp only [Bool.and_self]
    | _ => rfl
  unfold trimSchema
  rw [requiredNames_modifyAt]
  exact modifyAt_modifyAt htwice "properties" s

theorem droppedParams_trimSchema (s : Json) : droppedParams (trimSchema s) = 0 := by
  have hrequired : requiredNames (trimSchema s) = requiredNames s := requiredNames_modifyAt _ s
  unfold droppedParams
  rw [hrequired, trimSchema, get_modifyAt]
  cases s.get "properties" with
  | none => rfl
  | some v =>
    cases v with
    | obj props =>
      have hnone : (props.filter fun e => keepsParam (requiredNames s) e.1).filter
          (fun e => !keepsParam (requiredNames s) e.1) = [] := by
        refine List.filter_eq_nil_iff.mpr fun e he => ?_
        rw [(List.mem_filter.mp he).2]
        decide
      exact congrArg List.length hnone
    | _ => rfl

theorem listed_tool (t : Json) : Listed t (modifyAt "inputSchema" trimSchema (stripTool t)) where
  fields k hdocs hschema := by rw [get_modifyAt_of_ne hschema, stripTool, get_modifyAt_of_ne hschema,
    get_removeKey_of_ne hdocs]
  schema s hs := by
    refine ⟨trimSchema (modifyAt "properties" (modifyAll stripParam) s), ?_, fun k hk => ?_, fun q => ?_⟩
    · rw [get_modifyAt, stripTool, get_modifyAt, get_removeKey_of_ne (by decide), hs]
      rfl
    · rw [trimSchema, get_modifyAt_of_ne hk, get_modifyAt_of_ne hk]
    · rw [trimSchema, param_modifyAt, requiredNames_modifyAt, get_modifyAt, Option.bind_map, param]
      cases s.get "properties" with
      | none => exact (ite_self none).symm
      | some v =>
        rw [Option.bind_some, Option.bind_some, Function.comp_apply, get_trimProperties, get_modifyAll]

/-- Each tool of the list is one of the definitions, with every required parameter and without the prose; to trim it again
changes nothing, and counts nothing. -/
theorem listing_spec (d : Definitions) (p : Profile) :
    List.Forall₂ Listed (d.tools.filter fun t => (textAt "name" t).any p.loads) (toolDefinitionsForProfile d p) ∧
      trimOptionalParams (toolDefinitionsForProfile d p) = (toolDefinitionsForProfile d p, 0) := by
  have hlist : toolDefinitionsForProfile d p = (d.tools.filter fun t => (textAt "name" t).any p.loads).map
      fun t => modifyAt "inputSchema" trimSchema (stripTool t) := by
    rw [toolDefinitionsForProfile, trimOptionalParams, toolDefinitionsForProfileVerbose, stripDocsFromTools, List.map_map]
    rfl
  rw [hlist]
  refine ⟨?_, ?_⟩
  · rw [List.forall₂_map_right_iff]
    exact List.forall₂_same.mpr fun t _ => listed_tool t
  · have hget : ∀ v, (modifyAt "inputSchema" trimSchema v).get "inputSchema" =
      (v.get "inputSchema").map trimSchema := fun v =>
      get_modifyAt
    rw [trimOptionalParams, List.map_map, List.map_map]
    refine Prod.ext (List.map_congr_left fun t _ => modifyAt_modifyAt trimSchema_trimSchema _ _) ?_
    refine List.sum_eq_zero fun n hn => ?_
    obtain ⟨t, -, rfl⟩ := List.mem_map.mp hn
    rw [Function.comp_apply, hget]
    cases (stripTool t).get "inputSchema" with
    | none => rfl
    | some s => exact droppedParams_trimSchema s

end Trimmed

/-! ## Expansions -/

section Expansions

variable {d : Definitions} {p : Profile} {cfg : Option McpConfig} {agentId : Option String} {familyName : String}

/-- A request for a family, with or without its schemas. -/
structure ExpansionRequest where
  agentId : Option String
  familyName : String
  includeSchema : Bool
  verbose : Bool

/-- The answers of a session and the rows it leaves in the audit log. -/
def answers (d : Definitions) (p : Profile) (cfg : Option McpConfig) :
    List ExpansionRequest → List (ExpansionRequest × Except String Expansion) × List ExpansionRow
  | [] => ([], [])
  | r :: rest =>
    let (answer, rows) := handleCapabilitiesFamily d r.familyName r.includeSchema r.verbose p cfg r.agentId
    let (later, laterRows) := answers d p cfg rest
    ((r, answer) :: later, rows ++ laterRows)

def released (a : ExpansionRequest × Except String Expansion) : Option (Option String × String) :=
  match a.2 with
  | .ok (.schemas f _ _ _) => some (a.1.agentId, f.name)
  | _ => none

/-- The schemas in an answer are those of a family that the agent is let have. -/
def Permitted (d : Definitions) (p : Profile) (cfg : Option McpConfig)
    (a : ExpansionRequest × Except String Expansion) : Prop :=
  ∀ f loaded verbose tools, a.2 = .ok (.schemas f loaded verbose tools) →
    a.1.familyName = f.name ∧ a.1.includeSchema = true ∧ permits cfg a.1.agentId f = true ∧ loaded = p.includes f ∧
      tools = familyTools d verbose f ∧ (definedNames tools).Perm f.toolNames

theorem definedNames_familyTools (d : Definitions) (verbose : Bool) (f : Family) :
    (definedNames (familyTools d verbose f)).Perm f.toolNames := by
  have hchosen : ∀ l : List Json, l.map (textAt "name") = catalog.map some →
      (definedNames (l.filter fun t => (textAt "name" t).bind Family.forTool = some f)).Perm f.toolNames := by
    intro l hl
    have hany : ∀ o : Option String, decide (o.bind Family.forTool = some f) = o.any fun n => Family.forTool n = some f := by
      intro o
      cases o <;> rfl
    simp only [hany]
    rw [definedNames_filter hl]
    exact perm_toolNames f
  unfold familyTools
  cases verbose with
  | true => exact hchosen d.tools d.names
  | false =>
    rw [if_neg Bool.false_ne_true, if_neg Bool.false_ne_true, stripDocsFromTools, definedNames_map textAt_stripTool]
    refine hchosen _ ?_
    rw [trimOptionalParams, List.map_map, ← d.names]
    exact List.map_congr_left fun t _ => textAt_trimmed t

/-- The agent and the family of a request that the allowlist refuses. -/
def refused (cfg : Option McpConfig) (r : ExpansionRequest) : Option (Option String × String) :=
  (Family.all.find? fun f => f.name = r.familyName).bind fun f =>
    if r.includeSchema && !permits cfg r.agentId f then some (r.agentId, f.name) else none

/-- What comes of a request. -/
inductive Handled (d : Definitions) (p : Profile) (cfg : Option McpConfig) (r : ExpansionRequest) :
    Except String Expansion × List ExpansionRow → Prop
  | unknown {e : String} (hrefused : refused cfg r = none) : Handled d p cfg r (.error e, [])
  | named {f : Family} {tools : List String} (hrefused : refused cfg r = none) :
      Handled d p cfg r (.ok (.names f (p.includes f) tools), [])
  | denied {f : Family} {e : String} (hrefused : refused cfg r = some (r.agentId, f.name)) :
      Handled d p cfg r (.error e, [⟨r.agentId, f.name, false⟩])
  | granted {f : Family} (hname : r.familyName = f.name) (hschema : r.includeSchema = true)
      (hpermits : permits cfg r.agentId f = true) (hrefused : refused cfg r = none) :
      Handled d p cfg r (.ok (.schemas f (p.includes f) r.verbose (familyTools d r.verbose f)), [⟨r.agentId, f.name, true⟩])

theorem handled (d : Definitions) (p : Profile) (cfg : Option McpConfig) (r : ExpansionRequest) :
    Handled d p cfg r (handleCapabilitiesFamily d r.familyName r.includeSchema r.verbose p cfg r.agentId) := by
  unfold handleCapabilitiesFamily
  split
  · next hempty =>
    have hfind : (Family.all.find? fun f => f.name = r.familyName) = none := by
      rw [hempty]
      decide
    exact .unknown (by rw [refused, hfind]; rfl)
  · cases hfind : Family.all.find? fun f => f.name = r.familyName with
    | none => exact .unknown (by rw [refused, hfind]; rfl)
    | some f =>
      have hname : f.name = r.familyName := by simpa using List.find?_some hfind
      have hrefused : refused cfg r =
          if r.includeSchema && !permits cfg r.agentId f then some (r.agentId, f.name) else none := by
        rw [refused, hfind]
        rfl
      dsimp only
      split_ifs with hdeny hschema
      · exact .denied (by rw [hrefused, if_pos hdeny])
      · rw [hschema, Bool.true_and, Bool.not_eq_true, Bool.not_eq_false'] at hdeny
        rw [hschema, hdeny] at hrefused
        exact .granted hname.symm hschema hdeny hrefused
      · exact .named (by rw [hrefused, if_neg hdeny])

/-- In a session of any length, schemas are handed out to agents that the allowlist permits and to no others. The rows that the
log has as granted are these, in order; its other rows are the requests that the allowlist refused. -/
theorem expansions_logged (d : Definitions) (p : Profile) (cfg : Option McpConfig) (rs : List ExpansionRequest) :
    (∀ a ∈ (answers d p cfg rs).1, Permitted d p cfg a) ∧
      (((answers d p cfg rs).2.filter fun row => row.granted).map fun row => (row.agentId, row.requestedFamily)) =
        (answers d p cfg rs).1.filterMap released ∧
      (((answers d p cfg rs).2.filter fun row => !row.granted).map fun row => (row.agentId, row.requestedFamily)) =
        rs.filterMap (refused cfg) := by
  induction rs with
  | nil => exact ⟨List.forall_mem_nil _, rfl, rfl⟩
  | cons r rs ih =>
    obtain ⟨ih1, ih2, ih3⟩ := ih
    have hone := handled d p cfg r
    simp only [answers, List.forall_mem_cons, List.filter_append, List.map_append, List.filterMap_cons, ih2, ih3]
    generalize handleCapabilitiesFamily d r.familyName r.includeSchema r.verbose p cfg r.agentId = out at hone
    cases hone with
    | unknown hrefused =>
      rw [hrefused]
      exact ⟨⟨fun f _ _ _ h => (by cases h), ih1⟩, rfl, rfl⟩
    | named hrefused =>
      rw [hrefused]
      exact ⟨⟨fun f _ _ _ h => (by cases h), ih1⟩, rfl, rfl⟩
    | denied hrefused =>
      rw [hrefused]
      exact ⟨⟨fun f _ _ _ h => (by cases h), ih1⟩, rfl, rfl⟩
    | @granted f hname hschema hpermits hrefused =>
      rw [hrefused]
      refine ⟨⟨fun g loaded verbose tools h => ?_, ih1⟩, rfl, rfl⟩
      cases h
      exact ⟨hname, hschema, hpermits, rfl, rfl, definedNames_familyTools d _ f⟩

end Expansions

end AiMemory.Mcp
