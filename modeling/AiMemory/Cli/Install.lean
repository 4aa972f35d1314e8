import AiMemory.Model.Places

/-!
# `ai-memory install`

Each of the ten targets has a place for a managed entry in its configuration: a key of a nested object, or an item of a
nested array. `apply_managed_block` writes the entry there and makes the containers on the way, replacing what is not a
container; `remove_managed_block` takes it out and prunes the containers that are empty then, whoever made them. So
uninstalling undoes installing where the place is new or in use (`Roomy`), and it spares what the user wrote where it finds
no empty container, and on the targets that share `remove_mcp_standard` no entry of the user (`Careful`).
-/

namespace AiMemory

namespace Install

open Json

inductive Target where
  | claudeCode
  | openclaw
  | cursor
  | cline
  | continueIde
  | windsurf
  | claudeDesktop
  | codex
  | grokCli
  | geminiCli
  deriving DecidableEq

/-! ## The managed entry -/

def markerStartKey : String := "// ai-memory:managed-block:start"
def markerEndKey : String := "// ai-memory:managed-block:end"
def managedKeysProperty : String := "// ai-memory:managed-keys"

def markerPayload : String :=
  "Do not edit. Managed by `ai-memory install`. https://github.com/alphaonedev/ai-memory-mcp/issues/487"

abbrev Fields := List (String × Json)

/-- The object of an entry: its markers and, in key order, its fields. -/
def managedBlock (keys : List String) (fields : Fields) : Json :=
  .obj ((markerEndKey, .str markerPayload) :: (markerStartKey, .str markerPayload) ::
    (managedKeysProperty, .arr (keys.map .str)) :: fields)

def isManagedValue : Json → Bool
  | .obj fs => (getField markerStartKey fs).isSome
  | _ => false

def strings (ss : List String) : Json := .arr (ss.map .str)

/-- The entry of `apply_mcp_standard`. -/
def standardServerValue (binary : String) : Json :=
  managedBlock ["command", "args", "env"]
    [("args", strings ["mcp", "--profile", "core"]), ("command", .str binary), ("env", .obj [])]

def aiMemoryServerValue (binary : String) : Json :=
  managedBlock ["command", "args"] [("args", strings ["mcp"]), ("command", .str binary)]

def claudeCodeHookCommand (binary : String) : String := binary ++ " boot --quiet --limit 10 --budget-tokens 4096"

/-- The entry of `apply_claude_code`. -/
def claudeCodeEntry (binary : String) : Json :=
  managedBlock ["matcher", "hooks"]
    [("hooks", .arr [.obj [("command", .str (claudeCodeHookCommand binary)), ("type", .str "command")]]),
      ("matcher", .str "*")]

/-- The entry of `apply_continue`. -/
def continueEntry (binary : String) : Json :=
  managedBlock ["transport"]
    [("transport", .obj [("args", strings ["mcp"]), ("command", .str binary), ("type", .str "stdio")])]

/-! ## Installing -/

/-- The object under a key; a missing or another value makes way for an empty one. -/
def objectAt (key : String) (obj : Fields) : Fields :=
  match getField key obj with
  | some (.obj fs) => fs
  | _ => []

/-- The array under a key; a missing or another value makes way for an empty one. -/
def arrayAt (key : String) (obj : Fields) : List Json :=
  match getField key obj with
  | some (.arr vs) => vs
  | _ => []

def intoObject (key : String) (edit : Fields → Fields) (obj : Fields) : Fields :=
  setField key (.obj (edit (objectAt key obj))) obj

/-- The entry becomes the first item of the array under a key, in the place of managed ones. -/
def intoArray (key : String) (entry : Json) (obj : Fields) : Fields :=
  setField key (.arr (entry :: (arrayAt key obj).filter fun v => !isManagedValue v)) obj

def applyMcpStandard (binary : String) : Fields → Fields :=
  intoObject "mcpServers" (setField "ai-memory" (standardServerValue binary))

def applyClaudeCode (binary : String) : Fields → Fields :=
  intoObject "hooks" (intoArray "SessionStart" (claudeCodeEntry binary))

def applyOpenclaw (binary : String) : Fields → Fields :=
  intoObject "mcp" (intoObject "servers" (setField "ai-memory" (aiMemoryServerValue binary)))

def applyCursor (binary : String) : Fields → Fields :=
  intoObject "mcpServers" (setField "ai-memory" (aiMemoryServerValue binary))

def applyCline (binary : String) : Fields → Fields := applyCursor binary

def applyContinue (binary : String) : Fields → Fields :=
  intoObject "experimental" (intoArray "modelContextProtocolServers" (continueEntry binary))

def applyWindsurf (binary : String) : Fields → Fields := applyCursor binary

def applyTarget (target : Target) (binary : String) : Fields → Fields :=
  match target with
  | .claudeCode => applyClaudeCode binary
  | .openclaw => applyOpenclaw binary
  | .cursor => applyCursor binary
  | .cline => applyCline binary
  | .continueIde => applyContinue binary
  | .windsurf => applyWindsurf binary
  | .claudeDesktop | .codex | .grokCli | .geminiCli => applyMcpStandard binary

def applyManagedBlock (target : Target) (cfg : Json) (binary : String) : Except String Json :=
  match cfg with
  | .obj fs => .ok (.obj (applyTarget target binary fs))
  | _ => .error "existing config root is not a JSON object; refusing to clobber"

/-! ## Uninstalling -/

/-- An edit of the object under a key, which is taken out when it is empty then. -/
def pruneObject (key : String) (edit : Fields → Fields) (obj : Fields) : Fields :=
  match getField key obj with
  | some (.obj fs) => if edit fs = [] then removeField key obj else setField key (.obj (edit fs)) obj
  | _ => obj

/-- The managed items of the array under a key are dropped, and the array is taken out when it is empty then. -/
def pruneArray (key : String) (obj : Fields) : Fields :=
  match getField key obj with
  | some (.arr vs) =>
    let kept := vs.filter fun v => !isManagedValue v
    if kept = [] then removeField key obj else setField key (.arr kept) obj
  | _ => obj

def dropManaged (key : String) (obj : Fields) : Fields :=
  match getField key obj with
  | some v => if isManagedValue v then removeField key obj else obj
  | none => obj

/-- `remove_mcp_standard`: the entry is taken out, whoever wrote it. -/
def removeMcpStandard : Fields → Fields := pruneObject "mcpServers" (removeField "ai-memory")

def removeClaudeCode : Fields → Fields := pruneObject "hooks" (pruneArray "SessionStart")

/-- `remove_openclaw`: nothing is pruned where `mcp.servers` is no object. -/
def removeOpenclaw (obj : Fields) : Fields :=
  match getField "mcp" obj with
  | some (.obj mcp) =>
    match getField "servers" mcp with
    | some (.obj _) => pruneObject "mcp" (pruneObject "servers" (dropManaged "ai-memory")) obj
    | _ => obj
  | _ => obj

def removeCursor : Fields → Fields := pruneObject "mcpServers" (dropManaged "ai-memory")

def removeCline : Fields → Fields := removeCursor

def removeContinue : Fields → Fields := pruneObject "experimental" (pruneArray "modelContextProtocolServers")

def removeWindsurf : Fields → Fields := removeCursor

def removeTarget (target : Target) : Fields → Fields :=
  match target with
  | .claudeCode => removeClaudeCode
  | .openclaw => removeOpenclaw
  | .cursor => removeCursor
  | .cline => removeCline
  | .continueIde => removeContinue
  | .windsurf => removeWindsurf
  | .claudeDesktop | .codex | .grokCli | .geminiCli => removeMcpStandard

def removeManagedBlock (target : Target) (cfg : Json) : Json :=
  match cfg with
  | .obj fs => .obj (removeTarget target fs)
  | _ => cfg

/-! ## What installing and uninstalling should do -/

/-- Installing once more is no change, uninstalling gives the configuration back, and installing keeps what was there. -/
def Restores (target : Target) (binary : String) (c : Json) : Prop :=
  ∃ installed, applyManagedBlock target c binary = .ok installed ∧
    applyManagedBlock target installed binary = .ok installed ∧
    removeManagedBlock target installed = c ∧ Keeps c installed

/-- The value carries the marker. -/
def Managed (v : Json) : Prop := isManagedValue v = true

instance : DecidablePred Managed := fun v => inferInstanceAs (Decidable (isManagedValue v = true))

/-- Uninstalling leaves as many objects at a place as were there that have nothing to do with the marker: the marker does
not occur in them, and they are not inside a managed object. -/
def SparesOthers (target : Target) (c : Json) : Prop :=
  Spares Managed c (removeManagedBlock target c)

/-- The object under a key is missing, or it has fields, and room. -/
def RoomUnder (key : String) (room : Fields → Prop) (obj : Fields) : Prop :=
  getField key obj = none ∨ ∃ fs, getField key obj = some (.obj fs) ∧ fs ≠ [] ∧ room fs

/-- There is no such field. -/
def RoomForField (key : String) (obj : Fields) : Prop := getField key obj = none

/-- The array under a key is missing, or it has items, and no managed one. -/
def RoomForItem (key : String) (obj : Fields) : Prop :=
  getField key obj = none ∨
    ∃ vs, getField key obj = some (.arr vs) ∧ vs ≠ [] ∧ ∀ v ∈ vs, isManagedValue v = false

/-- The place of the target has room. -/
def Roomy (target : Target) (obj : Fields) : Prop :=
  match target with
  | .claudeCode => RoomUnder "hooks" (RoomForItem "SessionStart") obj
  | .continueIde => RoomUnder "experimental" (RoomForItem "modelContextProtocolServers") obj
  | .openclaw => RoomUnder "mcp" (RoomUnder "servers" (RoomForField "ai-memory")) obj
  | .cursor | .cline | .windsurf | .claudeDesktop | .codex | .grokCli | .geminiCli =>
    RoomUnder "mcpServers" (RoomForField "ai-memory") obj

/-- The object under a key, if it is there, is not empty, and does not hold an empty array under one key and nothing
else. -/
def FilledArray (key field : String) (obj : Fields) : Prop :=
  ∀ fs, getField key obj = some (.obj fs) →
    fs ≠ [] ∧ ¬((∀ f ∈ fs, f.1 = field) ∧ getField field fs = some (.arr []))

/-- The object under a key, if it is there, is not empty. -/
def Filled (key : String) (obj : Fields) : Prop := ∀ fs, getField key obj = some (.obj fs) → fs ≠ []

/-- The object under a key, if it is there, is managed; or it is not empty, and no object of the user is in the value of
the field, which is marked inside if it is the only one. -/
def Unclaimed (key field : String) (obj : Fields) : Prop :=
  ∀ fs, getField key obj = some (.obj fs) → Managed (.obj fs) ∨ fs ≠ [] ∧
    ∀ v, getField field fs = some v → ¬Loose Managed v ∧ ((∀ f ∈ fs, f.1 = field) → Holds Managed v)

/-- What uninstalling takes out is nobody else's. -/
def CarefulFields (target : Target) (obj : Fields) : Prop :=
  match target with
  | .claudeCode => FilledArray "hooks" "SessionStart" obj
  | .continueIde => FilledArray "experimental" "modelContextProtocolServers" obj
  | .openclaw => ∀ mcp, getField "mcp" obj = some (.obj mcp) → Managed (.obj mcp) ∨ Filled "servers" mcp
  | .cursor | .cline | .windsurf => Filled "mcpServers" obj
  | .claudeDesktop | .codex | .grokCli | .geminiCli => Unclaimed "mcpServers" "ai-memory" obj

/-- What uninstalling takes out of a configuration is nobody else's. -/
def Careful (target : Target) : Json → Prop
  | .obj fs => Managed (.obj fs) ∨ CarefulFields target fs
  | _ => True

/-! ## Installing and uninstalling undo each other -/

section Undoing

variable {install uninstall : Fields → Fields} {room : Fields → Prop} {key : String} {obj fs : Fields} {entry v : Json}

/-- One edit undoes the other, where there is room. -/
structure Undoes (install uninstall : Fields → Fields) (room : Fields → Prop) : Prop where
  again : ∀ fs, install (install fs) = install fs
  back : ∀ fs, uninstall (install fs) = fs ↔ room fs
  fresh : uninstall (install []) = []
  keeps : ∀ fs, room fs → Keeps (.obj fs) (.obj (install fs))

theorem objectAt_setField (key : String) (fs obj : Fields) : objectAt key (setField key (.obj fs) obj) = fs := by
  simp only [objectAt, getField_setField]

theorem arrayAt_setField (key : String) (vs : List Json) (obj : Fields) :
    arrayAt key (setField key (.arr vs) obj) = vs := by
  simp only [arrayAt, getField_setField]

theorem objectAt_of_none (h : getField key obj = none) : objectAt key obj = [] := by
  simp only [objectAt, h]

theorem objectAt_of_some (h : getField key obj = some (.obj fs)) : objectAt key obj = fs := by
  simp only [objectAt, h]

theorem pruneObject_of_some (h : getField key obj = some (.obj fs)) : pruneObject key uninstall obj =
    if uninstall fs = [] then removeField key obj else setField key (.obj (uninstall fs)) obj := by
  simp only [pruneObject, h]

theorem pruneObject_intoObject (obj : Fields) : pruneObject key uninstall (intoObject key install obj) =
    if uninstall (install (objectAt key obj)) = [] then removeField key obj
    else setField key (.obj (uninstall (install (objectAt key obj)))) obj := by
  rw [intoObject, pruneObject_of_some (getField_setField _ _ _), removeField_setField, setField_setField]

/-- An edit inside an object under a key. -/
theorem Undoes.under (h : Undoes install uninstall room) (key : String) :
    Undoes (intoObject key install) (pruneObject key uninstall) (RoomUnder key room) where
  again obj := by
    rw [intoObject, intoObject, objectAt_setField, h.again, setField_setField]
  back obj := by
    rw [pruneObject_intoObject]
    cases hkey : getField key obj with
    | none =>
      rw [objectAt_of_none hkey, if_pos h.fresh]
      exact iff_of_true (removeField_eq_iff.mpr hkey) (Or.inl hkey)
    | some v =>
      have hsome : getField key obj ≠ none := fun e => Option.some_ne_none v (hkey.symm.trans e)
      by_cases hobj : ∃ fs, v = .obj fs
      · obtain ⟨fs, rfl⟩ := hobj
        have hroom : RoomUnder key room obj ↔ fs ≠ [] ∧ room fs := by
          rw [RoomUnder, or_iff_right hsome, hkey]
          constructor
          · rintro ⟨fs', hfs', hne, hr⟩
            cases hfs'
            exact ⟨hne, hr⟩
          · rintro ⟨hne, hr⟩
            exact ⟨fs, rfl, hne, hr⟩
        rw [objectAt_of_some hkey, hroom, ← h.back fs]
        by_cases hempty : uninstall (install fs) = []
        · rw [if_pos hempty, removeField_eq_iff]
          exact iff_of_false hsome fun hr => hr.1 (hr.2.symm.trans hempty)
        · rw [if_neg hempty, setField_eq_iff, hkey, Option.some_inj, Json.obj.injEq, eq_comm]
          exact ⟨fun e => ⟨fun hnil => hempty (e.trans hnil), e⟩, fun hr => hr.2⟩
      · have hnil : objectAt key obj = [] := by
          cases v <;> first | exact absurd ⟨_, rfl⟩ hobj | simp only [objectAt, hkey]
        rw [hnil, if_pos h.fresh, removeField_eq_iff]
        refine iff_of_false hsome ?_
        rintro (hnone | ⟨fs, hfs, -⟩)
        · exact hsome hnone
        · exact hobj ⟨fs, Option.some_inj.mp (hkey.symm.trans hfs)⟩
  fresh := by
    rw [pruneObject_intoObject, show objectAt key [] = [] from rfl, if_pos h.fresh]
    rfl
  keeps obj hroom := by
    refine keeps_setField fun v hv => ?_
    rcases hroom with hnone | ⟨fs, hfs, -, hroom⟩
    · rw [hv] at hnone
      cases hnone
    · obtain rfl := Option.some_inj.mp (hv.symm.trans hfs)
      rw [objectAt_of_some hfs]
      exact h.keeps fs hroom

theorem isManagedValue_managedBlock (keys : List String) (fields : Fields) :
    isManagedValue (managedBlock keys fields) = true := by
  simp [isManagedValue, managedBlock, getField, markerEndKey, markerStartKey]

theorem undoes_removeField (key : String) (entry : Json) :
    Undoes (setField key entry) (removeField key) (RoomForField key) where
  again fs := setField_setField key entry entry fs
  back fs := by
    rw [removeField_setField]
    exact removeField_eq_iff
  fresh := removeField_setField key entry []
  keeps fs hroom := keeps_setField fun v hv => absurd (hv.symm.trans hroom) (Option.some_ne_none v)

theorem dropManaged_setField (hentry : isManagedValue entry = true) (fs : Fields) :
    dropManaged key (setField key entry fs) = removeField key (setField key entry fs) := by
  simp only [dropManaged, getField_setField, hentry, if_true]

theorem undoes_dropManaged (key : String) (hentry : isManagedValue entry = true) :
    Undoes (setField key entry) (dropManaged key) (RoomForField key) where
  again := (undoes_removeField key entry).again
  back fs := by
    rw [dropManaged_setField hentry]
    exact (undoes_removeField key entry).back fs
  fresh := by
    rw [dropManaged_setField hentry]
    exact (undoes_removeField key entry).fresh
  keeps := (undoes_removeField key entry).keeps

theorem pruneArray_of_some {vs : List Json} (h : getField key obj = some (.arr vs)) : pruneArray key obj =
    if (vs.filter fun v => !isManagedValue v) = [] then removeField key obj
    else setField key (.arr (vs.filter fun v => !isManagedValue v)) obj := by
  simp only [pruneArray, h]

theorem filter_cons_filter (hentry : isManagedValue entry = true) (vs : List Json) :
    ((entry :: vs.filter fun v => !isManagedValue v).filter fun v => !isManagedValue v) =
      vs.filter fun v => !isManagedValue v := by
  rw [List.filter_cons_of_neg (by simp [hentry]), List.filter_filter]
  simp only [Bool.and_self]

theorem pruneArray_intoArray (hentry : isManagedValue entry = true) (obj : Fields) :
    pruneArray key (intoArray key entry obj) =
      if ((arrayAt key obj).filter fun v => !isManagedValue v) = [] then removeField key obj
      else setField key (.arr ((arrayAt key obj).filter fun v => !isManagedValue v)) obj := by
  rw [intoArray, pruneArray_of_some (getField_setField _ _ _), filter_cons_filter hentry, removeField_setField,
    setField_setField]

/-- A managed item is undone by dropping the managed items. -/
theorem undoes_pruneArray (key : String) (hentry : isManagedValue entry = true) :
    Undoes (intoArray key entry) (pruneArray key) (RoomForItem key) where
  again fs := by
    rw [intoArray, intoArray, arrayAt_setField, filter_cons_filter hentry, setField_setField]
  back fs := by
    rw [pruneArray_intoArray hentry]
    cases hkey : getField key fs with
    | none =>
      rw [show arrayAt key fs = [] by simp only [arrayAt, hkey], List.filter_nil, if_pos rfl]
      exact iff_of_true (removeField_eq_iff.mpr hkey) (Or.inl hkey)
    | some v =>
      have hsome : getField key fs ≠ none := fun e => Option.some_ne_none v (hkey.symm.trans e)
      by_cases harr : ∃ vs, v = .arr vs
      · obtain ⟨vs, rfl⟩ := harr
        have hroom : RoomForItem key fs ↔ vs ≠ [] ∧ ∀ v ∈ vs, isManagedValue v = false := by
          rw [RoomForItem, or_iff_right hsome, hkey]
          constructor
          · rintro ⟨vs', hvs', hr⟩
            cases hvs'
            exact hr
          · rintro hr
            exact ⟨vs, rfl, hr⟩
        have hsame : (vs.filter fun v => !isManagedValue v) = vs ↔ ∀ v ∈ vs, isManagedValue v = false := by
          simp only [List.filter_eq_self, Bool.not_eq_true']
        rw [show arrayAt key fs = vs by simp only [arrayAt, hkey], hroom, ← hsame]
        by_cases hempty : (vs.filter fun v => !isManagedValue v) = []
        · rw [if_pos hempty, removeField_eq_iff]
          exact iff_of_false hsome fun hr => hr.1 (hr.2.symm.trans hempty)
        · rw [if_neg hempty, setField_eq_iff, hkey, Option.some_inj, Json.arr.injEq, eq_comm]
          exact ⟨fun e => ⟨fun hnil => hempty (e.trans hnil), e⟩, fun hr => hr.2⟩
      · have hnil : arrayAt key fs = [] := by
          cases v <;> first | exact absurd ⟨_, rfl⟩ harr | simp only [arrayAt, hkey]
        rw [hnil, List.filter_nil, if_pos rfl, removeField_eq_iff]
        refine iff_of_false hsome ?_
        rintro (hnone | ⟨vs, hvs, -⟩)
        · exact hsome hnone
        · exact harr ⟨vs, Option.some_inj.mp (hkey.symm.trans hvs)⟩
  fresh := by
    rw [pruneArray_intoArray hentry]
    rfl
  keeps fs hroom := by
    refine keeps_setField fun v hv => ?_
    rcases hroom with hnone | ⟨vs, hvs, -, hfree⟩
    · rw [hv] at hnone
      cases hnone
    · obtain rfl := Option.some_inj.mp (hv.symm.trans hvs)
      have hall : (vs.filter fun v => !isManagedValue v) = vs :=
        List.filter_eq_self.mpr fun v hv => by rw [hfree v hv]; rfl
      rw [show arrayAt key fs = vs by simp only [arrayAt, hvs], hall]
      exact keeps_arr (List.sublist_cons_self entry vs)

/-- After installing for OpenClaw `mcp.servers` is an object. -/
theorem removeOpenclaw_applyOpenclaw (binary : String) (obj : Fields) :
    removeOpenclaw (applyOpenclaw binary obj) =
      pruneObject "mcp" (pruneObject "servers" (dropManaged "ai-memory")) (applyOpenclaw binary obj) := by
  simp only [removeOpenclaw, applyOpenclaw, intoObject, getField_setField]

theorem undoes_target (target : Target) (binary : String) :
    Undoes (applyTarget target binary) (removeTarget target) (Roomy target) := by
  have hstandard : Undoes (applyMcpStandard binary) removeMcpStandard (RoomUnder "mcpServers" (RoomForField "ai-memory")) :=
    (undoes_removeField "ai-memory" _).under "mcpServers"
  have hcursor : Undoes (applyCursor binary) removeCursor (RoomUnder "mcpServers" (RoomForField "ai-memory")) :=
    (undoes_dropManaged "ai-memory" (isManagedValue_managedBlock _ _)).under "mcpServers"
  have hmcp := ((undoes_dropManaged "ai-memory" (isManagedValue_managedBlock ["command", "args"]
    [("args", strings ["mcp"]), ("command", .str binary)])).under "servers").under "mcp"
  cases target with
  | claudeCode => exact (undoes_pruneArray "SessionStart" (isManagedValue_managedBlock _ _)).under "hooks"
  | openclaw =>
    exact
      { again := hmcp.again
        back := fun fs => by
          show removeOpenclaw (applyOpenclaw binary fs) = fs ↔ _
          rw [removeOpenclaw_applyOpenclaw]
          exact hmcp.back fs
        fresh := (removeOpenclaw_applyOpenclaw binary []).trans hmcp.fresh
        keeps := hmcp.keeps }
  | cursor | cline | windsurf => exact hcursor
  | continueIde =>
    exact (undoes_pruneArray "modelContextProtocolServers" (isManagedValue_managedBlock _ _)).under "experimental"
  | claudeDesktop | codex | grokCli | geminiCli => exact hstandard

/-- Installing and uninstalling restore a configuration exactly if the place of the target has room. -/
theorem restores_iff (target : Target) (binary : String) (fs : Fields) :
    Restores target binary (.obj fs) ↔ Roomy target fs := by
  have h := undoes_target target binary
  constructor
  · rintro ⟨installed, hinstalled, -, hback, -⟩
    obtain rfl := (Except.ok.inj hinstalled).symm
    exact (h.back fs).mp (Json.obj.inj hback)
  · intro hroom
    have hagain : applyManagedBlock target (.obj (applyTarget target binary fs)) binary =
        .ok (.obj (applyTarget target binary fs)) := by
      rw [applyManagedBlock, h.again]
    exact ⟨_, rfl, hagain, congrArg Json.obj ((h.back fs).mpr hroom), h.keeps fs hroom⟩

end Undoing

/-! ## Uninstalling spares what is not managed -/

section Sparing

variable {edit : Fields → Fields} {key field : String} {obj fs : Fields} {v w : Json}

theorem getField_pruneObject_of_ne {j : String} (hne : j ≠ key) :
    getField j (pruneObject key edit obj) = getField j obj := by
  unfold pruneObject
  split
  · split_ifs
    · exact getField_removeField_of_ne hne
    · exact getField_setField_of_ne hne _ obj
  · rfl

theorem spares_pruneObject_iff : Spares Managed (.obj obj) (.obj (pruneObject key edit obj)) ↔
    Managed (.obj obj) ∨ ∀ fs, getField key obj = some (.obj fs) →
      (edit fs = [] ∧ ¬Loose Managed (.obj fs)) ∨ (edit fs ≠ [] ∧ Spares Managed (.obj fs) (.obj (edit fs))) := by
  rw [spares_update_iff (k := key) fun j hj => getField_pruneObject_of_ne hj]
  refine or_congr_right ⟨fun h fs hfs => ?_, fun h v hv => ?_⟩
  · have hat := h _ hfs
    rw [pruneObject_of_some hfs] at hat
    by_cases hempty : edit fs = []
    · rw [if_pos hempty, getField_removeField] at hat
      exact Or.inl ⟨hempty, hat⟩
    · rw [if_neg hempty, getField_setField] at hat
      exact Or.inr ⟨hempty, hat⟩
  · by_cases hobj : ∃ fs, v = .obj fs
    · obtain ⟨fs, rfl⟩ := hobj
      rw [pruneObject_of_some hv]
      rcases h fs hv with ⟨hempty, hloose⟩ | ⟨hempty, hspares⟩
      · rw [if_pos hempty, getField_removeField]
        exact hloose
      · rw [if_neg hempty, getField_setField]
        exact hspares
    · have hsame : pruneObject key edit obj = obj := by
        cases v <;> first | exact absurd ⟨_, rfl⟩ hobj | simp only [pruneObject, hv]
      rw [hsame, hv]
      exact spares_refl v

theorem spares_removeField_iff : Spares Managed (.obj fs) (.obj (removeField field fs)) ↔
    Managed (.obj fs) ∨ ∀ v, getField field fs = some v → ¬Loose Managed v := by
  rw [spares_update_iff (k := field) fun j hj => getField_removeField_of_ne hj, getField_removeField]
  exact Iff.rfl

theorem not_loose_of_managed (h : Managed v) : ¬Loose Managed v := by
  cases v with
  | obj fs => exact not_loose_of_marked h
  | _ => cases h

theorem spares_dropManaged : Spares Managed (.obj fs) (.obj (dropManaged field fs)) := by
  unfold dropManaged
  cases hfield : getField field fs with
  | none => exact spares_refl _
  | some v =>
    by_cases hv : isManagedValue v = true
    · simp only [hv, if_true]
      refine spares_removeField_iff.mpr (Or.inr fun u hu => ?_)
      rw [← Option.some_inj.mp (hfield.symm.trans hu)]
      exact not_loose_of_managed hv
    · simp only [hv]
      exact spares_refl _

theorem loose_empty : Loose Managed (.obj []) := loose_nil (by decide)

theorem spares_unmanaged (vs : List Json) : Spares Managed (.arr vs) (.arr (vs.filter fun v => !isManagedValue v)) := by
  refine spares_filter fun v _ hdrop => not_loose_of_managed ?_
  rwa [Bool.not_eq_false'] at hdrop

theorem not_loose_arr {vs : List Json} (h : ∀ v ∈ vs, Managed v) : ¬Loose Managed (.arr vs) := by
  rintro ⟨p, o, _ | _ | ⟨hv, ho⟩, hobj, hfree⟩
  · cases hobj
  · exact not_loose_of_managed (h _ hv) ⟨_, o, ho, hobj, hfree⟩

theorem filter_eq_nil {vs : List Json} : (vs.filter fun v => !isManagedValue v) = [] ↔ ∀ v ∈ vs, Managed v := by
  simp [List.filter_eq_nil_iff, Managed]

theorem getField_pruneArray_of_ne {j : String} (hne : j ≠ field) : getField j (pruneArray field fs) = getField j fs := by
  unfold pruneArray
  split
  · simp only
    split_ifs
    · exact getField_removeField_of_ne hne
    · exact getField_setField_of_ne hne _ fs
  · rfl

theorem spares_pruneArray : Spares Managed (.obj fs) (.obj (pruneArray field fs)) := by
  refine (spares_update_iff (k := field) fun j hj => getField_pruneArray_of_ne hj).mpr (Or.inr fun v hv => ?_)
  by_cases harr : ∃ vs, v = .arr vs
  · obtain ⟨vs, rfl⟩ := harr
    rw [pruneArray_of_some hv]
    split_ifs with hempty
    · rw [getField_removeField]
      exact not_loose_arr (filter_eq_nil.mp hempty)
    · rw [getField_setField]
      exact spares_unmanaged vs
  · have hsame : pruneArray field fs = fs := by
      cases v <;> first | exact absurd ⟨_, rfl⟩ harr | simp only [pruneArray, hv]
    rw [hsame, hv]
    exact spares_refl v

/-- The container of an edit is spared: it stays, and the edit spares what is in it, or it is taken out, and nothing in it is
loose. -/
def Contained (edit : Fields → Fields) (fs : Fields) : Prop :=
  edit fs = [] ∧ ¬Loose Managed (.obj fs) ∨ edit fs ≠ [] ∧ Spares Managed (.obj fs) (.obj (edit fs))

theorem setField_ne_nil (k : String) (v : Json) (fs : Fields) : setField k v fs ≠ [] := by
  intro h
  have hget := getField_setField k v fs
  rw [h] at hget
  cases hget

/-- Where nothing else is in the container than a value in which the marker occurs and nothing is loose, it is no one
else's. -/
theorem not_loose_only (honly : ∀ f ∈ fs, f.1 = field) (hv : getField field fs = some v) (hholds : Holds Managed v)
    (hloose : ¬Loose Managed v) : ¬Loose Managed (.obj fs) := by
  by_cases hm : Managed (.obj fs)
  · exact not_loose_of_managed hm
  · rw [loose_only_iff hm honly hv]
    exact fun h => h.elim (fun hn => hn hholds) hloose

theorem only_managed (hne : fs ≠ []) (hempty : dropManaged field fs = []) :
    ∃ v, (∀ f ∈ fs, f.1 = field) ∧ getField field fs = some v ∧ Managed v := by
  unfold dropManaged at hempty
  cases hfield : getField field fs with
  | none =>
    rw [hfield] at hempty
    exact absurd hempty hne
  | some v =>
    simp only [hfield] at hempty
    split_ifs at hempty with hv
    · exact ⟨v, removeField_eq_nil_iff.mp hempty, rfl, hv⟩
    · exact absurd hempty hne

theorem contained_dropManaged : Contained (dropManaged field) fs ↔ fs ≠ [] := by
  constructor
  · rintro h rfl
    rcases h with ⟨-, hloose⟩ | ⟨hne, -⟩
    · exact hloose loose_empty
    · exact hne rfl
  · intro hne
    by_cases hempty : dropManaged field fs = []
    · obtain ⟨v, honly, hv, hmanaged⟩ := only_managed hne hempty
      exact Or.inl ⟨hempty, not_loose_only honly hv (holds_of_marked hmanaged) (not_loose_of_managed hmanaged)⟩
    · exact Or.inr ⟨hempty, spares_dropManaged⟩

theorem contained_removeField : Contained (removeField field) fs ↔ Managed (.obj fs) ∨ fs ≠ [] ∧
    ∀ v, getField field fs = some v → ¬Loose Managed v ∧ ((∀ f ∈ fs, f.1 = field) → Holds Managed v) := by
  unfold Contained
  by_cases hm : Managed (.obj fs)
  · refine iff_of_true ?_ (Or.inl hm)
    by_cases hempty : removeField field fs = []
    · exact Or.inl ⟨hempty, not_loose_of_managed hm⟩
    · exact Or.inr ⟨hempty, spares_of_marked hm _⟩
  rw [or_iff_right hm, spares_removeField_iff, or_iff_right hm, Ne, removeField_eq_nil_iff]
  by_cases honly : ∀ f ∈ fs, f.1 = field
  · rw [or_iff_left fun h => h.1 honly, and_iff_right honly]
    by_cases hnil : fs = []
    · subst hnil
      exact iff_of_false (fun h => h loose_empty) fun h => h.1 rfl
    · obtain ⟨v, hv⟩ := exists_getField_of_only hnil honly
      rw [loose_only_iff hm honly hv, not_or, not_not, and_iff_right hnil]
      constructor
      · rintro ⟨hholds, hloose⟩ u hu
        obtain rfl := Option.some_inj.mp (hv.symm.trans hu)
        exact ⟨hloose, fun _ => hholds⟩
      · intro h
        exact ⟨(h v hv).2 honly, (h v hv).1⟩
  · rw [or_iff_right fun h => honly h.1, and_iff_right honly]
    have hnil : fs ≠ [] := by
      rintro rfl
      exact honly fun f hf => absurd hf List.not_mem_nil
    rw [and_iff_right hnil]
    exact forall₂_congr fun v _ => (and_iff_left fun h => absurd h honly).symm

theorem not_managed_of_only (hfield : field ≠ markerStartKey) (honly : ∀ f ∈ fs, f.1 = field) : ¬Managed (.obj fs) := by
  intro hm
  obtain ⟨v, hv⟩ := Option.isSome_iff_exists.mp hm
  exact hfield (eq_of_getField_of_only honly hv).symm

theorem contained_pruneArray (hfield : field ≠ markerStartKey) : Contained (pruneArray field) fs ↔
    fs ≠ [] ∧ ¬((∀ f ∈ fs, f.1 = field) ∧ getField field fs = some (.arr [])) := by
  constructor
  · intro h
    constructor
    · rintro rfl
      rcases h with ⟨-, hloose⟩ | ⟨hne, -⟩
      · exact hloose loose_empty
      · exact hne rfl
    · rintro ⟨honly, harr⟩
      have hempty : pruneArray field fs = [] := by
        rw [pruneArray_of_some harr, List.filter_nil, if_pos rfl]
        exact removeField_eq_nil_iff.mpr honly
      have hholds : ¬Holds Managed (.arr []) := by
        rintro ⟨p, w, _ | _ | ⟨hv, -⟩, hmark⟩
        · cases hmark
        · cases hv
      rcases h with ⟨-, hloose⟩ | ⟨hne, -⟩
      · exact hloose ((loose_only_iff (not_managed_of_only hfield honly) honly harr).mpr (Or.inl hholds))
      · exact hne hempty
  · rintro ⟨hne, hshape⟩
    by_cases hempty : pruneArray field fs = []
    · refine Or.inl ⟨hempty, ?_⟩
      have harr : ∃ vs, getField field fs = some (.arr vs) := by
        by_contra hno
        unfold pruneArray at hempty
        split at hempty
        · next vs hvs => exact hno ⟨vs, hvs⟩
        · exact hne hempty
      obtain ⟨vs, hvs⟩ := harr
      rw [pruneArray_of_some hvs] at hempty
      split_ifs at hempty with hkept
      · have honly := removeField_eq_nil_iff.mp hempty
        have hall := filter_eq_nil.mp hkept
        obtain ⟨v, us, rfl⟩ := List.exists_cons_of_ne_nil (fun hnil : vs = [] => hshape ⟨honly, by rw [hvs, hnil]⟩)
        have hholds : Holds Managed (.arr (v :: us)) :=
          holds_arr List.mem_cons_self (holds_of_marked (hall v List.mem_cons_self))
        exact not_loose_only honly hvs hholds (not_loose_arr hall)
      · exact absurd hempty (setField_ne_nil _ _ _)
    · exact Or.inr ⟨hempty, spares_pruneArray⟩

/-- `mcp.servers` is pruned inside `mcp`. -/
theorem contained_pruneObject {servers : Fields} (hservers : getField field fs = some (.obj servers)) :
    Contained (pruneObject field (dropManaged key)) fs ↔ Managed (.obj fs) ∨ servers ≠ [] := by
  unfold Contained
  by_cases hm : Managed (.obj fs)
  · refine iff_of_true ?_ (Or.inl hm)
    by_cases hempty : pruneObject field (dropManaged key) fs = []
    · exact Or.inl ⟨hempty, not_loose_of_managed hm⟩
    · exact Or.inr ⟨hempty, spares_of_marked hm _⟩
  rw [or_iff_right hm]
  have hspares : Spares Managed (.obj fs) (.obj (pruneObject field (dropManaged key) fs)) ↔ servers ≠ [] := by
    rw [spares_pruneObject_iff, or_iff_right hm]
    constructor
    · intro h
      exact contained_dropManaged.mp (h servers hservers)
    · intro hne gs hgs
      obtain rfl : gs = servers := Json.obj.inj (Option.some_inj.mp (hgs.symm.trans hservers))
      exact contained_dropManaged.mpr hne
  rw [hspares]
  by_cases hempty : pruneObject field (dropManaged key) fs = []
  · rw [or_iff_left fun h => h.1 hempty, and_iff_right hempty]
    rw [pruneObject_of_some hservers] at hempty
    split_ifs at hempty with hdrop
    · have honly := removeField_eq_nil_iff.mp hempty
      rw [loose_only_iff hm honly hservers, not_or, not_not]
      constructor
      · rintro ⟨-, hloose⟩ rfl
        exact hloose loose_empty
      · intro hne
        obtain ⟨v, honly', hv, hmanaged⟩ := only_managed hne hdrop
        have hholds := holds_of_marked hmanaged
        exact ⟨holds_obj hv hholds, not_loose_only honly' hv hholds (not_loose_of_managed hmanaged)⟩
    · exact absurd hempty (setField_ne_nil _ _ _)
  · rw [or_iff_right fun h => hempty h.1, and_iff_right hempty]

theorem spares_prune_iff {cond : Fields → Prop} (h : ∀ fs, getField key obj = some (.obj fs) → (Contained edit fs ↔ cond fs)) :
    Spares Managed (.obj obj) (.obj (pruneObject key edit obj)) ↔
      Managed (.obj obj) ∨ ∀ fs, getField key obj = some (.obj fs) → cond fs := by
  rw [spares_pruneObject_iff]
  exact or_congr_right (forall₂_congr h)

theorem spares_removeOpenclaw_iff : Spares Managed (.obj obj) (.obj (removeOpenclaw obj)) ↔
    Managed (.obj obj) ∨ CarefulFields .openclaw obj := by
  by_cases hm : Managed (.obj obj)
  · exact iff_of_true (spares_of_marked hm _) (Or.inl hm)
  rw [or_iff_right hm]
  cases hmcp : getField "mcp" obj with
  | none =>
    have hsame : removeOpenclaw obj = obj := by simp only [removeOpenclaw, hmcp]
    rw [hsame]
    exact iff_of_true (spares_refl _) fun mcp h => absurd (hmcp.symm.trans h) (Option.some_ne_none _).symm
  | some v =>
    by_cases hservers : ∃ mcp servers, v = .obj mcp ∧ getField "servers" mcp = some (.obj servers)
    · obtain ⟨mcp, servers, rfl, hservers⟩ := hservers
      have hprune : removeOpenclaw obj = pruneObject "mcp" (pruneObject "servers" (dropManaged "ai-memory")) obj := by
        simp only [removeOpenclaw, hmcp, hservers]
      rw [hprune, spares_pruneObject_iff, or_iff_right hm]
      refine forall₂_congr fun fs hfs => ?_
      obtain rfl : mcp = fs := Json.obj.inj (Option.some_inj.mp (hmcp.symm.trans hfs))
      refine (contained_pruneObject hservers).trans (or_congr_right ?_)
      constructor
      · intro hne gs hgs
        obtain rfl : servers = gs := Json.obj.inj (Option.some_inj.mp (hservers.symm.trans hgs))
        exact hne
      · intro h
        exact h servers hservers
    · have hsame : removeOpenclaw obj = obj := by
        unfold removeOpenclaw
        split
        · next mcp h =>
          split
          · next servers h' =>
            exact absurd ⟨mcp, servers, Option.some_inj.mp (hmcp.symm.trans h), h'⟩ hservers
          · rfl
        · rfl
      rw [hsame]
      refine iff_of_true (spares_refl _) fun mcp h => Or.inr fun servers h' => ?_
      exact absurd ⟨mcp, servers, Option.some_inj.mp (hmcp.symm.trans h), h'⟩ hservers

theorem sparesOthers_iff (target : Target) (c : Json) : SparesOthers target c ↔ Careful target c := by
  have hcursor : ∀ obj, Spares Managed (.obj obj) (.obj (removeCursor obj)) ↔
      Managed (.obj obj) ∨ Filled "mcpServers" obj :=
    fun obj => spares_prune_iff fun fs _ => contained_dropManaged
  have hstandard : ∀ obj, Spares Managed (.obj obj) (.obj (removeMcpStandard obj)) ↔
      Managed (.obj obj) ∨ Unclaimed "mcpServers" "ai-memory" obj :=
    fun obj => spares_prune_iff fun fs _ => contained_removeField
  cases c with
  | obj fs =>
    cases target with
    | claudeCode => exact spares_prune_iff fun gs _ => contained_pruneArray (by decide)
    | continueIde => exact spares_prune_iff fun gs _ => contained_pruneArray (by decide)
    | openclaw => exact spares_removeOpenclaw_iff
    | cursor | cline | windsurf => exact hcursor fs
    | claudeDesktop | codex | grokCli | geminiCli => exact hstandard fs
  | _ => exact iff_of_true (spares_refl _) trivial

end Sparing

/-- Installing and uninstalling restore a configuration exactly if the place of the target has room, and uninstalling spares
what is not managed exactly if what it takes out is nobody else's. -/
theorem install_iff (target : Target) (binary : String) :
    (∀ fs, Restores target binary (.obj fs) ↔ Roomy target fs) ∧ ∀ c, SparesOthers target c ↔ Careful target c :=
  ⟨restores_iff target binary, sparesOthers_iff target⟩

theorem loose_command (name : String) : Loose Managed (.obj [("command", .str name)]) := by
  refine ⟨[], _, .here _, rfl, ?_⟩
  rintro ⟨p, w, _ | @⟨_, k, v, _, _, -, hk, hw⟩ | _, hmark⟩
  · exact absurd hmark (by simp [Managed, isManagedValue, getField, markerStartKey])
  · simp only [getField] at hk
    split_ifs at hk
    obtain rfl := Option.some_inj.mp hk
    rcases hw with _ | _ | _
    cases hmark

/-- Uninstalling takes out an empty `hooks` object that stood there before Claude Code was installed, and a server of the
user when Codex is uninstalled. -/
theorem user_entries_are_lost :
    ¬Restores .claudeCode "ai-memory" (.obj [("hooks", .obj [])]) ∧
      ¬SparesOthers .codex (.obj [("mcpServers", .obj [("ai-memory", .obj [("command", .str "mine")])])]) := by
  constructor
  · rw [restores_iff]
    rintro (hnone | ⟨fs, hfs, hne, -⟩)
    · cases hnone
    · exact hne (Json.obj.inj (Option.some_inj.mp hfs)).symm
  · rw [sparesOthers_iff]
    rintro (hm | h)
    · exact absurd hm (by decide)
    · rcases h _ rfl with hm | ⟨-, h⟩
      · exact absurd hm (by decide)
      · exact (h _ rfl).1 (loose_command "mine")

end Install

end AiMemory
