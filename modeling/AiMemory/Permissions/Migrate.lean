import AiMemory.Lib.Toml
import AiMemory.Permissions.Evaluate

/-!
# The migration of governance policies

`ai-memory governance migrate-to-permissions` translates the `[[governance.policy]]` entries of a configuration to
`[[permissions.rules]]` and appends them to the file as text. What a parser reads from the written file is decided by the
shape of the `permissions` table that stood there and by the characters of the policies (`keepsText_iff`). A rule keeps the
name that the policy gave its action, and the evaluator compares it with the name of an `Op`: a policy on `write`, on
`delete` or on every action denies nothing of its own (`keepsForce_iff`).
-/

namespace AiMemory

namespace Permissions

open Toml RuleDecision

structure LegacyGovernancePolicy where
  scope : Option String := none
  action : Option String := none
  role : Option String := none
  agentId : Option String := none
  decision : Option String := none
  deriving DecidableEq

structure LegacyGovernance where
  policy : List LegacyGovernancePolicy
  deriving DecidableEq

/-- `governance_migrate::PermissionRule`. -/
structure MigratedRule where
  nsPattern : String
  op : String
  agentPattern : String
  decision : String

structure PermissionsBlock where
  rules : List MigratedRule

def translatePolicy (p : LegacyGovernancePolicy) : MigratedRule :=
  { nsPattern := p.scope.getD "*"
    op := p.action.getD "*"
    agentPattern := (p.role <|> p.agentId).getD "*"
    decision := p.decision.getD "ask" }

def translate (legacy : LegacyGovernance) : PermissionsBlock :=
  { rules := legacy.policy.map translatePolicy }

/-! ## Reading the policies -/

/-- The fields of a structure: those of a table, or the values of an array in the order of the declaration. -/
def structFields (names : List String) (v : Value) : Option Table :=
  match v.fields with
  | some t => some t
  | none => v.items.bind fun vs => if vs.length ≤ names.length then some (names.zip vs) else none

/-- `Option<String>`. -/
def optionalString : Option Value → Option (Option String)
  | none => some none
  | some (.str s) => some (some s)
  | some _ => none

def policyOf (v : Value) : Option LegacyGovernancePolicy := do
  let t ← structFields ["scope", "action", "role", "agent_id", "decision"] v
  return {
    scope := ← optionalString (lookup "scope" t)
    action := ← optionalString (lookup "action" t)
    role := ← optionalString (lookup "role" t)
    agentId := ← optionalString (lookup "agent_id" t)
    decision := ← optionalString (lookup "decision" t) }

/-- The `[governance]` section of a document. -/
def legacyOf (root : Table) : Option LegacyGovernance :=
  match lookup "governance" root with
  | none => some ⟨[]⟩
  | some gov => do
    let t ← structFields ["policy"] gov
    match lookup "policy" t with
    | none => return ⟨[]⟩
    | some policies => return ⟨← (← policies.items).mapM policyOf⟩

def parseLegacyGovernance (parse : List Char → Option Doc) (raw : String) : Option LegacyGovernance :=
  (parse raw.toList).bind fun doc => legacyOf doc.root

/-! ## Writing the rules -/

/-- The characters that `toml_str` writes for one. -/
def quoteChar (c : Char) : List Char :=
  match c with
  | '\\' => ['\\', '\\']
  | '"' => ['\\', '"']
  | '\n' => ['\\', 'n']
  | '\r' => ['\\', 'r']
  | '\t' => ['\\', 't']
  | c => [c]

def tomlStr (s : String) : String := "\"" ++ String.ofList (s.toList.flatMap quoteChar) ++ "\""

/-- One `format!` of `render_permissions_block`. -/
def renderField (name value : String) : String := name ++ " = " ++ tomlStr value ++ "\n"

def ruleHeader : String := "\n[[permissions.rules]]\n"

def renderRule (rule : MigratedRule) : String :=
  ruleHeader ++ renderField "namespace_pattern" rule.nsPattern ++ renderField "op" rule.op ++
    renderField "agent_pattern" rule.agentPattern ++ renderField "decision" rule.decision

def nothingNote : String := "# v0.7.0 K11: no [governance] policies found — nothing to migrate.\n"

def translatedNote : String :=
  "# v0.7.0 K11: translated from legacy [[governance.policy]] entries.\n" ++
    "# Mapping: scope→namespace_pattern, action→op,\n" ++
    "#          role|agent_id→agent_pattern, decision→decision.\n"

def mergeNote : String := "\n# --- migrated from [governance] (v0.7.0 K11) ---\n"

def renderPermissionsBlock (block : PermissionsBlock) : String :=
  if block.rules = [] then nothingNote
  else block.rules.foldl (fun out rule => out ++ renderRule rule) translatedNote

def mergeInPlace (existing rendered : String) : String :=
  (if existing.toList.getLast? = some '\n' then existing else existing ++ "\n") ++ mergeNote ++ rendered

/-- The file that `run` writes over its input. -/
def runInPlace (parse : List Char → Option Doc) (raw : String) : Option String := do
  let legacy ← parseLegacyGovernance parse raw
  return mergeInPlace raw (renderPermissionsBlock (translate legacy))

/-! ## What the file should hold -/

/-- The `permissions` table of a document. -/
def permissionsOf (root : Table) : Table := ((lookup "permissions" root).bind Value.fields).getD []

/-- Its `rules`. -/
def rulesOf (root : Table) : List Value := ((lookup "rules" (permissionsOf root)).bind Value.items).getD []

def MigratedRule.table (rule : MigratedRule) : Table :=
  [("namespace_pattern", .str rule.nsPattern), ("op", .str rule.op), ("agent_pattern", .str rule.agentPattern),
    ("decision", .str rule.decision)]

/-- The written file parses, keeps what stood there, and its rules end with the translated policies. -/
def KeepsText (parse : List Char → Option Doc) (raw : String) (doc : Doc) (policies : List LegacyGovernancePolicy) :
    Prop :=
  ∃ file doc', runInPlace parse raw = some file ∧ parse file.toList = some doc' ∧
    (∀ k, k ≠ "permissions" → lookup k doc'.root = lookup k doc.root) ∧
    (∀ k, k ≠ "rules" → lookup k (permissionsOf doc'.root) = lookup k (permissionsOf doc.root)) ∧
    rulesOf doc'.root = rulesOf doc.root ++ policies.map fun p => .table (translatePolicy p).table

def RuleDecision.ofName : String → Option RuleDecision
  | "allow" => some .allow
  | "deny" => some .deny
  | "ask" => some .ask
  | _ => none

def requiredString (v : Option Value) : Option String := (optionalString v).bind id

def loadRule (v : Value) : Option PermissionRule := do
  let t ← structFields ["namespace_pattern", "op", "agent_pattern", "decision", "reason"] v
  return {
    nsPattern := ← requiredString (lookup "namespace_pattern" t)
    op := ← requiredString (lookup "op" t)
    agentPattern := (← optionalString (lookup "agent_pattern" t)).getD "*"
    decision := ← (requiredString (lookup "decision" t)).bind ofName
    reason := ← optionalString (lookup "reason" t) }

def migratedRules (policies : List LegacyGovernancePolicy) : Option (List PermissionRule) :=
  (policies.map fun p => Value.table (translatePolicy p).table).mapM loadRule

/-- The namespace and the agent of a context match the patterns of the policy. -/
def LegacyGovernancePolicy.Selects (p : LegacyGovernancePolicy) (ctx : PermissionContext) : Prop :=
  globMatches (p.scope.getD "*") ctx.ns = true ∧ globMatches ((p.role <|> p.agentId).getD "*") ctx.agentId = true

instance (p : LegacyGovernancePolicy) (ctx : PermissionContext) : Decidable (p.Selects ctx) :=
  inferInstanceAs (Decidable (_ ∧ _))

/-- The policy is on the operation: `write` stands for storing, `delete` for deleting, no action for all of them. -/
def LegacyGovernancePolicy.Gates (p : LegacyGovernancePolicy) (op : Op) : Prop :=
  p.action = none ∨ p.action = some "write" ∧ op = .memoryStore ∨ p.action = some "delete" ∧ op = .memoryDelete

/-- The rules load, and under `Enforce` every context that a denying policy is about is denied, whatever hooks say. -/
def KeepsForce (debug : String → String) (policies : List LegacyGovernancePolicy) : Prop :=
  ∃ rules, migratedRules policies = some rules ∧
    ∀ p ∈ policies, p.decision = some "deny" → ∀ ctx hooks, p.Gates ctx.op → p.Selects ctx →
      (evaluateWith debug ctx hooks rules .enforce).kind = .deny

/-- Every context that a denying policy is about is selected by a denying policy whose action is the very name of the
operation. -/
def Covered (policies : List LegacyGovernancePolicy) : Prop :=
  ∀ p ∈ policies, p.decision = some "deny" → ∀ ctx : PermissionContext, p.Gates ctx.op → p.Selects ctx →
    ∃ q ∈ policies, q.decision = some "deny" ∧ q.action = some ctx.op.asStr ∧ q.Selects ctx

/-- The document has no `permissions`, or a table of that name that headers may extend, without `rules` or with an
array of tables under that name. -/
def Extendable (root : Table) : Prop :=
  match lookup "permissions" root with
  | none => True
  | some (.table t) =>
    match lookup "rules" t with
    | none => True
    | some (.tables _) => True
    | some _ => False
  | some _ => False

instance : DecidablePred Extendable := fun root =>
  match h : lookup "permissions" root with
  | none => isTrue (by simp only [Extendable, h])
  | some (.table t) =>
    match h' : lookup "rules" t with
    | none | some (.tables _) => isTrue (by simp only [Extendable, h, h'])
    | some (.str _) | some (.scalar _) | some (.array _) | some (.inline _) | some (.table _) =>
      isFalse (by simp only [Extendable, h, h', not_false_eq_true])
  | some (.str _) | some (.scalar _) | some (.array _) | some (.inline _) | some (.tables _) =>
    isFalse (by simp only [Extendable, h, not_false_eq_true])

/-- Every character can stand in a basic string, as it is or escaped by `toml_str`. -/
def Quotable (s : String) : Prop := ∀ c ∈ s.toList, c = '\n' ∨ c = '\r' ∨ Legal c

instance : DecidablePred Quotable := fun s => inferInstanceAs (Decidable (∀ c ∈ s.toList, _))

/-- The strings of the rule are quotable. -/
def MigratedRule.Quotable (rule : MigratedRule) : Prop :=
  Permissions.Quotable rule.nsPattern ∧ Permissions.Quotable rule.op ∧ Permissions.Quotable rule.agentPattern ∧
    Permissions.Quotable rule.decision

instance : DecidablePred MigratedRule.Quotable := fun _ => inferInstanceAs (Decidable (_ ∧ _ ∧ _ ∧ _))

/-! ## The written lines -/

def keyPermissions : Key := ⟨"permissions", by decide⟩
def keyRules : Key := ⟨"rules", by decide⟩
def keyNsPattern : Key := ⟨"namespace_pattern", by decide⟩
def keyOp : Key := ⟨"op", by decide⟩
def keyAgentPattern : Key := ⟨"agent_pattern", by decide⟩
def keyDecision : Key := ⟨"decision", by decide⟩

/-- What `toml_str` makes of a character, as a piece of a basic string. -/
def pieceOf (c : Char) : Piece :=
  if hb : c = '\\' then .escape .backslash
  else if hq : c = '"' then .escape .quote
  else if hn : c = '\n' then .escape .newline
  else if c = '\r' then .escape .carriageReturn
  else if c = '\t' then .escape .tab
  else .plain c ⟨hq, hb, hn⟩

def pieces (s : String) : List Piece := s.toList.map pieceOf

def ruleFields (rule : MigratedRule) : List (Key × List Piece) :=
  [(keyNsPattern, pieces rule.nsPattern), (keyOp, pieces rule.op), (keyAgentPattern, pieces rule.agentPattern),
    (keyDecision, pieces rule.decision)]

section Lines

theorem write_pieceOf (c : Char) : (pieceOf c).write = quoteChar c := by
  unfold pieceOf quoteChar
  split_ifs with hb hq hn hr ht <;> simp_all [Piece.write, Escape.letter]

theorem char_pieceOf (c : Char) : (pieceOf c).char = c := by
  unfold pieceOf
  split_ifs with hb hq hn hr ht <;> simp_all [Piece.char, Escape.char]

theorem textOf_pieces (s : String) : textOf (pieces s) = s := by
  rw [textOf, pieces, List.map_map, show Piece.char ∘ pieceOf = id from funext char_pieceOf, List.map_id,
    String.ofList_toList]

theorem legal_pieceOf (c : Char) : (pieceOf c).Legal ↔ c = '\n' ∨ c = '\r' ∨ Legal c := by
  unfold pieceOf
  split_ifs with hb hq hn hr ht
  · exact iff_of_true trivial (Or.inr (Or.inr (hb ▸ by decide)))
  · exact iff_of_true trivial (Or.inr (Or.inr (hq ▸ by decide)))
  · exact iff_of_true trivial (Or.inl hn)
  · exact iff_of_true trivial (Or.inr (Or.inl hr))
  · exact iff_of_true trivial (Or.inr (Or.inr (Or.inl ht)))
  · exact ⟨fun h => Or.inr (Or.inr h), fun h => h.resolve_left hn |>.resolve_left hr⟩

theorem legal_pieces (s : String) : (∀ p ∈ pieces s, p.Legal) ↔ Quotable s := by
  simp only [pieces, List.forall_mem_map, legal_pieceOf]
  rfl

theorem toList_tomlStr (s : String) : (tomlStr s).toList = '"' :: ((pieces s).flatMap Piece.write ++ ['"']) := by
  have hpieces : (pieces s).flatMap Piece.write = s.toList.flatMap quoteChar := by
    rw [pieces, List.flatMap_map]
    exact List.flatMap_congr fun c _ => write_pieceOf c
  simp [hpieces, tomlStr]

theorem toList_renderField (key : Key) (value : String) :
    (renderField key.name value).toList = (Line.keyVal key (pieces value)).write ++ ['\n'] := by
  simp [renderField, toList_tomlStr, Line.write, writeKeyVal]

theorem toList_ruleHeader : ruleHeader.toList = '\n' :: (Line.element [keyPermissions] keyRules).write ++ ['\n'] := by
  rw [ruleHeader, String.toList_ofList]
  decide

theorem toList_renderRule (rule : MigratedRule) :
    (renderRule rule).toList = writeAll (elementLines [keyPermissions] keyRules (ruleFields rule)) := by
  have hns := toList_renderField keyNsPattern rule.nsPattern
  have hop := toList_renderField keyOp rule.op
  have hagent := toList_renderField keyAgentPattern rule.agentPattern
  have hdecision := toList_renderField keyDecision rule.decision
  simp only [keyNsPattern, keyOp, keyAgentPattern, keyDecision] at hns hop hagent hdecision
  unfold renderRule
  rw [String.toList_append, String.toList_append, String.toList_append, String.toList_append, hns, hop,
    hagent, hdecision, toList_ruleHeader]
  simp [writeAll, elementLines, fieldLines, ruleFields, keyNsPattern, keyOp, keyAgentPattern, keyDecision, Line.write]

/-- Lines that change nothing. -/
def Silent (notes : List Line) : Prop := ∀ doc : Doc, doc.readAll notes = some doc

def note (text : List Char) (h : ∀ c ∈ text, Legal c) : Line := .comment ⟨text, h⟩

theorem silent_append {notes notes' : List Line} (h : Silent notes) (h' : Silent notes') : Silent (notes ++ notes') := by
  intro doc
  rw [readAll_append, h, Option.bind_some, h']

theorem writeAll_note (text : List Char) (h : ∀ c ∈ text, Legal c) (notes : List Line) :
    writeAll (note text h :: notes) = '#' :: text ++ '\n' :: writeAll notes := by
  have hwrite : (note text h).write = '#' :: text := rfl
  rw [writeAll, List.flatMap_cons, hwrite, List.append_assoc, List.singleton_append, writeAll]

theorem nothingNote_lines : ∃ notes, Silent notes ∧ nothingNote.toList = writeAll notes := by
  refine ⟨[note " v0.7.0 K11: no [governance] policies found — nothing to migrate.".toList ?_], fun _ => rfl, ?_⟩
  · rw [String.toList_ofList]
    decide
  · rw [writeAll_note, nothingNote, String.toList_ofList, String.toList_ofList]
    rfl

theorem toList_append_append (a b c : String) : (a ++ b ++ c).toList = a.toList ++ b.toList ++ c.toList := by
  rw [String.toList_append, String.toList_append]

theorem translatedNote_lines : ∃ notes, Silent notes ∧ translatedNote.toList = writeAll notes := by
  refine ⟨[note " v0.7.0 K11: translated from legacy [[governance.policy]] entries.".toList ?_,
    note " Mapping: scope→namespace_pattern, action→op,".toList ?_,
    note "          role|agent_id→agent_pattern, decision→decision.".toList ?_], fun _ => rfl, ?_⟩
  · rw [String.toList_ofList]
    decide
  · rw [String.toList_ofList]
    decide
  · rw [String.toList_ofList]
    decide
  · refine (toList_append_append _ _ _).trans ?_
    rw [writeAll_note, writeAll_note, writeAll_note]
    iterate 6 rw [String.toList_ofList]
    rfl

theorem mergeNote_lines : ∃ notes, Silent notes ∧ mergeNote.toList = '\n' :: writeAll notes := by
  refine ⟨[note " --- migrated from [governance] (v0.7.0 K11) ---".toList ?_], fun _ => rfl, ?_⟩
  · rw [String.toList_ofList]
    decide
  · rw [writeAll_note, mergeNote, String.toList_ofList, String.toList_ofList]
    rfl

def policyLines (policies : List LegacyGovernancePolicy) : List Line :=
  (policies.map fun p => ruleFields (translatePolicy p)).flatMap (elementLines [keyPermissions] keyRules)

theorem toList_foldl_renderRule (rules : List MigratedRule) (out : String) :
    (rules.foldl (fun out rule => out ++ renderRule rule) out).toList =
      out.toList ++ writeAll ((rules.map ruleFields).flatMap (elementLines [keyPermissions] keyRules)) := by
  induction rules generalizing out with
  | nil => simp [writeAll]
  | cons rule rules ih =>
    rw [List.foldl_cons, ih, String.toList_append, toList_renderRule, List.append_assoc, List.map_cons,
      List.flatMap_cons, writeAll_append]

theorem rendered_lines (policies : List LegacyGovernancePolicy) : ∃ notes, Silent notes ∧
    (renderPermissionsBlock (translate ⟨policies⟩)).toList = writeAll (notes ++ policyLines policies) := by
  cases policies with
  | nil =>
    obtain ⟨notes, hsilent, hnote⟩ := nothingNote_lines
    refine ⟨notes, hsilent, ?_⟩
    have hrules : (translate ⟨[]⟩).rules = [] := rfl
    rw [renderPermissionsBlock, if_pos hrules, hnote, policyLines, List.map_nil, List.flatMap_nil, List.append_nil]
  | cons p policies =>
    obtain ⟨notes, hsilent, hnote⟩ := translatedNote_lines
    refine ⟨notes, hsilent, ?_⟩
    have hrules : (translate ⟨p :: policies⟩).rules = (p :: policies).map translatePolicy := rfl
    have hne : (translate ⟨p :: policies⟩).rules ≠ [] := List.cons_ne_nil _ _
    rw [renderPermissionsBlock, if_neg hne, toList_foldl_renderRule, hnote, writeAll_append, hrules, List.map_map]
    rfl

theorem mergeInPlace_lines (raw : String) (policies : List LegacyGovernancePolicy) : ∃ notes, Silent notes ∧
    (mergeInPlace raw (renderPermissionsBlock (translate ⟨policies⟩))).toList = raw.toList ++ '\n' :: writeAll (notes ++ policyLines policies) := by
  obtain ⟨notes, hsilent, hrendered⟩ := rendered_lines policies
  obtain ⟨merge, hmerge, hnote⟩ := mergeNote_lines
  have hblank : Silent [.blank] := fun _ => rfl
  unfold mergeInPlace
  split_ifs with hend
  · refine ⟨merge ++ notes, silent_append hmerge hsilent, ?_⟩
    simp only [String.toList_append, hnote, hrendered, writeAll_append, List.append_assoc, List.cons_append]
  · refine ⟨[.blank] ++ merge ++ notes, silent_append (silent_append hblank hmerge) hsilent, ?_⟩
    have hnewline : "\n".toList = ['\n'] := String.toList_ofList
    have hlines : writeAll ([.blank] ++ merge ++ notes ++ policyLines policies) =
        '\n' :: writeAll (merge ++ notes ++ policyLines policies) := rfl
    rw [hlines]
    simp only [String.toList_append, hnote, hrendered, writeAll_append, List.append_assoc, List.cons_append,
      hnewline, List.nil_append]

theorem runInPlace_eq {parse : List Char → Option Doc} (hparse : Continues parse) {raw : String} {doc : Doc}
    (hraw : parse raw.toList = some doc) {policies : List LegacyGovernancePolicy}
    (hlegacy : parseLegacyGovernance parse raw = some ⟨policies⟩) :
    ∃ file, runInPlace parse raw = some file ∧ parse file.toList = doc.readAll (policyLines policies) := by
  obtain ⟨notes, hsilent, hfile⟩ := mergeInPlace_lines raw policies
  refine ⟨_, by rw [runInPlace, hlegacy]; rfl, ?_⟩
  rw [hfile, hparse _ doc _ hraw, readAll_append, hsilent, Option.bind_some]

end Lines

/-! ## When the file keeps the policies -/

section Text

variable {root : Table} {us : List Table} {policies : List LegacyGovernancePolicy}

/-- The document after it differs in `permissions` alone, and there in `rules` alone, by more elements. -/
def Extends (root root' : Table) (us : List Table) : Prop :=
  (∀ k, k ≠ "permissions" → lookup k root' = lookup k root) ∧
    (∀ k, k ≠ "rules" → lookup k (permissionsOf root') = lookup k (permissionsOf root)) ∧
    rulesOf root' = rulesOf root ++ us.map .table

theorem permissionsOf_put (t : Table) (root : Table) : permissionsOf (put "permissions" (.table t) root) = t := by
  rw [permissionsOf, lookup_put]
  rfl

theorem rulesOf_eq (root : Table) : rulesOf root = ((lookup "rules" (permissionsOf root)).bind Value.items).getD [] := rfl

theorem extends_of_addTables {t t' : Table} (ht : permissionsOf root = t)
    (hadd : addTables "rules" us t = some t') : Extends root (put "permissions" (.table t') root) us := by
  have hsplit : (∀ k, k ≠ "rules" → lookup k t' = lookup k t) ∧
      ((lookup "rules" t').bind Value.items).getD [] = ((lookup "rules" t).bind Value.items).getD [] ++ us.map .table := by
    unfold addTables at hadd
    cases hrules : lookup "rules" t with
    | none =>
      simp only [hrules, Option.some.injEq] at hadd
      subst hadd
      exact ⟨fun k hk => lookup_put_of_ne hk _ t, by rw [lookup_put]; rfl⟩
    | some v =>
      cases v with
      | tables ts =>
        simp only [hrules, Option.some.injEq] at hadd
        subst hadd
        exact ⟨fun k hk => lookup_put_of_ne hk _ t, by rw [lookup_put]; exact List.map_append⟩
      | _ => simp [hrules] at hadd
  refine ⟨fun k hk => lookup_put_of_ne hk _ root, ?_, ?_⟩
  · rw [permissionsOf_put, ht]
    exact hsplit.1
  · rw [rulesOf_eq, rulesOf_eq, permissionsOf_put, ht]
    exact hsplit.2

/-- Headers of `permissions.rules` extend the document exactly if its `permissions` may be extended. -/
theorem modifyAt_extends_iff (hne : us ≠ []) :
    (∃ root', modifyAt (addTables "rules" us) ["permissions"] root = some root' ∧ Extends root root' us) ↔
      Extendable root := by
  unfold Extendable
  cases hp : lookup "permissions" root with
  | none =>
    have hnil : permissionsOf root = [] := by rw [permissionsOf, hp]; rfl
    have hadd : addTables "rules" us [] = some (put "rules" (.tables us) []) := rfl
    refine iff_of_true ⟨_, ?_, extends_of_addTables hnil hadd⟩ trivial
    rw [modifyAt_none hp]
    rfl
  | some v =>
    cases v with
    | table t =>
      have ht : permissionsOf root = t := by rw [permissionsOf, hp]; rfl
      rw [modifyAt_table hp]
      cases hadd : addTables "rules" us t with
      | some t' =>
        have hright : (match lookup "rules" t with | none => True | some (.tables _) => True | some _ => False) := by
          unfold addTables at hadd
          split at hadd <;> simp_all
        exact iff_of_true ⟨_, by rw [modifyAt, hadd]; rfl, extends_of_addTables ht hadd⟩ hright
      | none =>
        have hright : ¬(match lookup "rules" t with | none => True | some (.tables _) => True | some _ => False) := by
          unfold addTables at hadd
          split at hadd <;> simp_all
        exact iff_of_false (by rintro ⟨_, h, -⟩; rw [modifyAt, hadd] at h; cases h) hright
    | tables ts =>
      -- the headers go to the last table of the array, which is not where the rules are read
      refine iff_of_false ?_ id
      rintro ⟨root', h, -, -, hrules⟩
      obtain ⟨ts', hput⟩ : ∃ ts', root' = put "permissions" (.tables ts') root := by
        simp only [modifyAt, hp] at h
        obtain ⟨u, -, h⟩ := Option.bind_eq_some_iff.mp h
        obtain ⟨u', -, rfl⟩ := Option.map_eq_some_iff.mp h
        exact ⟨_, rfl⟩
      have hempty : rulesOf root' = [] := by
        rw [hput, rulesOf_eq, permissionsOf, lookup_put]
        rfl
      rw [hempty] at hrules
      exact hne (List.map_eq_nil_iff.mp (List.append_eq_nil_iff.mp hrules.symm).2)
    | _ => exact iff_of_false (by rintro ⟨_, h, -⟩; simp [modifyAt, hp] at h) id

theorem tableOf_ruleFields (rule : MigratedRule) : tableOf (ruleFields rule) = rule.table := by
  simp only [tableOf, ruleFields, List.map_cons, List.map_nil, textOf_pieces]
  rfl

theorem legal_ruleFields (rule : MigratedRule) : (∀ f ∈ ruleFields rule, ∀ p ∈ f.2, p.Legal) ↔ rule.Quotable := by
  simp only [ruleFields, List.forall_mem_cons, legal_pieces, MigratedRule.Quotable]
  simp

/-- The file keeps the text exactly if there is nothing to migrate, or the `permissions` of the document may be extended
and every string can be quoted. -/
theorem keepsText_iff {parse : List Char → Option Doc} (hparse : Continues parse) {raw : String} {doc : Doc}
    (hraw : parse raw.toList = some doc) (hlegacy : parseLegacyGovernance parse raw = some ⟨policies⟩) :
    KeepsText parse raw doc policies ↔
      policies = [] ∨ Extendable doc.root ∧ ∀ p ∈ policies, (translatePolicy p).Quotable := by
  obtain ⟨file, hfile, hread⟩ := runInPlace_eq hparse hraw hlegacy
  have hunfold : KeepsText parse raw doc policies ↔ ∃ doc', doc.readAll (policyLines policies) = some doc' ∧
      Extends doc.root doc'.root (policies.map fun p => (translatePolicy p).table) := by
    simp only [KeepsText, Extends, hfile, Option.some_inj, exists_and_left, exists_eq_left', hread, List.map_map]
    rfl
  rw [hunfold]
  by_cases hempty : policies = []
  · subst hempty
    have hsame : Extends doc.root doc.root [] := ⟨fun _ _ => rfl, fun _ _ => rfl, (List.append_nil _).symm⟩
    exact iff_of_true ⟨doc, rfl, hsame⟩ (Or.inl rfl)
  rw [or_iff_right hempty]
  by_cases hquot : ∀ p ∈ policies, (translatePolicy p).Quotable
  · set elements := policies.map fun p => ruleFields (translatePolicy p) with helements
    have hlegal : ∀ fields ∈ elements, ∀ f ∈ fields, ∀ p ∈ f.2, p.Legal := by
      intro fields hf
      obtain ⟨p, hp, rfl⟩ := List.mem_map.mp hf
      exact (legal_ruleFields _).mpr (hquot p hp)
    have hnodup : ∀ fields ∈ elements, (fields.map fun f => f.1.name).Nodup := by
      intro fields hf
      obtain ⟨p, -, rfl⟩ := List.mem_map.mp hf
      show ["namespace_pattern", "op", "agent_pattern", "decision"].Nodup
      decide
    have htables : elements.map tableOf = policies.map fun p => (translatePolicy p).table := by
      rw [helements, List.map_map]
      exact List.map_congr_left fun p _ => tableOf_ruleFields _
    have hread : doc.readAll (policyLines policies) =
        (modifyAt (addTables "rules" (elements.map tableOf)) ["permissions"] doc.root).map fun root =>
          ⟨root, ["permissions", "rules"]⟩ :=
      readAll_elements hlegal hnodup (List.map_eq_nil_iff.not.mpr hempty) doc
    have hne : (policies.map fun p => (translatePolicy p).table) ≠ [] := List.map_eq_nil_iff.not.mpr hempty
    rw [hread, htables, and_iff_left hquot, ← modifyAt_extends_iff hne]
    constructor
    · rintro ⟨doc', hdoc, hext⟩
      obtain ⟨root', hmod, rfl⟩ := Option.map_eq_some_iff.mp hdoc
      exact ⟨root', hmod, hext⟩
    · rintro ⟨root', hmod, hext⟩
      exact ⟨_, Option.map_eq_some_iff.mpr ⟨root', hmod, rfl⟩, hext⟩
  · refine iff_of_false ?_ fun h => hquot h.2
    push Not at hquot
    obtain ⟨p, hp, hbad⟩ := hquot
    rw [← legal_ruleFields] at hbad
    push Not at hbad
    obtain ⟨f, hf, piece, hpiece, hillegal⟩ := hbad
    have hmem : ruleFields (translatePolicy p) ∈ policies.map fun p => ruleFields (translatePolicy p) :=
      List.mem_map.mpr ⟨p, hp, rfl⟩
    have hnone : doc.readAll (policyLines policies) = none := readAll_elements_eq_none hmem hf hpiece hillegal doc
    rintro ⟨doc', hdoc, -⟩
    rw [hnone] at hdoc
    cases hdoc

end Text

/-! ## When the rules keep their force -/

section Force

variable {policies : List LegacyGovernancePolicy} {p : LegacyGovernancePolicy} {ctx : PermissionContext}

/-- The decision is one that a rule may have. -/
def LegacyGovernancePolicy.Known (p : LegacyGovernancePolicy) : Prop :=
  p.decision = none ∨ p.decision = some "allow" ∨ p.decision = some "deny" ∨ p.decision = some "ask"

instance (p : LegacyGovernancePolicy) : Decidable p.Known := inferInstanceAs (Decidable (_ ∨ _ ∨ _ ∨ _))

def ruleOf (p : LegacyGovernancePolicy) : PermissionRule :=
  { nsPattern := (translatePolicy p).nsPattern
    op := (translatePolicy p).op
    agentPattern := (translatePolicy p).agentPattern
    decision := (ofName (translatePolicy p).decision).getD .ask }

theorem lookup_table (rule : MigratedRule) :
    lookup "namespace_pattern" rule.table = some (.str rule.nsPattern) ∧ lookup "op" rule.table = some (.str rule.op) ∧
      lookup "agent_pattern" rule.table = some (.str rule.agentPattern) ∧
      lookup "decision" rule.table = some (.str rule.decision) ∧ lookup "reason" rule.table = none := by
  refine ⟨?_, ?_, ?_, ?_, ?_⟩ <;> simp [MigratedRule.table, lookup]

theorem loadRule_table (hp : p.Known) : loadRule (.table (translatePolicy p).table) = some (ruleOf p) := by
  obtain ⟨d, hd⟩ : ∃ d, ofName (translatePolicy p).decision = some d := by
    rcases hp with h | h | h | h <;> simp [translatePolicy, h, ofName]
  obtain ⟨hns, hop, hagent, hdecision, hreason⟩ := lookup_table (translatePolicy p)
  unfold loadRule ruleOf
  simp only [structFields, Value.fields, hns, hop, hagent, hdecision, hreason, requiredString, optionalString, hd,
    Option.bind_eq_bind, Option.bind_some, id]
  rfl

theorem migratedRules_eq (h : ∀ p ∈ policies, p.Known) : migratedRules policies = some (policies.map ruleOf) := by
  unfold migratedRules
  induction policies with
  | nil => rfl
  | cons p policies ih =>
    rw [List.map_cons, List.mapM_cons, loadRule_table (h p List.mem_cons_self),
      ih fun q hq => h q (List.mem_cons_of_mem p hq)]
    rfl

theorem decision_ruleOf (hp : p.Known) : (ruleOf p).decision.kind = .deny ↔ p.decision = some "deny" := by
  rcases hp with h | h | h | h <;> simp [ruleOf, translatePolicy, h, ofName, kind]

/-- A rule applies where its policy selects and has named its action as the operation is named. -/
theorem applies_ruleOf : (ruleOf p).Applies ctx ↔ p.action = some ctx.op.asStr ∧ p.Selects ctx := by
  have hop : p.action.getD "*" = ctx.op.asStr ↔ p.action = some ctx.op.asStr := by
    cases p.action with
    | none =>
      refine iff_of_false ?_ (Option.some_ne_none _).symm
      cases ctx.op <;> decide
    | some action => exact (Option.some_inj).symm
  exact and_congr_left fun _ => hop

/-- The rules deny, whatever hooks say, exactly if one of them says so. -/
theorem denies_iff (debug : String → String) (rules : List PermissionRule) :
    (∀ hooks, (evaluateWith debug ctx hooks rules .enforce).kind = .deny) ↔
      ∃ r ∈ rules, r.Applies ctx ∧ r.decision.kind = .deny := by
  constructor
  · intro h
    by_contra hnone
    have hallow := h [.allow]
    have hdeny : ¬Says ctx [.allow] rules .deny := by
      rintro (hrule | ⟨d, hd, hkind⟩)
      · exact hnone hrule
      · rw [List.mem_singleton.mp hd] at hkind
        cases hkind
    have hmodify : ¬Says ctx [.allow] rules .modify := by
      rw [says_modify]
      rintro ⟨d, hd, hkind⟩
      rw [List.mem_singleton.mp hd] at hkind
      cases hkind
    have hsays : Says ctx [.allow] rules .allow := Or.inr ⟨.allow, List.mem_cons_self, rfl⟩
    rw [evaluateWith_eq_kindOf (by decide), kindOf, if_neg hdeny, if_neg hmodify, undeniedKind, if_pos hsays] at hallow
    cases hallow
  · intro hrule hooks
    have hsays : Says ctx hooks rules .deny := Or.inl hrule
    rw [evaluateWith_eq_kindOf (by decide), kindOf, if_pos hsays]

/-- The migrated rules keep their force exactly if other policies cover what the denying ones are about. -/
theorem keepsForce_iff (debug : String → String) (h : ∀ p ∈ policies, p.Known) :
    KeepsForce debug policies ↔ Covered policies := by
  have hrule : ∀ ctx : PermissionContext,
      (∃ r ∈ policies.map ruleOf, r.Applies ctx ∧ r.decision.kind = .deny) ↔
        ∃ q ∈ policies, q.decision = some "deny" ∧ q.action = some ctx.op.asStr ∧ q.Selects ctx := by
    intro ctx
    simp only [List.mem_map, exists_exists_and_eq_and, applies_ruleOf]
    refine exists_congr fun q => and_congr_right fun hq => ?_
    rw [decision_ruleOf (h q hq), and_comm]
  rw [KeepsForce, migratedRules_eq h]
  constructor
  · rintro ⟨rules, hrules, hforce⟩ p hp hdeny ctx hop hsel
    obtain rfl := Option.some_inj.mp hrules
    exact (hrule ctx).mp ((denies_iff debug _).mp fun hooks => hforce p hp hdeny ctx hooks hop hsel)
  · intro hcovered
    refine ⟨_, rfl, fun p hp hdeny ctx hooks hop hsel => ?_⟩
    exact (denies_iff debug _).mpr ((hrule ctx).mpr (hcovered p hp hdeny ctx hop hsel)) hooks

end Force

/-- The migration of a configuration keeps the text and the force of the policies exactly if the file can be extended
by them and other policies cover what the denying ones are about. -/
theorem migration_iff {parse : List Char → Option Doc} (hparse : Continues parse) (debug : String → String) {raw : String}
    {doc : Doc} (hraw : parse raw.toList = some doc) {policies : List LegacyGovernancePolicy}
    (hlegacy : parseLegacyGovernance parse raw = some ⟨policies⟩) (hknown : ∀ p ∈ policies, p.Known) :
    KeepsText parse raw doc policies ∧ KeepsForce debug policies ↔
      (policies = [] ∨ Extendable doc.root ∧ ∀ p ∈ policies, (translatePolicy p).Quotable) ∧ Covered policies :=
  and_congr (keepsText_iff hparse hraw hlegacy) (keepsForce_iff debug hknown)

/-- A configuration that denies storing twice: by the name that policies use, and by the name that rules use. -/
def lockdown : String :=
  "[[governance.policy]]\naction = \"write\"\ndecision = \"deny\"\n" ++
    "[[governance.policy]]\naction = \"memory_store\"\ndecision = \"deny\"\n"

def lockdownPolicies : List LegacyGovernancePolicy :=
  [{ action := some "write", decision := some "deny" }, { action := some "memory_store", decision := some "deny" }]

theorem lockdown_covered : Covered lockdownPolicies := by
  intro p hp _ ctx hgates hsel
  refine ⟨{ action := some "memory_store", decision := some "deny" }, List.mem_cons_of_mem _ List.mem_cons_self, rfl,
    ?_, ?_⟩
  · rcases List.mem_cons.mp hp with rfl | hp
    · rcases hgates with h | ⟨-, h⟩ | ⟨h, -⟩
      · cases h
      · rw [h]
        rfl
      · exact absurd h (by decide)
    · rw [List.mem_singleton.mp hp] at hgates
      exact absurd hgates (by simp [LegacyGovernancePolicy.Gates])
  · rcases List.mem_cons.mp hp with rfl | hp
    · exact hsel
    · rw [List.mem_singleton.mp hp] at hsel
      exact hsel

/-- It is migrated with its force. -/
theorem lockdown_migrates : ∃ doc, parseLines lockdown.toList = some doc ∧
    KeepsText parseLines lockdown doc lockdownPolicies ∧ KeepsForce id lockdownPolicies := by
  have hparsed : ((parseLines lockdown.toList).map fun doc => decide (Extendable doc.root)) = some true := by
    decide +kernel
  obtain ⟨doc, hraw, hextendable⟩ := Option.map_eq_some_iff.mp hparsed
  have hlegacy : parseLegacyGovernance parseLines lockdown = some ⟨lockdownPolicies⟩ := by decide +kernel
  have hknown : ∀ p ∈ lockdownPolicies, p.Known := by decide +kernel
  have hquot : ∀ p ∈ lockdownPolicies, (translatePolicy p).Quotable := by decide +kernel
  exact ⟨doc, hraw, (migration_iff continues_parseLines id hraw hlegacy hknown).mpr
    ⟨Or.inr ⟨of_decide_eq_true hextendable, hquot⟩, lockdown_covered⟩⟩

/-- A configuration that denies storing, by the name that policies use, is migrated to rules that allow it. -/
theorem write_denial_is_lost :
    parseLegacyGovernance parseLines "[[governance.policy]]\naction = \"write\"\ndecision = \"deny\"" =
        some ⟨[{ action := some "write", decision := some "deny" }]⟩ ∧
      ¬KeepsForce id [{ action := some "write", decision := some "deny" }] := by
  refine ⟨by decide +kernel, ?_⟩
  rw [keepsForce_iff id (by decide)]
  intro hcovered
  obtain ⟨q, hq, -, haction, -⟩ := hcovered _ List.mem_cons_self rfl ⟨.memoryStore, "ns", "bob", .null⟩
    (Or.inr (Or.inl ⟨rfl, rfl⟩)) (by decide)
  rw [List.mem_singleton.mp hq] at haction
  exact absurd haction (by decide)

end Permissions

end AiMemory
