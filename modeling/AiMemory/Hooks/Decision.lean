import AiMemory.Hooks.Chain
import AiMemory.Model.Validate

/-!
# Decisions on the wire

`HookDecision::parse` of `hooks/decision.rs`: the line that a hook writes, as a decision. `serde_json` is a parameter.
-/

namespace AiMemory.Hooks

/-- `serde_json`: the text of an envelope, which is one line, and what it reads. -/
structure Serde where
  toVec : HookEvent → Json → List Char
  oneLine : ∀ event payload, '\n' ∉ toVec event payload
  fromStr : String → Except String Json
  memoryDelta : Json → Except String MemoryDelta
  strings : Json → Except String (List String)

inductive DecisionParseError where
  | notAnObject
  | missingAction
  | unknownAction (action : String)
  | missingField (action field : String)
  | malformed (msg : String)
  deriving DecidableEq

def DecisionParseError.display : DecisionParseError → String
  | .notAnObject => "hook decision must be a JSON object"
  | .missingAction => "hook decision missing required \"action\" field"
  | .unknownAction action => "hook decision has unknown action \"" ++ action ++ "\""
  | .missingField action field =>
    "hook decision action=\"" ++ action ++ "\" missing required field \"" ++ field ++ "\""
  | .malformed msg => "hook decision malformed: " ++ msg

def defaultDenyCode : ℤ := 403

def required (obj : Json) (action field : String) : Except DecisionParseError Json :=
  (obj.get field).elim (.error (.missingField action field)) .ok

/-- `as_str`, or the complaint about the field. -/
def requiredStr (field : String) (v : Json) : Except DecisionParseError String :=
  v.asStr.elim (.error (.malformed ("\"" ++ field ++ "\" must be a string"))) .ok

/-- `i32::try_from(code).unwrap_or(default_deny_code())`, with the default where there is no integer. -/
def denyCode (obj : Json) : ℤ :=
  match obj.get "code" with
  | some (.int code) => if -2 ^ 31 ≤ code ∧ code < 2 ^ 31 then code else defaultDenyCode
  | _ => defaultDenyCode

def HookDecision.ofAction (serde : Serde) (obj : Json) : String → Except DecisionParseError HookDecision
  | "allow" => .ok .allow
  | "modify" => do
    let delta ← required obj "modify" "delta"
    let delta ← (serde.memoryDelta delta).mapError .malformed
    .ok (.modify delta)
  | "deny" => do
    let reason ← required obj "deny" "reason" >>= requiredStr "reason"
    .ok (.deny reason (denyCode obj))
  | "ask_user" => do
    let prompt ← required obj "ask_user" "prompt" >>= requiredStr "prompt"
    let options ← required obj "ask_user" "options"
    let options ← (serde.strings options).mapError .malformed
    match obj.get "default" with
    | none | some .null => .ok (.askUser prompt options none)
    | some v => do
      let default ← requiredStr "default" v
      .ok (.askUser prompt options (some default))
  | other => .error (.unknownAction other)

def HookDecision.parse (serde : Serde) (line : String) : Except DecisionParseError HookDecision :=
  let trimmed := Validate.trim line
  if trimmed = [] ∨ trimmed = "\x7b\x7d".toList then .ok .allow
  else
    match serde.fromStr (String.ofList trimmed) with
    | .error e => .error (.malformed e)
    | .ok (.obj []) => .ok .allow
    | .ok (.obj fields) => do
      let action ← ((Json.obj fields).get "action").elim (.error .missingAction) .ok
      let action ← requiredStr "action" action
      ofAction serde (.obj fields) action
    | .ok _ => .error .notAnObject

def parseDecisionLine (serde : Serde) (line : String) : Except ExecutorError HookDecision :=
  (HookDecision.parse serde line).mapError fun e => .decode e.display

end AiMemory.Hooks
