import AiMemory.Http.Approvals

/-!
# The identity of an MCP caller

`resolve_agent_id` takes the id that the caller names, then that of the environment, and then makes one up from the
client's name, the host and the process.
-/

namespace AiMemory

namespace Mcp

/-- The environment variables, the host name as the system reports it, and the process. -/
structure Process where
  envAgentId : Option String := none
  envAnonymize : Option String := none
  hostname : String
  pid : ℕ
  shortUuid : String

def Process.anonymizeDefaultEnabled (p : Process) : Bool :=
  match p.envAnonymize with
  | none => false
  | some v => ["1", "true", "yes", "on"].contains (toAsciiLowercase (String.ofList (Validate.trim v)))

/-- `process_discriminator`. -/
def Process.discriminator (p : Process) : String := s!"pid-{p.pid}-{p.shortUuid}"

def Process.hostnameOpt (p : Process) : Option String :=
  let s := Validate.trim p.hostname
  if s = [] then none else some (String.ofList s)

/-- The loop of `sanitize_component`: a run of other characters becomes one dash. -/
def sanitizeLoop : Bool → List Char → List Char
  | _, [] => []
  | lastDash, c :: cs =>
    if c.isAlphanum ∨ c = '_' ∨ c = '-' ∨ c = '.' then c :: sanitizeLoop false cs
    else if !lastDash then '-' :: sanitizeLoop true cs
    else sanitizeLoop lastDash cs

def sanitizeComponent (input : String) : String :=
  let out := (sanitizeLoop false input.toList).dropWhile (· = '-')
  String.ofList (out.reverse.dropWhile (· = '-')).reverse

def validId (id : String) : Except String String :=
  match Validate.validateAgentId id with
  | .ok () => .ok id
  | .error error => .error error

/-- The id made up from the host, unless it is to stay unnamed. -/
def Process.hostId (p : Process) : Except String String :=
  let anonymous := validId s!"anonymous:{p.discriminator}"
  if p.anonymizeDefaultEnabled then anonymous
  else
    match p.hostnameOpt with
    | none => anonymous
    | some host =>
      let host := sanitizeComponent host
      if host = "" then anonymous
      else
        match validId s!"host:{host}:{p.discriminator}" with
        | .ok id => .ok id
        | .error _ => anonymous

def Process.resolveAgentId (p : Process) (explicit mcpClient : Option String) : Except String String :=
  match explicit.filter (· ≠ "") with
  | some id => validId id
  | none =>
    match p.envAgentId.filter (· ≠ "") with
    | some id => validId id
    | none =>
      match mcpClient.filter (· ≠ "") with
      | none => p.hostId
      | some client =>
        let host := (p.hostnameOpt.map sanitizeComponent).getD "unknown"
        match validId s!"ai:{sanitizeComponent client}@{host}:pid-{p.pid}" with
        | .ok id => .ok id
        | .error _ => p.hostId

end Mcp

end AiMemory
