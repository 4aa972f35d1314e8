import AiMemory.Model.Types

/-!
# Hook chains

`hooks/chain.rs`: the hooks of an event in order of priority, each asked in turn, with a payload that earlier hooks may have
rewritten. What comes of a hook is a parameter: the class deadline passes before it is asked, its budget passes while it
is asked, or its executor returns.
-/

namespace AiMemory.Hooks

inductive HookEvent where
  | preStore
  | postStore
  | preRecall
  | postRecall
  | preSearch
  | postSearch
  | preDelete
  | postDelete
  | prePromote
  | postPromote
  | preLink
  | postLink
  | preConsolidate
  | postConsolidate
  | preGovernanceDecision
  | postGovernanceDecision
  | onIndexEviction
  | preArchive
  | preTranscriptStore
  | postTranscriptStore
  | preRecallExpand
  deriving DecidableEq

def isPreEvent : HookEvent → Bool
  | .preStore | .preRecall | .preSearch | .preDelete | .prePromote | .preLink | .preConsolidate
  | .preGovernanceDecision | .preArchive | .preTranscriptStore | .preRecallExpand => true
  | _ => false

inductive FailMode where
  | open
  | closed
  deriving DecidableEq

/-- A `[[hook]]` block; `command` is the path as it is displayed. -/
structure HookConfig where
  event : HookEvent
  command : String
  priority : ℤ
  enabled : Bool
  failMode : FailMode
  deriving DecidableEq

/-! ## Deltas -/

/-- `confidence` is the text of the number. -/
structure MemoryDelta where
  tier : Option Tier := none
  ns : Option String := none
  title : Option String := none
  content : Option String := none
  tags : Option (List String) := none
  priority : Option ℤ := none
  confidence : Option String := none
  source : Option String := none
  expiresAt : Option String := none
  metadata : Option Json := none
  deriving DecidableEq

/-- `MemoryDelta::default()`. -/
def MemoryDelta.empty : MemoryDelta := {}

/-- The fields `serde` writes of a delta. -/
def MemoryDelta.fields (d : MemoryDelta) : List (String × Json) :=
  [("tier", d.tier.map fun t => .str t.asStr), ("namespace", d.ns.map .str), ("title", d.title.map .str),
    ("content", d.content.map .str), ("tags", d.tags.map fun ts => .arr (ts.map .str)),
    ("priority", d.priority.map .int), ("confidence", d.confidence.map .float), ("source", d.source.map .str),
    ("expires_at", d.expiresAt.map .str), ("metadata", d.metadata)].filterMap fun f => f.2.map fun v => (f.1, v)

def insertFields (fs : List (String × Json)) (obj : List (String × Json)) : List (String × Json) :=
  fs.foldl (fun obj f => Json.setField f.1 f.2 obj) obj

def applyDeltaToPayload (payload : Json) (delta : MemoryDelta) : Json :=
  match payload with
  | .obj obj => .obj (insertFields delta.fields obj)
  | _ => .obj (insertFields delta.fields [])

def mergeDeltaInto (acc incoming : MemoryDelta) : MemoryDelta where
  tier := incoming.tier.or acc.tier
  ns := incoming.ns.or acc.ns
  title := incoming.title.or acc.title
  content := incoming.content.or acc.content
  tags := incoming.tags.or acc.tags
  priority := incoming.priority.or acc.priority
  confidence := incoming.confidence.or acc.confidence
  source := incoming.source.or acc.source
  expiresAt := incoming.expiresAt.or acc.expiresAt
  metadata := incoming.metadata.or acc.metadata

/-! ## What a hook answers -/

inductive HookDecision where
  | allow
  | modify (delta : MemoryDelta)
  | deny (reason : String) (code : ℤ)
  | askUser (prompt : String) (options : List String) (default : Option String)
  deriving DecidableEq

def HookDecision.degradeModifyForPostEvent (event : HookEvent) : HookDecision → HookDecision
  | .modify delta => if isPreEvent event then .modify delta else .allow
  | d => d

/-- `io::Error`s are given by their text. -/
inductive ExecutorError where
  | spawn (command source : String)
  | io (e : String)
  | childExit (code : Option ℤ) (stderr : String)
  | decode (reason : String)
  | timeout (ms : ℕ)
  | daemonUnavailable (attempts : ℕ)
  deriving DecidableEq

def ExecutorError.display : ExecutorError → String
  | .spawn command source => "hook spawn failed for " ++ command ++ ": " ++ source
  | .io e => "hook io error: " ++ e
  | .childExit code stderr =>
    "hook child exited (code " ++ (code.map toString).getD "<signaled>" ++ "): " ++
      String.ofList (stderr.toList.take 256)
  | .decode reason => "hook decision decode failed: " ++ reason
  | .timeout ms => "hook timed out after " ++ toString ms ++ "ms"
  | .daemonUnavailable attempts => "hook daemon unavailable after " ++ toString attempts ++ " reconnect attempts"

/-- What comes of a hook. -/
inductive Outcome where
  /-- The class deadline has passed before the hook is asked. -/
  | exhausted
  /-- The budget passes before the executor returns. -/
  | elapsed (budgetMs : ℕ)
  | returned (decision : HookDecision)
  | failed (e : ExecutorError)
  deriving DecidableEq

/-! ## The chain -/

structure AskUserPrompt where
  prompt : String
  options : List String
  default : Option String
  originCommand : String
  deriving DecidableEq

inductive ChainResult where
  | allow
  | modifiedAllow (delta : MemoryDelta)
  | deny (reason : String) (code : ℤ)
  | askUser (queued : List AskUserPrompt)
  deriving DecidableEq

/-- The hooks in order of descending priority; the sort is stable. -/
structure HookChain where
  hooks : List HookConfig

/-- The comparison `b.priority.cmp(&a.priority)`. -/
def priorityDescending (a b : HookConfig) : Bool := b.priority ≤ a.priority

def HookChain.new (hooks : List HookConfig) : HookChain := ⟨hooks.mergeSort priorityDescending⟩

def HookChain.forEvent (allHooks : List HookConfig) (event : HookEvent) : HookChain :=
  ⟨(allHooks.filter fun h => h.enabled && h.event == event).mergeSort priorityDescending⟩

def skippedReason (cfg : HookConfig) : String :=
  "hook " ++ cfg.command ++ " skipped under fail_mode=closed: chain class deadline exhausted"

def erroredReason (cfg : HookConfig) (e : ExecutorError) : String :=
  "hook " ++ cfg.command ++ " errored under fail_mode=closed: " ++ e.display

/-- The accumulators of `fire`. -/
structure Acc where
  payload : Json
  delta : MemoryDelta
  modified : Bool
  queue : List AskUserPrompt

def finish (acc : Acc) : ChainResult :=
  if acc.queue ≠ [] then .askUser acc.queue
  else if acc.modified then .modifiedAllow acc.delta
  else .allow

def accept (cfg : HookConfig) (acc : Acc) : HookDecision → Acc
  | .modify delta =>
    { payload := applyDeltaToPayload acc.payload delta
      delta := mergeDeltaInto acc.delta delta
      modified := true
      queue := [] }
  | .askUser prompt options default => { acc with queue := acc.queue ++ [⟨prompt, options, default, cfg.command⟩] }
  | _ => { acc with queue := [] }

/-- What the executor and the race for the budget return, if the hook is asked. -/
def raced : Outcome → Option (Except ExecutorError HookDecision)
  | .exhausted => none
  | .elapsed budgetMs => some (.error (.timeout budgetMs))
  | .returned decision => some (.ok decision)
  | .failed e => some (.error e)

/-- The decision of a hook that was asked, or the reason and the code of a denial. -/
def decided (event : HookEvent) (cfg : HookConfig) :
    Except ExecutorError HookDecision → Except (String × ℤ) HookDecision
  | .ok (.deny reason code) => .error (reason, code)
  | .ok decision => .ok (decision.degradeModifyForPostEvent event)
  | .error e =>
    match cfg.failMode with
    | .open => .ok .allow
    | .closed => .error (erroredReason cfg e, 503)

/-- The loop of `fire`, with the hooks it asks and the payload each is asked with. -/
def fireLoop (event : HookEvent) (acc : Acc) : List (HookConfig × Outcome) → ChainResult × List (HookConfig × Json)
  | [] => (finish acc, [])
  | (cfg, outcome) :: rest =>
    match raced outcome with
    | none =>
      match cfg.failMode with
      | .open => fireLoop event acc rest
      | .closed => (.deny (skippedReason cfg) 504, [])
    | some fireResult =>
      match decided event cfg fireResult with
      | .error (reason, code) => (.deny reason code, [(cfg, acc.payload)])
      | .ok decision =>
        let (result, asked) := fireLoop event (accept cfg acc decision) rest
        (result, (cfg, acc.payload) :: asked)

namespace HookChain

/-- The hooks with what comes of each, by its place in the chain. -/
def prepared (chain : HookChain) (outcomes : ℕ → Outcome) : List (HookConfig × Outcome) :=
  chain.hooks.zipIdx.map fun h => (h.1, outcomes h.2)

def fire (chain : HookChain) (event : HookEvent) (payload : Json) (outcomes : ℕ → Outcome) :
    ChainResult × List (HookConfig × Json) :=
  fireLoop event ⟨payload, .empty, false, []⟩ (chain.prepared outcomes)

end HookChain

end AiMemory.Hooks
