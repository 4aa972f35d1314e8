import AiMemory.Lib.HashChain
import AiMemory.Model.Validate

/-!
# The audit log

`audit.rs`: an event a line, each with the hash of the line before it. A process keeps the hash of the last line it read
or wrote and a counter of its own; the file is opened for appending. `serde_json` and `sha2` are the parameters `Crates`.
-/

namespace AiMemory.Audit

def schemaVersion : UInt32 := 1

def chainHeadPrevHash : String := "0000000000000000000000000000000000000000000000000000000000000000"

/-! ## Events -/

structure AuditActor where
  agentId : String
  scope : Option String
  synthesisSource : String
  deriving DecidableEq

inductive AuditAction where
  | recall
  | store
  | update
  | delete
  | link
  | promote
  | forget
  | consolidate
  | «export»
  | «import»
  | approve
  | reject
  | sessionBoot
  deriving DecidableEq

def AuditAction.asStr : AuditAction → String
  | .recall => "recall"
  | .store => "store"
  | .update => "update"
  | .delete => "delete"
  | .link => "link"
  | .promote => "promote"
  | .forget => "forget"
  | .consolidate => "consolidate"
  | .«export» => "export"
  | .«import» => "import"
  | .approve => "approve"
  | .reject => "reject"
  | .sessionBoot => "session_boot"

structure AuditTarget where
  memoryId : String
  ns : String
  title : Option String
  tier : Option String
  scope : Option String
  deriving DecidableEq

inductive AuditOutcome where
  | allow
  | deny
  | error
  | pending
  deriving DecidableEq

def AuditOutcome.name : AuditOutcome → String
  | .allow => "allow"
  | .deny => "deny"
  | .error => "error"
  | .pending => "pending"

structure AuditAuth where
  sourceIp : Option String
  mtlsFp : Option String
  apiKeyIdHash : Option String
  deriving DecidableEq

structure AuditEvent where
  schemaVersion : UInt32
  timestamp : String
  sequence : UInt64
  actor : AuditActor
  action : AuditAction
  target : AuditTarget
  outcome : AuditOutcome
  auth : Option AuditAuth
  sessionId : Option String
  requestId : Option String
  error : Option String
  prevHash : String
  selfHash : String
  deriving DecidableEq

structure EventBuilder where
  action : AuditAction
  actor : AuditActor
  target : AuditTarget
  outcome : AuditOutcome
  auth : Option AuditAuth
  sessionId : Option String
  requestId : Option String
  error : Option String
  deriving DecidableEq

def sanitizeField (s : String) (maxChars : ℕ) : String :=
  let cleaned := s.toList.filter fun c => !Validate.isControl c || c == '\t'
  if cleaned.length ≤ maxChars then String.ofList cleaned else String.ofList (cleaned.take maxChars)

namespace EventBuilder

def new (action : AuditAction) (actor : AuditActor) (target : AuditTarget) : EventBuilder where
  action := action
  actor := actor
  target := target
  outcome := .allow
  auth := none
  sessionId := none
  requestId := none
  error := none

/-- `error`: an error event, with its text cut. -/
def withError (b : EventBuilder) (msg : String) : EventBuilder :=
  { b with error := some (sanitizeField msg 256), outcome := .error }

end EventBuilder

/-! ## Hashes and lines -/

/-- What `serde_json` and `sha2` provide. -/
structure Crates where
  toJson : AuditEvent → String
  fromJson : String → Except String AuditEvent
  sha256Hex : String → String

variable (K : Crates)

def canonicalJsonForHash (ev : AuditEvent) : String := K.toJson { ev with selfHash := "" }

def computeSelfHash (ev : AuditEvent) : String := K.sha256Hex (canonicalJsonForHash K ev)

/-- `BufRead::lines`: a line ends with `\n` or `\r\n`, the last one also with the text. -/
def bufLines : List Char → List (List Char)
  | [] => []
  | '\n' :: cs => [] :: bufLines cs
  | '\r' :: '\n' :: cs => [] :: bufLines cs
  | c :: cs =>
    match bufLines cs with
    | [] => [[c]]
    | line :: lines => (c :: line) :: lines

/-- `trim().is_empty()`. -/
def isBlank (line : List Char) : Bool := line.all Validate.isWhitespace

/-- One line of `read_chain_tail`. -/
def readTailLine (last : Option String) (line : List Char) : Option String :=
  if isBlank line then last
  else
    match K.fromJson (String.ofList line) with
    | .ok ev => some ev.selfHash
    | .error _ => last

/-- `read_chain_tail`: the hash on the last line that can be read. -/
def readChainTail (file : Option String) : Option String :=
  match file with
  | none => none
  | some text => (bufLines text.toList).foldl (readTailLine K) none

/-! ## The writer -/

/-- The sink of a process and its counter. -/
structure Process where
  lastHash : Option String
  sequence : UInt64
  deriving DecidableEq

/-- A process before `init`. -/
def Process.disabled : Process := ⟨none, 0⟩

/-- `init`: the process, and the file it opened. -/
def init (file : Option String) : Process × Option String :=
  (⟨some ((readChainTail K file).getD chainHeadPrevHash), 0⟩, some (file.getD ""))

/-- The event of a builder, under a link and a number, before it is hashed. -/
def unhashedEvent (b : EventBuilder) (now lastHash : String) (sequence : UInt64) : AuditEvent where
  schemaVersion := schemaVersion
  timestamp := now
  sequence := sequence
  actor := b.actor
  action := b.action
  target :=
    { memoryId := sanitizeField b.target.memoryId 128
      ns := sanitizeField b.target.ns 128
      title := b.target.title.map (sanitizeField · 200)
      tier := b.target.tier
      scope := b.target.scope }
  outcome := b.outcome
  auth := b.auth
  sessionId := b.sessionId
  requestId := b.requestId
  error := b.error
  prevHash := lastHash
  selfHash := ""

def buildEvent (b : EventBuilder) (now lastHash : String) (sequence : UInt64) : AuditEvent :=
  let ev := unhashedEvent b now lastHash sequence
  { ev with selfHash := computeSelfHash K ev }

/-- `try_emit`, where `writes` tells whether the append goes through. -/
def tryEmit (p : Process) (file : Option String) (b : EventBuilder) (now : String) (writes : Bool) :
    Process × Option String × Except String Unit :=
  match p.lastHash with
  | none => (p, file, .ok ())
  | some lastHash =>
    let sequence := p.sequence + 1
    let ev := buildEvent K b now lastHash sequence
    if writes then (⟨some ev.selfHash, sequence⟩, some (file.getD "" ++ K.toJson ev ++ "\n"), .ok ())
    else ({ p with sequence }, file, .error "appending audit line")

/-! ## The verifier -/

inductive VerifyFailureKind where
  | parse
  | selfHash
  | chainBreak
  | sequence
  deriving DecidableEq

structure VerifyFailure where
  lineNumber : ℕ
  kind : VerifyFailureKind
  detail : String
  deriving DecidableEq

structure VerifyReport where
  totalLines : ℕ
  firstFailure : Option VerifyFailure
  deriving DecidableEq

/-- The loop of `verify_chain_from_reader`, from a line on. -/
def verifyLines (lineNo total : ℕ) (prevHash : String) (prevSeq : UInt64) : List (List Char) → VerifyReport
  | [] => ⟨total, none⟩
  | line :: lines =>
    if isBlank line then verifyLines (lineNo + 1) total prevHash prevSeq lines
    else
      match K.fromJson (String.ofList line) with
      | .error e => ⟨total + 1, some ⟨lineNo, .parse, "malformed JSON: " ++ e⟩⟩
      | .ok ev =>
        if ev.prevHash ≠ prevHash then
          ⟨total + 1, some ⟨lineNo, .chainBreak,
            "prev_hash mismatch: expected " ++ prevHash ++ ", got " ++ ev.prevHash⟩⟩
        else if ev.sequence ≤ prevSeq ∧ prevSeq ≠ 0 then
          ⟨total + 1, some ⟨lineNo, .sequence,
            "sequence not monotonic: prior=" ++ toString prevSeq ++ ", this=" ++ toString ev.sequence⟩⟩
        else if computeSelfHash K ev ≠ ev.selfHash then
          ⟨total + 1, some ⟨lineNo, .selfHash,
            "self_hash mismatch: stored=" ++ ev.selfHash ++ ", recomputed=" ++ computeSelfHash K ev⟩⟩
        else verifyLines (lineNo + 1) (total + 1) ev.selfHash ev.sequence lines

def verifyChainFromReader (text : String) : VerifyReport :=
  verifyLines K 1 0 chainHeadPrevHash 0 (bufLines text.toList)

def verifyChain (file : Option String) : Except String VerifyReport :=
  match file with
  | none => .error "opening"
  | some text => .ok (verifyChainFromReader K text)

end AiMemory.Audit
