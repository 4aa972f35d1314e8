import AiMemory.Hooks.Decision
import AiMemory.Lib.Threads
import AiMemory.Lib.Transitions

/-!
# The daemon executor

`DaemonExecutor` of `hooks/executor.rs`: one long-lived child, and fires that take turns on its pipes under a mutex. A fire
writes its envelope as one line and takes the next line of the child as the answer to it. Between any two characters it may
be dropped: by its own deadline, after which it waits for the mutex again to drop the connection, or by the deadline of the
chain, after which it does nothing.

The child answers each line with one line, whatever and whenever it likes. Each character in its standard input carries the
fire that wrote it, so that a reply knows which fire asked. The mutex lets waiting fires in, in any order.
-/

namespace AiMemory.Hooks

open Machine

/-- A line, without the newline. -/
abbrev Line := {l : List Char // '\n' ∉ l}

/-- The two pipes of a child, as far as nobody has read them: characters with the fire that wrote them, and answers. -/
structure DaemonConnection where
  stdin : List (Char × ℕ)
  stdout : List Char

def DaemonConnection.spawned : DaemonConnection := ⟨[], []⟩

/-- What a fire is doing. -/
inductive FirePhase where
  /-- It waits for the mutex. -/
  | waiting
  | connecting
  | writing (rest : List Char)
  | reading (line : List Char)
  /-- Its deadline has passed; it waits for the mutex to drop the connection. -/
  | expired
  | returned (result : Except ExecutorError HookDecision)
  /-- The chain dropped it. -/
  | cancelled

def FirePhase.holds : FirePhase → Bool
  | connecting | writing _ | reading _ => true
  | _ => false

structure Fire where
  event : HookEvent
  payload : Json
  phase : FirePhase

/-- An answer of the child: to which fire, to which line, and what it said. -/
structure Reply where
  fire : ℕ
  line : List Char
  text : Line

/-- The executor: its connection and the holder of the mutex. -/
structure Guarded where
  conn : Option DaemonConnection
  lock : Option ℕ

structure Daemon extends Guarded where
  fires : List Fire
  replies : List Reply

/-- What is fixed: the library, and the deadline of the hook. -/
structure DaemonConfig where
  serde : Serde
  timeoutMs : ℕ

namespace Daemon

def new : Daemon := ⟨⟨none, none⟩, [], []⟩

/-! ## Connecting -/

/-- `connect_with_backoff`, on what each attempt to spawn the child meets. -/
def connectWithBackoff (spawnOne : ℕ → Except ExecutorError Unit) : Except ExecutorError Unit :=
  (List.range 5).foldl (fun result attempt =>
    match result with
    | .ok () => .ok ()
    | .error _ => spawnOne attempt) (.error (.daemonUnavailable 5))

/-! ## One fire -/

def envelope (cfg : DaemonConfig) (f : Fire) : List Char := cfg.serde.toVec f.event f.payload

/-- What happens to a fire. -/
inductive Act where
  /-- The mutex is acquired. -/
  | acquire
  | connect (spawnOne : ℕ → Except ExecutorError Unit)
  /-- `write_all` gets some characters through. -/
  | write (n : ℕ)
  /-- `read_line` gets the next character. -/
  | read
  /-- A read or a write fails. -/
  | ioError (e : String)
  /-- The child has closed its output; `tail` is what it wrote to its error output. -/
  | eof (tail : String)
  /-- The timeout of `fire_inner` elapses. -/
  | deadline
  /-- The connection is dropped after a timeout. -/
  | reset
  /-- The timeout of the chain elapses. -/
  | cancel

def finish (cfg : DaemonConfig) (conn : DaemonConnection) (line : List Char) : Guarded × FirePhase :=
  match parseDecisionLine cfg.serde (String.ofList (line ++ ['\n'])) with
  | .ok decision => (⟨some conn, none⟩, .returned (.ok decision))
  | .error e => (⟨none, none⟩, .returned (.error e))

/-- The next await point of a fire. A step that its phase does not allow does nothing. -/
def advance (cfg : DaemonConfig) (g : Guarded) (i : ℕ) (f : Fire) : Act → Guarded × FirePhase
  | .acquire =>
    match f.phase, g.lock, g.conn with
    | .waiting, none, none => (⟨none, some i⟩, .connecting)
    | .waiting, none, some conn => (⟨some conn, some i⟩, .writing (envelope cfg f ++ ['\n']))
    | phase, _, _ => (g, phase)
  | .connect spawnOne =>
    match f.phase with
    | .connecting =>
      match connectWithBackoff spawnOne with
      | .ok () => (⟨some .spawned, some i⟩, .writing (envelope cfg f ++ ['\n']))
      | .error e => (⟨none, none⟩, .returned (.error e))
    | phase => (g, phase)
  | .write n =>
    match f.phase, g.conn with
    | .writing rest, some conn =>
      (⟨some { conn with stdin := conn.stdin ++ (rest.take n).map fun c => (c, i) }, g.lock⟩,
        if rest.drop n = [] then .reading [] else .writing (rest.drop n))
    | phase, _ => (g, phase)
  | .read =>
    match f.phase, g.conn with
    | .reading line, some ⟨stdin, c :: stdout⟩ =>
      if c = '\n' then finish cfg ⟨stdin, stdout⟩ line
      else (⟨some ⟨stdin, stdout⟩, g.lock⟩, .reading (line ++ [c]))
    | phase, _ => (g, phase)
  | .ioError e =>
    match f.phase with
    | .writing _ | .reading _ => (⟨none, none⟩, .returned (.error (.io e)))
    | phase => (g, phase)
  | .eof tail =>
    match f.phase with
    | .reading [] =>
      (⟨none, none⟩, .returned (.error (.childExit none
        (if tail = "" then "daemon child closed stdout" else "daemon child closed stdout; stderr tail: " ++ tail))))
    | phase => (g, phase)
  | .deadline =>
    match f.phase with
    | .waiting => (g, .expired)
    | .connecting | .writing _ | .reading _ => (⟨g.conn, none⟩, .expired)
    | phase => (g, phase)
  | .reset =>
    match f.phase, g.lock with
    | .expired, none => (⟨none, none⟩, .returned (.error (.timeout cfg.timeoutMs)))
    | phase, _ => (g, phase)
  | .cancel =>
    match f.phase with
    | .waiting | .expired => (g, .cancelled)
    | .connecting | .writing _ | .reading _ => (⟨g.conn, none⟩, .cancelled)
    | phase => (g, phase)

/-! ## Runs -/

def reply (s : Daemon) (text : Line) : Daemon :=
  match s.conn with
  | none => s
  | some conn =>
    match conn.stdin.dropWhile fun c => c.1 ≠ '\n' with
    | [] => s
    | (_, i) :: rest =>
      { s with
        conn := some ⟨rest, conn.stdout ++ text.1 ++ ['\n']⟩
        replies := s.replies ++ [⟨i, (conn.stdin.takeWhile fun c => c.1 ≠ '\n').map Prod.fst, text⟩] }

inductive Op where
  | fire (event : HookEvent) (payload : Json)
  | act (i : ℕ) (a : Act)
  | reply (text : Line)

def step (cfg : DaemonConfig) (s : Daemon) : Op → Daemon
  | .fire event payload => { s with fires := s.fires ++ [⟨event, payload, .waiting⟩] }
  | .act i a =>
    match s.fires[i]? with
    | none => s
    | some f =>
      let (g, phase) := advance cfg s.toGuarded i f a
      ⟨g, s.fires.set i { f with phase := phase }, s.replies⟩
  | .reply text => s.reply text

end Daemon

end AiMemory.Hooks
