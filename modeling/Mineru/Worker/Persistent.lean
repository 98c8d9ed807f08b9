import Mineru.Logic.Transition
import Mineru.Worker.Protocol

/-!
# The owner of the persistent worker

`persistent_owner_loop` with `execute_persistent_request`, `handshake` and `request`, as one machine:
the owner stands at one of its suspension points, and the worker may emit any bytes, close its output
and exit at any moment. An operation may be cut off at each suspension point, by a cancel, the
deadline or a shutdown.

The log, newest first, is what an observer of the owner sees; it does not influence the run.
-/

set_option autoImplicit false

namespace Mineru.Worker

open Logic

/-- `PersistentCommand`. -/
structure Command where
  requestId : Text
  deriving DecidableEq, Repr

/-- A `PersistentChild`; `serial` numbers the children of a run. -/
structure Child where
  serial : Nat
  sequence : Nat
  recentRequestIds : List Text
  /-- The bytes that the worker emitted and that are not read. -/
  stdout : Bytes
  closed : Bool
  exited : Bool
  deriving DecidableEq, Repr

def recentRequestCapacity : Nat := 64

/-- `RecentRequestIds::insert`; `none` for an id that is there. -/
def insertRecent (ids : List Text) (id : Text) : Option (List Text) :=
  if id ∈ ids then none
  else some ((if ids.length = recentRequestCapacity then ids.tail else ids) ++ [id])

/-- What a request is answered. -/
inductive Answer where
  | ok
  | document (error : Text)
  | dead (failure : Failure)
  deriving DecidableEq, Repr

/-- What an observer of the owner sees: a session is started, a request of it begins, its frame is
written, a frame is read, and a request is answered. -/
inductive Obs where
  | started (serial : Nat)
  | began (serial : Nat) (requestId : Text) (sequence : Nat)
  | wrote (serial : Nat)
  | read (serial : Nat) (bytes : Bytes)
  | answered (requestId : Text) (answer : Answer)
  deriving DecidableEq, Repr

/-- Where the owner is. -/
inductive Pc where
  | idle
  | spawning (c : Command)
  | startWrite (c : Command)
  | startRead (c : Command) (frame : Bytes)
  | startFlush (c : Command) (bytes : Bytes)
  | requestWrite (c : Command) (sequence : Nat)
  | requestRead (c : Command) (sequence : Nat) (frame : Bytes)
  | requestFlush (c : Command) (sequence : Nat) (bytes : Bytes)
  | stopped
  deriving DecidableEq, Repr

structure Owner where
  pc : Pc
  queue : List Command
  shutdown : Bool
  child : Option Child
  spawned : Nat
  log : List Obs
  deriving Repr

namespace Owner

def start : Owner where
  pc := .idle
  queue := []
  shutdown := false
  child := none
  spawned := 0
  log := []

/-- The command that the owner works on, while it may be cut off. -/
def current (s : Owner) : Option Command :=
  match s.pc with
  | .spawning c => some c
  | .startWrite c => some c
  | .startRead c _ => some c
  | .startFlush c _ => some c
  | .requestWrite c _ => some c
  | .requestRead c _ _ => some c
  | .requestFlush c _ _ => some c
  | _ => none

/-- `PersistentFailure::Dead`: the session is taken and shut down. -/
def dead (s : Owner) (c : Command) (failure : Failure) : Owner :=
  { s with
    pc := .idle
    child := none
    log := .answered c.requestId (.dead failure) :: s.log }

/-- The beginning of `request`. -/
def beginRequest (s : Owner) (child : Child) (c : Command) : Owner :=
  if child.exited then s.dead c .exitedBefore
  else if c.requestId = [] then s.dead c .emptyId
  else match insertRecent child.recentRequestIds c.requestId with
    | none => s.dead c .repeatedId
    | some recentRequestIds =>
      { s with
        pc := .requestWrite c child.sequence
        child := some { child with recentRequestIds }
        log := .began child.serial c.requestId child.sequence :: s.log }

/-- A command is received; a session that there is already is used again. -/
def receive (s : Owner) (c : Command) (queue : List Command) : Owner :=
  match s.child with
  | some child => beginRequest { s with queue } child c
  | none => { s with queue, pc := .spawning c }

/-- `PersistentChild::spawn`. -/
def spawn (s : Owner) (c : Command) : Owner :=
  { s with
    pc := .startWrite c
    child := some {
      serial := s.spawned
      sequence := 1
      recentRequestIds := []
      stdout := []
      closed := false
      exited := false }
    spawned := s.spawned + 1
    log := .started s.spawned :: s.log }

/-- The handshake frame was read and the diagnostics are flushed. -/
def finishStart (p : Protocol) (s : Owner) (child : Child) (c : Command) (bytes : Bytes) : Owner :=
  match judgeHandshake p bytes with
  | .error failure => s.dead c failure
  | .ok _ => s.beginRequest child c

/-- The result frame was read and the diagnostics are flushed. -/
def finishRequest (p : Protocol) (s : Owner) (child : Child) (c : Command) (sequence : Nat)
    (bytes : Bytes) : Owner :=
  match judgeResult p c.requestId sequence bytes with
  | .error failure => s.dead c failure
  | .ok frame =>
    if child.exited then s.dead c .exitedAfter
    else
      let answer := if frame.status = text "error" then
          .document (frame.error.getD (text "official persistent document failed"))
        else .ok
      { s with
        pc := .idle
        child := some { child with sequence := min (child.sequence + 1) (2 ^ 64 - 1) }
        log := .answered c.requestId answer :: s.log }

end Owner

/-- What cuts off an operation. -/
inductive Interrupt where
  | cancelled
  | shuttingDown
  | deadline
  | io (message : String)
  deriving DecidableEq, Repr

def Interrupt.failure : Interrupt → Failure
  | cancelled => .cancelled
  | shuttingDown => .shuttingDown
  | deadline => .deadline
  | io message => .io message

inductive Action where
  | submit (c : Command)
  | requestShutdown
  | emit (bytes : Bytes)
  | close
  | exit
  | receive
  | stop
  | spawnFailed (message : String)
  | spawn
  | written
  | fill (size : Nat)
  | flushed
  | interrupt (why : Interrupt)
  deriving DecidableEq, Repr

namespace Owner

/-- A frame was written, unless it is too large. -/
def written (p : Protocol) (s : Owner) (child : Child) : Option Owner :=
  match s.pc with
  | .startWrite c =>
    some (if p.startFrame.length + 1 > requestCap then s.dead c .tooLarge
      else { s with pc := .startRead c [] })
  | .requestWrite c sequence =>
    some (if (p.requestFrame c.requestId sequence).length + 1 > requestCap then s.dead c .tooLarge
      else { s with
        pc := .requestRead c sequence []
        log := .wrote child.serial :: s.log })
  | _ => none

/-- `fill_buf` returns: the next bytes, or none at the end of the output. -/
def fill (s : Owner) (child : Child) (size : Nat) : Option Owner :=
  let available := child.stdout.take size
  let later := child.stdout.drop size
  match s.pc with
  | .startRead c frame =>
    if available = [] then
      if child.closed ∧ child.stdout = [] then
        some (s.dead c (if frame = [] then .eof else .noNewline))
      else none
    else some (match readChunk frame available later with
      | .failed failure => s.dead c failure
      | .part frame rest =>
        { s with pc := .startRead c frame, child := some { child with stdout := rest } }
      | .whole frame rest =>
        { s with pc := .startFlush c frame, child := some { child with stdout := rest } })
  | .requestRead c sequence frame =>
    if available = [] then
      if child.closed ∧ child.stdout = [] then
        some (s.dead c (if frame = [] then .eof else .noNewline))
      else none
    else some (match readChunk frame available later with
      | .failed failure => s.dead c failure
      | .part frame rest =>
        { s with pc := .requestRead c sequence frame, child := some { child with stdout := rest } }
      | .whole frame rest =>
        { s with
          pc := .requestFlush c sequence frame
          child := some { child with stdout := rest }
          log := .read child.serial frame :: s.log })
  | _ => none

/-- The diagnostics are flushed, and the frame is judged. -/
def flushed (p : Protocol) (s : Owner) (child : Child) : Option Owner :=
  match s.pc with
  | .startFlush c bytes => some (s.finishStart p child c bytes)
  | .requestFlush c sequence bytes => some (s.finishRequest p child c sequence bytes)
  | _ => none

def step (p : Protocol) (s : Owner) : Action → Option Owner
  | .submit c => if s.queue = [] then some { s with queue := [c] } else none
  | .requestShutdown => some { s with shutdown := true }
  | .emit bytes => s.child.map fun child =>
    if child.closed then s
    else { s with child := some { child with stdout := child.stdout ++ bytes } }
  | .close => s.child.map fun child => { s with child := some { child with closed := true } }
  | .exit => s.child.map fun child =>
    { s with child := some { child with exited := true } }
  | .receive => match s.pc, s.queue with
    | .idle, c :: queue => some (s.receive c queue)
    | _, _ => none
  | .stop =>
    if s.pc = .idle ∧ s.shutdown then some { s with pc := .stopped, child := none } else none
  | .spawnFailed message => match s.pc with
    | .spawning c => some (s.dead c (.unavailable message))
    | _ => none
  | .spawn => match s.pc with
    | .spawning c => some (s.spawn c)
    | _ => none
  | .written => s.child.bind fun child => s.written p child
  | .fill size => s.child.bind fun child => s.fill child size
  | .flushed => s.child.bind fun child => s.flushed p child
  | .interrupt why =>
    if why = .shuttingDown ∧ s.shutdown = false then none
    else s.child.bind fun _ => s.current.map fun c => s.dead c why.failure

end Owner

/-- The owner of a protocol, with its worker. -/
def persistent (p : Protocol) : Machine Owner Action Unit where
  start := .start
  step s a := (s.step p a).map fun s => (s, ())

end Mineru.Worker
