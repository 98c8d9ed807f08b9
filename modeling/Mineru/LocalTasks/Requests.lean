import Mineru.Logic.Transition

/-!
# The requests of the local task service

An accepted request of `vlm_api.rs` has a worker task in the registry of the service. The worker
stores the outcome. A reaper takes the tasks that have exited out of the registry and fails the
requests that they left without an outcome; the shutdown takes the whole registry and does the same.
A sync request has a sender, which whoever completes the request takes first.

The steps are what a party does between two awaits: `fail_record` looks at the state, cleans up
without the lock of the state, and looks again. What the callbacks are told is recorded for each
request, and so are the states of an async one and what is sent to a sync one.
-/

set_option autoImplicit false

namespace Mineru.LocalTasks

open Logic

/-! ## Requests -/

/-- `TaskState`, with the time of the start; the times of the end are left out. -/
inductive TaskState (Result : Type) where
  | pending
  | processing (startedAt : Nat)
  | completed (result : Result) (startedAt : Nat)
  | failed (error : String) (startedAt : Option Nat)

namespace TaskState

variable {Result : Type}

def isTerminal : TaskState Result → Bool
  | pending | processing _ => false
  | completed _ _ | failed _ _ => true

def startedAt : TaskState Result → Option Nat
  | pending => none
  | processing at_ => some at_
  | completed _ at_ => some at_
  | failed _ at_ => at_

end TaskState

/-- `SyncOutcome`; an error comes with its status code. -/
inductive Outcome (Result : Type) where
  | ok (result : Result)
  | error (status : Nat) (message : String)

/-- The events that end a request. -/
inductive Event where
  | requestCompleted
  | requestFailed (message : String)
  deriving DecidableEq, Repr

def Outcome.event {Result : Type} : Outcome Result → Event
  | ok _ => .requestCompleted
  | error _ message => .requestFailed message

/-- How far the worker of a request is. -/
inductive Stage where
  | waiting
  | running (startedAt : Nat)
  /-- `fail_record` cleans up, having seen a state that is not terminal. -/
  | failing (error : String) (startedAt : Option Nat)
  /-- A sync worker cleans up after a panic, with its guard still armed. -/
  | cleaning
  | ended
  | exited
  deriving DecidableEq, Repr

inductive Kind where
  | async
  | sync
  deriving DecidableEq, Repr

structure Request (Result : Type) where
  kind : Kind
  stage : Stage
  state : TaskState Result
  listed : Bool
  sender : Bool
  history : List (TaskState Result)
  sent : List (Outcome Result)
  events : List Event

namespace Request

variable {Result : Type}

def accepted (kind : Kind) : Request Result :=
  ⟨kind, .waiting, .pending, true, true, [.pending], [], []⟩

def setState (r : Request Result) (state : TaskState Result) : Request Result :=
  { r with state, history := r.history ++ [state] }

def emit (r : Request Result) (event : Event) : Request Result :=
  { r with events := r.events ++ [event] }

def goTo (r : Request Result) (stage : Stage) : Request Result := { r with stage }

/-- `SyncCompletion::complete`: only the first one to take the sender does anything. -/
def complete (r : Request Result) (outcome : Outcome Result) : Request Result :=
  if r.sender then
    { r with
      sender := false
      sent := r.sent ++ [outcome]
      events := r.events ++ [outcome.event] }
  else r

/-- The second half of `fail_record`, and the event for it. -/
def storeFailure (r : Request Result) (error : String) (startedAt : Option Nat) : Request Result :=
  if r.state.isTerminal then r
  else (r.setState (.failed error startedAt)).emit (.requestFailed error)

end Request

/-! ## The service -/

/-- A reaper pass: the requests that it has still to look at, and what `fail_record` saw of the first
one when it cleans up after it. -/
structure Pass where
  ids : List Nat
  failing : Option (Option Nat)

inductive Registry where
  | serving (tasks : List Nat)
  | draining (tasks : List Nat)
  | cleared

structure Service (Result : Type) where
  requests : List (Request Result)
  registry : Registry
  passes : List Pass

namespace Service

variable {Result : Type}

def start : Service Result := ⟨[], .serving [], []⟩

def put (s : Service Result) (i : Nat) (r : Request Result) : Service Result :=
  { s with requests := s.requests.set i r }

def hasExited (s : Service Result) (i : Nat) : Bool :=
  (s.requests[i]?).any fun r => r.stage = .exited

/-- No reaper pass has anything left to look at. -/
def idle (s : Service Result) : Bool := s.passes.all fun pass => pass.ids = []

end Service

/-- How the work of a request ends. -/
inductive Ending (Result : Type) where
  | success (result : Result)
  | error (message : String)
  | panic

def panicked : String := "task worker panicked"

def terminated : String := "task worker terminated unexpectedly"

def deadlineExpired : String := "request deadline expired"

/-- The status of a sync request that fails with the error. -/
def failureStatus (message : String) : Nat := if message = deadlineExpired then 408 else 409

section Workers

variable {Result : Type} (sanitize : String → String)

/-- `finish_worker` and `finish_sync_worker`, up to their next await. -/
def finishWorker (r : Request Result) (startedAt : Option Nat) (ending : Ending Result) :
    Request Result :=
  match r.kind, ending with
  | .async, .success result =>
    -- the state is overwritten, whatever it is
    ((r.setState (.completed result (startedAt.getD 0))).emit .requestCompleted).goTo .ended
  | .async, .error message =>
    if r.state.isTerminal then r.goTo .ended
    else r.goTo (.failing message r.state.startedAt)
  | .async, .panic =>
    if r.state.isTerminal then r.goTo .ended
    else r.goTo (.failing panicked r.state.startedAt)
  | .sync, .success result => (r.complete (.ok result)).goTo .ended
  | .sync, .error message =>
    (r.complete (.error (failureStatus message) (sanitize message))).goTo .ended
  | .sync, .panic => r.goTo .cleaning

/-- A step of the worker of a request. -/
inductive Work (Result : Type) where
  /-- It gets its permit at the gate. -/
  | begin_ (startedAt : Nat)
  | finish (ending : Ending Result)
  /-- The cleanup after a failure is done. -/
  | store
  | exit
  /-- The task exits without an outcome. -/
  | lose

def work (r : Request Result) : Work Result → Option (Request Result)
  | .begin_ startedAt => match r.stage, r.kind with
    | .waiting, .async => some ((r.setState (.processing startedAt)).goTo (.running startedAt))
    | .waiting, .sync => some (r.goTo (.running startedAt))
    | _, _ => none
  | .finish ending => match r.stage, ending with
    -- the gate is closed, or the deadline is over
    | .waiting, .error message => some (finishWorker sanitize r none (.error message))
    | .running startedAt, ending => some (finishWorker sanitize r (some startedAt) ending)
    | _, _ => none
  | .store => match r.stage with
    | .failing error startedAt => some ((r.storeFailure (sanitize error) startedAt).goTo .ended)
    | .cleaning => some ((r.complete (.error 409 panicked)).goTo .ended)
    | _ => none
  | .exit => if r.stage = .ended then some (r.goTo .exited) else none
  | .lose => match r.stage with
    | .ended | .exited => none
    | _ => match r.kind with
      | .async => some (r.goTo .exited)
      -- the guard is dropped armed
      | .sync => some ((r.complete (.error 409 terminated)).goTo .exited)

/-! ## Steps of the service -/

inductive Action (Result : Type) where
  | accept (kind : Kind)
  | work (i : Nat) (step : Work Result)
  /-- The record of a finished async request is dropped. -/
  | drop (i : Nat)
  /-- A reaper pass takes the exited tasks out of the registry. -/
  | reap
  /-- A pass looks at its first request. -/
  | inspect (k : Nat)
  /-- The cleanup of a pass is done. -/
  | settle (k : Nat)
  /-- The handlers and the cleanup task are over, and the registry is taken. -/
  | shutdown
  /-- The shutdown joins an exited task. -/
  | joinNext (i : Nat)
  | clear

/-- `inspect_worker_exit` of the first request of a pass, up to its await. -/
def inspect (s : Service Result) (k i : Nat) (rest : List Nat) : Service Result :=
  let next : Service Result := { s with passes := s.passes.set k ⟨rest, none⟩ }
  match s.requests[i]? with
  | none => next
  | some r => match r.kind with
    | .async =>
      if r.listed ∧ ¬ r.state.isTerminal then
        { s with passes := s.passes.set k ⟨i :: rest, some r.state.startedAt⟩ }
      else next
    | .sync => next.put i (r.complete (.error 409 terminated))

def step (s : Service Result) : Action Result → Option (Service Result)
  | .accept kind => match s.registry with
    | .serving tasks =>
      some { s with
        requests := s.requests ++ [.accepted kind]
        registry := .serving (tasks ++ [s.requests.length]) }
    | _ => none
  | .work i w => match s.requests[i]? with
    | some r => (work sanitize r w).map fun r' => { s with requests := s.requests.set i r' }
    | none => none
  | .drop i => match s.requests[i]? with
    | some r => if r.state.isTerminal then some (s.put i { r with listed := false }) else none
    | none => none
  | .reap => match s.registry with
    | .serving tasks =>
      some { s with
        registry := .serving (tasks.filter fun i => !s.hasExited i)
        passes := s.passes ++ [⟨tasks.filter s.hasExited, none⟩] }
    | _ => none
  | .inspect k => match s.passes[k]? with
    | some ⟨i :: rest, none⟩ => some (inspect s k i rest)
    | _ => none
  | .settle k => match s.passes[k]? with
    | some ⟨i :: rest, some startedAt⟩ => match s.requests[i]? with
      | some r =>
        some (Service.put { s with passes := s.passes.set k ⟨rest, none⟩ } i
          (r.storeFailure (sanitize terminated) startedAt))
      | none => none
    | _ => none
  | .shutdown => match s.registry with
    | .serving tasks => if s.idle then some { s with registry := .draining tasks } else none
    | _ => none
  | .joinNext i => match s.registry with
    | .draining tasks =>
      if i ∈ tasks ∧ s.hasExited i ∧ s.idle then
        some { s with registry := .draining (tasks.erase i), passes := [⟨[i], none⟩] }
      else none
    | _ => none
  | .clear => match s.registry with
    | .draining [] =>
      if s.idle then
        some { s with
          registry := .cleared
          requests := s.requests.map fun r => { r with listed := false } }
      else none
    | _ => none

end Workers

def machine (Result : Type) (sanitize : String → String) :
    Machine (Service Result) (Action Result) Unit where
  start := .start
  step s a := (step sanitize s a).map fun t => (t, ())

end Mineru.LocalTasks
