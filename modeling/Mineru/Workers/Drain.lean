import Mineru.Logic.Transition

/-!
# Worker registries and their drains

`RasterWorkers` of `input_prepare.rs` and `OfficeWorkers` of `office_workers.rs` admit jobs, each with
an owner task, and a drain closes the admission and waits for the owners that it took out of the
registry. The first one orders its drains by a gate, the second one does not.

The steps are what happens under the lock of a registry, the end of an owner, and what a drain does
between its awaits. A caller that is abandoned leaves its owner alone, or asks it to end early; an
owner may end at any time here.
-/

set_option autoImplicit false

namespace Mineru.Workers

open Logic

/-- A call of `drain`. -/
inductive Drain where
  | called
  /-- It took the owners out of the registry, and waits for the ones in `left`. -/
  | joining (left : List Nat)
  | returned
  deriving DecidableEq, Repr

/-- The owner that a drain waits for when it joins them in their order. -/
def Drain.first : Drain → Option Nat
  | joining left => left.head?
  | _ => none

/-- A registry with the drains called so far, and the owners: they are numbered as they are admitted,
and recorded when they have finished. -/
structure Registry where
  accepting : Bool
  owners : List Nat
  admitted : Nat
  finished : List Nat
  drains : List Drain
  drainGate : Option Nat

namespace Registry

def start : Registry := ⟨true, [], 0, [], [], none⟩

/-- The owners that have finished leave the registry. -/
def reap (s : Registry) : Registry :=
  { s with owners := s.owners.filter fun owner => owner ∉ s.finished }

/-- A job is admitted: its owner is spawned and registered. -/
def spawn (s : Registry) : Registry :=
  { s with owners := s.owners ++ [s.admitted], admitted := s.admitted + 1 }

/-- A drain closes the admission and takes the owners. -/
def take (s : Registry) (d : Nat) : Registry :=
  { s with accepting := false, owners := [], drains := s.drains.set d (.joining s.owners) }

end Registry

inductive Action where
  | submit
  | reap
  | finish (owner : Nat)
  | drain
  | take (d : Nat)
  | join (d : Nat) (owner : Nat)
  | ret (d : Nat)
  deriving DecidableEq, Repr

inductive Reply where
  | done
  | admitted
  | draining
  deriving DecidableEq, Repr

/-- What both registries do alike: an owner ends, or a drain is called or joins an owner. -/
def common (s : Registry) : Action → Option (Registry × Reply)
  | .finish owner =>
    if owner < s.admitted ∧ owner ∉ s.finished then
      some ({ s with finished := owner :: s.finished }, .done)
    else none
  | .drain => some ({ s with drains := s.drains ++ [.called] }, .done)
  | .join d owner => match s.drains[d]? with
    | some (.joining left) =>
      if owner ∈ left ∧ owner ∈ s.finished then
        some ({ s with drains := s.drains.set d (.joining (left.erase owner)) }, .done)
      else none
    | _ => none
  | _ => none

namespace RasterWorkers

/-- `submit` reaps first, in a step of its own; a drain holds the gate until it returns, and joins its
owners in their order. -/
def step (s : Registry) : Action → Option (Registry × Reply)
  | .submit => some (if s.accepting then (s.spawn, .admitted) else (s, .draining))
  | .reap => some (s.reap, .done)
  | .take d =>
    if s.drains[d]? = some .called ∧ s.drainGate = none then
      some ({ s.take d with drainGate := some d }, .done)
    else none
  | .join d owner =>
    if s.drains[d]?.bind Drain.first = some owner then common s (.join d owner) else none
  | .ret d =>
    if s.drains[d]? = some (.joining []) then
      some ({ s with drains := s.drains.set d .returned, drainGate := none }, .done)
    else none
  | a => common s a

def machine : Machine Registry Action Reply where
  start := .start
  step := step

end RasterWorkers

namespace OfficeWorkers

/-- `convert_inner` reaps and admits under one lock; a drain joins its owners as they end. -/
def step (s : Registry) : Action → Option (Registry × Reply)
  | .submit => some (if s.accepting then (s.reap.spawn, .admitted) else (s.reap, .draining))
  | .reap => none
  | .take d => if s.drains[d]? = some .called then some (s.take d, .done) else none
  | .ret d =>
    if s.drains[d]? = some (.joining []) then
      some ({ s with drains := s.drains.set d .returned }, .done)
    else none
  | a => common s a

def machine : Machine Registry Action Reply where
  start := .start
  step := step

/-- A drain takes the registry only when the owners that earlier drains took have finished. -/
def ordered (s : Registry) : Action → Bool
  | .take _ => s.drains.all fun drain => match drain with
    | .joining left => left.all fun owner => owner ∈ s.finished
    | _ => true
  | _ => true

end OfficeWorkers

end Mineru.Workers
