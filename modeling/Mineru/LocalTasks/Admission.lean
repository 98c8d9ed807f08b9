import Mineru.LocalTasks.Requests
import Mineru.Logic.Table

/-!
# Admission of local tasks

`submit` and `file_parse` of `vlm_api.rs`. Both reap, reserve a slot, read the form and hand the work
to a worker. The reservation drops the records that are past retention, and then as many finished ones
as it takes to get a slot, the oldest first. A slot is held by everything that holds its record, so
dropping a record that is being read frees none.

Each function here is what one request does; an `Instant` is a number.
-/

set_option autoImplicit false

namespace Mineru.LocalTasks

open Logic

/-- A record with the time of its end, and the readers that hold it beside the map. -/
structure Record where
  state : TaskState Unit
  terminalAt : Nat
  readers : Nat

/-- The records, the free slots, the next number, and the async tasks that have exited since the last
reaper pass; `open_` is false when the worker registry was taken. -/
structure Tasks where
  records : Table Nat Record
  available : Nat
  nextId : Nat
  exited : List Nat
  open_ : Bool

namespace Tasks

def expired (retention now : Nat) (r : Record) : Bool :=
  r.state.isTerminal && retention ≤ now - r.terminalAt

/-- The slot of a record that leaves the map is free when nobody reads it. -/
def freed (r : Record) : Nat := if r.readers = 0 then 1 else 0

/-- `remove_expired`. -/
def removeExpired (s : Tasks) (retention now : Nat) : Tasks :=
  { s with
    records := s.records.keep fun _ r => !expired retention now r
    available := s.available +
      s.records.total fun _ r => if expired retention now r then freed r else 0 }

/-- `min_by_key` of the finished records by their end. -/
def oldestOf : List (Nat × Record) → Option (Nat × Record)
  | [] => none
  | (id, r) :: rest =>
    if r.state.isTerminal then
      match oldestOf rest with
      | none => some (id, r)
      | some other => if r.terminalAt ≤ other.2.terminalAt then some (id, r) else some other
    else oldestOf rest

theorem oldestOf_mem {rows : List (Nat × Record)} {found : Nat × Record}
    (h : oldestOf rows = some found) : found ∈ rows := by
  induction rows with
  | nil => cases h
  | cons row rest ih =>
    unfold oldestOf at h
    split at h
    · split at h
      · cases h
        exact List.mem_cons_self
      · rename_i other later
        split at h
        · cases h
          exact List.mem_cons_self
        · cases h
          exact List.mem_cons_of_mem _ (ih later)
    · exact List.mem_cons_of_mem _ (ih h)

def evict (s : Tasks) (id : Nat) (r : Record) : Tasks :=
  { s with records := s.records.remove id, available := s.available + freed r }

/-- The loop of `reserve`: the state with the slot taken, or without one. -/
def reserveLoop (s : Tasks) : Tasks × Bool :=
  if 0 < s.available then ({ s with available := s.available - 1 }, true)
  else
    match _found : oldestOf s.records.rows with
    | some (id, r) => reserveLoop (s.evict id r)
    | none => (s, false)
termination_by s.records.size
decreasing_by
  have there := Table.mem_rows.mp (oldestOf_mem _found)
  have less := Table.total_remove there fun _ _ => 1
  rw [← Table.size_eq_total, ← Table.size_eq_total] at less
  show (s.records.remove id).size < s.records.size
  omega

def reserve (s : Tasks) (retention now : Nat) : Tasks × Bool :=
  (s.removeExpired retention now).reserveLoop

/-- What a reaper pass makes of the record of an exited task. -/
def reaped (sanitize : String → String) (now : Nat) (r : Record) : Record :=
  if r.state.isTerminal then r
  else { r with state := .failed (sanitize terminated) r.state.startedAt, terminalAt := now }

/-- `reap_workers`. -/
def reapWorkers (s : Tasks) (sanitize : String → String) (now : Nat) : Tasks :=
  { s with
    records := s.exited.foldl (fun records id => match records.get id with
      | some r => records.set id (reaped sanitize now r)
      | none => records) s.records
    exited := [] }

/-- The slot of a request is free again. -/
def release (s : Tasks) : Tasks := { s with available := s.available + 1 }

end Tasks

/-- What the service is asked, apart from the contents of the form: whether the deadline fits into an
`Instant`, the rejection of a body that is no form, and what reading the form gives. -/
structure Post where
  deadlineFits : Bool
  rejection : Option (Nat × String)
  form : Except (Nat × String) Unit

inductive Answer where
  | accepted (id : Nat)
  | running
  | error (status : Nat) (message : String)

def Answer.isError : Answer → Bool
  | error _ _ => true
  | _ => false

namespace Tasks

variable (sanitize : String → String) (retention now : Nat)

/-- What both endpoints do up to the form: the slot is held when there is no answer yet. -/
def admission (s : Tasks) (post : Post) : Tasks × Option Answer :=
  if ¬ post.deadlineFits then (s, some (.error 408 deadlineExpired))
  else match post.rejection with
    | some (status, message) => (s, some (.error status message))
    | none =>
      match (s.reapWorkers sanitize now).reserve retention now with
      | (s, false) => (s, some (.error 503 "task capacity is full"))
      | (s, true) => match post.form with
        | .error (status, message) => (s.release, some (.error status message))
        | .ok _ => (s, none)

def shuttingDown : String := "task service is shutting down"

/-- `submit`. -/
def submit (s : Tasks) (post : Post) : Tasks × Answer :=
  match admission sanitize retention now s post with
  | (s, some answer) => (s, answer)
  | (s, none) =>
    let id := s.nextId
    let s := { s with nextId := s.nextId + 1, records := s.records.set id ⟨.pending, now, 0⟩ }
    if s.open_ then (s, .accepted id)
    else
      ({ s with records := s.records.set id ⟨.failed (sanitize shuttingDown) none, now, 0⟩ },
        .error 503 shuttingDown)

/-- `file_parse`. -/
def fileParse (s : Tasks) (post : Post) : Tasks × Answer :=
  match admission sanitize retention now s post with
  | (s, some answer) => (s, answer)
  | (s, none) => if s.open_ then (s, .running) else (s.release, .error 503 shuttingDown)

end Tasks

end Mineru.LocalTasks
