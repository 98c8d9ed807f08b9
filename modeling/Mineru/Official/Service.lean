import Mineru.Logic.Transition
import Mineru.Official.Jobs

/-!
# The official service

The whole service as one machine: the handlers of all requests in flight (`tasks`), the runner, the
clock, and the shared state they work on. An action lets the clock advance, calls a handler, resumes
a handler or the runner for one section, or gives up a handler whose client went away.

A section may move values out of the shared state. They are dropped in a step of their own after
it, as the code drops them after it released its lock; a file that a response still streams is such
a value. After every action `collect` lets go of the records and the reservations that nothing
refers to any more, which is what dropping the last clone of an `Arc` does.
-/

set_option autoImplicit false

namespace Mineru.Official

open Logic

/-! ## Handlers -/

inductive Request where
  | createUpload (req : UploadCreate)
  | getUpload (id : Id)
  | putUpload (id : Id) (contentLength : Option Nat)
  | completeUpload (id : Id) (digest : Option Text)
  | cancelUpload (id : Id)
  | getFile (id : Id)
  | deleteFile (id : Id)
  | fileContent (id : Id)
  | prepareJob (req : Submission) (slot : Bool)
  | getJob (id : Id)
  | cancelJob (id : Id)
  | sweep
  | start
  | stopAdmissions
  | stopStore
  | shutdown

inductive Pc where
  | upload (pc : UploadPc)
  | job (pc : JobPc)

def Pc.refs : Pc → Cells
  | upload pc => pc.refs
  | job pc => pc.refs

def Pc.holds : Pc → List Id
  | upload _ => []
  | job pc => pc.holds

/-- A handler in flight: what it has to drop before it goes on, and its next section (`none` when
it has returned). -/
structure Task where
  dropping : Cells
  next : Option Pc

def Task.refs (t : Task) : Cells := t.dropping ++ (t.next.map Pc.refs).getD []

def Task.holds (t : Task) : List Id := (t.next.map Pc.holds).getD []

structure Service where
  shared : Shared
  tasks : Table Nat Task
  nextTask : Nat

abbrev ServiceOutcome := Outcome Shared Pc

def liftUpload (s : Shared) (o : UploadOutcome) : ServiceOutcome :=
  ⟨{ s with store := o.state }, o.next.map .upload, o.dropped, o.reply⟩

def liftJob (o : JobOutcome) : ServiceOutcome := ⟨o.state, o.next.map .job, o.dropped, o.reply⟩

/-! ## Owners -/

def Publication.refs (p : Publication) : Cells := [p.metadata, p.budget]

def RunPc.refs : RunPc → Cells
  | naming p | publishCommit p => p.refs
  | _ => []

/-- What the runner refers to, beside its record. -/
def Runner.refs : Runner → Cells
  | running run => preparedRefs run.files ++ run.pc.refs
  | _ => []

/-- The record that the runner holds. -/
def Runner.holds : Runner → List Id
  | running run => match run.pc with
    | .lookup => []
    | _ => [run.job]
  | _ => []

def recordRefs (records : Table Id JobSlot) : Cells := records.rows.flatMap fun e => e.2.record.refs

def taskRefs (tasks : Table Nat Task) : Cells := tasks.rows.flatMap fun e => e.2.refs

/-- The records that a handler or the runner holds. -/
def held (tasks : Table Nat Task) (runner : Runner) (id : Id) : Bool :=
  decide (id ∈ runner.holds ++ tasks.rows.flatMap fun e => e.2.holds)

def Service.refs (s : Service) : Cells :=
  entryRefs s.shared.store.entries ++ recordRefs s.shared.jobs.records ++ taskRefs s.tasks ++
    s.shared.jobs.runner.refs

/-- The records that are neither listed nor held go away. -/
def Service.dropRecords (s : Service) : Service :=
  { s with
    shared := { s.shared with
      jobs := { s.shared.jobs with
        records := s.shared.jobs.records.keep fun id slot =>
          slot.listed || held s.tasks s.shared.jobs.runner id } } }

/-- The reservations that nothing refers to are released. -/
def Service.releaseCells (s : Service) : Service :=
  { s with
    shared := { s.shared with
      store := { s.shared.store with
        ledger := s.shared.store.ledger.collect fun c => decide (c ∈ s.refs) } } }

def Service.collect (s : Service) : Service := s.dropRecords.releaseCells

/-! ## The service's own operations -/

/-- The section of `cleanup_expired` over the jobs; `held` are the jobs with another clone. -/
def sweepJobs (s : Shared) (held : Id → Bool) : JobOutcome :=
  let kept := fun id (slot : JobSlot) => !slot.listed || held id ||
    !slot.record.response.status.terminal || slot.record.expiry.all (s.store.now < ·)
  .answer { s with jobs := { s.jobs with records := s.jobs.records.keep kept } } [] .done

/-- The section of `stop_admissions` under the admission lock. -/
def stopFlags (s : Shared) (shutdown : Bool) : JobOutcome :=
  .goto { store := s.store.stopAdmissions, jobs := { s.jobs with stopping := true } }
    (.stopJobs shutdown)

/-- `stop_admissions` marks the unfinished jobs whose mutex it gets, and then wakes the runner. -/
def stopMark (s : Shared) (ids : List Id) (shutdown locked : Bool) : JobOutcome :=
  match ids with
  | [] => .goto { s with jobs := s.jobs.notifyWaiters } (.stopCancelNotify shutdown)
  | id :: ids =>
    match s.jobs.record id with
    | none => .goto s (.stopMark ids shutdown)
    | some r =>
      if locked && !r.response.status.terminal then
        .goto (s.setRecord id { r with cancel := true }) (.stopMark ids shutdown)
      else .goto s (.stopMark ids shutdown)

/-- The end of `stop_admissions`, and what `shutdown` does next. -/
def stopCancelNotify (s : Shared) (shutdown : Bool) : JobOutcome :=
  let s := { s with jobs := { s.jobs with cancelCalls := s.jobs.cancelCalls + 1 } }
  if shutdown then .goto s .takeRunner else .answer s [] .done

/-- `shutdown` takes the handle of the runner, if nobody took it before. -/
def takeRunner (s : Shared) : JobOutcome :=
  if s.jobs.handle then .goto { s with jobs := { s.jobs with handle := false } } .awaitRunner
  else .goto s .shutdownParser

def awaitRunner (s : Shared) : Option JobOutcome :=
  match s.jobs.runner with
  | .left => some (.goto s .shutdownParser)
  | _ => none

/-- `parser.shutdown`; an error ends the shutdown early. -/
def shutdownParser (s : Shared) (ok : Bool) : JobOutcome :=
  if ok then .goto s .clearJobs else .reject s [] .internal

def clearJobs (s : Shared) : JobOutcome :=
  let records := s.jobs.records.map fun slot => { slot with listed := false }
  .goto { s with jobs := { s.jobs with records } } .clearStore

def clearStore (s : Shared) : JobOutcome :=
  let (store, removed) := s.store.clearRetained
  .answer { s with store } removed .done

/-- `start` spawns the runner once. -/
def startRunner (s : Shared) : JobOutcome :=
  match s.jobs.runner with
  | .notStarted => .goto { s with jobs := { s.jobs with runner := .top } } .setHandle
  | _ => .answer s [] .done

/-- The next section of a handler of jobs, or of the service. -/
def jobSection (env : Env) (s : Shared) (held : Id → Bool) (pc : JobPc) (input : Input) :
    Option JobOutcome :=
  match pc with
  | .prepareMetadata req => some (prepareMetadata s req)
  | .prepareBudget req metadata => some (prepareBudget s req metadata)
  | .prepareSizes req metadata budget rest total =>
    some (prepareSizes env s req metadata budget rest total)
  | .prepareFiles req metadata budget rest files =>
    some (prepareFiles env s req metadata budget rest files)
  | .prepareCommit n record => some (commitJob s n record)
  | .reading id => readJob s id
  | .canceling id => cancelJob env s id
  | .sweepJobs => some (sweepJobs s held)
  | .setHandle => some (.answer { s with jobs := { s.jobs with handle := true } } [] .done)
  | .stopJobs shutdown =>
    let listed := s.jobs.records.keep fun _ slot => slot.listed
    some (.goto s (.stopMark (listed.rows.map Prod.fst) shutdown))
  | .stopMark ids shutdown => some (stopMark s ids shutdown (input = .flag true))
  | .stopCancelNotify shutdown => some (stopCancelNotify s shutdown)
  | .takeRunner => some (takeRunner s)
  | .awaitRunner => awaitRunner s
  | .shutdownParser => some (shutdownParser s (input = .flag true))
  | .clearJobs => some (clearJobs s)
  | .clearStore => some (clearStore s)

def handlerSection (env : Env) (s : Shared) (held : Id → Bool) (pc : Pc) (input : Input) :
    Option ServiceOutcome :=
  match pc with
  | .upload pc => (uploadSection env s.store pc input).map (liftUpload s)
  | .job pc => (jobSection env s held pc input).map liftJob

/-- The first section of a handler that starts with `cleanup_expired`. -/
def cleanupFirst (s : Shared) (next : Pc) : ServiceOutcome :=
  let (store, removed) := s.store.cleanupExpired
  { state := { s with store }, next := some next, dropped := removed, reply := .pending }

/-- The first section of a request. -/
def firstSection (s : Shared) : Request → ServiceOutcome
  | .createUpload req => liftUpload s (createAccepting s.store req)
  | .getUpload id => cleanupFirst s (.upload (.getUpload id))
  | .putUpload id contentLength => cleanupFirst s (.upload (.putAdmit id contentLength))
  | .completeUpload id digest => cleanupFirst s (.upload (.complete id digest))
  | .cancelUpload id => cleanupFirst s (.upload (.cancelUpload id))
  | .getFile id => cleanupFirst s (.upload (.getFile id))
  | .deleteFile id => cleanupFirst s (.upload (.deleteFile id))
  | .fileContent id => cleanupFirst s (.upload (.fileContent id))
  | .prepareJob req slot => liftJob (prepareStart s req slot)
  | .getJob id => liftJob (lookupJob s id (.reading id))
  | .cancelJob id => liftJob (lookupJob s id (.canceling id))
  | .sweep => cleanupFirst s (.job .sweepJobs)
  | .start => liftJob (startRunner s)
  | .stopAdmissions => liftJob (stopFlags s false)
  | .stopStore => liftJob (.answer { s with store := s.store.stopAdmissions } [] .done)
  | .shutdown => liftJob (stopFlags s true)

/-! ## The runner -/

/-- One step of `runner`. -/
def runnerStep (env : Env) (s : Shared) (input : RunInput) : Option Shared :=
  let goto (r : Runner) : Shared := { s with jobs := { s.jobs with runner := r } }
  match s.jobs.runner with
  | .notStarted | .left => none
  | .top => some (goto (.armed s.jobs.notify.calls))
  | .armed seen =>
    match s.jobs.queue with
    | [] => some (goto (.check seen))
    | id :: queue =>
      let run : Run :=
        { job := id, files := [], successes := 0, failures := 0, aggregate := 0, index := 0
          pc := .lookup }
      some { s with jobs := { s.jobs with queue, runner := .running run } }
  | .check seen =>
    some (goto (if s.jobs.stopping ∧ s.jobs.queue = [] then .left else .awaiting seen))
  | .awaiting seen =>
    if s.jobs.notify.permit then
      let notify := { s.jobs.notify with permit := false }
      some { s with jobs := { s.jobs with notify, runner := .top } }
    else if s.jobs.notify.calls = seen then some (goto (.registered false))
    else some (goto .top)
  | .registered woken => if woken then some (goto .top) else none
  | .running run =>
    (runStep env s run input).map fun (s, next) =>
      { s with jobs := { s.jobs with runner := (next.map Runner.running).getD .top } }

/-! ## The machine -/

inductive Action where
  | tick (seconds : Nat)
  | foreignId
  | call (request : Request)
  | resume (task : Nat) (input : Input)
  | abandon (task : Nat)
  | run (input : RunInput)

/-- A handler goes on, or is gone when it has returned and has nothing to drop. -/
def Service.setTask (s : Service) (i : Nat) (t : Task) : Service :=
  { s with
    tasks := match t.next, t.dropping with
      | none, [] => s.tasks.remove i
      | _, _ => s.tasks.set i t }

/-- A section of handler `i` ends. -/
def Service.finish (s : Service) (i : Nat) (o : ServiceOutcome) : Service × Reply :=
  (({ s with shared := o.state } : Service).setTask i ⟨o.dropped, o.next⟩, o.reply)

/-- The handler resumes: it drops what it moved out, or runs its next section. -/
def Service.resume (env : Env) (s : Service) (i : Nat) (input : Input) :
    Option (Service × Reply) :=
  match s.tasks.get i with
  | none => none
  | some t =>
    match t.dropping, t.next with
    | [], none => none
    | [], some pc =>
      (handlerSection env s.shared (held (s.tasks.remove i) s.shared.jobs.runner) pc input).map
        (s.finish i)
    | _ :: _, _ => some (s.setTask i { t with dropping := [] }, .pending)

/-- The client of a `put` goes away while the handler awaits the next chunk. -/
def Service.abandon (s : Service) (i : Nat) : Option (Service × Reply) :=
  match s.tasks.get i with
  | some ⟨[], some (.upload (.receiving w _))⟩ =>
    some (s.setTask i ⟨[], some (.upload (.failing w none))⟩, .pending)
  | _ => none

/-- An action, before what nothing refers to is let go. -/
def Service.act (env : Env) (s : Service) : Action → Option (Service × Reply)
  | .tick seconds =>
    let store := { s.shared.store with now := s.shared.store.now + seconds }
    some ({ s with shared := { s.shared with store } }, .pending)
  | .foreignId =>
    some ({ s with shared := { s.shared with store := s.shared.store.takeId } }, .pending)
  | .call request =>
    some (({ s with nextTask := s.nextTask + 1 } : Service).finish s.nextTask
      (firstSection s.shared request))
  | .resume i input => s.resume env i input
  | .abandon i => s.abandon i
  | .run input =>
    (runnerStep env s.shared input).map fun shared => ({ s with shared }, .pending)

/-- The service from the start of its clock on. -/
def service (env : Env) (now : Nat) : Machine Service Action Reply where
  start := { shared := ⟨.empty now, .empty⟩, tasks := ∅, nextTask := 0 }
  step s a := (s.act env a).map fun (s, r) => (s.collect, r)

end Mineru.Official
