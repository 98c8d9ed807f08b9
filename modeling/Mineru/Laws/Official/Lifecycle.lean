import Mineru.Laws.Official.Handlers

/-!
# The life of a job

A record is fresh, or in progress under the runner, or settled, and it goes from one to the next and
never back. `JobsInv` says so of every record of a reachable state. From it come the two results on
jobs: what a terminal job says about its files, and what a cancellation does to the rest of a run.

The invariant is kept for each party on its own: by the first section of a request
(`firstSection_opened`), by a later section of a handler (`JobsInv.handled`), by a turn of the
runner (`JobsInv.ran`) and by the collection of reservations (`JobsInv.collect`). What a turn may do
to a record is `Touched` in every case, so that the phases are looked at once.

The order of the turns is arbitrary. Nothing is said here of turns that have to come.
-/

set_option autoImplicit false

namespace Mineru.Official

open Logic

/-- The runner is not past the start of the job. -/
def Idle (runner : Runner) (id : Id) : Prop :=
  ∀ run, runner = .running run → run.job = id → run.pc.started = false

inductive Phase (stopping : Bool) (runner : Runner) (id : Id) (r : JobRecord) : Prop where
  | fresh (h : Fresh r) (idle : Idle runner id)
  | running (run : Run) (at_ : runner = .running run) (job : run.job = id)
    (started : run.pc.started = true) (h : Progress stopping r run)
  | settled (h : Settled stopping r) (idle : Idle runner id)

namespace Phase

variable {stopping : Bool} {runner runner' : Runner} {id : Id} {r r' : JobRecord}

/-- The phase of a record depends on the runner only through the run that it is in. -/
theorem congr (h : Phase stopping runner id r)
    (same : ∀ run, runner' = .running run ↔ runner = .running run) :
    Phase stopping runner' id r := by
  cases h with
  | fresh h idle => exact .fresh h fun run at_ => idle run ((same run).mp at_)
  | running run at_ job started h => exact .running run ((same run).mpr at_) job started h
  | settled h idle => exact .settled h fun run at_ => idle run ((same run).mp at_)

/-- A raised flag lets every record be where it is. -/
theorem stop (h : Phase stopping runner id r) {stopping' : Bool}
    (le : stopping = true → stopping' = true) : Phase stopping' runner id r := by
  cases stopping' with
  | false =>
    cases stopping with
    | false => exact h
    | true => exact absurd (le rfl) Bool.false_ne_true
  | true =>
    cases h with
    | fresh h idle => exact .fresh h idle
    | running run at_ job started h => exact .running run at_ job started h.stop
    | settled h idle => exact .settled h.stop idle

/-- The runner goes from one state outside the jobs to another. -/
theorem outside (h : Phase stopping runner id r)
    (before : ∀ run, runner = .running run → run.pc.started = false)
    (after : ∀ run, runner' = .running run → run.pc.started = false) :
    Phase stopping runner' id r := by
  cases h with
  | fresh h idle => exact .fresh h fun run at_ _ => after run at_
  | running run at_ job started h =>
    rw [before run at_] at started
    cases started
  | settled h idle => exact .settled h fun run at_ _ => after run at_

/-- A change of a record that a handler may make keeps its phase. -/
theorem touched {env : Env} {now : Nat} (h : Phase stopping runner id r)
    (touch : Touched env now r r') : Phase stopping runner id r' := by
  cases touch with
  | settle queued =>
    cases h with
    | fresh h idle | settled h idle => exact .settled (cancelQueued_settled r env now stopping) idle
    | running run at_ job started h =>
      have status := h.status
      rw [queued] at status
      cases status
  | flag live =>
    cases h with
    | fresh h idle => exact .fresh h.cancel idle
    | running run at_ job started h => exact .running run at_ job started h.cancel
    | settled h idle =>
      have terminal := h.terminal
      rw [live] at terminal
      cases terminal

/-- A terminal record is settled, and the runner is not at it. -/
theorem of_terminal (h : Phase stopping runner id r) (terminal : r.response.status.terminal = true) :
    Settled stopping r ∧ Idle runner id := by
  cases h with
  | fresh h | running run at_ job started h => rw [h.status] at terminal; cases terminal
  | settled h idle => exact ⟨h, idle⟩

end Phase

theorem Touched.shape {env : Env} {now : Nat} {r r' : JobRecord} (h : Touched env now r r')
    (shape : Shape r) : Shape r' := by
  have flagged : Shape { r with cancel := true } :=
    ⟨shape.nonempty, shape.total, shape.completed, shape.failed⟩
  cases h with
  | settle queued => exact flagged.cancelQueued env now
  | flag live => exact flagged

/-! ## Sections of the runner -/

/-- Every record is in shape and in one of the phases. -/
structure Orderly (j : Jobs) : Prop where
  records : ∀ id r, j.record id = some r → Shape r ∧ Phase j.stopping j.runner id r
  zero : ∀ run, j.runner = .running run → run.pc.started = false →
    run.successes = 0 ∧ run.failures = 0 ∧ run.index = 0

/-- A run at its start takes a queued job up, and leaves any other one alone. -/
theorem RunTurn.at_start {env : Env} {s s' : Shared} {run : Run} {r : JobRecord}
    {next : Option Run} (turn : RunTurn env s run r s' next) (pc : run.pc = .start) :
    (r.response.status ≠ .queued ∧ s' = s ∧ next = none) ∨
    (r.response.status = .queued ∧
      s' = s.setRecord run.job { r with
        cancel := r.cancel || s.jobs.stopping
        response := { r.response with status := .running, startedAt := some s.store.now } } ∧
      next = some { run with files := r.files, pc := .loopHead }) := by
  cases turn with
  | skip _ notQueued => exact .inl ⟨notQueued, rfl, rfl⟩
  | start _ queued => exact .inr ⟨queued, rfl, rfl⟩
  | work _ works => rw [pc] at works; cases works
  | abort aborts => rw [pc] at aborts; cases aborts
  | fail fails => rw [pc] at fails; cases fails
  | enter other | leave other | markRunning other | late _ other | parsed _ other
  | take _ _ _ other | name _ _ _ _ _ other | publish _ _ _ other | count _ other
  | mark _ _ other | markLast _ _ other | finalize other => rw [pc] at other; cases other

/-- Every section of the runner on a job takes its record forward, and leaves a terminal one. -/
theorem RunTurn.advance {env : Env} {s s' : Shared} {run : Run} {r : JobRecord}
    {next : Option Run} (turn : RunTurn env s run r s' next) (h : Orderly s.jobs)
    (at_ : s.jobs.runner = .running run) (pc : run.pc ≠ .lookup)
    (found : s.jobs.record run.job = some r) :
    ∃ r', Forward s s' run r next r' ∧
      (r.response.status.terminal = true → next = none ∧ r' = r) := by
  obtain ⟨shape, phase⟩ := h.records run.job r found
  have atStart : run.pc.started = false → run.pc = .start := by
    intro idle
    generalize run.pc = before at idle pc
    cases before with
    | start => rfl
    | lookup => exact absurd rfl pc
    | _ => cases idle
  cases phase with
  | running run' is job started progress =>
    obtain rfl : run = run' := Runner.running.inj (at_.symm.trans is)
    obtain ⟨r', forward⟩ := turn.forward found shape started progress
    refine ⟨r', forward, fun terminal => ?_⟩
    rw [progress.status] at terminal
    cases terminal
  | settled settled idle =>
    rcases turn.at_start (atStart (idle run at_ rfl)) with ⟨-, rfl, rfl⟩ | ⟨queued, -, -⟩
    · exact ⟨r, ⟨.same found rfl, rfl, shape, .inl rfl, settled⟩, fun _ => ⟨rfl, rfl⟩⟩
    · have terminal := settled.terminal
      rw [queued] at terminal
      cases terminal
  | fresh fresh idle =>
    have notStarted := idle run at_ rfl
    rcases turn.at_start (atStart notStarted) with ⟨other, -, -⟩ | ⟨-, rfl, rfl⟩
    · exact absurd fresh.status other
    · have started : Progress s.jobs.stopping _ _ := .start fresh s.store.now
        (h.zero run at_ notStarted) shape.nonempty
      refine ⟨_, ⟨.set found rfl, setRecord_stopping _ _ _,
        ⟨shape.nonempty, shape.total, shape.completed, shape.failed⟩, .inr rfl, rfl, rfl, started⟩,
        fun terminal => ?_⟩
      rw [fresh.status] at terminal
      cases terminal

/-- The runner moves outside the jobs. -/
theorem Orderly.outside {j : Jobs} (h : Orderly j) (runner : Runner) (queue : List Id)
    (notify : Notify) (before : ∀ run, j.runner = .running run → run.pc.started = false)
    (after : ∀ run, runner = .running run → run.pc.started = false ∧
      run.successes = 0 ∧ run.failures = 0 ∧ run.index = 0) :
    Orderly { j with runner, queue, notify } where
  records id r found := by
    obtain ⟨shape, phase⟩ := h.records id r found
    exact ⟨shape, phase.outside before fun run at_ => (after run at_).1⟩
  zero run at_ _ := (after run at_).2

/-- The runner does not clear the flag. -/
theorem RunnerTurn.stopping {env : Env} {s s' : Shared} (turn : RunnerTurn env s s')
    (h : Orderly s.jobs) : s'.jobs.stopping = s.jobs.stopping := by
  cases turn with
  | job run r s' next at_ pc found turn =>
    obtain ⟨r', forward, -⟩ := turn.advance h at_ pc found
    exact forward.stopping
  | _ => rfl

/-- A turn of the runner keeps the order of the phases for all records. -/
theorem RunnerTurn.orderly {env : Env} {s s' : Shared} (turn : RunnerTurn env s s')
    (h : Orderly s.jobs) : Orderly s'.jobs := by
  cases turn with
  | arm at_ | empty seen at_ | leave seen at_ | wait seen at_ | permit seen at_ | register at_
  | called seen at_ | woken at_ => exact h.outside _ _ _ (by simp [at_]) (by simp)
  | pop seen id queue at_ first =>
    refine h.outside _ _ _ (by simp [at_]) fun run is => ?_
    cases is
    exact ⟨rfl, rfl, rfl, rfl⟩
  | missed run at_ pc missing =>
    refine h.outside _ _ _ (fun run' is => ?_) (by simp)
    rw [at_] at is
    cases is
    rw [pc]
    rfl
  | looked run r at_ pc found =>
    have notStarted : run.pc.started = false := by rw [pc]; rfl
    refine h.outside _ _ _ (fun run' is => ?_) fun run' is => ?_
    · rw [at_] at is
      cases is
      exact notStarted
    · cases is
      exact ⟨rfl, h.zero run at_ notStarted⟩
  | job run r s' next at_ pc found turn =>
    obtain ⟨r', forward, -⟩ := turn.advance h at_ pc found
    have ends := forward.ends
    have others : ∀ run', (next.map Runner.running).getD .top = .running run' →
        run'.job = run.job ∧ run'.pc.started = true := by
      intro run' is
      cases next with
      | none => cases is
      | some run'' =>
        cases is
        exact ⟨ends.1, ends.2.1⟩
    constructor
    · intro id r'' there
      change s'.jobs.record id = some r'' at there
      rcases forward.writes id r'' there with ⟨rfl, rfl⟩ | ⟨other, old⟩
      · refine ⟨forward.shape, ?_⟩
        show Phase s'.jobs.stopping _ _ _
        rw [forward.stopping]
        cases next with
        | none => exact .settled ends fun run is => by cases is
        | some run' => exact .running run' rfl ends.1 ends.2.1 ends.2.2
      · obtain ⟨shape, phase⟩ := h.records id r'' old
        refine ⟨shape, ?_⟩
        have idle : Idle ((next.map Runner.running).getD .top) id := fun run' is job =>
          absurd (job.symm.trans (others run' is).1) other
        show Phase s'.jobs.stopping _ _ _
        rw [forward.stopping]
        cases phase with
        | fresh h _ => exact .fresh h idle
        | running run' is job started _ =>
          rw [at_] at is
          cases is
          exact absurd job.symm other
        | settled h _ => exact .settled h idle
    · intro run' is notStarted
      rw [(others run' is).2] at notStarted
      cases notStarted

/-! ## Turns -/

/-- What the handlers have prepared is sound. -/
def Prepared (s : Service) : Prop :=
  ∀ i t pc, s.tasks.get i = some t → t.next = some pc → pc.Sound s.shared.jobs.stopping

theorem Prepared.congr {s s' : Service} (tasks : s'.tasks = s.tasks)
    (stopping : s'.shared.jobs.stopping = s.shared.jobs.stopping) (h : Prepared s) :
    Prepared s' := by
  intro i t pc found next
  rw [tasks] at found
  rw [stopping]
  exact h i t pc found next

/-- What a turn of anything but the runner does to the jobs. -/
structure Handled (env : Env) (s s' : Service) (reply : Reply) : Prop where
  runner : ∀ run, s'.shared.jobs.runner = .running run ↔ s.shared.jobs.runner = .running run
  stopping : s.shared.jobs.stopping = true → s'.shared.jobs.stopping = true
  records : ∀ id r', s'.shared.jobs.record id = some r' →
    s.shared.jobs.record id = some r' ∨
    (∃ i n, s.tasks.get i = some ⟨[], some (.job (.prepareCommit n r'))⟩ ∧ id = .job n) ∨
    ∃ r, s.shared.jobs.record id = some r ∧ Touched env s.shared.store.now r r' ∧
      (reply = .canceled id ∨
        ∃ i ids shutdown, s.tasks.get i = some ⟨[], some (.job (.stopMark ids shutdown))⟩)
  prepared : Prepared s → Prepared s'

theorem prepareStart_outcome (s : Shared) (req : Submission) (slot : Bool) :
    (prepareStart s req slot).state = s ∧
      ∀ next, (prepareStart s req slot).next = some next → next.Sound s.jobs.stopping := by
  unfold prepareStart
  split
  · exact ⟨rfl, fun next is => by cases is⟩
  · split
    · exact ⟨rfl, fun next is => by cases is⟩
    · rename_i valid
      split
      · refine ⟨rfl, fun next is => ?_⟩
        cases is
        exact validate_files valid
      · exact ⟨rfl, fun next is => by cases is⟩

/-- The first section of a request only ever stops the admissions or starts the runner. -/
structure Opened (s : Shared) (o : ServiceOutcome) : Prop where
  runner : ∀ run, o.state.jobs.runner = .running run ↔ s.jobs.runner = .running run
  stopping : s.jobs.stopping = true → o.state.jobs.stopping = true
  records : o.state.jobs.records = s.jobs.records
  sound : ∀ next, o.next = some next → next.Sound o.state.jobs.stopping

theorem Opened.of_same {s : Shared} {o : ServiceOutcome} (jobs : o.state.jobs = s.jobs)
    (sound : ∀ next, o.next = some next → next.Sound s.jobs.stopping) : Opened s o where
  runner run := by rw [jobs]
  stopping h := by rw [jobs]; exact h
  records := by rw [jobs]
  sound next is := by rw [jobs]; exact sound next is

theorem cleanupFirst_opened (s : Shared) (pc : Pc) (sound : pc.Sound s.jobs.stopping) :
    Opened s (cleanupFirst s pc) := by
  refine .of_same rfl fun next is => ?_
  cases is
  exact sound

theorem lookupJob_opened (s : Shared) (id : Id) (pc : JobPc) (sound : pc.Sound s.jobs.stopping) :
    Opened s (liftJob (lookupJob s id pc)) := by
  unfold lookupJob
  split
  · refine .of_same rfl fun next is => ?_
    cases is
    exact sound
  · exact .of_same rfl fun next is => by cases is

theorem createAccepting_opened (s : Shared) (req : UploadCreate) :
    Opened s (liftUpload s (createAccepting s.store req)) := by
  unfold createAccepting
  split
  · exact .of_same rfl fun next is => by cases is; trivial
  · exact .of_same rfl fun next is => by cases is

theorem prepareStart_opened (s : Shared) (req : Submission) (slot : Bool) :
    Opened s (liftJob (prepareStart s req slot)) := by
  obtain ⟨state, sound⟩ := prepareStart_outcome s req slot
  refine .of_same (congrArg Shared.jobs state) fun pc is => ?_
  obtain ⟨next, there, rfl⟩ := Option.map_eq_some_iff.mp is
  exact sound next there

theorem startRunner_opened (s : Shared) : Opened s (liftJob (startRunner s)) := by
  unfold startRunner
  split
  · rename_i notStarted
    refine ⟨fun run => ?_, fun h => h, rfl, fun next is => by cases is; trivial⟩
    rw [notStarted]
    constructor
    · intro at_
      cases at_
    · intro at_
      cases at_
  · exact .of_same rfl fun next is => by cases is

theorem stopFlags_opened (s : Shared) (shutdown : Bool) :
    Opened s (liftJob (stopFlags s shutdown)) where
  runner _ := Iff.rfl
  stopping _ := rfl
  records := rfl
  sound next is := by
    cases is
    rfl

/-- Every first section leaves the jobs as they are, or changes them in a way that keeps the
invariant; what it goes on with is sound. -/
theorem firstSection_opened (s : Shared) (request : Request) :
    Opened s (firstSection s request) := by
  cases request with
  | createUpload req => exact createAccepting_opened s req
  | prepareJob req slot => exact prepareStart_opened s req slot
  | getJob id | cancelJob id => exact lookupJob_opened s id _ trivial
  | start => exact startRunner_opened s
  | stopAdmissions => exact stopFlags_opened s false
  | shutdown => exact stopFlags_opened s true
  | stopStore => exact .of_same rfl fun next is => by cases is
  | getUpload | putUpload | completeUpload | cancelUpload | getFile | deleteFile | fileContent
  | sweep => exact cleanupFirst_opened s _ trivial

/-- A handler's section leaves it a sound task, if what it does to the flag is known. -/
theorem setTask_prepared {s : Service} {shared : Shared} {n i : Nat} {t : Task}
    (le : s.shared.jobs.stopping = true → shared.jobs.stopping = true)
    (sound : Prepared s → ∀ pc, t.next = some pc → pc.Sound shared.jobs.stopping)
    (h : Prepared s) : Prepared (({ s with shared, nextTask := n } : Service).setTask i t) := by
  intro j u pc found next
  rcases setTask_get_some found with ⟨rfl, rfl⟩ | ⟨-, old⟩
  · exact sound h pc next
  · exact (h j u pc old next).mono le

/-- A turn that leaves the jobs alone. -/
theorem Handled.of_same {env : Env} {s s' : Service} {reply : Reply}
    (jobs : s'.shared.jobs = s.shared.jobs) (prepared : Prepared s → Prepared s') :
    Handled env s s' reply where
  runner run := by rw [jobs]
  stopping h := by rw [jobs]; exact h
  records id r' found := by
    rw [jobs] at found
    exact .inl found
  prepared := prepared

/-- A turn is one of the runner, or one of the handlers and of what is around them. -/
theorem Turn.handled {env : Env} {s s' : Service} {reply : Reply} (turn : Turn env s s' reply) :
    Handled env s s' reply ∨
      (s'.tasks = s.tasks ∧ reply = .pending ∧ RunnerTurn env s.shared s'.shared) := by
  cases turn with
  | clock | foreign => exact .inl (.of_same rfl (.congr rfl rfl))
  | call request o first =>
    subst first
    have opened := firstSection_opened s.shared request
    refine .inl ⟨opened.runner, opened.stopping, fun id r' found => ?_,
      setTask_prepared opened.stopping fun _ => opened.sound⟩
    left
    rw [setTask_shared] at found
    unfold Jobs.record at found ⊢
    rwa [opened.records] at found
  | drop i t found =>
    exact .inl (.of_same rfl (setTask_prepared id fun h pc next => h i t pc found next))
  | abandon i w data found =>
    refine .inl (.of_same rfl (setTask_prepared id fun h pc next => ?_))
    cases next
    trivial
  | resume i pc input o found run =>
    left
    rcases handlerSection_turn run with ⟨upc, uo, rfl, turn, rfl⟩ | ⟨jpc, jo, rfl, turn, rfl⟩
    · refine .of_same rfl (setTask_prepared id fun _ pc next => ?_)
      obtain ⟨upc', -, rfl⟩ := Option.map_eq_some_iff.mp next
      trivial
    · obtain ⟨runner, stopping⟩ := turn.frame
      have le : s.shared.jobs.stopping = true → jo.state.jobs.stopping = true :=
        fun h => stopping.trans h
      refine ⟨runner, le, fun id r' there => ?_, setTask_prepared le fun h pc next => ?_⟩
      · rcases turn.record there with old | ⟨n, rfl, is⟩ | ⟨r, old, touched, why⟩
        · exact .inl old
        · exact .inr (.inl ⟨i, n, found, is⟩)
        · refine .inr (.inr ⟨r, old, touched, why.imp_right ?_⟩)
          rintro ⟨ids, shutdown, rfl⟩
          exact ⟨i, ids, shutdown, found⟩
      · obtain ⟨jpc', there, rfl⟩ := Option.map_eq_some_iff.mp next
        have sound := turn.sound (h i _ _ found rfl) jpc' there
        exact (show Pc.Sound _ (.job jpc') from sound).mono le
  | run input shared step => exact .inr ⟨rfl, rfl, runnerStep_turn step⟩

/-! ## The invariant -/

structure JobsInv (s : Service) : Prop where
  numbered : Numbered s
  prepared : Prepared s
  orderly : Orderly s.shared.jobs
  taken : ∀ run, s.shared.jobs.runner = .running run → run.pc.started = true → Issued s run.job

theorem jobsInv_start (env : Env) (now : Nat) : JobsInv (service env now).start := by
  have noTask : ∀ i t, (service env now).start.tasks.get i ≠ some t := by
    intro i t found
    cases (Table.get_empty (α := Task) i).symm.trans found
  have noSlot : ∀ id slot, (service env now).start.shared.jobs.records.get id ≠ some slot := by
    intro id slot found
    cases (Table.get_empty (α := JobSlot) id).symm.trans found
  refine ⟨⟨?_, ?_, ?_, trivial⟩, ?_, ⟨?_, ?_⟩, ?_⟩
  · exact fun i t id found => absurd found (noTask i t)
  · exact fun i j t u id found => absurd found (noTask i t)
  · exact fun id slot found => absurd found (noSlot id slot)
  · exact fun i t pc found => absurd found (noTask i t)
  · intro id r found
    obtain ⟨slot, there, -⟩ := record_get.mp found
    exact absurd there (noSlot id slot)
  · intro run at_
    cases at_
  · intro run at_
    cases at_

theorem Issued.record {s : Service} (h : Numbered s) {id : Id} {r : JobRecord}
    (found : s.shared.jobs.record id = some r) : Issued s id := by
  obtain ⟨slot, there, -⟩ := record_get.mp found
  exact h.records id slot there

/-- A prepared record goes under an identifier that was not given out yet. -/
theorem not_issued {s : Service} {i n : Nat} {r : JobRecord}
    (found : s.tasks.get i = some ⟨[], some (.job (.prepareCommit n r))⟩) :
    ¬ Issued s (.job n) := fun issued => issued.2 i _ found rfl

/-- The invariant over a turn of a handler. -/
theorem JobsInv.handled {env : Env} {s s' : Service} {reply : Reply} (h : JobsInv s)
    (handled : Handled env s s' reply) {i : Nat} {before after : Option Id}
    (moves : Moves s s' i before after) : JobsInv s' where
  numbered := by
    apply moves.numbered h.numbered
    cases at_ : s'.shared.jobs.runner with
    | running run =>
      have old := h.numbered.named
      rw [(handled.runner run).mp at_] at old
      exact Runner.Named.mono old moves.issues.grows
    | _ => trivial
  prepared := handled.prepared h.prepared
  orderly := by
    refine ⟨fun id r' found => ?_, fun run at_ => h.orderly.zero run ((handled.runner run).mp at_)⟩
    rcases handled.records id r' found with old | ⟨i, n, there, rfl⟩ | ⟨r, old, touched, -⟩
    · obtain ⟨shape, phase⟩ := h.orderly.records id r' old
      exact ⟨shape, (phase.congr handled.runner).stop handled.stopping⟩
    · obtain ⟨shape, fresh, -⟩ := h.prepared i _ _ there rfl
      refine ⟨shape, .fresh fresh fun run at_ job => ?_⟩
      apply Bool.eq_false_iff.mpr
      intro started
      apply not_issued there
      rw [← job]
      exact h.taken run ((handled.runner run).mp at_) started
    · obtain ⟨shape, phase⟩ := h.orderly.records id r old
      exact ⟨touched.shape shape,
        ((phase.touched touched).congr handled.runner).stop handled.stopping⟩
  taken run at_ started :=
    moves.issued (h.taken run ((handled.runner run).mp at_) started)

/-- The job of a run that the runner is at in the next state was found in this one. -/
theorem RunnerTurn.taken {env : Env} {s s' : Shared} (turn : RunnerTurn env s s')
    (h : Orderly s.jobs) {run : Run} (at_ : s'.jobs.runner = .running run)
    (started : run.pc.started = true) : ∃ r, s.jobs.record run.job = some r := by
  cases turn with
  | pop | looked => cases at_; cases started
  | job run' r s'' next before pc found turn =>
    obtain ⟨r', forward, -⟩ := turn.advance h before pc found
    have ends := forward.ends
    cases next with
    | none => cases at_
    | some run'' =>
      cases at_
      rw [ends.1]
      exact ⟨r, found⟩
  | _ => cases at_

/-- The invariant over a turn of the runner. -/
theorem JobsInv.ran {env : Env} {s s' : Service} (h : JobsInv s) (tasks : s'.tasks = s.tasks)
    (turn : RunnerTurn env s.shared s'.shared) {i : Nat} {before after : Option Id}
    (moves : Moves s s' i before after) : JobsInv s' where
  numbered := moves.numbered h.numbered (turn.issues h.numbered.named).2
  prepared := by
    intro j t pc found next
    rw [tasks] at found
    refine (h.prepared j t pc found next).mono fun stopping => ?_
    rw [turn.stopping h.orderly]
    exact stopping
  orderly := turn.orderly h.orderly
  taken run at_ started := by
    obtain ⟨r, found⟩ := turn.taken h.orderly at_ started
    exact moves.issued (.record h.numbered found)

theorem JobsInv.collect {s : Service} (h : JobsInv s) : JobsInv s.collect where
  numbered := ⟨h.numbered.below, h.numbered.once, fun id slot found =>
    h.numbered.records id slot ((collect_records s id slot).mp found).1, h.numbered.named⟩
  prepared := h.prepared
  orderly := by
    refine ⟨fun id r found => ?_, h.orderly.zero⟩
    obtain ⟨slot, there, is⟩ := record_get.mp found
    exact h.orderly.records id r
      (record_get.mpr ⟨slot, ((collect_records s id slot).mp there).1, is⟩)
  taken := h.taken

end Mineru.Official
