import Mineru.Laws.Official.Uploads

/-!
# What the runner is told

A job that is committed calls `notify_one`, and the end of the admissions calls `notify_waiters`.
`Awake` says that no call is lost: a runner past its look at the queue has been called for every job
that came after it, and one that waits has an empty queue before it. While the flag `stopping` is
set, such a runner has been called for that too, or the call is still to come.

`Notify` is modelled as the runtime documents it: one permit, which `notify_one` stores when nobody
waits, and a count of the calls of `notify_waiters`, which a future that was made before compares
with. The runner makes its future before it looks at the queue, and this order is what the proof
rests on (`Awake.ran`).

That a runner which has been called goes on is a matter of fairness, and is not said here.
-/

set_option autoImplicit false

namespace Mineru.Official

open Logic

/-! ## Calls to come -/

/-- A handler of `stop_admissions` that has set the flags and not called `notify_waiters` yet. -/
def JobPc.announces : JobPc → Bool
  | .stopJobs _ | .stopMark _ _ => true
  | _ => false

def Task.Announces (t : Task) : Prop := ∃ pc, t.next = some (.job pc) ∧ pc.announces = true

def Announced (s : Service) : Prop := ∃ i t, s.tasks.get i = some t ∧ t.Announces

theorem Announced.congr {s s' : Service} (h : Announced s) (tasks : s'.tasks = s.tasks) :
    Announced s' := by
  obtain ⟨i, t, found, announces⟩ := h
  exact ⟨i, t, tasks ▸ found, announces⟩

theorem announced_here {s : Service} {i : Nat} {t : Task} (announces : t.Announces) :
    Announced (s.setTask i t) := by
  refine ⟨i, t, ?_, announces⟩
  obtain ⟨pc, next, -⟩ := announces
  rw [setTask_get, if_pos rfl, if_neg]
  rw [next]
  exact fun none => Bool.false_ne_true none.1

/-- The call is still to come if the handler that goes on had not to make it, or still has. -/
theorem Announced.setTask {s : Service} {shared : Shared} {n i : Nat} {t : Task}
    (h : Announced s) (goes : ∀ u, s.tasks.get i = some u → u.Announces → t.Announces) :
    Announced (({ s with shared, nextTask := n } : Service).setTask i t) := by
  obtain ⟨j, u, found, announces⟩ := h
  by_cases same : j = i
  · subst same
    exact announced_here (goes u found announces)
  · refine ⟨j, u, ?_, announces⟩
    rw [setTask_get, if_neg same]
    exact found

/-! ## Signals -/

/-- The runner, its queue and its `Notify` are the same. -/
structure SameSignals (j j' : Jobs) : Prop where
  runner : j'.runner = j.runner
  queue : j'.queue = j.queue
  notify : j'.notify = j.notify

theorem SameSignals.refl (j : Jobs) : SameSignals j j := ⟨rfl, rfl, rfl⟩

theorem SameSignals.setRecord {j j' : Jobs} (h : SameSignals j j') (id : Id) (r : JobRecord) :
    SameSignals j (j'.setRecord id r) := by
  unfold Jobs.setRecord
  split
  · exact ⟨h.runner, h.queue, h.notify⟩
  · exact h

/-- What `notify_one` does depends on the runner and on the `Notify` only. -/
theorem notifyOne_congr {j k : Jobs} (runner : k.runner = j.runner) (notify : k.notify = j.notify) :
    k.notifyOne.runner = j.notifyOne.runner ∧ k.notifyOne.notify = j.notifyOne.notify := by
  unfold Jobs.notifyOne
  rw [runner, notify]
  split <;> exact ⟨rfl, rfl⟩

theorem notifyOne_queue (j : Jobs) : j.notifyOne.queue = j.queue := by
  unfold Jobs.notifyOne
  split <;> rfl

/-- A section of a handler of jobs commits a job, makes the call, or gives no signal. -/
inductive JobSignals (j : Jobs) (pc : JobPc) (o : JobOutcome) : Prop where
  | quiet (same : SameSignals j o.state.jobs)
    (announces : pc.announces = true → ∃ next, o.next = some next ∧ next.announces = true)
  | committed (n : Nat) (record : JobRecord) (at_ : pc = .prepareCommit n record)
    (runner : o.state.jobs.runner = j.notifyOne.runner)
    (notify : o.state.jobs.notify = j.notifyOne.notify)
    (queue : o.state.jobs.queue = j.queue ++ [.job n]) (running : j.stopping = false)
    (there : o.state.jobs.record (.job n) = some record)
  | called (runner : o.state.jobs.runner = j.notifyWaiters.runner)
    (notify : o.state.jobs.notify = j.notifyWaiters.notify) (queue : o.state.jobs.queue = j.queue)

theorem JobTurn.signals {env : Env} {s : Shared} {held : Id → Bool} {pc : JobPc} {o : JobOutcome}
    (turn : JobTurn env s held pc o) (moves : pc.announces = true → o.next.isSome = true) :
    JobSignals s.jobs pc o := by
  have counted : SameSignals s.jobs { s.jobs with cancelCalls := s.jobs.cancelCalls + 1 } :=
    ⟨rfl, rfl, rfl⟩
  cases turn with
  | refuse pc dropped e ended =>
    exact .quiet (.refl _) fun announces => absurd (moves announces) Bool.false_ne_true
  | commit n record running =>
    obtain ⟨runner, notify⟩ := notifyOne_congr (j := s.jobs) (k := { s.jobs with
      records := s.jobs.records.set (.job n) ⟨record, true⟩
      queue := s.jobs.queue ++ [.job n]
      jobsCreated := s.jobs.jobsCreated + 1 }) rfl rfl
    refine .committed n record rfl runner notify (notifyOne_queue _) running ?_
    refine record_get.mpr ⟨⟨record, true⟩, ?_, rfl⟩
    exact (congrArg (Table.get · _) (notifyOne_records _)).trans
      ((Table.get_set _ _ _ _).trans (if_pos rfl))
  | cancelQueued | cancelRunning => exact .quiet (counted.setRecord _ _) nofun
  | stopList | stopSkip => exact .quiet (.refl _) fun _ => ⟨_, rfl, rfl⟩
  | stopMark id ids shutdown r found live =>
    exact .quiet ((SameSignals.refl _).setRecord _ _) fun _ => ⟨_, rfl, rfl⟩
  | stopWake shutdown => exact .called rfl rfl rfl
  | _ => exact .quiet ⟨rfl, rfl, rfl⟩ nofun

/-- A handler that is to call `notify_waiters` gets there. -/
theorem announces_goes {env : Env} {s : Shared} {held : Id → Bool} {pc : JobPc} {input : Input}
    {o : JobOutcome} (run : jobSection env s held pc input = some o)
    (announces : pc.announces = true) : o.next.isSome = true := by
  cases pc with
  | stopJobs shutdown =>
    cases run
    rfl
  | stopMark ids shutdown =>
    cases run
    cases ids with
    | nil => rfl
    | cons id ids =>
      unfold stopMark
      dsimp only
      split
      · rfl
      · split <;> rfl
  | _ => cases announces

/-- What a turn of anything but the runner tells the runner. -/
inductive Heard (s s' : Service) : Prop where
  | quiet (same : SameSignals s.shared.jobs s'.shared.jobs)
    (stays : s.shared.jobs.stopping = true → s'.shared.jobs.stopping = true)
    (flag : s'.shared.jobs.stopping = true → s.shared.jobs.stopping = true ∨ Announced s')
    (keeps : Announced s → Announced s')
  | started (before : s.shared.jobs.runner = .notStarted)
    (after : s'.shared.jobs.runner = .top) (queue : s'.shared.jobs.queue = s.shared.jobs.queue)
  | committed (n : Nat) (record : JobRecord)
    (at_ : ∃ i, s.tasks.get i = some ⟨[], some (.job (.prepareCommit n record))⟩)
    (runner : s'.shared.jobs.runner = s.shared.jobs.notifyOne.runner)
    (notify : s'.shared.jobs.notify = s.shared.jobs.notifyOne.notify)
    (queue : s'.shared.jobs.queue = s.shared.jobs.queue ++ [.job n])
    (running : s.shared.jobs.stopping = false)
    (there : s'.shared.jobs.record (.job n) = some record)
  | called (runner : s'.shared.jobs.runner = s.shared.jobs.notifyWaiters.runner)
    (notify : s'.shared.jobs.notify = s.shared.jobs.notifyWaiters.notify)
    (queue : s'.shared.jobs.queue = s.shared.jobs.queue)
    (stopping : s'.shared.jobs.stopping = s.shared.jobs.stopping)

/-- The first section of a request starts the runner, sets the flags, or gives no signal. -/
theorem firstSection_signals (s : Shared) (request : Request) :
    (s.jobs.runner = .notStarted ∧ (firstSection s request).state.jobs.runner = .top ∧
      (firstSection s request).state.jobs.queue = s.jobs.queue) ∨
    (SameSignals s.jobs (firstSection s request).state.jobs ∧
      ((firstSection s request).state.jobs.stopping = s.jobs.stopping ∨
        ∃ shutdown, (firstSection s request).next = some (.job (.stopJobs shutdown)))) := by
  cases request with
  | createUpload req =>
    refine .inr ⟨.refl _, .inl ?_⟩
    rfl
  | prepareJob req slot =>
    have same := (prepareStart_outcome s req slot).1
    change _ ∨ (SameSignals s.jobs (prepareStart s req slot).state.jobs ∧
      ((prepareStart s req slot).state.jobs.stopping = _ ∨ _))
    rw [same]
    exact .inr ⟨.refl _, .inl rfl⟩
  | getJob | cancelJob =>
    simp only [firstSection, lookupJob]
    split <;> exact .inr ⟨.refl _, .inl rfl⟩
  | start =>
    simp only [firstSection, startRunner]
    split
    · rename_i notStarted
      exact .inl ⟨notStarted, rfl, rfl⟩
    · exact .inr ⟨.refl _, .inl rfl⟩
  | stopAdmissions | shutdown => exact .inr ⟨⟨rfl, rfl, rfl⟩, .inr ⟨_, rfl⟩⟩
  | _ => exact .inr ⟨⟨rfl, rfl, rfl⟩, .inl rfl⟩

/-- An action that does not step the runner tells it something, or nothing. -/
theorem act_heard {env : Env} {s s' : Service} {a : Action} {reply : Reply}
    (act : s.act env a = some (s', reply)) (other : ∀ input, a ≠ .run input)
    (below : ∀ i t, s.tasks.get i = some t → i < s.nextTask) : Heard s s' := by
  cases a with
  | tick | foreignId =>
    cases act
    exact .quiet ⟨rfl, rfl, rfl⟩ id .inl fun h => h.congr rfl
  | call request =>
    cases act
    rcases firstSection_signals s.shared request with ⟨before, after, queue⟩ | ⟨same, flag⟩
    · exact .started before after queue
    · refine .quiet same (firstSection_opened s.shared request).stopping (fun stopping => ?_)
        fun h => h.setTask fun u found => ?_
      · rcases flag with old | ⟨shutdown, next⟩
        · exact .inl (old.symm.trans stopping)
        · exact .inr (announced_here ⟨_, next, rfl⟩)
      · exact absurd (below _ u found) (Nat.lt_irrefl _)
  | resume i input =>
    rcases resume_cases act with ⟨t, found, rfl, rfl⟩ | ⟨pc, o, found, run, rfl, rfl⟩
    · refine .quiet (.refl _) id .inl fun h => h.setTask fun u there announces => ?_
      rw [found] at there
      cases there
      exact announces
    · cases pc with
      | upload pc =>
        obtain ⟨uo, -, rfl⟩ := Option.map_eq_some_iff.mp run
        refine .quiet (.refl _) id .inl fun h => h.setTask fun u there announces => ?_
        rw [found] at there
        cases there
        obtain ⟨pc, next, -⟩ := announces
        cases next
      | job pc =>
        obtain ⟨jo, done, rfl⟩ := Option.map_eq_some_iff.mp run
        have turn := jobSection_turn done
        cases turn.signals (announces_goes done) with
        | quiet same goes =>
          refine .quiet same turn.frame.2.trans
            (fun stopping => .inl (turn.frame.2.symm.trans stopping)) fun h =>
              h.setTask fun u there announces => ?_
          rw [found] at there
          cases there
          obtain ⟨pc, next, announces⟩ := announces
          cases next
          obtain ⟨next, goes, announces⟩ := goes announces
          exact ⟨next, congrArg (Option.map Pc.job) goes, announces⟩
        | committed n record at_ runner notify queue running there =>
          exact .committed n record ⟨i, at_ ▸ found⟩ runner notify queue running there
        | called runner notify queue => exact .called runner notify queue turn.frame.2
  | abandon i =>
    obtain ⟨w, data, found, rfl, rfl⟩ := abandon_cases act
    refine .quiet (.refl _) id .inl fun h => h.setTask fun u there announces => ?_
    rw [found] at there
    cases there
    obtain ⟨pc, next, -⟩ := announces
    cases next
  | run input => exact absurd rfl (other input)

/-- An action is a step of the runner, or tells it something, or nothing. -/
theorem act_cases {env : Env} {s s' : Service} {a : Action} {reply : Reply}
    (act : s.act env a = some (s', reply))
    (below : ∀ i t, s.tasks.get i = some t → i < s.nextTask) :
    (∃ input shared, a = .run input ∧ runnerStep env s.shared input = some shared ∧
      s' = { s with shared }) ∨ ((∀ input, a ≠ .run input) ∧ Heard s s') := by
  by_cases run : ∃ input, a = .run input
  · obtain ⟨input, rfl⟩ := run
    obtain ⟨shared, step, out⟩ := Option.map_eq_some_iff.mp act
    cases out
    exact .inl ⟨input, shared, rfl, step, rfl⟩
  · have other : ∀ input, a ≠ .run input := fun input is => run ⟨input, is⟩
    exact .inr ⟨other, act_heard act other below⟩

/-- `notify_one` wakes a runner that waits, or stores the permit. -/
theorem notifyOne_cases (j : Jobs) :
    (j.runner = .registered false ∧ j.notifyOne.runner = .registered true) ∨
      (j.runner ≠ .registered false ∧ j.notifyOne.runner = j.runner ∧
        j.notifyOne.notify.permit = true) := by
  unfold Jobs.notifyOne
  split
  · rename_i waits
    exact .inl ⟨waits, rfl⟩
  · rename_i other
    exact .inr ⟨other, rfl, rfl⟩

theorem notifyOne_calls (j : Jobs) : j.notifyOne.notify.calls = j.notify.calls := by
  unfold Jobs.notifyOne
  split <;> rfl

/-- `notify_waiters` wakes a runner that waits, and lets any other one be. -/
theorem notifyWaiters_cases (j : Jobs) :
    ((∃ woken, j.runner = .registered woken) ∧ j.notifyWaiters.runner = .registered true) ∨
      ((∀ woken, j.runner ≠ .registered woken) ∧ j.notifyWaiters.runner = j.runner) := by
  unfold Jobs.notifyWaiters
  dsimp only
  split
  · rename_i woken is
    exact .inl ⟨⟨woken, is⟩, rfl⟩
  · rename_i other
    exact .inr ⟨other, rfl⟩

/-! ## The invariant -/

/-- The number of calls that the runner's `Notified` saw. -/
def Runner.seen : Runner → Option Nat
  | armed seen | check seen | awaiting seen => some seen
  | _ => none

/-- A `Notified` from then does not wait. -/
def Jobs.Signalled (j : Jobs) (seen : Nat) : Prop :=
  j.notify.permit = true ∨ seen < j.notify.calls

structure Awake (s : Service) : Prop where
  seen : ∀ seen, s.shared.jobs.runner.seen = some seen → seen ≤ s.shared.jobs.notify.calls
  queued : s.shared.jobs.queue ≠ [] → ∀ seen,
    s.shared.jobs.runner = .check seen ∨ s.shared.jobs.runner = .awaiting seen →
      s.shared.jobs.Signalled seen
  stopping : s.shared.jobs.stopping = true → ∀ seen, s.shared.jobs.runner = .awaiting seen →
    s.shared.jobs.Signalled seen ∨ Announced s
  waits : s.shared.jobs.runner = .registered false →
    s.shared.jobs.notify.permit = false ∧ s.shared.jobs.queue = [] ∧
      (s.shared.jobs.stopping = true → Announced s)
  left : s.shared.jobs.runner = .left → s.shared.jobs.queue = [] ∧ s.shared.jobs.stopping = true

/-- A runner at none of these positions is awake. -/
theorem Awake.of_runner {s : Service} (seen : s.shared.jobs.runner.seen = none)
    (waits : s.shared.jobs.runner ≠ .registered false) (left : s.shared.jobs.runner ≠ .left) :
    Awake s where
  seen n is := by rw [seen] at is; cases is
  queued _ n at_ := by rcases at_ with at_ | at_ <;> (rw [at_] at seen; cases seen)
  stopping _ n at_ := by rw [at_] at seen; cases seen
  waits at_ := absurd at_ waits
  left at_ := absurd at_ left

theorem awake_start (env : Env) (now : Nat) : Awake (service env now).start :=
  .of_runner rfl nofun nofun

theorem Awake.heard {s s' : Service} (h : Awake s) (heard : Heard s s') : Awake s' := by
  cases heard with
  | started before after queue =>
    exact .of_runner (by rw [after]; rfl) (by rw [after]; nofun) (by rw [after]; nofun)
  | quiet same stays flag keeps =>
    obtain ⟨runner, queue, notify⟩ := same
    refine ⟨fun n is => ?_, fun some n at_ => ?_, fun stopping n at_ => ?_, fun at_ => ?_,
      fun at_ => ?_⟩
    · rw [notify]
      rw [runner] at is
      exact h.seen n is
    · unfold Jobs.Signalled
      rw [notify]
      rw [runner] at at_
      rw [queue] at some
      exact h.queued some n at_
    · unfold Jobs.Signalled
      rw [notify]
      rw [runner] at at_
      rcases flag stopping with old | announced
      · exact (h.stopping old n at_).imp_right keeps
      · exact .inr announced
    · rw [runner] at at_
      obtain ⟨permit, empty, told⟩ := h.waits at_
      rw [notify, queue]
      refine ⟨permit, empty, fun stopping => ?_⟩
      rcases flag stopping with old | announced
      · exact keeps (told old)
      · exact announced
    · rw [runner] at at_
      rw [queue]
      exact ⟨(h.left at_).1, stays (h.left at_).2⟩
  | committed n record at_ runner notify queue running =>
    rcases notifyOne_cases s.shared.jobs with ⟨-, woken⟩ | ⟨other, same, permit⟩
    · exact .of_runner (by rw [runner, woken]; rfl) (by rw [runner, woken]; nofun)
        (by rw [runner, woken]; nofun)
    · rw [same] at runner
      have signalled : ∀ n, s'.shared.jobs.Signalled n := fun n =>
        .inl ((congrArg Notify.permit notify).trans permit)
      refine ⟨fun n is => ?_, fun _ n _ => signalled n, fun _ n _ => .inl (signalled n),
        fun at_ => ?_, fun at_ => ?_⟩
      · rw [runner] at is
        rw [notify, notifyOne_calls]
        exact h.seen n is
      · exact absurd (runner.symm.trans at_) other
      · rw [runner] at at_
        rw [(h.left at_).2] at running
        cases running
  | called runner notify queue stopping =>
    have calls : s'.shared.jobs.notify.calls = s.shared.jobs.notify.calls + 1 :=
      congrArg Notify.calls notify
    rcases notifyWaiters_cases s.shared.jobs with ⟨-, woken⟩ | ⟨other, same⟩
    · exact .of_runner (by rw [runner, woken]; rfl) (by rw [runner, woken]; nofun)
        (by rw [runner, woken]; nofun)
    · rw [same] at runner
      have signalled : ∀ n, s'.shared.jobs.runner.seen = some n → s'.shared.jobs.Signalled n := by
        intro n is
        rw [runner] at is
        have le := h.seen n is
        exact .inr (by omega)
      refine ⟨fun n is => ?_, fun _ n at_ => signalled n ?_, fun _ n at_ => .inl (signalled n ?_),
        fun at_ => ?_, fun at_ => ?_⟩
      · rw [runner] at is
        have le := h.seen n is
        omega
      · rcases at_ with at_ | at_ <;> (rw [at_]; rfl)
      · rw [at_]
        rfl
      · exact absurd (runner.symm.trans at_) (other false)
      · rw [runner] at at_
        rw [queue, stopping]
        exact h.left at_

/-- A step of the runner: it waits only after it saw that the queue was empty, and with neither a
permit nor a call since. -/
theorem Awake.ran {env : Env} {s : Service} {shared : Shared} (h : Awake s)
    (turn : RunnerTurn env s.shared shared) : Awake { s with shared } := by
  cases turn with
  | arm at_ =>
    refine ⟨fun n is => ?_, fun _ n at_ => ?_, nofun, nofun, nofun⟩
    · cases is
      exact Nat.le_refl _
    · rcases at_ with at_ | at_ <;> cases at_
  | empty seen at_ none =>
    refine ⟨fun n is => ?_, fun some => absurd none some, nofun, nofun, nofun⟩
    cases is
    exact h.seen seen (by rw [at_]; rfl)
  | leave seen at_ stopping none => exact ⟨nofun, fun some => absurd none some, nofun, nofun,
      fun _ => ⟨none, stopping⟩⟩
  | wait seen at_ stay =>
    have signalled : s.shared.jobs.queue ≠ [] → s.shared.jobs.Signalled seen := fun some =>
      h.queued some seen (.inl at_)
    refine ⟨fun n is => ?_, fun some n at_ => ?_, fun stopping n at_ => ?_, nofun, nofun⟩
    · cases is
      exact h.seen seen (by rw [at_]; rfl)
    · rcases at_ with at_ | at_
      · cases at_
      · cases at_
        exact signalled some
    · cases at_
      exact .inl (signalled fun none => stay ⟨stopping, none⟩)
  | register at_ none =>
    have silent : ¬ s.shared.jobs.Signalled s.shared.jobs.notify.calls := by
      rintro (permit | later)
      · rw [none] at permit
        cases permit
      · exact Nat.lt_irrefl _ later
    refine ⟨nofun, fun _ n at_ => ?_, nofun, fun _ => ⟨none, ?_, fun stopping => ?_⟩, nofun⟩
    · rcases at_ with at_ | at_ <;> cases at_
    · by_contra some
      exact silent (h.queued some _ (.inr at_))
    · exact ((h.stopping stopping _ at_).resolve_left silent).congr rfl
  | pop | permit | called | woken | missed | looked => exact .of_runner rfl nofun nofun
  | job run r s' next at_ pc found turn =>
    cases next with
    | none | some => exact .of_runner rfl nofun nofun

theorem Awake.collect {s : Service} (h : Awake s) : Awake s.collect :=
  ⟨h.seen, h.queued, h.stopping, h.waits, h.left⟩

/-- No call is lost in any run. -/
theorem reachable_awake {env : Env} {now : Nat} {s : Service}
    (reach : (service env now).Reachable s) : Awake s := by
  refine reach.invariant (awake_start env now) fun s a t r reach h step => ?_
  obtain ⟨s₁, act, -, rfl⟩ := step_turn step
  rcases act_cases act (reachable_storeInv reach).tasks with ⟨input, shared, -, ran, rfl⟩ | ⟨-, heard⟩
  · exact (h.ran (runnerStep_turn ran)).collect
  · exact (h.heard heard).collect

/-- The runner never waits for a call that it missed. Waiting, it has an empty queue and no permit
before it, and the flag `stopping` is clear or its call is still to come; about to wait while a job
is queued or the flag is set, it has been called or is still to be; and it only leaves an empty queue
behind a set flag. -/
theorem no_lost_wakeup (env : Env) (now : Nat) {s : Service}
    (reach : (service env now).Reachable s) :
    (s.shared.jobs.runner = .registered false →
      s.shared.jobs.notify.permit = false ∧ s.shared.jobs.queue = [] ∧
        (s.shared.jobs.stopping = true → Announced s)) ∧
    (∀ seen, s.shared.jobs.runner = .awaiting seen →
      (s.shared.jobs.queue ≠ [] → s.shared.jobs.Signalled seen) ∧
      (s.shared.jobs.stopping = true → s.shared.jobs.Signalled seen ∨ Announced s)) ∧
    (s.shared.jobs.runner = .left →
      s.shared.jobs.queue = [] ∧ s.shared.jobs.stopping = true) := by
  have awake := reachable_awake reach
  refine ⟨awake.waits, fun seen at_ => ⟨fun queued => ?_, fun stopping => ?_⟩, awake.left⟩
  · exact awake.queued queued seen (.inr at_)
  · exact awake.stopping stopping seen at_

/-- The runner waits for someone to wake it. -/
def Runner.waits : Runner → Bool
  | registered woken => !woken
  | _ => false

theorem waits_registered {runner : Runner} (waits : runner.waits = true) :
    runner = .registered false := by
  cases runner with
  | registered woken =>
    cases woken with
    | false => rfl
    | true => cases waits
  | _ => cases waits

/-- The runner is started, finds no job and waits. -/
def idled : List Action := .call .start :: List.replicate 4 (.run .go)

/-- The runner waits for a call. -/
theorem no_lost_wakeup_idled : ∃ s, (service smallEnv 0).Reachable s ∧
    s.shared.jobs.runner = .registered false ∧ s.shared.jobs.queue = [] := by
  have ends : ((service smallEnv 0).play (service smallEnv 0).start idled).any
      (fun s => s.shared.jobs.runner.waits) = true := by decide +kernel
  obtain ⟨s, played, waits⟩ := (Option.any_eq_true _ _).mp ends
  have reach := Machine.Reachable.start.play played
  have at_ := waits_registered waits
  exact ⟨s, reach, at_, ((no_lost_wakeup smallEnv 0 reach).1 at_).2.1⟩

end Mineru.Official
