import Mineru.Laws.Official.Runner

/-!
# Every job is popped and ends

The runner is taken again and again, unless it waits for a call or has left, and each time the gate
and the parser have answered. `Runner.rank` goes down with each of its steps until it is back at the
queue, once no cancellation calls it back to the gate any more. So every queued job is popped, by
its place in the queue and the rank, and every unfinished job ends.

Fairness is an assumption about executions (`RunsOn`), as is that cancellations cease
(`CallsCease`); both are used here only. Every step of the service is followed: the runner comes
nearer, is told something, or nothing happens to it (`moment`), and between its steps the rank does
not grow (`Heard.rank`).

A shutdown may clear the table of jobs before a job has ended. The theorem says so, and does not
count this as an end.
-/

set_option autoImplicit false

namespace Mineru.Official

open Logic

variable {env : Env} {now : Nat}

/-! ## Ranks -/

abbrev Rank := ℕ ×ₗ ℕ ×ₗ ℕ ×ₗ ℕ

/-- The sections that the run still takes at its file, at most. A wait at the gate from before the
last call for the cancellations is taken up again. -/
def RunPc.left (calls : Nat) : RunPc → Nat
  | .lookup => 25
  | .start => 24
  | .loopHead => 23
  | .markRunning => 22
  | .gateCheck seen => if seen = calls then 17 else 20
  | .gateWait seen => if seen = calls then 16 else 19
  | .gateArm => 18
  | .admitted => 15
  | .parsing => 14
  | .parsed _ => 13
  | .publishTake _ => 12
  | .naming _ => 11
  | .publishCommit _ => 10
  | .count _ => 9
  | .publishFailed => 8
  | .mark _ _ _ => 7
  | .finalize => 0

/-- The artifacts that are still to be named. -/
def RunPc.unnamed : RunPc → Nat
  | .naming p => p.rest.length
  | _ => 0

def Run.rank (calls : Nat) (run : Run) : Rank :=
  toLex (if run.pc.started then 1 else 2, toLex (run.files.length - run.index,
    toLex (run.pc.left calls, run.pc.unnamed)))

/-- The rank of a runner that is at no job. -/
def Rank.outside (n : Nat) : Rank := toLex (0, toLex (0, toLex (n, 0)))

def Runner.rank (calls : Nat) : Runner → Rank
  | running run => run.rank calls
  | armed _ => .outside 0
  | top => .outside 1
  | registered _ => .outside 2
  | awaiting _ => .outside 3
  | check _ => .outside 4
  | notStarted | left => .outside 5

theorem Rank.outside_lt {m n : Nat} (h : m < n) : Rank.outside m < .outside n :=
  Prod.Lex.toLex_lt_toLex.mpr (.inr ⟨rfl, Prod.Lex.toLex_lt_toLex.mpr (.inr ⟨rfl,
    Prod.Lex.toLex_lt_toLex.mpr (.inl h)⟩)⟩)

section Rank

variable {calls : Nat} {run run' : Run}

theorem Run.rank_start (before : run.pc.started = false) (after : run'.pc.started = true) :
    run'.rank calls < run.rank calls := by
  unfold Run.rank
  rw [before, after]
  exact Prod.Lex.toLex_lt_toLex.mpr (.inl (Nat.lt_succ_self 1))

theorem Run.rank_next (started : run'.pc.started = run.pc.started)
    (files : run'.files = run.files) (next : run'.index = run.index + 1)
    (more : run.index < run.files.length) : run'.rank calls < run.rank calls := by
  unfold Run.rank
  rw [started, files, next]
  refine Prod.Lex.toLex_lt_toLex.mpr (.inr ⟨rfl, Prod.Lex.toLex_lt_toLex.mpr (.inl ?_)⟩)
  dsimp only
  omega

theorem Run.rank_left (started : run'.pc.started = run.pc.started) (files : run'.files = run.files)
    (index : run'.index = run.index) (less : run'.pc.left calls < run.pc.left calls) :
    run'.rank calls < run.rank calls := by
  unfold Run.rank
  rw [started, files, index]
  exact Prod.Lex.toLex_lt_toLex.mpr (.inr ⟨rfl, Prod.Lex.toLex_lt_toLex.mpr (.inr ⟨rfl,
    Prod.Lex.toLex_lt_toLex.mpr (.inl less)⟩)⟩)

theorem Run.rank_named (started : run'.pc.started = run.pc.started) (files : run'.files = run.files)
    (index : run'.index = run.index) (left : run'.pc.left calls = run.pc.left calls)
    (less : run'.pc.unnamed < run.pc.unnamed) : run'.rank calls < run.rank calls := by
  unfold Run.rank
  rw [started, files, index, left]
  exact Prod.Lex.toLex_lt_toLex.mpr (.inr ⟨rfl, Prod.Lex.toLex_lt_toLex.mpr (.inr ⟨rfl,
    Prod.Lex.toLex_lt_toLex.mpr (.inr ⟨rfl, less⟩)⟩)⟩)

/-- Outside its jobs the runner is nearer to the next one than at any of them. -/
theorem Run.rank_top : Runner.rank calls .top < run.rank calls := by
  unfold Run.rank Runner.rank Rank.outside
  refine Prod.Lex.toLex_lt_toLex.mpr (.inl ?_)
  dsimp only
  split <;> omega

end Rank

/-! ## Steps of a run -/

/-- The gate's loop notes how many calls there were, and starts again after another one. -/
theorem runStep_gate {s s' : Shared} {run run' : Run} {input : RunInput}
    (h : runStep env s run input = some (s', some run')) (seen : Nat) :
    (run.pc = .gateArm → run'.pc = .gateCheck seen → seen = s.jobs.cancelCalls) ∧
      (run.pc = .gateWait seen → run'.pc = .gateArm → seen ≠ s.jobs.cancelCalls) := by
  constructor
  · intro at_ is
    unfold runStep at h
    rw [at_] at h
    obtain ⟨r, -, h⟩ := Option.bind_eq_some_iff.mp h
    unfold runSection at h
    rw [at_] at h
    cases h
    exact (RunPc.gateCheck.inj is).symm
  · intro at_ is
    unfold runStep at h
    rw [at_] at h
    obtain ⟨r, -, h⟩ := Option.bind_eq_some_iff.mp h
    unfold runSection at h
    rw [at_] at h
    dsimp only at h
    split at h
    · cases h
      cases is
    · cases h
      cases is
    · split at h
      · cases h
      · rename_i other
        exact fun same => other same.symm

/-- Every section brings the run nearer to its end. -/
theorem RunTurn.closer {s s' : Shared} {run run' : Run} {r : JobRecord} {calls : Nat}
    (turn : RunTurn env s run r s' (some run'))
    (arms : ∀ seen, run.pc = .gateArm → run'.pc = .gateCheck seen → seen = calls)
    (again : ∀ seen, run.pc = .gateWait seen → run'.pc = .gateArm → seen ≠ calls)
    (more : ∀ status message, run.pc = .mark status message false →
      run.index < run.files.length) : run'.rank calls < run.rank calls := by
  have goes : ∀ {run' : Run} {pc : RunPc}, run.pc = pc → run'.pc.started = pc.started →
      run'.files = run.files → run'.index = run.index → run'.pc.left calls < pc.left calls →
      run'.rank calls < run.rank calls := by
    intro run' pc is started files index less
    exact Run.rank_left (is ▸ started) files index (is ▸ less)
  cases turn with
  | start pc queued => exact Run.rank_start (by rw [pc]; rfl) rfl
  | enter pc | leave pc | markRunning pc | late outcome pc | take result p file pc
  | publish p charged ledger pc | count pages pc | markLast status message pc =>
    exact goes pc rfl rfl rfl (by simp [RunPc.left])
  | work pc works store same ledger =>
    generalize is : run.pc = before at works
    cases works with
    | arm seen =>
      refine goes is rfl rfl rfl ?_
      obtain rfl := arms seen is rfl
      simp [RunPc.left]
    | wait | grant =>
      refine goes is rfl rfl rfl ?_
      simp only [RunPc.left]
      split <;> omega
    | woken seen =>
      refine goes is rfl rfl rfl ?_
      simp only [RunPc.left, if_neg (again seen is rfl)]
      omega
    | parse | parsed | unrendered | uncommitted | named =>
      exact goes is rfl rfl rfl (by simp [RunPc.left])
  | abort aborts flagged =>
    generalize is : run.pc = before at aborts
    cases aborts with
    | gateCheck seen =>
      refine goes is rfl rfl rfl ?_
      simp only [RunPc.left]
      split <;> omega
    | admitted | publishFailed => exact goes is rfl rfl rfl (by simp [RunPc.left])
  | fail fails message =>
    generalize is : run.pc = before at fails
    cases fails with
    | gateWait seen =>
      refine goes is rfl rfl rfl ?_
      simp only [Run.fail, RunPc.left]
      split <;> omega
    | publishFailed => exact goes is rfl rfl rfl (by simp [Run.fail, RunPc.left])
  | parsed outcome pc =>
    cases outcome with
    | none => exact goes pc rfl rfl rfl (by simp [Run.onParsed, Run.fail, RunPc.left])
    | some result =>
      change (if _ then _ else _ : Run).rank calls < _
      split
      · exact goes pc rfl rfl rfl (by simp [Run.fail, RunPc.left])
      · exact goes pc rfl rfl rfl (by simp [RunPc.left])
  | name p format bytes rest object pc next made =>
    refine Run.rank_named (by rw [pc]; rfl) rfl rfl (by rw [pc]; rfl) ?_
    rw [pc]
    simp [RunPc.unnamed, next]
  | mark status message pc => exact Run.rank_next (by rw [pc]; rfl) rfl rfl (more _ _ pc)

/-- A record whose job the runner has started is in progress. -/
theorem Orderly.progress {j : Jobs} {run : Run} {r : JobRecord} (h : Orderly j)
    (at_ : j.runner = .running run) (found : j.record run.job = some r)
    (started : run.pc.started = true) : Progress j.stopping r run := by
  have idle : ¬ Idle j.runner run.job := by
    intro idle
    rw [idle run at_ rfl] at started
    cases started
  cases (h.records run.job r found).2 with
  | fresh _ isIdle | settled _ isIdle => exact absurd isIdle idle
  | running run' is _ _ progress =>
    obtain rfl : run = run' := Runner.running.inj (at_.symm.trans is)
    exact progress

/-- A file that is to be marked is one of the job's. -/
theorem Progress.more {stopping : Bool} {r : JobRecord} {run : Run} (h : Progress stopping r run)
    {status : FileStatus} {message : Option String} {last : Bool}
    (pc : run.pc = .mark status message last) : run.index < run.files.length := by
  obtain ⟨before, ahead, files, index, -, -, -, rest⟩ := h.split
  rw [pc] at rest
  cases ahead with
  | nil => exact absurd rest (not_or.mpr ⟨nofun, nofun⟩)
  | cons f after =>
    rw [h.length, files, ← index, List.length_append, List.length_cons]
    omega

/-! ## Steps of the runner -/

theorem runnerStep_running {s shared : Shared} {run : Run} {input : RunInput}
    (at_ : s.jobs.runner = .running run) (step : runnerStep env s input = some shared) :
    ∃ s₁ next, runStep env s run input = some (s₁, next) ∧
      shared = { s₁ with jobs := { s₁.jobs with
        runner := (next.map Runner.running).getD .top } } := by
  unfold runnerStep at step
  rw [at_] at step
  obtain ⟨⟨s₁, next⟩, taken, out⟩ := Option.map_eq_some_iff.mp step
  exact ⟨s₁, next, taken, out.symm⟩

/-- A step of the runner pops a job or brings the runner nearer to it, if there is a job in the queue
or at the runner. -/
theorem runner_closer {s : Service} {shared : Shared} {input : RunInput} (awake : Awake s)
    (inv : JobsInv s) (step : runnerStep env s.shared input = some shared)
    (busy : s.shared.jobs.queue ≠ [] ∨ ∃ run, s.shared.jobs.runner = .running run) :
    (∃ id, Pops s { s with shared } id) ∨ (shared.jobs.queue = s.shared.jobs.queue ∧
      shared.jobs.runner.rank s.shared.jobs.cancelCalls <
        s.shared.jobs.runner.rank s.shared.jobs.cancelCalls) := by
  have idle : (∀ run, s.shared.jobs.runner ≠ .running run) → s.shared.jobs.queue ≠ [] :=
    fun none => busy.resolve_right fun ⟨run, at_⟩ => none run at_
  cases runnerStep_turn step with
  | pop seen id queue at_ first => exact .inl ⟨id, ⟨seen, at_⟩, first, _, rfl, rfl, rfl⟩
  | empty seen at_ none | leave seen at_ stopping none =>
    exact absurd none (idle (by rw [at_]; nofun))
  | register at_ none =>
    have some := idle (by rw [at_]; nofun)
    rcases awake.queued some _ (.inr at_) with permit | later
    · rw [none] at permit
      cases permit
    · exact absurd later (Nat.lt_irrefl _)
  | arm at_ | wait seen at_ | permit seen at_ | called seen at_ | woken at_ =>
    rw [at_]; exact .inr ⟨rfl, Rank.outside_lt (by decide)⟩
  | missed run at_ pc missing => rw [at_]; exact .inr ⟨rfl, Run.rank_top⟩
  | looked run r at_ pc found =>
    rw [at_]
    refine .inr ⟨rfl, Run.rank_left ?_ rfl rfl ?_⟩
    · rw [pc]
      rfl
    · rw [pc]
      exact Nat.lt_succ_self 24
  | job run r s' next at_ pc found turn =>
    obtain ⟨s₁, next', taken, same⟩ := runnerStep_running at_ step
    refine .inr ⟨turn.leaves.1, ?_⟩
    rw [at_]
    cases next with
    | none => exact Run.rank_top
    | some run' =>
      have goes : next' = some run' := by
        have is : Runner.running run' = (next'.map Runner.running).getD .top :=
          congrArg (fun s : Shared => s.jobs.runner) same
        cases next' with
        | none => cases is
        | some run'' =>
          cases is
          rfl
      subst goes
      refine turn.closer (fun seen => (runStep_gate taken seen).1)
        (fun seen => (runStep_gate taken seen).2) fun status message marks => ?_
      exact (inv.orderly.progress at_ found (by rw [marks]; rfl)).more marks

/-- What the runner is told brings it no further away. -/
theorem Heard.rank {s s' : Service} (heard : Heard s s') (calls : Nat) :
    s'.shared.jobs.runner.rank calls ≤ s.shared.jobs.runner.rank calls := by
  cases heard with
  | quiet same => rw [same.runner]
  | started before after =>
    rw [before, after]
    exact (Rank.outside_lt (by decide)).le
  | committed n record at_ runner =>
    rw [runner]
    rcases notifyOne_cases s.shared.jobs with ⟨waits, woken⟩ | ⟨-, same, -⟩
    · rw [waits, woken]
      exact le_refl _
    · rw [same]
  | called runner =>
    rw [runner]
    rcases notifyWaiters_cases s.shared.jobs with ⟨⟨before, waits⟩, woken⟩ | ⟨-, same⟩
    · rw [waits, woken]
      exact le_refl _
    · rw [same]

/-- How long a queued job still has to wait: for the jobs before it, and for the runner. -/
def Jobs.wait (calls : Nat) (id : Id) (j : Jobs) : ℕ ×ₗ Rank :=
  toLex (j.queue.idxOf id, j.runner.rank calls)

section Wait

variable {calls : Nat} {id : Id} {j j' : Jobs}

theorem wait_pop {first : Id} (queue : j.queue = first :: j'.queue) (other : first ≠ id) :
    j'.wait calls id < j.wait calls id := by
  refine Prod.Lex.toLex_lt_toLex.mpr (.inl ?_)
  rw [queue, List.idxOf_cons_ne _ other]
  exact Nat.lt_succ_self _

theorem wait_lt (place : j'.queue.idxOf id = j.queue.idxOf id)
    (less : j'.runner.rank calls < j.runner.rank calls) : j'.wait calls id < j.wait calls id :=
  Prod.Lex.toLex_lt_toLex.mpr (.inr ⟨place, less⟩)

theorem wait_le (place : j'.queue.idxOf id = j.queue.idxOf id)
    (less : j'.runner.rank calls ≤ j.runner.rank calls) : j'.wait calls id ≤ j.wait calls id :=
  Prod.Lex.toLex_le_toLex.mpr (.inr ⟨place, less⟩)

end Wait

/-! ## Unfinished jobs -/

theorem setRecord_stays {j : Jobs} {id k : Id} {r new : JobRecord} (listed : j.listed id = some r) :
    ∃ r', (j.setRecord k new).listed id = some r' := by
  obtain ⟨slot, found, is, rfl⟩ := Jobs.listed_get.mp listed
  unfold Jobs.setRecord
  split
  · rename_i old there
    by_cases same : id = k
    · subst same
      rw [found] at there
      cases there
      exact ⟨new, Jobs.listed_get.mpr ⟨{ slot with record := new }, by simp [Table.get_set], is, rfl⟩⟩
    · exact ⟨_, Jobs.listed_get.mpr ⟨slot, by simp [Table.get_set, same, found], is, rfl⟩⟩
  · exact ⟨_, listed⟩

/-- No section of a handler takes an unfinished job off the list, but the end of a shutdown. -/
theorem JobTurn.stays {s : Shared} {held : Id → Bool} {pc : JobPc} {o : JobOutcome}
    (turn : JobTurn env s held pc o) {id : Id} (unfinished : s.jobs.Unfinished id) :
    (∃ r, o.state.jobs.listed id = some r) ∨ pc = .clearJobs := by
  obtain ⟨r, listed, live⟩ := unfinished
  cases turn with
  | commit n record running =>
    obtain ⟨slot, found, is, same⟩ := Jobs.listed_get.mp listed
    left
    have records : ∀ slot', (s.jobs.records.set (.job n) ⟨record, true⟩).get id = some slot' →
        slot'.listed = true → ∃ r, (Jobs.notifyOne { s.jobs with
          records := s.jobs.records.set (.job n) ⟨record, true⟩
          queue := s.jobs.queue ++ [.job n]
          jobsCreated := s.jobs.jobsCreated + 1 }).listed id = some r := by
      intro slot' there is
      refine ⟨slot'.record, Jobs.listed_get.mpr ⟨slot', ?_, is, rfl⟩⟩
      rw [notifyOne_records]
      exact there
    by_cases new : id = .job n
    · exact records ⟨record, true⟩ (by rw [Table.get_set, if_pos new]) rfl
    · exact records slot (by rw [Table.get_set, if_neg new, found]) is
  | cancelQueued | cancelRunning => exact .inl (setRecord_stays (j := { s.jobs with
      cancelCalls := s.jobs.cancelCalls + 1 }) listed)
  | stopMark k ids shutdown r there live => exact .inl (setRecord_stays listed)
  | sweep =>
    obtain ⟨slot, found, is, rfl⟩ := Jobs.listed_get.mp listed
    refine .inl ⟨slot.record, Jobs.listed_get.mpr ⟨slot, ?_, is, rfl⟩⟩
    refine Table.get_keep_some.mpr ⟨found, ?_⟩
    simp [live]
  | clear => exact .inr rfl
  | _ => exact .inl ⟨r, listed⟩

theorem RunTurn.stays {s s' : Shared} {run : Run} {r : JobRecord} {next : Option Run}
    (turn : RunTurn env s run r s' next) {id : Id} {r₀ : JobRecord}
    (listed : s.jobs.listed id = some r₀) : ∃ r', s'.jobs.listed id = some r' := by
  cases turn with
  | start | markRunning | mark | markLast | finalize | publish => exact setRecord_stays listed
  | _ => exact ⟨r₀, listed⟩

/-- An unfinished job stays listed, unless a shutdown clears the jobs. -/
theorem act_stays {s s' : Service} {a : Action} {reply : Reply} {id : Id}
    (act : s.act env a = some (s', reply)) (unfinished : s.shared.jobs.Unfinished id) :
    (∃ r, s'.shared.jobs.listed id = some r) ∨
      ∃ i input, a = .resume i input ∧ s.tasks.get i = some ⟨[], some (.job .clearJobs)⟩ := by
  have same : (∃ r, s.shared.jobs.listed id = some r) :=
    ⟨unfinished.choose, unfinished.choose_spec.1⟩
  cases a with
  | tick | foreignId =>
    cases act
    exact .inl same
  | call request =>
    cases act
    obtain ⟨r, is⟩ := same
    refine .inl ⟨r, ?_⟩
    change (firstSection s.shared request).state.jobs.listed id = some r
    unfold Jobs.listed at is ⊢
    rwa [(firstSection_opened s.shared request).records]
  | resume i input =>
    rcases resume_cases act with ⟨t, found, rfl, -⟩ | ⟨pc, o, found, run, rfl, -⟩
    · exact .inl same
    · rcases handlerSection_turn run with ⟨upc, uo, rfl, turn, rfl⟩ | ⟨jpc, jo, rfl, turn, rfl⟩
      · exact .inl same
      · rcases turn.stays unfinished with listed | rfl
        · exact .inl listed
        · exact .inr ⟨i, input, rfl, found⟩
  | abandon i =>
    obtain ⟨w, data, found, rfl, -⟩ := abandon_cases act
    exact .inl same
  | run input =>
    obtain ⟨shared, step, out⟩ := Option.map_eq_some_iff.mp act
    cases out
    obtain ⟨r, is⟩ := same
    cases runnerStep_turn step with
    | job run r' s₁ next at_ pc found turn => exact .inl (turn.stays is)
    | _ => exact .inl ⟨r, is⟩

theorem collect_listed {s : Service} {id : Id} {r : JobRecord} :
    s.collect.shared.jobs.listed id = some r ↔ s.shared.jobs.listed id = some r := by
  simp only [Jobs.listed_get, collect_records]
  constructor
  · rintro ⟨slot, ⟨found, -⟩, listed, is⟩
    exact ⟨slot, found, listed, is⟩
  · rintro ⟨slot, found, listed, is⟩
    exact ⟨slot, ⟨found, .inl listed⟩, listed, is⟩

/-! ## Executions -/

/-- The runner waits for a call, or has left. -/
def Runner.Rests : Runner → Prop
  | registered false | left => True
  | _ => False

/-- The runner is taken again and again, unless it rests. -/
def RunsOn (x : (service env now).Execution) : Prop :=
  ∀ n, ∃ k, n ≤ k ∧
    ((∃ input, x.action k = some (.run input)) ∨ (x.state k).shared.jobs.runner.Rests)

/-- From some moment on no running job is called back from the gate. -/
def CallsCease (x : (service env now).Execution) : Prop :=
  ∃ n, ∀ k, n ≤ k →
    (x.state k).shared.jobs.cancelCalls = (x.state n).shared.jobs.cancelCalls

/-- A shutdown clears the jobs at this moment. -/
def Clears (x : (service env now).Execution) (k : Nat) : Prop :=
  ∃ i input, x.action k = some (.resume i input) ∧
    (x.state k).tasks.get i = some ⟨[], some (.job .clearJobs)⟩

/-- At each moment the runner takes a step, or it is told something, or nothing. -/
theorem moment (x : (service env now).Execution) (k : Nat) :
    (∃ input shared, x.action k = some (.run input) ∧
      runnerStep env (x.state k).shared input = some shared ∧
      x.state (k + 1) = ({ x.state k with shared } : Service).collect) ∨
    ((∀ input, x.action k ≠ some (.run input)) ∧
      ∃ s, Heard (x.state k) s ∧ (x.state (k + 1)).shared.jobs.runner = s.shared.jobs.runner ∧
        (x.state (k + 1)).shared.jobs.queue = s.shared.jobs.queue) := by
  have taken := x.steps k
  cases act : x.action k with
  | none =>
    rw [act] at taken
    rw [taken]
    exact .inr ⟨nofun, x.state k, .quiet (.refl _) id .inl id, rfl, rfl⟩
  | some a =>
    rw [act] at taken
    obtain ⟨reply, taken⟩ := taken
    obtain ⟨s₁, done, -, after⟩ := step_turn taken
    rw [after]
    rcases act_cases done (reachable_storeInv (x.reachable k)).tasks with
      ⟨input, shared, rfl, ran, rfl⟩ | ⟨other, heard⟩
    · exact .inl ⟨input, shared, rfl, ran, rfl⟩
    · exact .inr ⟨fun input is => other input (Option.some.inj is), s₁, heard, rfl, rfl⟩

section

variable (x : (service env now).Execution) {n c : Nat}
  (calls : ∀ k, n ≤ k → (x.state k).shared.jobs.cancelCalls = c)

include calls

/-- A queued job is popped: its place in the queue and the rank of the runner go down. -/
theorem queued_popped (runs : RunsOn x) {id : Id} (mem : id ∈ (x.state n).shared.jobs.queue) :
    ∃ k, n ≤ k ∧ Pops (x.state k) (x.state (k + 1)) id := by
  refine Machine.eventually_of_helpful (fun k => id ∈ (x.state k).shared.jobs.queue)
    (fun k => Pops (x.state k) (x.state (k + 1)) id)
    (fun k => ∃ input, x.action k = some (.run input))
    (fun k => (x.state k).shared.jobs.wait c id) (fun k later mem => ?_) (fun k later mem => ?_) mem
  · have some : (x.state k).shared.jobs.queue ≠ [] := List.ne_nil_of_mem mem
    rcases moment x k with ⟨input, shared, act, ran, after⟩ | ⟨other, s, heard, runner, queue⟩
    · rcases runner_closer (reachable_awake (x.reachable k)) (reachable_jobsInv (x.reachable k)) ran
        (.inl some) with ⟨first, pops⟩ | ⟨same, less⟩
      · by_cases is : first = id
        · subst is
          exact .inl (after ▸ ⟨pops.waiting, pops.queue, pops.taken⟩)
        · have queue : (x.state k).shared.jobs.queue =
              first :: (x.state (k + 1)).shared.jobs.queue := after ▸ pops.queue
          have nearer : (x.state (k + 1)).shared.jobs.wait c id <
              (x.state k).shared.jobs.wait c id := wait_pop queue is
          rw [queue] at mem
          exact .inr ⟨(List.mem_cons.mp mem).resolve_left (Ne.symm is), nearer.le, fun _ => nearer⟩
      · rw [calls k later] at less
        have queue : (x.state (k + 1)).shared.jobs.queue = (x.state k).shared.jobs.queue :=
          after ▸ same
        have runner : (x.state (k + 1)).shared.jobs.runner = shared.jobs.runner := after ▸ rfl
        have nearer : (x.state (k + 1)).shared.jobs.wait c id <
            (x.state k).shared.jobs.wait c id :=
          wait_lt (congrArg (List.idxOf id) queue) (runner ▸ less)
        exact .inr ⟨queue ▸ mem, nearer.le, fun _ => nearer⟩
    · have place : id ∈ s.shared.jobs.queue ∧
          s.shared.jobs.queue.idxOf id = (x.state k).shared.jobs.queue.idxOf id := by
        rcases heard.queue with same | ⟨k, -, -, longer⟩
        · rw [same]
          exact ⟨mem, rfl⟩
        · rw [longer]
          exact ⟨List.mem_append_left _ mem, List.idxOf_append_of_mem mem⟩
      rw [← queue] at place
      exact .inr ⟨place.1, wait_le place.2 (runner ▸ heard.rank c),
        fun ⟨input, is⟩ => absurd is (other input)⟩
  · obtain ⟨j, after, taken⟩ := runs k
    refine ⟨j, after, fun mem => taken.resolve_right fun rests => ?_⟩
    have awake := reachable_awake (x.reachable j)
    have some : (x.state j).shared.jobs.queue ≠ [] := List.ne_nil_of_mem mem
    cases at_ : (x.state j).shared.jobs.runner with
    | registered woken =>
      cases woken with
      | true => rw [at_] at rests; exact rests
      | false => exact some (awake.waits at_).2.1
    | left => exact some (awake.left at_).1
    | _ => rw [at_] at rests; exact rests

/-- The runner comes to the end of a job. -/
theorem run_ends (runs : RunsOn x) {id : Id}
    (at_ : ∃ run, (x.state n).shared.jobs.runner = .running run ∧ run.job = id) :
    ∃ k, n ≤ k ∧ (∃ run, (x.state k).shared.jobs.runner = .running run ∧ run.job = id) ∧
      ¬ ∃ run, (x.state (k + 1)).shared.jobs.runner = .running run ∧ run.job = id := by
  refine Machine.eventually_of_helpful
    (fun k => ∃ run, (x.state k).shared.jobs.runner = .running run ∧ run.job = id) _
    (fun k => ∃ input, x.action k = some (.run input))
    (fun k => (x.state k).shared.jobs.runner.rank c) (fun k later at_ => ?_) (fun k later at_ => ?_)
    at_
  · by_cases still : ∃ run, (x.state (k + 1)).shared.jobs.runner = .running run ∧ run.job = id
    · refine .inr ⟨still, ?_⟩
      rcases moment x k with ⟨input, shared, act, ran, after⟩ | ⟨other, s, heard, runner, -⟩
      · obtain ⟨run, is, -⟩ := at_
        rcases runner_closer (reachable_awake (x.reachable k)) (reachable_jobsInv (x.reachable k))
          ran (.inr ⟨run, is⟩) with ⟨first, pops⟩ | ⟨-, less⟩
        · obtain ⟨seen, armed⟩ := pops.waiting
          rw [is] at armed
          cases armed
        · rw [calls k later] at less
          have runner : (x.state (k + 1)).shared.jobs.runner = shared.jobs.runner := by
            rw [after]
            rfl
          rw [runner]
          exact ⟨less.le, fun _ => less⟩
      · rw [runner]
        exact ⟨heard.rank c, fun ⟨input, is⟩ => absurd is (other input)⟩
    · exact .inl ⟨at_, still⟩
  · obtain ⟨j, after, taken⟩ := runs k
    refine ⟨j, after, fun ⟨run, is, _⟩ => taken.resolve_right fun rests => ?_⟩
    rw [is] at rests
    exact rests

end

/-- A queued job is popped, also if the calls cease later only. -/
theorem popped (x : (service env now).Execution) (runs : RunsOn x) (cease : CallsCease x) {n : Nat}
    {id : Id} (mem : id ∈ (x.state n).shared.jobs.queue) :
    ∃ k, n ≤ k ∧ Pops (x.state k) (x.state (k + 1)) id := by
  obtain ⟨m, calls⟩ := cease
  by_contra never
  have stays : ∀ k, n ≤ k → id ∈ (x.state k).shared.jobs.queue := by
    intro k later
    induction later with
    | refl => exact mem
    | @step k later still =>
      rcases moment x k with ⟨input, shared, -, ran, after⟩ | ⟨-, s, heard, -, queue⟩
      · rcases (runnerStep_turn ran).queue with same | ⟨seen, first, run, at_, queue, taken⟩
        · rw [after]
          exact same.symm ▸ still
        · rw [queue] at still
          rcases List.mem_cons.mp still with rfl | rest
          · exact absurd ⟨k, later, after ▸ ⟨⟨seen, at_⟩, queue, run, taken⟩⟩ never
          · rw [after]
            exact rest
      · rw [queue]
        rcases heard.queue with same | ⟨k, -, -, longer⟩
        · rwa [same]
        · rw [longer]
          exact List.mem_append_left _ still
  obtain ⟨k, later, pops⟩ := queued_popped x
    (fun k later => calls k ((Nat.le_max_right n m).trans later)) runs
    (stays (max n m) (Nat.le_max_left n m))
  exact never ⟨k, (Nat.le_max_left n m).trans later, pops⟩

/-- An unfinished job ends, unless a shutdown clears the jobs before. -/
theorem unfinished_ends (x : (service env now).Execution) (runs : RunsOn x) (cease : CallsCease x)
    {n : Nat} {id : Id} (unfinished : (x.state n).shared.jobs.Unfinished id) :
    ∃ k, n ≤ k ∧ (Clears x k ∨ ∃ r, (x.state k).shared.jobs.listed id = some r ∧
      r.response.status.terminal = true) := by
  obtain ⟨m, calls⟩ := cease
  by_contra never
  -- so it stays unfinished
  have stays : ∀ k, n ≤ k → (x.state k).shared.jobs.Unfinished id := by
    intro k later
    induction later with
    | refl => exact unfinished
    | @step k later still =>
      have taken := x.steps k
      cases act : x.action k with
      | none =>
        rw [act] at taken
        rwa [taken]
      | some a =>
        rw [act] at taken
        obtain ⟨reply, taken⟩ := taken
        obtain ⟨s₁, done, -, after⟩ := step_turn taken
        rcases act_stays done still with ⟨r, listed⟩ | ⟨i, input, rfl, found⟩
        · rw [← collect_listed, ← after] at listed
          refine ⟨r, listed, Bool.eq_false_iff.mpr fun terminal => never ?_⟩
          exact ⟨k + 1, Nat.le_succ_of_le later, .inr ⟨r, listed, terminal⟩⟩
        · exact absurd ⟨k, later, .inl ⟨i, input, act, found⟩⟩ never
  -- the runner comes to it
  obtain ⟨j, later, run, at_, rfl⟩ : ∃ j, max n m ≤ j ∧
      ∃ run, (x.state j).shared.jobs.runner = .running run ∧ run.job = id := by
    rcases (reachable_tracked (x.reachable (max n m))).tracked id
      (stays (max n m) (Nat.le_max_left n m)) with mem | at_
    · obtain ⟨k, later, pops⟩ := popped x runs ⟨m, calls⟩ mem
      obtain ⟨run, at_, job, -⟩ := pops.taken
      exact ⟨k + 1, Nat.le_succ_of_le later, run, at_, job⟩
    · exact ⟨max n m, Nat.le_refl _, at_⟩
  -- and leaves it, when it has no place to be any more
  obtain ⟨k, after, ⟨run', at', job⟩, done⟩ :=
    run_ends x (fun k after => calls k ((Nat.le_max_right n m).trans (later.trans after))) runs
      ⟨run, at_, rfl⟩
  have gone : Gone (x.state k) run.job :=
    job ▸ (reachable_tracked (x.reachable k)).running run' at'
  have gone := x.stays (P := fun s => Gone s run.job)
    (fun s a t r reach h step => h.step (reachable_storeInv reach) step) gone (Nat.le_succ k)
  rcases (reachable_tracked (x.reachable (k + 1))).tracked run.job (stays (k + 1)
    (Nat.le_succ_of_le ((Nat.le_max_left n m).trans (later.trans after)))) with mem | still
  · exact gone.2 mem
  · exact done still

/-- A job that was admitted is popped, and only once: it is queued, and never comes back into the
queue. -/
theorem admitted_popped (x : (service env now).Execution) (runs : RunsOn x) (cease : CallsCease x)
    {n : Nat} {id : Id} (admitted : Admitted (x.state n) (x.state (n + 1)) id) :
    ∃! k, Pops (x.state k) (x.state (k + 1)) id := by
  have mem : id ∈ (x.state (n + 1)).shared.jobs.queue := by
    rw [admitted.queue]
    exact List.mem_append_right _ List.mem_cons_self
  obtain ⟨k, -, pops⟩ := popped x runs cease mem
  refine ⟨k, pops, fun j other => ?_⟩
  rcases Nat.lt_trichotomy j k with less | same | more
  · exact (popped_once x other pops less).elim
  · exact same
  · exact (popped_once x pops other more).elim

/-- **A job that was accepted is popped, once, and ends**, unless a shutdown clears the jobs before.
The execution is one in which the runner is started and taken again and again, and in which
cancellations cease. -/
theorem accepted_served (env : Env) (now : Nat) (x : (service env now).Execution) (runs : RunsOn x)
    (cease : CallsCease x) {n : Nat} {a : Action} {response : JobResponse}
    (step : (service env now).step (x.state n) a = some (x.state (n + 1), .accepted response)) :
    (∃! k, Pops (x.state k) (x.state (k + 1)) response.jobId) ∧
      ∃ k, n < k ∧ (Clears x k ∨ ∃ r, (x.state k).shared.jobs.listed response.jobId = some r ∧
        r.response.status.terminal = true) := by
  have admitted := accepted_admitted (x.reachable n) step
  obtain ⟨k, later, ends⟩ := unfinished_ends x runs cease admitted.unfinished
  exact ⟨admitted_popped x runs cease admitted, k, later, ends⟩

/-- A job of one file is submitted and run, until the runner waits for the next one. -/
def servedOne : List Action := published ++ List.replicate 9 (.run .go)

def Reply.isAccepted : Reply → Bool
  | accepted _ => true
  | _ => false

/-- A job of one file, up to its end. -/
theorem accepted_served_one : ∃ (x : (service smallEnv 0).Execution) (response : JobResponse),
    (service smallEnv 0).step (x.state 7) (.resume 0 .go) =
      some (x.state 8, .accepted response) ∧
    (∃! k, Pops (x.state k) (x.state (k + 1)) response.jobId) ∧
      ∃ k, 7 < k ∧ (Clears x k ∨ ∃ r, (x.state k).shared.jobs.listed response.jobId = some r ∧
        r.response.status.terminal = true) := by
  have ends : ((service smallEnv 0).play (service smallEnv 0).start servedOne).any
      (fun s => s.shared.jobs.runner.waits) = true := by decide +kernel
  have answered : ((service smallEnv 0).play (service smallEnv 0).start (servedOne.take 7)).any
      (fun s => ((service smallEnv 0).step s (.resume 0 .go)).any fun p => p.2.isAccepted) = true := by
    decide +kernel
  obtain ⟨last, played, waits⟩ := (Option.any_eq_true _ _).mp ends
  have plays : ((service smallEnv 0).play (service smallEnv 0).start servedOne).isSome = true := by
    rw [played]
    rfl
  let x := Machine.Execution.ofList (service smallEnv 0) servedOne plays
  have stops : ∀ k, servedOne.length ≤ k → x.state k = last := fun k later =>
    Machine.Execution.ofList_ends plays played later
  have runs : RunsOn x := by
    refine fun n => ⟨max n servedOne.length, Nat.le_max_left _ _, .inr ?_⟩
    rw [stops _ (Nat.le_max_right _ _), waits_registered waits]
    trivial
  have cease : CallsCease x := by
    refine ⟨servedOne.length, fun k later => ?_⟩
    rw [stops k later, stops _ (Nat.le_refl _)]
  obtain ⟨s, before, answered⟩ := (Option.any_eq_true _ _).mp answered
  have here : x.state 7 = s := Machine.Execution.ofList_state plays before
  have act : x.action 7 = some (.resume 0 .go) := rfl
  clear_value x
  obtain ⟨⟨t, reply⟩, step, answered⟩ := (Option.any_eq_true _ _).mp answered
  obtain ⟨reply', taken⟩ := x.takes act
  rw [← here, taken] at step
  obtain ⟨rfl, rfl⟩ := Prod.mk.inj (Option.some.inj step)
  cases reply' with
  | accepted response => exact ⟨x, response, taken, accepted_served smallEnv 0 x runs cease taken⟩
  | _ => cases answered

end Mineru.Official
