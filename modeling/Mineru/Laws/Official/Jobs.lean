import Mineru.Laws.Official.Lifecycle

/-!
# Jobs from their admission to their end

The results on jobs over all runs of the service. A record that is terminal never changes again, a
record whose cancellation was answered can only end as canceled, and a terminal record agrees with
its files.

A step of the service is a turn of a handler, a turn of the runner, a tick of the clock or a drop,
and `JobsInv` is kept by each (`Turn.inv`). `Retired` and `Asked` are what a later state still knows
of a record that has ended or was cancelled; both hold also when the record has been removed
meanwhile, and then say nothing of it.

Which status a job gets is decided by the parser's outcomes, which are arbitrary. That a job gets
one at all is a matter of liveness and is proved elsewhere.
-/

set_option autoImplicit false

namespace Mineru.Official

open Logic

/-! ## Answers to a cancellation -/

/-- An answer that only a handler of a job gives. -/
def Reply.ofJob : Reply → Bool
  | accepted _ | canceled _ => true
  | _ => false

theorem uploadSection_ofJob {env : Env} {s : Store} {pc : UploadPc} {input : Input}
    {o : UploadOutcome} (run : uploadSection env s pc input = some o) : o.reply.ofJob = false := by
  cases pc <;> simp only [uploadSection, Option.some.injEq] at run
  case receiving w data =>
    cases input <;> simp only [receive] at run <;> (repeat' split at run) <;> cases run <;> rfl
  all_goals
    subst run
    simp only [createStart, createMetadata, createInput, commitUpload, getUpload, putAdmit,
      putCommit, writerDrop, complete, cancelUpload, getFile, deleteFile, fileContent]
    repeat' split
    all_goals rfl

/-- A handler of uploads never answers that a job is canceled, and neither does the first section of
a request (`firstSection_reply`). -/
theorem uploadSection_reply {env : Env} {s : Store} {pc : UploadPc} {input : Input}
    {o : UploadOutcome} {id : Id} (run : uploadSection env s pc input = some o) :
    o.reply ≠ .canceled id := by
  intro is
  have ofJob := uploadSection_ofJob run
  rw [is] at ofJob
  cases ofJob

/-- Two sections answer about a job: the one that cancels it and the one that commits a
submission. -/
theorem jobSection_ofJob {env : Env} {s : Shared} {held : Id → Bool} {pc : JobPc} {input : Input}
    {o : JobOutcome} (run : jobSection env s held pc input = some o) (is : o.reply.ofJob = true) :
    (∃ k, pc = .canceling k) ∨ ∃ n record, pc = .prepareCommit n record := by
  cases pc <;> simp only [jobSection, Option.some.injEq] at run
  case canceling k => exact .inl ⟨k, rfl⟩
  case prepareCommit n record => exact .inr ⟨n, record, rfl⟩
  case reading k =>
    obtain ⟨r, -, rfl⟩ := Option.map_eq_some_iff.mp run
    cases is
  case awaitRunner =>
    unfold awaitRunner at run
    split at run <;> cases run
    cases is
  all_goals
    exfalso
    subst run
    revert is
    try simp only [prepareMetadata, prepareBudget, prepareSizes, prepareFiles, sweepJobs,
      stopMark, stopCancelNotify, takeRunner, shutdownParser, clearJobs, clearStore]
    repeat' split
    all_goals
      intro is
      cases is

/-- Of the two, only the one that cancels answers that a job is canceled. -/
theorem jobSection_reply {env : Env} {s : Shared} {held : Id → Bool} {pc : JobPc} {input : Input}
    {o : JobOutcome} {id : Id} (run : jobSection env s held pc input = some o)
    (is : o.reply = .canceled id) : ∃ k, pc = .canceling k := by
  rcases jobSection_ofJob run (by rw [is]; rfl) with canceling | ⟨n, record, rfl⟩
  · exact canceling
  · cases run
    unfold commitJob at is
    split at is <;> cases is

theorem firstSection_ofJob (s : Shared) (request : Request) :
    (firstSection s request).reply.ofJob = false := by
  cases request <;> simp only [firstSection, cleanupFirst, createAccepting, prepareStart, lookupJob,
    startRunner, stopFlags]
  all_goals
    repeat' split
    all_goals rfl

theorem firstSection_reply (s : Shared) (request : Request) (id : Id) :
    (firstSection s request).reply ≠ .canceled id := by
  intro is
  have ofJob := firstSection_ofJob s request
  rw [is] at ofJob
  cases ofJob

/-- A cancellation that is answered has canceled its job. -/
theorem Turn.canceled {env : Env} {s s' : Service} {id : Id}
    (turn : Turn env s s' (.canceled id)) : ∃ r, s.shared.jobs.record id = some r ∧
      ((r.response.status = .queued ∧ s'.shared.jobs.record id =
        some (({ r with cancel := true } : JobRecord).cancelQueued env s.shared.store.now)) ∨
      (r.response.status = .running ∧
        s'.shared.jobs.record id = some { r with cancel := true })) := by
  generalize is : Reply.canceled id = reply at turn
  cases turn with
  | call request o first =>
    subst first
    exact absurd is.symm (firstSection_reply s.shared request id)
  | resume i pc input o found run =>
    cases pc with
    | upload pc =>
      obtain ⟨uo, section_, rfl⟩ := Option.map_eq_some_iff.mp run
      exact absurd is.symm (uploadSection_reply section_)
    | job pc =>
      obtain ⟨jo, section_, rfl⟩ := Option.map_eq_some_iff.mp run
      obtain ⟨k, rfl⟩ := jobSection_reply section_ is.symm
      cases jobSection_turn section_ with
      | refuse dropped e ended => cases is
      | cancelQueued _ r there queued =>
        cases is
        refine ⟨r, there, .inl ⟨queued, ?_⟩⟩
        refine (record_setRecord (j := { s.shared.jobs with
          cancelCalls := s.shared.jobs.cancelCalls + 1 }) there _ id).trans ?_
        exact if_pos rfl
      | cancelRunning _ r there running =>
        cases is
        refine ⟨r, there, .inr ⟨running, ?_⟩⟩
        refine (record_setRecord (j := { s.shared.jobs with
          cancelCalls := s.shared.jobs.cancelCalls + 1 }) there _ id).trans ?_
        exact if_pos rfl
  | _ => cases is

/-! ## One step -/

/-- How a record is found after a step: unchanged if it had ended, and with its flag set only if it
was before or there is a cause. -/
structure Evolved (cause : Prop) (r r' : JobRecord) : Prop where
  ended : r.response.status.terminal = true → r' = r
  asked : r.cancel = true → r'.cancel = true
  flagged : r'.cancel = true → r.cancel = true ∨ cause

theorem Evolved.refl (cause : Prop) (r : JobRecord) : Evolved cause r r :=
  ⟨fun _ => rfl, fun h => h, .inl⟩

/-- What the runner does to a record: only to the one it runs, and never backwards. -/
theorem RunnerTurn.evolve {env : Env} {s s' : Shared} (turn : RunnerTurn env s s')
    (h : Orderly s.jobs) {id : Id} {r' : JobRecord} (found : s'.jobs.record id = some r') :
    ∃ r, s.jobs.record id = some r ∧ Evolved (s.jobs.stopping = true) r r' := by
  cases turn with
  | job run r s' next at_ pc there turn =>
    obtain ⟨after, forward, ended⟩ := turn.advance h at_ pc there
    change s'.jobs.record id = some r' at found
    rcases forward.writes id r' found with ⟨rfl, rfl⟩ | ⟨-, old⟩
    · refine ⟨r, there, fun terminal => (ended terminal).2, fun asked => ?_, fun flagged => ?_⟩
      · rcases forward.cancel with same | same
        · exact same.trans asked
        · rw [same, asked]
          rfl
      · rcases forward.cancel with same | same
        · exact .inl (same.symm.trans flagged)
        · rw [same] at flagged
          exact (Bool.or_eq_true _ _).mp flagged
    · exact ⟨r', old, .refl _ _⟩
  | _ => exact ⟨r', found, .refl _ _⟩

/-- The runner does not take up a job that has ended. -/
theorem RunnerTurn.idle {env : Env} {s s' : Shared} (turn : RunnerTurn env s s')
    (h : Orderly s.jobs) {id : Id} (idle : Idle s.jobs.runner id)
    (ended : ∀ r, s.jobs.record id = some r → r.response.status.terminal = true) :
    Idle s'.jobs.runner id := by
  intro run at_ job
  cases turn with
  | pop | looked => cases at_; rfl
  | job run' r s'' next before pc found turn =>
    obtain ⟨r', forward, stays⟩ := turn.advance h before pc found
    have ends := forward.ends
    cases next with
    | none => cases at_
    | some run'' =>
      cases at_
      have same : run'.job = id := ends.1.symm.trans job
      subst same
      cases (stays (ended r found)).1
  | _ => cases at_

/-- What a turn makes of the records: one that is found afterwards was there, or is the fresh one of
a new job. -/
theorem Turn.evolve {env : Env} {s s' : Service} {reply : Reply} (turn : Turn env s s' reply)
    (h : JobsInv s) {id : Id} {r' : JobRecord} (found : s'.shared.jobs.record id = some r') :
    (∃ r, s.shared.jobs.record id = some r ∧
      Evolved (s.shared.jobs.stopping = true ∨ reply = .canceled id) r r') ∨
    (¬ Issued s id ∧ r'.cancel = false) := by
  rcases turn.handled with handled | ⟨-, -, turn⟩
  · rcases handled.records id r' found with old | ⟨i, n, there, rfl⟩ | ⟨r, old, touched, why⟩
    · exact .inl ⟨r', old, .refl _ _⟩
    · obtain ⟨-, -, clear⟩ := h.prepared i _ _ there rfl
      exact .inr ⟨not_issued there, clear⟩
    · refine .inl ⟨r, old, fun terminal => ?_, fun _ => touched.flagged, fun _ => .inr ?_⟩
      · rw [touched.live] at terminal
        cases terminal
      · rcases why with replied | ⟨i, ids, shutdown, there⟩
        · exact .inr replied
        · exact .inl (h.prepared i _ _ there rfl)
  · obtain ⟨r, old, evolved⟩ := turn.evolve h.orderly found
    exact .inl ⟨r, old, evolved.ended, evolved.asked, fun flagged =>
      (evolved.flagged flagged).imp_right .inl⟩

/-- A job that the runner has left is not taken up again. -/
theorem Turn.idle {env : Env} {s s' : Service} {reply : Reply} (turn : Turn env s s' reply)
    (h : JobsInv s) {id : Id} (idle : Idle s.shared.jobs.runner id)
    (ended : ∀ r, s.shared.jobs.record id = some r → r.response.status.terminal = true) :
    Idle s'.shared.jobs.runner id := by
  rcases turn.handled with handled | ⟨-, -, turn⟩
  · exact fun run at_ => idle run ((handled.runner run).mp at_)
  · exact turn.idle h.orderly idle ended

/-- The invariant over one turn, by the party whose turn it is. -/
theorem Turn.inv {env : Env} {s s' : Service} {reply : Reply} (turn : Turn env s s' reply)
    (h : JobsInv s) : JobsInv s' := by
  obtain ⟨i, before, after, moves⟩ := turn.moves h.numbered.named
  rcases turn.handled with handled | ⟨tasks, -, turn⟩
  · exact h.handled handled moves
  · exact h.ran tasks turn moves

theorem Turn.issued {env : Env} {s s' : Service} {reply : Reply} (turn : Turn env s s' reply)
    (h : JobsInv s) {id : Id} (issued : Issued s id) : Issued s' id := by
  obtain ⟨i, before, after, moves⟩ := turn.moves h.numbered.named
  exact moves.issued issued

theorem collect_record {s : Service} {id : Id} {r : JobRecord}
    (found : s.collect.shared.jobs.record id = some r) : s.shared.jobs.record id = some r := by
  obtain ⟨slot, there, is⟩ := record_get.mp found
  exact record_get.mpr ⟨slot, ((collect_records s id slot).mp there).1, is⟩

/-! ## Runs -/

/-- The invariant over one step, with the collection of reservations behind it. -/
theorem jobsInv_step {env : Env} {now : Nat} {s s' : Service} {a : Action} {reply : Reply}
    (h : JobsInv s) (step : (service env now).step s a = some (s', reply)) : JobsInv s' := by
  obtain ⟨s₁, -, turn, rfl⟩ := step_turn step
  exact (turn.inv h).collect

theorem reachable_jobsInv {env : Env} {now : Nat} {s : Service}
    (reach : (service env now).Reachable s) : JobsInv s :=
  reach.invariant (jobsInv_start env now) fun _ _ _ _ _ h step => jobsInv_step h step

/-- The job has ended as `r`, and is never run again. -/
structure Retired (s : Service) (id : Id) (r : JobRecord) : Prop where
  inv : JobsInv s
  issued : Issued s id
  idle : Idle s.shared.jobs.runner id
  record : ∀ r', s.shared.jobs.record id = some r' → r' = r

/-- A record that has ended is still the same behind a step, if it is still there. -/
theorem Retired.step {env : Env} {now : Nat} {s s' : Service} {a : Action} {reply : Reply} {id : Id}
    {r : JobRecord} (terminal : r.response.status.terminal = true) (h : Retired s id r)
    (step : (service env now).step s a = some (s', reply)) : Retired s' id r := by
  obtain ⟨s₁, -, turn, rfl⟩ := step_turn step
  have ended : ∀ old, s.shared.jobs.record id = some old →
      old.response.status.terminal = true := by
    intro old found
    rw [h.record old found]
    exact terminal
  refine ⟨(turn.inv h.inv).collect, turn.issued h.inv h.issued, turn.idle h.inv h.idle ended,
    fun _ found => ?_⟩
  rcases turn.evolve h.inv (collect_record found) with ⟨old, there, evolved⟩ | ⟨fresh, -⟩
  · rw [evolved.ended (ended old there)]
    exact h.record old there
  · exact absurd h.issued fresh

/-- A terminal record is retired from then on. -/
theorem Retired.of_terminal {s : Service} {id : Id} {r : JobRecord} (h : JobsInv s)
    (found : s.shared.jobs.record id = some r) (terminal : r.response.status.terminal = true) :
    Retired s id r where
  inv := h
  issued := .record h.numbered found
  idle := ((h.orderly.records id r found).2.of_terminal terminal).2
  record _ there := Option.some.inj (there.symm.trans found)

theorem Retired.run {env : Env} {now : Nat} {s t : Service} {h : List (Action × Reply)} {id : Id}
    {r : JobRecord} (terminal : r.response.status.terminal = true) (retired : Retired s id r)
    (run : (service env now).Run s h t) : Retired t id r :=
  run.keeps (P := fun s => Retired s id r) (fun _ _ _ _ h step => h.step terminal step) retired

/-- The cancellation of the job was answered. -/
structure Asked (s : Service) (id : Id) : Prop where
  inv : JobsInv s
  issued : Issued s id
  record : ∀ r, s.shared.jobs.record id = some r → r.cancel = true

/-- A cancellation that was answered is not forgotten. -/
theorem Asked.step {env : Env} {now : Nat} {s s' : Service} {a : Action} {reply : Reply} {id : Id}
    (h : Asked s id) (step : (service env now).step s a = some (s', reply)) : Asked s' id := by
  obtain ⟨s₁, -, turn, rfl⟩ := step_turn step
  refine ⟨(turn.inv h.inv).collect, turn.issued h.inv h.issued, fun _ found => ?_⟩
  rcases turn.evolve h.inv (collect_record found) with ⟨old, there, evolved⟩ | ⟨fresh, -⟩
  · exact evolved.asked (h.record old there)
  · exact absurd h.issued fresh

/-- The answer itself shows that the flag is up. -/
theorem Asked.of_reply {env : Env} {now : Nat} {s s' : Service} {a : Action} {id : Id}
    (h : JobsInv s) (step : (service env now).step s a = some (s', .canceled id)) :
    Asked s' id := by
  obtain ⟨s₁, -, turn, rfl⟩ := step_turn step
  obtain ⟨r, found, canceled⟩ := turn.canceled
  refine ⟨(turn.inv h).collect, turn.issued h (.record h.numbered found), fun r' there => ?_⟩
  have after := collect_record there
  rcases canceled with ⟨-, is⟩ | ⟨-, is⟩
  · rw [is] at after
    cases after
    rfl
  · rw [is] at after
    cases after
    rfl

/-- Every cancellation that was answered in a run has its effect at the run's end. -/
theorem asked_of_history {env : Env} {now : Nat} {s t : Service} {h : List (Action × Reply)}
    (inv : JobsInv s) (run : (service env now).Run s h t) {a : Action} {id : Id}
    (answered : (a, Reply.canceled id) ∈ h) : Asked t id := by
  induction run with
  | refl => cases answered
  | snoc run step ih =>
    have before : JobsInv _ := run.keeps (fun _ _ _ _ h step => jobsInv_step h step) inv
    rcases List.mem_append.mp answered with early | last
    · exact (ih early).step step
    · cases List.mem_singleton.mp last
      exact .of_reply before step

/-- A flag was set by a cancellation or by the end of the admissions. -/
theorem asked_cause {env : Env} {now : Nat} {t : Service} {h : List (Action × Reply)}
    (run : (service env now).Run (service env now).start h t) {id : Id} {r : JobRecord}
    (found : t.shared.jobs.record id = some r) (flagged : r.cancel = true) :
    t.shared.jobs.stopping = true ∨ ∃ a, (a, Reply.canceled id) ∈ h := by
  generalize first : (service env now).start = s₀ at run
  induction run generalizing r with
  | refl =>
    subst first
    obtain ⟨slot, there, -⟩ := record_get.mp found
    cases (Table.get_empty (α := JobSlot) id).symm.trans there
  | @snoc t u h a reply run step ih =>
    subst first
    have before := reachable_jobsInv ⟨h, run⟩
    obtain ⟨s₁, -, turn, rfl⟩ := step_turn step
    have le : t.shared.jobs.stopping = true → s₁.shared.jobs.stopping = true := by
      rcases turn.handled with handled | ⟨-, -, turn⟩
      · exact handled.stopping
      · exact fun stopping => (turn.stopping before.orderly).trans stopping
    rcases turn.evolve before (collect_record found) with ⟨old, there, evolved⟩ | ⟨-, clear⟩
    · rcases evolved.flagged flagged with early | stopping | replied
      · rcases ih there early with stopping | ⟨b, mem⟩
        · exact .inl (le stopping)
        · exact .inr ⟨b, List.mem_append_left _ mem⟩
      · exact .inl (le stopping)
      · exact .inr ⟨a, List.mem_append_right _ (replied ▸ List.mem_singleton_self _)⟩
    · rw [clear] at flagged
      cases flagged

/-! ## Results -/

/-- A cancellation of a terminal job is rejected, and its handler leaves everything as it is. -/
theorem cancel_rejected (env : Env) {s : Service} {i : Nat} {id : Id} {r : JobRecord}
    (at_ : s.tasks.get i = some ⟨[], some (.job (.canceling id))⟩)
    (found : s.shared.jobs.record id = some r) (terminal : r.response.status.terminal = true)
    (input : Input) :
    s.act env (.resume i input) =
      some ({ s with tasks := s.tasks.remove i }, .rejected jobTerminal) := by
  simp only [Service.act, Service.resume, at_, handlerSection, jobSection, cancelJob, found,
    terminal, if_true, Option.map_some]
  rfl

/-- A job canceled while it is queued ends there, and the runner never takes it up. -/
theorem queued_cancel {env : Env} {now : Nat} {s s' t : Service} {h : List (Action × Reply)}
    {id : Id} {r : JobRecord} {a : Action} (inv : JobsInv s)
    (found : s.shared.jobs.record id = some r) (queued : r.response.status = .queued)
    (step : (service env now).step s a = some (s', .canceled id))
    (run : (service env now).Run s' h t) :
    ∃ r', Retired t id r' ∧ r'.response.status = .canceled ∧ r'.response.startedAt = none ∧
      ∀ f ∈ r'.response.files, f.status = .canceled := by
  obtain ⟨s₁, -, turn, rfl⟩ := step_turn step
  obtain ⟨old, there, canceled⟩ := turn.canceled
  obtain rfl : old = r := Option.some.inj (there.symm.trans found)
  have notStarted : old.response.startedAt = none := by
    cases (inv.orderly.records id old found).2 with
    | fresh h _ => exact h.notStarted
    | running _ _ _ _ h =>
      have status := h.status
      rw [queued] at status
      cases status
    | settled h _ =>
      have terminal := h.terminal
      rw [queued] at terminal
      cases terminal
  rcases canceled with ⟨-, is⟩ | ⟨running, -⟩
  · have retired := Retired.of_terminal (turn.inv inv) is rfl
    have collected : Retired s₁.collect id _ := ⟨retired.inv.collect, retired.issued, retired.idle,
      fun r' found => retired.record r' (collect_record found)⟩
    refine ⟨_, collected.run rfl run, rfl, notStarted, fun f mem => ?_⟩
    obtain ⟨g, -, rfl⟩ := List.mem_map.mp mem
    rfl
  · rw [queued] at running
    cases running

/-- Cancellations are honoured and terminal states are final, from any reachable state on: after an
answered cancellation a job can only end as canceled; a terminal response never changes; a job
canceled while queued is never started; and a cancellation of a terminal job is rejected and changes
nothing. -/
theorem cancellation_final (env : Env) (now : Nat) (id : Id) {s t : Service}
    {h : List (Action × Reply)} (reach : (service env now).Reachable s)
    (run : (service env now).Run s h t) :
    (∀ a r, (a, Reply.canceled id) ∈ h → t.shared.jobs.record id = some r →
      r.response.status.terminal = true → r.response.status = .canceled) ∧
    (∀ r r', s.shared.jobs.record id = some r → r.response.status.terminal = true →
      t.shared.jobs.record id = some r' → r'.response = r.response) ∧
    (∀ r a rest, s.shared.jobs.record id = some r → r.response.status = .queued →
      h = (a, .canceled id) :: rest →
      (∀ run, t.shared.jobs.runner = .running run → run.job = id → run.pc.started = false) ∧
      ∀ r', t.shared.jobs.record id = some r' → r'.response.status = .canceled ∧
        r'.response.startedAt = none ∧ ∀ f ∈ r'.response.files, f.status = .canceled) ∧
    (∀ i input r, s.tasks.get i = some ⟨[], some (.job (.canceling id))⟩ →
      s.shared.jobs.record id = some r → r.response.status.terminal = true →
      s.act env (.resume i input) =
        some ({ s with tasks := s.tasks.remove i }, .rejected jobTerminal)) := by
  have inv := reachable_jobsInv reach
  refine ⟨?_, ?_, ?_, ?_⟩
  · intro a r answered found terminal
    have asked := asked_of_history inv run answered
    obtain ⟨settled, -⟩ := (asked.inv.orderly.records id r found).2.of_terminal terminal
    exact settled.honoured (asked.record r found)
  · intro r r' found terminal later
    rw [((Retired.of_terminal inv found terminal).run terminal run).record r' later]
  · intro r a rest found queued first
    rw [first, ← List.singleton_append] at run
    obtain ⟨mid, step, after⟩ := run.split
    obtain ⟨last, retired, status, notStarted, files⟩ :=
      queued_cancel inv found queued step.last after
    refine ⟨retired.idle, fun r' there => ?_⟩
    rw [retired.record r' there]
    exact ⟨status, notStarted, files⟩
  · intro i input r at_ found terminal
    exact cancel_rejected env at_ found terminal input

/-- A service with room for small files, whose digests are empty. -/
def smallEnv : Env where
  retention := 3600
  fileCap := 100
  bodyCap := 100
  zipCap := 100
  sha256 _ := []
  decode _ := none
  retention_ge := Nat.le_refl _

/-- A job of one file is submitted, and its cancellation is asked for. -/
def submitted : List Action :=
  .call (.prepareJob
    { files := [⟨.raw (text "a.txt") [0], none⟩], tier := none, ocrMode := .auto
      outputFormats := [.markdown] } true) ::
    List.replicate 7 (.resume 0 .go) ++ [.call (.cancelJob (.job 1))]

theorem submitted_canceled : ∃ s s' r, (service smallEnv 0).play (service smallEnv 0).start submitted =
    some s ∧ (service smallEnv 0).step s (.resume 1 .go) = some (s', .canceled (.job 1)) ∧
    s'.shared.jobs.record (.job 1) = some r ∧ r.response.status = .canceled := by
  have check : (((service smallEnv 0).play (service smallEnv 0).start submitted).bind fun s =>
      ((service smallEnv 0).step s (.resume 1 .go)).bind fun p =>
        match p.2 with
        | .canceled id => if id = .job 1 then
            (p.1.shared.jobs.record (.job 1)).map fun r => r.response.status
          else none
        | _ => none) = some .canceled := by decide +kernel
  obtain ⟨s, played, check⟩ := Option.bind_eq_some_iff.mp check
  obtain ⟨⟨s', reply⟩, step, check⟩ := Option.bind_eq_some_iff.mp check
  cases reply with
  | canceled id =>
    by_cases same : id = .job 1
    · subst same
      obtain ⟨r, found, status⟩ := Option.map_eq_some_iff.mp check
      exact ⟨s, s', r, played, step, found, status⟩
    · simp [same] at check
  | _ => cases check

/-- A job is canceled while it is queued. -/
theorem cancellation_final_submitted : ∃ s t r, (service smallEnv 0).Reachable s ∧
    (service smallEnv 0).Run s [(.resume 1 .go, .canceled (.job 1))] t ∧
    t.shared.jobs.record (.job 1) = some r ∧ r.response.status = .canceled := by
  obtain ⟨s, t, r, played, step, found, status⟩ := submitted_canceled
  have reach := Machine.Reachable.start.play played
  have run := (Machine.Run.refl s).snoc step
  refine ⟨s, t, r, reach, run, found, ?_⟩
  exact (cancellation_final smallEnv 0 (.job 1) reach run).1 _ r (List.mem_singleton_self _) found
    (by rw [status]; rfl)

/-- **A terminal job agrees with its files**: each file has ended, the counters are right, and the
status of the job is what its files come to. A canceled file has a cause, a call that was answered
or the end of the admissions, and a completed one has an output for each format. -/
theorem terminal_agrees (env : Env) (now : Nat) {s : Service} {h : List (Action × Reply)} {id : Id}
    {r : JobRecord} (run : (service env now).Run (service env now).start h s)
    (found : s.shared.jobs.record id = some r) (terminal : r.response.status.terminal = true) :
    (∀ f ∈ r.response.files,
      f.status = .completed ∨ f.status = .failed ∨ f.status = .canceled) ∧
    r.response.progress.completed = fileCount r.response.files .completed ∧
    r.response.progress.failed = fileCount r.response.files .failed ∧
    r.response.progress.completed + r.response.progress.failed ≤ r.response.progress.total ∧
    (r.response.status = .completed → ∀ f ∈ r.response.files, f.status = .completed) ∧
    (r.response.status = .failed → ∀ f ∈ r.response.files, f.status = .failed) ∧
    (r.response.status = .partially →
      (∃ f ∈ r.response.files, f.status = .completed) ∧
      (∃ f ∈ r.response.files, f.status = .failed) ∧
      ∀ f ∈ r.response.files, f.status ≠ .canceled) ∧
    (∀ f ∈ r.response.files, f.status = .canceled →
      s.shared.jobs.stopping = true ∨ ∃ a, (a, Reply.canceled id) ∈ h) ∧
    ∀ f ∈ r.response.files, f.status = .completed → ∃ refs, f.outputFiles = some refs ∧
      ∀ format, (refs.get format).isSome = true ↔ format ∈ r.response.outputFormats := by
  obtain ⟨shape, phase⟩ := (reachable_jobsInv ⟨h, run⟩).orderly.records id r found
  obtain ⟨settled, -⟩ := phase.of_terminal terminal
  refine ⟨settled.ended, shape.completed, shape.failed, ?_, settled.completed, settled.failed,
    settled.partially, ?_, settled.delivered⟩
  · rw [shape.completed, shape.failed, shape.total]
    exact fileCount_add_le _ (by decide)
  · intro f mem canceled
    rcases settled.canceled f mem canceled with flagged | stopping
    · exact asked_cause run found flagged
    · exact .inl stopping

/-- The canceled job has ended, and the history has the call that canceled it. -/
theorem terminal_agrees_submitted : ∃ s h r,
    (service smallEnv 0).Run (service smallEnv 0).start h s ∧
    s.shared.jobs.record (.job 1) = some r ∧ r.response.status = .canceled ∧
    ∀ f ∈ r.response.files, f.status = .canceled →
      s.shared.jobs.stopping = true ∨ ∃ a, (a, Reply.canceled (.job 1)) ∈ h := by
  obtain ⟨s, t, r, played, step, found, status⟩ := submitted_canceled
  obtain ⟨h, run⟩ := (Machine.Reachable.start.play played).step step
  exact ⟨t, h, r, run, found, status,
    (terminal_agrees smallEnv 0 run found (by rw [status]; rfl)).2.2.2.2.2.2.2.1⟩

end Mineru.Official
