import Mineru.Laws.Official.Liveness

/-!
# No job is stranded by a shutdown

What a call of `commit_job` does and what becomes of the job it accepts, while the runner, any other
calls and `stop_admissions` interleave. A refused call leaves the jobs as they were; an accepted job
is popped exactly once, and has ended when the runner has left. That it is popped is proved for
executions in which the runner is started and taken again and again (`RunsOn`), as a scheduler does,
and in which cancellations do not call the gate back for ever (`CallsCease`). That it ends holds
unless a second `shutdown`, which finds the runner's handle taken, clears the table of jobs before.

Between the two sections of `stop_admissions` the flag is set and its `notify_waiters` is still to
come, so the runner may wait behind the flag then, and only then.
-/

set_option autoImplicit false

namespace Mineru.Official

open Logic

variable {env : Env} {now : Nat}

/-! ## A commit -/

/-- What a call of `commit_job` has done when it answers: the job is admitted and counted, or the
service does not admit any more and the jobs, the queue and the counter are as they were. -/
inductive Commits (s t : Service) (n : Nat) (record : JobRecord) : Reply → Prop where
  | accepted (admitted : Admitted s t (.job n)) (label : record.response.jobId = .job n)
    (listed : t.shared.jobs.listed (.job n) = some record)
    (created : t.shared.jobs.jobsCreated = s.shared.jobs.jobsCreated + 1) :
    Commits s t n record (.accepted record.response)
  | rejected (closed : s.shared.jobs.stopping = true ∨ s.shared.store.accepting = false)
    (queue : t.shared.jobs.queue = s.shared.jobs.queue)
    (listed : ∀ id, t.shared.jobs.listed id = s.shared.jobs.listed id)
    (created : t.shared.jobs.jobsCreated = s.shared.jobs.jobsCreated) :
    Commits s t n record (.rejected .shuttingDown)

theorem notifyOne_created (j : Jobs) : j.notifyOne.jobsCreated = j.jobsCreated := by
  unfold Jobs.notifyOne
  split <;> rfl

theorem collect_listed_eq (s : Service) (id : Id) :
    s.collect.shared.jobs.listed id = s.shared.jobs.listed id :=
  Option.ext fun _ => collect_listed

/-- A handler with nothing to drop runs its next section. -/
theorem resume_section {s s' : Service} {i : Nat} {input : Input} {pc : Pc} {r : Reply}
    (found : s.tasks.get i = some ⟨[], some pc⟩) (h : s.resume env i input = some (s', r)) :
    ∃ o, handlerSection env s.shared (held (s.tasks.remove i) s.shared.jobs.runner) pc input =
        some o ∧
      s' = ({ s with shared := o.state } : Service).setTask i ⟨o.dropped, o.next⟩ ∧
      r = o.reply := by
  unfold Service.resume at h
  rw [found] at h
  obtain ⟨o, run, out⟩ := Option.map_eq_some_iff.mp h
  cases out
  exact ⟨o, run, rfl, rfl⟩

/-- Every call of `commit_job` in a reachable state either admits its job or changes nothing. -/
theorem commit_settles {s t : Service} {i n : Nat} {input : Input} {record : JobRecord}
    {reply : Reply} (reach : (service env now).Reachable s)
    (found : s.tasks.get i = some ⟨[], some (.job (.prepareCommit n record))⟩)
    (step : (service env now).step s (.resume i input) = some (t, reply)) :
    Commits s t n record reply := by
  have taken := step
  obtain ⟨s₁, act, -, rfl⟩ := step_turn step
  obtain ⟨o, run, rfl, rfl⟩ := resume_section found act
  change some (liftJob (commitJob s.shared n record)) = some o at run
  cases run
  have label := reachable_labelled reach i _ n record found rfl
  by_cases closed : (s.shared.jobs.stopping || !s.shared.store.accepting) = true
  · have refused : commitJob s.shared n record = .reject s.shared record.refs .shuttingDown :=
      if_pos closed
    rw [refused]
    refine .rejected ?_ rfl (fun id => collect_listed_eq _ id) rfl
    rw [Bool.or_eq_true, Bool.not_eq_true'] at closed
    exact closed
  · have answered : (liftJob (commitJob s.shared n record)).reply = .accepted record.response := by
      unfold commitJob
      rw [if_neg closed]
      rfl
    have committed : jobSection env s.shared (held s.tasks s.shared.jobs.runner)
        (.prepareCommit n record) input = some (commitJob s.shared n record) := rfl
    obtain ⟨k, r, is, -, -, -, listed⟩ := jobSection_accepted committed answered
    cases is
    rw [answered] at taken ⊢
    refine .accepted (label ▸ accepted_admitted reach taken) label ?_ ?_
    · exact (collect_listed_eq _ _).trans listed
    · show (commitJob s.shared n record).state.jobs.jobsCreated = _
      unfold commitJob
      rw [if_neg closed]
      exact notifyOne_created _

/-! ## The end of an accepted job -/

/-- Within the run the job is listed with a terminal status, or a shutdown clears the jobs. -/
def EndsWithin (env : Env) (now : Nat) (t : Service) (h : List (Action × Reply)) (id : Id) : Prop :=
  ∃ before after v, h = before ++ after ∧ (service env now).Run t before v ∧
    ((∃ r, v.shared.jobs.listed id = some r ∧ r.response.status.terminal = true) ∨
      ∃ i input reply rest, after = (.resume i input, reply) :: rest ∧
        v.tasks.get i = some ⟨[], some (.job .clearJobs)⟩)

theorem EndsWithin.append {t : Service} {h more : List (Action × Reply)} {id : Id}
    (ends : EndsWithin env now t h id) : EndsWithin env now t (h ++ more) id := by
  obtain ⟨before, after, v, rfl, run, ends⟩ := ends
  refine ⟨before, after ++ more, v, List.append_assoc _ _ _, run, ends.imp_right ?_⟩
  rintro ⟨i, input, reply, rest, rfl, found⟩
  exact ⟨i, input, reply, rest ++ more, rfl, found⟩

/-- Over any run an unfinished job ends, or is still unfinished: only clearing the table of jobs
takes it out of the table. -/
theorem unfinished_run {t u : Service} {h : List (Action × Reply)} {id : Id}
    (unfinished : t.shared.jobs.Unfinished id) (run : (service env now).Run t h u) :
    EndsWithin env now t h id ∨ u.shared.jobs.Unfinished id := by
  induction run with
  | refl => exact .inr unfinished
  | @snoc v w h a reply run step ih =>
    rcases ih with ends | still
    · exact .inl ends.append
    · have taken := step
      obtain ⟨s₁, act, -, rfl⟩ := step_turn step
      rcases act_stays act still with ⟨r, listed⟩ | ⟨i, input, rfl, found⟩
      · rw [← collect_listed] at listed
        cases terminal : r.response.status.terminal with
        | true =>
          exact .inl ⟨h ++ [(a, reply)], [], _, (List.append_nil _).symm, run.snoc taken,
            .inl ⟨r, listed, terminal⟩⟩
        | false => exact .inr ⟨r, listed, terminal⟩
      · exact .inl ⟨h, [_], v, rfl, run, .inr ⟨i, input, reply, [], rfl, found⟩⟩

/-- When the runner has left, every job that was accepted before has ended. -/
theorem admitted_ended {s t u : Service} {h : List (Action × Reply)} {id : Id}
    (reach : (service env now).Reachable t) (admitted : Admitted s t id)
    (run : (service env now).Run t h u) (left : u.shared.jobs.runner = .left) :
    EndsWithin env now t h id :=
  (unfinished_run admitted.unfinished run).resolve_right ((left_empty (reach.run run) left).2.2 id)

/-! ## Shutdown -/

/-- No accepted job is stranded. Every call of `commit_job` admits its job or changes nothing; an
accepted job is popped exactly once, in every execution with a scheduled runner, and ends; behind a
runner that has left the queue is empty, every accepted job has ended and none is accepted any more;
and the runner waits without a permit only at an empty queue, and behind the flag only as long as
the `notify_waiters` of `stop_admissions` is still to come. -/
theorem shutdown_strands_none (env : Env) (now : Nat) :
    (∀ s t i n input record reply, (service env now).Reachable s →
      s.tasks.get i = some ⟨[], some (.job (.prepareCommit n record))⟩ →
      (service env now).step s (.resume i input) = some (t, reply) → Commits s t n record reply) ∧
    (∀ (x : (service env now).Execution) n a response, RunsOn x → CallsCease x →
      (service env now).step (x.state n) a = some (x.state (n + 1), .accepted response) →
      (∃! k, Pops (x.state k) (x.state (k + 1)) response.jobId) ∧
        ∃ k, n < k ∧ (Clears x k ∨ ∃ r, (x.state k).shared.jobs.listed response.jobId = some r ∧
          r.response.status.terminal = true)) ∧
    (∀ s t u a response h, (service env now).Reachable s →
      (service env now).step s a = some (t, .accepted response) → (service env now).Run t h u →
      u.shared.jobs.runner = .left → EndsWithin env now t h response.jobId) ∧
    (∀ s t h, (service env now).Reachable s → s.shared.jobs.runner = .left →
      (service env now).Run s h t →
      t.shared.jobs.queue = [] ∧
        (∀ id r, t.shared.jobs.listed id = some r → r.response.status.terminal = true) ∧
        ∀ a response, (a, Reply.accepted response) ∉ h) ∧
    (∀ s, (service env now).Reachable s → s.shared.jobs.runner = .registered false →
      s.shared.jobs.notify.permit = false ∧ s.shared.jobs.queue = [] ∧
        (s.shared.jobs.stopping = true → Announced s)) := by
  refine ⟨fun s t i n input record reply reach found step => commit_settles reach found step,
    fun x n a response runs cease step => ?_, fun s t u a response h reach step run left => ?_,
    fun s t h reach left run => ?_, fun s reach => (reachable_awake reach).waits⟩
  · have admitted := accepted_admitted (x.reachable n) step
    obtain ⟨k, later, ends⟩ := unfinished_ends x runs cease admitted.unfinished
    exact ⟨admitted_popped x runs cease admitted, k, later, ends⟩
  · exact admitted_ended (reach.step step) (accepted_admitted reach step) run left
  · obtain ⟨still, refused⟩ := left_refuses reach left run
    have after := reach.run run
    exact ⟨(left_empty after still).1, fun id r listed => left_terminal after still listed, refused⟩

/-- The record that a handler is about to commit. -/
def Service.committing (s : Service) (i : Nat) : Option (Nat × JobRecord) :=
  match s.tasks.get i with
  | some ⟨[], some (.job (.prepareCommit n record))⟩ => some (n, record)
  | _ => none

theorem committing_found {s : Service} {i n : Nat} {record : JobRecord}
    (h : s.committing i = some (n, record)) :
    s.tasks.get i = some ⟨[], some (.job (.prepareCommit n record))⟩ := by
  unfold Service.committing at h
  split at h
  · rename_i found
    cases h
    exact found
  · cases h

/-- A submission is about to be committed when the service stops its admissions. -/
def overtaken : List Action := servedOne.take 7 ++ [.call .stopAdmissions]

def Reply.isRejected : Reply → Bool
  | rejected _ => true
  | _ => false

/-- A call of `commit_job` is overtaken by `stop_admissions`, and refused. -/
theorem shutdown_strands_none_overtaken : ∃ s t n record, (service smallEnv 0).Reachable s ∧
    s.shared.jobs.stopping = true ∧ Commits s t n record (.rejected .shuttingDown) := by
  have ends : ((service smallEnv 0).play (service smallEnv 0).start overtaken).any (fun s =>
      s.shared.jobs.stopping && (s.committing 0).isSome &&
        ((service smallEnv 0).step s (.resume 0 .go)).any fun p => p.2.isRejected) = true := by
    decide +kernel
  obtain ⟨s, played, ends⟩ := (Option.any_eq_true _ _).mp ends
  simp only [Bool.and_eq_true] at ends
  obtain ⟨⟨stopping, committing⟩, answered⟩ := ends
  obtain ⟨⟨n, record⟩, found⟩ := Option.isSome_iff_exists.mp committing
  obtain ⟨⟨t, reply⟩, step, refused⟩ := (Option.any_eq_true _ _).mp answered
  have reach := Machine.Reachable.start.play played
  have commits := (shutdown_strands_none smallEnv 0).1 s t 0 n .go record reply reach
    (committing_found found) step
  cases commits with
  | accepted => cases refused
  | rejected closed queue listed created =>
    exact ⟨s, t, n, record, reach, stopping, .rejected closed queue listed created⟩

/-- After its flags are set and before its `notify_waiters`, `stop_admissions` leaves the runner
waiting without a permit while `stopping` is set. -/
theorem waits_behind_flag : ∃ s, (service smallEnv 0).Reachable s ∧
    s.shared.jobs.runner = .registered false ∧ s.shared.jobs.notify.permit = false ∧
      s.shared.jobs.stopping = true := by
  have ends : ((service smallEnv 0).play (service smallEnv 0).start
      (idled ++ [.call .stopAdmissions])).any (fun s =>
        s.shared.jobs.runner.waits && !s.shared.jobs.notify.permit && s.shared.jobs.stopping) =
      true := by
    decide +kernel
  obtain ⟨s, played, ends⟩ := (Option.any_eq_true _ _).mp ends
  simp only [Bool.and_eq_true, Bool.not_eq_true'] at ends
  exact ⟨s, Machine.Reachable.start.play played, waits_registered ends.1.1, ends.1.2, ends.2⟩

end Mineru.Official
