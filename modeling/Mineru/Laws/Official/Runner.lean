import Mineru.Laws.Official.Expiry
import Mineru.Laws.Official.Wakeups

/-!
# The runner and its queue

A job that is committed is queued until the runner pops it, which happens once. `Tracked` says that
no unfinished job is lost: it is in the queue or at the runner, and not at both. `Runner.rank` says
how far the runner still has to go until it pops the next job. It is scheduled again and again, with
answers from the gate and from the parser, until it waits for a call; so it pops every job and ends
it, once no cancellation sends it back to the gate any more.

`Tracked` holds in every reachable state (`reachable_tracked`) and needs no fairness. The rank is
used where fairness is assumed, with the other results on liveness. What a runner that has left
leaves behind is a third result: its queue is drained, and what is listed has ended
(`left_terminal`).

No bound on the time is stated, only that the steps come.
-/

set_option autoImplicit false

namespace Mineru.Official

open Logic

variable {env : Env} {now : Nat}

/-! ## No job is lost -/

/-- A job that is listed and has not ended. -/
def Jobs.Unfinished (j : Jobs) (id : Id) : Prop :=
  ∃ r, j.listed id = some r ∧ r.response.status.terminal = false

theorem Jobs.listed_get {j : Jobs} {id : Id} {r : JobRecord} :
    j.listed id = some r ↔
      ∃ slot, j.records.get id = some slot ∧ slot.listed = true ∧ slot.record = r := by
  unfold Jobs.listed
  cases j.records.get id with
  | none => exact ⟨fun is => (by cases is), fun ⟨slot, is, _⟩ => (by cases is)⟩
  | some slot => simp [Option.ite_none_right_eq_some]

theorem Jobs.Unfinished.of_slot {j : Jobs} {id : Id} {slot : JobSlot} {r : JobRecord}
    (found : j.records.get id = some slot) (listed : slot.listed = true)
    (record : j.record id = some r) (live : r.response.status.terminal = false) :
    j.Unfinished id := by
  obtain ⟨slot', there, rfl⟩ := record_get.mp record
  rw [found] at there
  cases there
  exact ⟨_, Jobs.listed_get.mpr ⟨slot, found, listed, rfl⟩, live⟩

/-- A section of a handler leaves no job unfinished but those that were, and the one it queues. -/
theorem JobTurn.unfinished {s : Shared} {held : Id → Bool} {pc : JobPc} {o : JobOutcome}
    (turn : JobTurn env s held pc o) {id : Id} (unfinished : o.state.jobs.Unfinished id) :
    s.jobs.Unfinished id ∨ id ∈ o.state.jobs.queue := by
  obtain ⟨r', is, live⟩ := unfinished
  obtain ⟨slot, found, listed, rfl⟩ := Jobs.listed_get.mp is
  have admitted := turn.admitted found listed
  have record := turn.record (record_get.mpr ⟨slot, found, rfl⟩)
  cases turn with
  | refuse pc dropped e ended => exact .inl ⟨_, is, live⟩
  | commit n record running =>
    change (Jobs.notifyOne _).records.get id = _ at found
    rw [notifyOne_records, Table.get_set] at found
    split at found
    · rename_i same
      right
      change id ∈ (Jobs.notifyOne _).queue
      rw [notifyOne_queue, same]
      exact List.mem_append_right _ List.mem_cons_self
    · exact .inl ⟨_, Jobs.listed_get.mpr ⟨slot, found, listed, rfl⟩, live⟩
  | _ =>
    rcases admitted with ⟨slot', there, listed'⟩ | ⟨-, n, record', at_, -⟩
    · rcases record with old | ⟨n, at_, -⟩ | ⟨r, old, touched, -⟩
      · exact .inl (.of_slot there listed' old live)
      · cases at_
      · exact .inl (.of_slot there listed' old touched.live)
    · cases at_

/-- What the turn of anything but the runner makes unfinished it also queues. -/
theorem act_unfinished {s s' : Service} {a : Action} {reply : Reply} {id : Id}
    (act : s.act env a = some (s', reply)) (other : ∀ input, a ≠ .run input)
    (unfinished : s'.shared.jobs.Unfinished id) :
    s.shared.jobs.Unfinished id ∨ id ∈ s'.shared.jobs.queue := by
  cases a with
  | tick | foreignId =>
    cases act
    exact .inl unfinished
  | call request =>
    cases act
    obtain ⟨r, is, live⟩ := unfinished
    left
    refine ⟨r, ?_, live⟩
    change (firstSection s.shared request).state.jobs.listed id = some r at is
    unfold Jobs.listed at is ⊢
    rwa [(firstSection_opened s.shared request).records] at is
  | resume i input =>
    rcases resume_cases act with ⟨t, found, rfl, -⟩ | ⟨pc, o, found, run, rfl, -⟩
    · exact .inl unfinished
    · rcases handlerSection_turn run with ⟨upc, uo, rfl, turn, rfl⟩ | ⟨jpc, jo, rfl, turn, rfl⟩
      · exact .inl unfinished
      · exact turn.unfinished unfinished
  | abandon i =>
    obtain ⟨w, data, found, rfl, -⟩ := abandon_cases act
    exact .inl unfinished
  | run input => exact absurd rfl (other input)

/-- A section of a run leaves no job unfinished but those that were. -/
theorem RunTurn.unfinished {s s' : Shared} {run : Run} {r : JobRecord} {next : Option Run}
    (turn : RunTurn env s run r s' next) (h : Orderly s.jobs) (at_ : s.jobs.runner = .running run)
    (pc : run.pc ≠ .lookup) (found : s.jobs.record run.job = some r) {id : Id}
    (unfinished : s'.jobs.Unfinished id) :
    s.jobs.Unfinished id ∧ (id = run.job → next.isSome = true) := by
  obtain ⟨r', forward, stays⟩ := turn.advance h at_ pc found
  obtain ⟨r'', is, live⟩ := unfinished
  obtain ⟨slot, there, listed, rfl⟩ := Jobs.listed_get.mp is
  obtain ⟨slot', old, same⟩ := turn.listed there
  rcases forward.writes id _ (record_get.mpr ⟨slot, there, rfl⟩) with ⟨rfl, rfl⟩ | ⟨other, was⟩
  · have ends := forward.ends
    cases next with
    | none =>
      rw [Settled.terminal ends] at live
      cases live
    | some run' =>
      refine ⟨.of_slot old (same.trans listed) found ?_, fun _ => rfl⟩
      cases terminal : r.response.status.terminal with
      | false => rfl
      | true => cases (stays terminal).1
  · exact ⟨.of_slot old (same.trans listed) was live, fun same => absurd same other⟩

/-- No section of a run changes the queue, or calls for the cancellations. -/
theorem RunTurn.leaves {s s' : Shared} {run : Run} {r : JobRecord} {next : Option Run}
    (turn : RunTurn env s run r s' next) :
    s'.jobs.queue = s.jobs.queue ∧ s'.jobs.cancelCalls = s.jobs.cancelCalls := by
  have set : ∀ (j : Jobs) (r' : JobRecord), (j.setRecord run.job r').queue = j.queue ∧
      (j.setRecord run.job r').cancelCalls = j.cancelCalls := fun j r' => by
    unfold Jobs.setRecord
    split <;> exact ⟨rfl, rfl⟩
  cases turn with
  | start | markRunning | mark | markLast | finalize | publish => exact set _ _
  | _ => exact ⟨rfl, rfl⟩

/-- Every unfinished job is in the queue or at the runner, and no job is twice there. -/
structure Tracked (s : Service) : Prop where
  once : s.shared.jobs.queue.Nodup
  queued : ∀ id ∈ s.shared.jobs.queue, Issued s id
  running : ∀ run, s.shared.jobs.runner = .running run →
    Issued s run.job ∧ run.job ∉ s.shared.jobs.queue
  tracked : ∀ id, s.shared.jobs.Unfinished id →
    id ∈ s.shared.jobs.queue ∨ ∃ run, s.shared.jobs.runner = .running run ∧ run.job = id

/-- At the start there is no job to be lost. -/
theorem tracked_start (env : Env) (now : Nat) : Tracked (service env now).start where
  once := List.nodup_nil
  queued id mem := by cases mem
  running run at_ := by cases at_
  tracked id unfinished := by
    obtain ⟨r, is, -⟩ := unfinished
    obtain ⟨slot, found, -⟩ := Jobs.listed_get.mp is
    cases (Table.get_empty (α := JobSlot) id).symm.trans found

/-- Nothing but the runner's own steps takes it to a job, or from one. -/
theorem Heard.running {s s' : Service} (heard : Heard s s') (run : Run) :
    s'.shared.jobs.runner = .running run ↔ s.shared.jobs.runner = .running run := by
  cases heard with
  | quiet same => rw [same.runner]
  | started before after => simp [before, after]
  | committed n record at_ runner => rw [runner, notifyOne_running]
  | called runner => rw [runner, notifyWaiters_running]

/-- The queue only grows by a job whose identifier was not given out before. -/
theorem Heard.queue {s s' : Service} (heard : Heard s s') :
    s'.shared.jobs.queue = s.shared.jobs.queue ∨
      ∃ id, ¬ Issued s id ∧ (∃ r, s'.shared.jobs.record id = some r) ∧
        s'.shared.jobs.queue = s.shared.jobs.queue ++ [id] := by
  cases heard with
  | quiet same => exact .inl same.queue
  | started before after queue | called runner notify queue => exact .inl queue
  | committed n record at_ runner notify queue running there =>
    obtain ⟨i, found⟩ := at_
    exact .inr ⟨.job n, not_issued found, ⟨record, there⟩, queue⟩

section Turn

variable {s s' : Service} {reply : Reply}

theorem Tracked.heard (h : Tracked s) (inv : JobsInv s) (turn : Turn env s s' reply)
    (heard : Heard s s')
    (kept : ∀ id, s'.shared.jobs.Unfinished id →
      s.shared.jobs.Unfinished id ∨ id ∈ s'.shared.jobs.queue) : Tracked s' := by
  have issued : ∀ {id}, Issued s id → Issued s' id := turn.issued inv
  have new : ∀ {id}, (∃ r, s'.shared.jobs.record id = some r) → Issued s' id := by
    rintro id ⟨r, there⟩
    exact .record (turn.inv inv).numbered there
  refine ⟨?_, fun id mem => ?_, fun run at_ => ?_, fun id unfinished => ?_⟩
  · rcases heard.queue with same | ⟨id, fresh, -, longer⟩
    · rw [same]
      exact h.once
    · rw [longer, List.nodup_append]
      refine ⟨h.once, List.nodup_singleton _, fun k mem k' is => ?_⟩
      rw [List.mem_singleton] at is
      rintro rfl
      exact fresh (is ▸ h.queued k mem)
  · rcases heard.queue with same | ⟨k, -, there, longer⟩
    · exact issued (h.queued id (same ▸ mem))
    · rw [longer] at mem
      rcases List.mem_append.mp mem with old | last
      · exact issued (h.queued id old)
      · rw [List.mem_singleton.mp last]
        exact new there
  · obtain ⟨out, apart⟩ := h.running run ((heard.running run).mp at_)
    refine ⟨issued out, fun mem => ?_⟩
    rcases heard.queue with same | ⟨k, fresh, -, longer⟩
    · exact apart (same ▸ mem)
    · rw [longer] at mem
      rcases List.mem_append.mp mem with old | last
      · exact apart old
      · exact fresh (List.mem_singleton.mp last ▸ out)
  · rcases kept id unfinished with old | mem
    · rcases h.tracked id old with mem | ⟨run, at_, job⟩
      · left
        rcases heard.queue with same | ⟨k, -, -, longer⟩
        · rwa [same]
        · rw [longer]
          exact List.mem_append_left _ mem
      · exact .inr ⟨run, (heard.running run).mpr at_, job⟩
    · exact .inl mem

end Turn

/-- The runner moves outside its jobs, or stays with the job it is at. -/
theorem Tracked.moves {s : Service} (h : Tracked s) (runner : Runner) (notify : Notify)
    (same : ∀ id, (∃ run, runner = .running run ∧ run.job = id) ↔
      ∃ run, s.shared.jobs.runner = .running run ∧ run.job = id) :
    Tracked { s with shared := { s.shared with jobs := { s.shared.jobs with runner, notify } } } where
  once := h.once
  queued := h.queued
  running run at_ := by
    obtain ⟨old, was, job⟩ := (same run.job).mp ⟨run, at_, rfl⟩
    rw [← job]
    exact h.running old was
  tracked id unfinished := (h.tracked id unfinished).imp_right (same id).mpr

theorem Tracked.ran {s : Service} {shared : Shared} (h : Tracked s) (inv : JobsInv s)
    (turn : RunnerTurn env s.shared shared)
    (issued : ∀ id, Issued s id → Issued { s with shared } id) : Tracked { s with shared } := by
  have outside : ∀ (runner : Runner) (notify : Notify),
      (∀ run, s.shared.jobs.runner ≠ .running run) → (∀ run, runner ≠ .running run) →
      Tracked { s with shared := { s.shared with jobs := { s.shared.jobs with runner, notify } } } :=
    fun runner notify before after => h.moves runner notify fun id =>
      ⟨fun ⟨run, at_, _⟩ => absurd at_ (after run), fun ⟨run, at_, _⟩ => absurd at_ (before run)⟩
  cases turn with
  | arm at_ | empty seen at_ | leave seen at_ | wait seen at_ | permit seen at_ | register at_
  | called seen at_ | woken at_ => exact outside _ _ (by rw [at_]; nofun) nofun
  | pop seen id queue at_ first =>
    have once := h.once
    have all := h.queued
    rw [first] at once all
    rw [List.nodup_cons] at once
    refine ⟨once.2, fun k mem => all k (List.mem_cons_of_mem _ mem), fun run is => ?_,
      fun k unfinished => ?_⟩
    · cases is
      exact ⟨all id List.mem_cons_self, once.1⟩
    · rcases h.tracked k unfinished with mem | ⟨run, was, -⟩
      · rw [first] at mem
        rcases List.mem_cons.mp mem with same | rest
        · exact .inr ⟨_, rfl, same.symm⟩
        · exact .inl rest
      · rw [at_] at was
        cases was
  | missed run at_ pc missing =>
    refine ⟨h.once, h.queued, nofun, fun id unfinished => ?_⟩
    rcases h.tracked id unfinished with mem | ⟨run', was, job⟩
    · exact .inl mem
    · rw [at_] at was
      cases was
      obtain ⟨r, is, -⟩ := unfinished
      rw [← job] at is
      cases missing.symm.trans is
  | looked run r at_ pc found =>
    refine h.moves _ s.shared.jobs.notify fun id => ⟨fun ⟨run', is, job⟩ => ?_, fun ⟨old, was, job⟩ => ?_⟩
    · cases is
      exact ⟨run, at_, job⟩
    · rw [at_] at was
      cases was
      exact ⟨_, rfl, job⟩
  | job run r s₁ next at_ pc found turn =>
    obtain ⟨queue, -⟩ := turn.leaves
    obtain ⟨r', forward, -⟩ := turn.advance inv.orderly at_ pc found
    have ends := forward.ends
    have job : ∀ run', next = some run' → run'.job = run.job := by
      intro run' is
      subst is
      exact ends.1
    refine ⟨queue.symm ▸ h.once, fun id mem => issued id (h.queued id (queue ▸ mem)),
      fun run' is => ?_, fun id unfinished => ?_⟩
    · cases next with
      | none => cases is
      | some run'' =>
        cases is
        obtain ⟨out, apart⟩ := h.running run at_
        rw [job run' rfl]
        exact ⟨issued _ out, fun mem => apart (queue ▸ mem)⟩
    · obtain ⟨before, goes⟩ := turn.unfinished inv.orderly at_ pc found unfinished
      rcases h.tracked id before with mem | ⟨run', was, is⟩
      · exact .inl (queue.symm ▸ mem)
      · rw [at_] at was
        cases was
        obtain ⟨run', rfl⟩ := Option.isSome_iff_exists.mp (goes is.symm)
        exact .inr ⟨run', rfl, (job run' rfl).trans is⟩

/-- What `collect` drops is not listed. -/
theorem Tracked.collect {s : Service} (h : Tracked s) : Tracked s.collect where
  once := h.once
  queued := h.queued
  running := h.running
  tracked id unfinished := by
    obtain ⟨r, is, live⟩ := unfinished
    obtain ⟨slot, found, listed, rfl⟩ := Jobs.listed_get.mp is
    have there := ((collect_records s id slot).mp found).1
    exact h.tracked id ⟨_, Jobs.listed_get.mpr ⟨slot, there, listed, rfl⟩, live⟩

/-- Every action keeps the account of the unfinished jobs. -/
theorem act_tracked {s s' : Service} {a : Action} {reply : Reply} (h : Tracked s)
    (inv : StoreInv env s) (act : s.act env a = some (s', reply)) : Tracked s' := by
  have turn := act_turn act
  rcases act_cases act inv.tasks with ⟨input, shared, rfl, step, rfl⟩ | ⟨other, heard⟩
  · exact h.ran inv.jobs (runnerStep_turn step) fun id => turn.issued inv.jobs
  · exact h.heard inv.jobs turn heard fun id => act_unfinished act other

theorem reachable_tracked {s : Service} (reach : (service env now).Reachable s) : Tracked s := by
  refine reach.invariant (tracked_start env now) fun s a t r reach h step => ?_
  obtain ⟨s₁, act, -, rfl⟩ := step_turn step
  exact (act_tracked h (reachable_storeInv reach) act).collect

/-- **An unfinished job has one place**: in the queue, once, or at the runner. This holds in every
reachable state, between any two sections of the handlers and of the run. -/
theorem unfinished_placed (env : Env) (now : Nat) {s : Service}
    (reach : (service env now).Reachable s) {id : Id} {r : JobRecord}
    (listed : s.shared.jobs.listed id = some r) (live : r.response.status.terminal = false) :
    (s.shared.jobs.queue.count id = 1 ∧
      ¬ ∃ run, s.shared.jobs.runner = .running run ∧ run.job = id) ∨
    (id ∉ s.shared.jobs.queue ∧ ∃ run, s.shared.jobs.runner = .running run ∧ run.job = id) := by
  have h := reachable_tracked reach
  rcases h.tracked id ⟨r, listed, live⟩ with mem | ⟨run, at_, job⟩
  · refine .inl ⟨List.count_eq_one_of_mem h.once mem, fun ⟨run, at_, job⟩ => ?_⟩
    exact (h.running run at_).2 (job ▸ mem)
  · exact .inr ⟨job ▸ (h.running run at_).2, run, at_, job⟩

/-- A job has been submitted. -/
theorem unfinished_placed_submitted : ∃ s r, (service smallEnv 0).Reachable s ∧
    s.shared.jobs.listed (.job 1) = some r ∧
    (s.shared.jobs.queue.count (.job 1) = 1 ∨ .job 1 ∉ s.shared.jobs.queue) := by
  have ends : (((service smallEnv 0).play (service smallEnv 0).start submitted).bind fun s =>
      (s.shared.jobs.listed (.job 1)).map fun r => r.response.status) = some .queued := by
    decide +kernel
  obtain ⟨s, played, ends⟩ := Option.bind_eq_some_iff.mp ends
  obtain ⟨r, listed, queued⟩ := Option.map_eq_some_iff.mp ends
  have reach := Machine.Reachable.start.play played
  exact ⟨s, r, reach, listed, (unfinished_placed smallEnv 0 reach listed (by rw [queued]; rfl)).imp
    And.left And.left⟩

/-! ## The answer to a submission -/

/-- A record is committed under the identifier that its response tells. -/
def Labelled (s : Service) : Prop :=
  ∀ i t n record, s.tasks.get i = some t → t.next = some (.job (.prepareCommit n record)) →
    record.response.jobId = .job n

/-- A record that is prepared for the commit has the name that it will be listed under. -/
theorem JobTurn.labelled {s : Shared} {held : Id → Bool} {pc : JobPc} {o : JobOutcome} {n : Nat}
    {record : JobRecord} (turn : JobTurn env s held pc o)
    (next : o.next = some (.prepareCommit n record)) : record.response.jobId = .job n := by
  cases turn with
  | made req metadata budget files =>
    cases next
    rfl
  | stopped shutdown after reply goes | takeRunner handle after goes =>
    rcases goes with rfl | rfl <;> cases next
  | _ => cases next

theorem Labelled.setTask {s : Service} {shared : Shared} {m i : Nat} {t : Task} (h : Labelled s)
    (goes : ∀ n record, t.next = some (.job (.prepareCommit n record)) →
      record.response.jobId = .job n) :
    Labelled (({ s with shared, nextTask := m } : Service).setTask i t) := by
  intro j u n record found next
  rcases setTask_get_some found with ⟨rfl, rfl⟩ | ⟨-, old⟩
  · exact goes n record next
  · exact h j u n record old next

theorem Labelled.turn {s s' : Service} {reply : Reply} (h : Labelled s)
    (turn : Turn env s s' reply) : Labelled s' := by
  cases turn with
  | clock | foreign | run => exact h
  | call request o first =>
    subst first
    refine h.setTask fun n record next => ?_
    have none := (firstSection_issues s.shared request).2
    rw [show (firstSection s.shared request).next = _ from next] at none
    cases none
  | drop i t found => exact h.setTask fun n record next => h i t n record found next
  | abandon i w data found =>
    refine h.setTask fun n record next => ?_
    cases next
  | resume i pc input o found run =>
    refine h.setTask fun n record next => ?_
    rcases handlerSection_turn run with ⟨upc, uo, rfl, turn, rfl⟩ | ⟨jpc, jo, rfl, turn, rfl⟩
    · obtain ⟨upc', -, same⟩ := Option.map_eq_some_iff.mp next
      cases same
    · obtain ⟨jpc', is, same⟩ := Option.map_eq_some_iff.mp next
      cases same
      exact turn.labelled is

theorem reachable_labelled {s : Service} (reach : (service env now).Reachable s) : Labelled s := by
  refine reach.invariant (fun i t n record found => ?_) fun s a t r reach h step => ?_
  · cases (Table.get_empty (α := Task) i).symm.trans found
  · obtain ⟨s₁, -, turn, rfl⟩ := step_turn step
    exact fun i t => h.turn turn i t

/-- What an admission has done when it is answered. -/
structure Admitted (s t : Service) (id : Id) : Prop where
  fresh : ¬ Issued s id
  running : s.shared.jobs.stopping = false
  queue : t.shared.jobs.queue = s.shared.jobs.queue ++ [id]
  unfinished : t.shared.jobs.Unfinished id

/-- The section that answers with a job has just put it into the queue. -/
theorem jobSection_accepted {s : Shared} {held : Id → Bool} {pc : JobPc} {input : Input}
    {o : JobOutcome} {response : JobResponse} (run : jobSection env s held pc input = some o)
    (is : o.reply = .accepted response) : ∃ n record, pc = .prepareCommit n record ∧
      response = record.response ∧ s.jobs.stopping = false ∧
      o.state.jobs.queue = s.jobs.queue ++ [.job n] ∧
      o.state.jobs.listed (.job n) = some record := by
  rcases jobSection_ofJob run (by rw [is]; rfl) with ⟨k, rfl⟩ | ⟨n, record, rfl⟩
  · cases jobSection_turn run with
    | refuse | cancelQueued | cancelRunning => cases is
  · change some (commitJob s n record) = some o at run
    cases run
    unfold commitJob at is ⊢
    split at is
    · cases is
    · rename_i open_
      cases is
      rw [if_neg open_]
      rw [Bool.or_eq_true, not_or, Bool.not_eq_true] at open_
      refine ⟨n, record, rfl, rfl, open_.1, notifyOne_queue _,
        Jobs.listed_get.mpr ⟨⟨record, true⟩, ?_, rfl, rfl⟩⟩
      exact (congrArg (Table.get · _) (notifyOne_records _)).trans
        ((Table.get_set _ _ _ _).trans (if_pos rfl))

/-- A job that is answered as accepted is queued, and was not known before. -/
theorem accepted_admitted {s t : Service} {a : Action} {response : JobResponse}
    (reach : (service env now).Reachable s)
    (step : (service env now).step s a = some (t, .accepted response)) :
    Admitted s t response.jobId := by
  obtain ⟨s₁, act, -, rfl⟩ := step_turn step
  have inv := reachable_storeInv reach
  cases a with
  | call request =>
    have ofJob := firstSection_ofJob s.shared request
    have is : (firstSection s.shared request).reply = .accepted response :=
      congrArg Prod.snd (Option.some.inj act)
    rw [is] at ofJob
    cases ofJob
  | resume i input =>
    rcases resume_cases act with ⟨u, found, -, reply⟩ | ⟨pc, o, found, run, rfl, reply⟩
    · cases reply
    · cases pc with
      | upload pc =>
        obtain ⟨uo, taken, rfl⟩ := Option.map_eq_some_iff.mp run
        have ofJob := uploadSection_ofJob taken
        rw [show uo.reply = .accepted response from reply.symm] at ofJob
        cases ofJob
      | job pc =>
        obtain ⟨jo, taken, rfl⟩ := Option.map_eq_some_iff.mp run
        obtain ⟨n, record, rfl, rfl, running, queue, listed⟩ :=
          jobSection_accepted taken reply.symm
        have label := reachable_labelled reach i _ n record found rfl
        rw [label]
        refine ⟨not_issued found, running, queue, record, ?_, ?_⟩
        · obtain ⟨slot, there, is, same⟩ := Jobs.listed_get.mp listed
          exact Jobs.listed_get.mpr ⟨slot, (collect_records _ _ slot).mpr ⟨there, .inl is⟩, is, same⟩
        · obtain ⟨-, fresh, -⟩ := inv.jobs.prepared i _ _ found rfl
          rw [fresh.status]
          rfl
  | abandon i =>
    obtain ⟨w, data, -, -, reply⟩ := abandon_cases act
    cases reply
  | tick | foreignId => cases act
  | run input =>
    obtain ⟨shared, -, out⟩ := Option.map_eq_some_iff.mp act
    cases out

/-! ## After the runner has left -/

theorem Heard.left {s s' : Service} (heard : Heard s s') (left : s.shared.jobs.runner = .left) :
    s'.shared.jobs.runner = .left := by
  cases heard with
  | quiet same => rw [same.runner, left]
  | started before after => rw [left] at before; cases before
  | committed n record at_ runner => simp [runner, Jobs.notifyOne, left]
  | called runner => simp [runner, Jobs.notifyWaiters, left]

/-- The runner leaves for good. -/
theorem left_step {s s' : Service} {a : Action} {reply : Reply}
    (reach : (service env now).Reachable s) (left : s.shared.jobs.runner = .left)
    (step : (service env now).step s a = some (s', reply)) : s'.shared.jobs.runner = .left := by
  obtain ⟨s₁, act, -, rfl⟩ := step_turn step
  rcases act_cases act (reachable_storeInv reach).tasks with ⟨input, shared, -, ran, -⟩ | ⟨-, heard⟩
  · unfold runnerStep at ran
    rw [left] at ran
    cases ran
  · exact heard.left left

/-- A runner that has left has left an empty queue behind a set flag, and no job unfinished: an
unfinished job has its place in the queue or at the runner. -/
theorem left_empty {s : Service} (reach : (service env now).Reachable s)
    (left : s.shared.jobs.runner = .left) :
    s.shared.jobs.queue = [] ∧ s.shared.jobs.stopping = true ∧
      ∀ id, ¬ s.shared.jobs.Unfinished id := by
  obtain ⟨empty, stopping⟩ := (reachable_awake reach).left left
  refine ⟨empty, stopping, fun id unfinished => ?_⟩
  rcases (reachable_tracked reach).tracked id unfinished with mem | ⟨run, at_, -⟩
  · rw [empty] at mem
    cases mem
  · rw [left] at at_
    cases at_

/-- When the runner has left, every listed job has ended. -/
theorem left_terminal {s : Service} (reach : (service env now).Reachable s)
    (left : s.shared.jobs.runner = .left) {id : Id} {r : JobRecord}
    (listed : s.shared.jobs.listed id = some r) : r.response.status.terminal = true := by
  cases terminal : r.response.status.terminal with
  | true => rfl
  | false => exact absurd ⟨r, listed, terminal⟩ ((left_empty reach left).2.2 id)

/-- Behind a runner that has left no submission is accepted, over any further interleaving: an
admission needs the flag clear. -/
theorem left_refuses {s t : Service} {h : List (Action × Reply)}
    (reach : (service env now).Reachable s) (left : s.shared.jobs.runner = .left)
    (run : (service env now).Run s h t) :
    t.shared.jobs.runner = .left ∧ ∀ a response, (a, Reply.accepted response) ∉ h := by
  induction run with
  | refl => exact ⟨left, fun a response mem => by cases mem⟩
  | snoc run step ih =>
    obtain ⟨left, refused⟩ := ih
    have before := reach.run run
    refine ⟨left_step before left step, fun a response mem => ?_⟩
    rcases List.mem_append.mp mem with old | last
    · exact refused a response old
    · cases List.mem_singleton.mp last
      obtain ⟨-, stopping, -⟩ := left_empty before left
      rw [(accepted_admitted before step).running] at stopping
      cases stopping

/-- **Once the runner has left, no job is queued or unfinished**, and none is accepted any more, in
any run from there. -/
theorem left_drained (env : Env) (now : Nat) {s t : Service} {h : List (Action × Reply)}
    (reach : (service env now).Reachable s) (left : s.shared.jobs.runner = .left)
    (run : (service env now).Run s h t) :
    t.shared.jobs.runner = .left ∧ t.shared.jobs.queue = [] ∧
      (∀ id r, t.shared.jobs.listed id = some r → r.response.status.terminal = true) ∧
      ∀ a response, (a, Reply.accepted response) ∉ h := by
  obtain ⟨still, refused⟩ := left_refuses reach left run
  have after := reach.run run
  exact ⟨still, (left_empty after still).1, fun id r listed => left_terminal after still listed,
    refused⟩

/-- The runner is started and told to stop before any job came, and leaves. -/
def stopped : List Action := .call .start :: .call .stopAdmissions :: List.replicate 3 (.run .go)

def Runner.hasLeft : Runner → Bool
  | left => true
  | _ => false

theorem hasLeft_left {runner : Runner} (gone : runner.hasLeft = true) : runner = .left := by
  cases runner with
  | left => rfl
  | _ => cases gone

/-- The service has been stopped, and time goes on. -/
theorem left_drained_stopped : ∃ s t, (service smallEnv 0).Reachable s ∧
    (service smallEnv 0).Run s [(.tick 1, .pending)] t ∧ t.shared.jobs.runner = .left ∧
    t.shared.jobs.queue = [] := by
  have ends : ((service smallEnv 0).play (service smallEnv 0).start stopped).any
      (fun s => s.shared.jobs.runner.hasLeft) = true := by decide +kernel
  obtain ⟨s, played, gone⟩ := (Option.any_eq_true _ _).mp ends
  have reach := Machine.Reachable.start.play played
  have run := (Machine.Run.refl (m := service smallEnv 0) s).snoc (a := .tick 1) rfl
  obtain ⟨left, empty, -⟩ := left_drained smallEnv 0 reach (hasLeft_left gone) run
  exact ⟨s, _, reach, run, left, empty⟩

/-! ## Popping a job -/

/-- The runner pops a job: it was the first of the queue, and the runner is about to look it up. -/
structure Pops (s t : Service) (id : Id) : Prop where
  waiting : ∃ seen, s.shared.jobs.runner = .armed seen
  queue : s.shared.jobs.queue = id :: t.shared.jobs.queue
  taken : ∃ run, t.shared.jobs.runner = .running run ∧ run.job = id ∧ run.pc = .lookup

/-- The identifier was given out and its job is not in the queue, or not any more. -/
def Gone (s : Service) (id : Id) : Prop := Issued s id ∧ id ∉ s.shared.jobs.queue

/-- A turn of the runner takes the first job from the queue or leaves the queue alone. -/
theorem RunnerTurn.queue {s s' : Shared} (turn : RunnerTurn env s s') :
    s'.jobs.queue = s.jobs.queue ∨ ∃ seen id run, s.jobs.runner = .armed seen ∧
      s.jobs.queue = id :: s'.jobs.queue ∧ s'.jobs.runner = .running run ∧ run.job = id ∧
        run.pc = .lookup := by
  cases turn with
  | pop seen id queue at_ first => exact .inr ⟨seen, id, _, at_, first, rfl, rfl, rfl⟩
  | job run r s' next at_ pc found turn => exact .inl turn.leaves.1
  | _ => exact .inl rfl

/-- A job never comes back into the queue. -/
theorem Gone.step {s s' : Service} {a : Action} {reply : Reply} {id : Id} (h : Gone s id)
    (inv : StoreInv env s) (step : (service env now).step s a = some (s', reply)) :
    Gone s' id := by
  obtain ⟨s₁, act, turn, rfl⟩ := step_turn step
  refine ⟨turn.issued inv.jobs h.1, fun mem => ?_⟩
  rcases act_cases act inv.tasks with ⟨input, shared, -, ran, rfl⟩ | ⟨-, heard⟩
  · rcases (runnerStep_turn ran).queue with same | ⟨seen, k, run, -, first, -⟩
    · exact h.2 (same ▸ mem)
    · apply h.2
      rw [first]
      exact List.mem_cons_of_mem _ mem
  · rcases heard.queue with same | ⟨k, fresh, -, longer⟩
    · exact h.2 (same ▸ mem)
    · change id ∈ s₁.shared.jobs.queue at mem
      rw [longer] at mem
      rcases List.mem_append.mp mem with old | last
      · exact h.2 old
      · exact fresh (List.mem_singleton.mp last ▸ h.1)

/-- No job is popped twice. -/
theorem popped_once (x : (service env now).Execution) {id : Id} {j k : Nat}
    (first : Pops (x.state j) (x.state (j + 1)) id) (second : Pops (x.state k) (x.state (k + 1)) id)
    (later : j < k) : False := by
  obtain ⟨run, at_, job, -⟩ := first.taken
  have gone : Gone (x.state (j + 1)) id := job ▸ (reachable_tracked (x.reachable (j + 1))).running run at_
  have still := x.stays (P := fun s => Gone s id)
    (fun s a t r reach h step => h.step (reachable_storeInv reach) step) gone later
  apply still.2
  rw [second.queue]
  exact List.mem_cons_self

end Mineru.Official
