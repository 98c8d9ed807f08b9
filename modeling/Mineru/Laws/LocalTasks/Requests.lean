import Mineru.LocalTasks.Requests

/-!
# Every accepted request ends once

What a request went through, what it was told and what was sent are functions of its state, or of
one outcome. A request changes only by its worker until that has exited, and by a reaper pass or the
shutdown then. None gets lost in between: an exited request without an outcome is in the registry or
in a pass.

`RequestOk` is about one request, and has one form for a submission that is polled and one for a
call that waits (`AsyncOk`, `SyncOk`). `Inv` adds the registry and the passes. `Extends` says that a
step appends to histories and takes nothing back, from which it follows that an end once reached is
the only one.

A worker may take any time, and may die. That it ever ends is not proved: what is said of the
shutdown is about the states in which it is over.
-/

set_option autoImplicit false

namespace Mineru.LocalTasks

open Logic

/-! ## One request -/

section Request

variable {Result : Type} {sanitize : String → String} {r r' : Request Result}

/-- The states on the way to a state. -/
def track : TaskState Result → List (TaskState Result)
  | .pending => [.pending]
  | .processing at_ => [.pending, .processing at_]
  | .completed result at_ => [.pending, .processing at_, .completed result at_]
  | .failed error none => [.pending, .failed error none]
  | .failed error (some at_) => [.pending, .processing at_, .failed error (some at_)]

/-- The events that a state ends with. -/
def endEvents : TaskState Result → List Event
  | .pending | .processing _ => []
  | .completed _ _ => [.requestCompleted]
  | .failed error _ => [.requestFailed error]

/-- What the stage of an async worker says about the state. -/
def AsyncStage (r : Request Result) : Prop :=
  match r.stage with
  | .waiting => r.state = .pending
  | .running at_ => r.state = .processing at_
  | .failing _ at_ => r.state.isTerminal = false ∧ r.state.startedAt = at_
  | .cleaning => False
  | .ended => r.state.isTerminal = true
  | .exited => True

/-- What the stage of a sync worker says about the sender. -/
def SyncStage (r : Request Result) : Prop :=
  match r.stage with
  | .waiting | .running _ | .cleaning => r.sender = true
  | .failing _ _ => False
  | .ended | .exited => r.sender = false

/-- An async request: its history and its events follow from its state. -/
structure AsyncOk (r : Request Result) : Prop where
  history : r.history = track r.state
  events : r.events = endEvents r.state
  stage : AsyncStage r
  listed : r.listed = false → r.state.isTerminal = true

/-- A sync request: one outcome is sent when the sender is taken, with its event. -/
structure SyncOk (r : Request Result) : Prop where
  waits : r.sender = true → r.sent = [] ∧ r.events = []
  done : r.sender = false → ∃ outcome, r.sent = [outcome] ∧ r.events = [outcome.event]
  stage : SyncStage r

def RequestOk (r : Request Result) : Prop :=
  match r.kind with
  | .async => AsyncOk r
  | .sync => SyncOk r

/-- The request has its outcome. -/
def Settled (r : Request Result) : Prop :=
  match r.kind with
  | .async => r.state.isTerminal = true
  | .sync => r.sender = false

/-- What may happen to a request: it stays in order and keeps its outcome, and when its worker has
exited, it either gets an outcome or keeps its start. -/
structure Advances (r r' : Request Result) : Prop where
  ok : RequestOk r'
  kind : r'.kind = r.kind
  exited : r.stage = .exited → r'.stage = .exited
  settled : Settled r → Settled r'
  started : r.stage = .exited → r'.state.isTerminal = false →
    r.state.isTerminal = false ∧ r'.state.startedAt = r.state.startedAt
  history : r.history <+: r'.history

theorem accepted_ok (kind : Kind) : RequestOk (.accepted kind : Request Result) := by
  cases kind with
  | async => exact ⟨rfl, rfl, rfl, fun unlisted => by cases unlisted⟩
  | sync => exact ⟨fun _ => ⟨rfl, rfl⟩, fun taken => (by cases taken), rfl⟩

/-- A failure is stored with the start that the state had. -/
theorem storeFailure_ok {error : String} {at_ : Option Nat} (h : AsyncOk r)
    (start : r.state.isTerminal = false → r.state.startedAt = at_) :
    let r' := r.storeFailure error at_
    r'.history = track r'.state ∧ r'.events = endEvents r'.state ∧ r'.state.isTerminal = true ∧
      r.history <+: r'.history := by
  intro r'
  show r'.history = _ ∧ _
  have is : r' = if r.state.isTerminal then r
      else (r.setState (.failed error at_)).emit (.requestFailed error) := rfl
  rw [is]
  cases terminal : r.state.isTerminal with
  | true => exact ⟨h.history, h.events, terminal, List.prefix_refl _⟩
  | false =>
    have events := h.events
    have history := h.history
    have same := start terminal
    refine ⟨?_, ?_, rfl, List.prefix_append _ _⟩
    · show r.history ++ [_] = track (.failed error at_)
      rw [history]
      cases state : r.state with
      | pending | processing =>
        rw [state] at same
        subst same
        rfl
      | completed | failed => simp [state, TaskState.isTerminal] at terminal
    · show r.events ++ [_] = endEvents (.failed error at_)
      rw [events]
      cases state : r.state with
      | pending | processing => rfl
      | completed | failed => simp [state, TaskState.isTerminal] at terminal

/-- The first to complete a sync request sends the outcome. -/
theorem complete_ok {outcome : Outcome Result} (h : SyncOk r) :
    let r' := r.complete outcome
    r'.sender = false ∧ ∃ outcome, r'.sent = [outcome] ∧ r'.events = [outcome.event] := by
  intro r'
  have is : r' = if r.sender then { r with
      sender := false
      sent := r.sent ++ [outcome]
      events := r.events ++ [outcome.event] } else r := rfl
  rw [is]
  cases sender : r.sender with
  | true =>
    obtain ⟨sent, events⟩ := h.waits sender
    exact ⟨rfl, outcome, by simp [sent], by simp [events]⟩
  | false => exact ⟨sender, h.done sender⟩

@[simp] theorem complete_kind (outcome : Outcome Result) : (r.complete outcome).kind = r.kind := by
  unfold Request.complete
  split
  · rfl
  · rfl

@[simp] theorem complete_history (outcome : Outcome Result) :
    (r.complete outcome).history = r.history := by
  unfold Request.complete
  split
  · rfl
  · rfl

@[simp] theorem storeFailure_kind (error : String) (at_ : Option Nat) :
    (r.storeFailure error at_).kind = r.kind := by
  unfold Request.storeFailure
  split
  · rfl
  · rfl

@[simp] theorem storeFailure_stage (error : String) (at_ : Option Nat) :
    (r.storeFailure error at_).stage = r.stage := by
  unfold Request.storeFailure
  split
  · rfl
  · rfl

theorem requestOk_async (kind : r.kind = .async) : RequestOk r ↔ AsyncOk r := by
  unfold RequestOk
  rw [kind]

theorem requestOk_of_async (kind : r.kind = .async) (h : AsyncOk r) : RequestOk r :=
  (requestOk_async kind).mpr h

theorem requestOk_sync (kind : r.kind = .sync) : RequestOk r ↔ SyncOk r := by
  unfold RequestOk
  rw [kind]

theorem requestOk_of_sync (kind : r.kind = .sync) (h : SyncOk r) : RequestOk r :=
  (requestOk_sync kind).mpr h

/-- A record may be dropped once its state is terminal. -/
theorem unlisted_ok (ok : RequestOk r) (terminal : r.kind = .async → r.state.isTerminal = true) :
    RequestOk { r with listed := false } := by
  by_cases kind : r.kind = .async
  · have async := (requestOk_async kind).mp ok
    exact requestOk_of_async kind ⟨async.history, async.events, async.stage, fun _ => terminal kind⟩
  · have kind : r.kind = .sync := by
      cases is : r.kind with
      | async => exact absurd is kind
      | sync => rfl
    have sync := (requestOk_sync kind).mp ok
    exact requestOk_of_sync kind ⟨sync.waits, sync.done, sync.stage⟩

theorem advances_of_running (running : r.stage ≠ .exited) (ok : RequestOk r')
    (kind : r'.kind = r.kind) (settled : Settled r → Settled r')
    (history : r.history <+: r'.history) : Advances r r' :=
  ⟨ok, kind, fun exited => absurd exited running, settled, fun exited => absurd exited running,
    history⟩

/-- `fail_record` begins, for an error or a panic. -/
theorem failing_advances {error : String} (kind : r.kind = .async) (h : AsyncOk r)
    (running : r.stage ≠ .exited) :
    Advances r (if r.state.isTerminal then r.goTo .ended
      else r.goTo (.failing error r.state.startedAt)) := by
  cases terminal : r.state.isTerminal with
  | true =>
    show Advances r (r.goTo .ended)
    refine advances_of_running running ?_ rfl id (List.prefix_refl _)
    exact requestOk_of_async kind ⟨h.history, h.events, terminal, h.listed⟩
  | false =>
    show Advances r (r.goTo (.failing error r.state.startedAt))
    refine advances_of_running running ?_ rfl id (List.prefix_refl _)
    exact requestOk_of_async kind ⟨h.history, h.events, ⟨terminal, rfl⟩, h.listed⟩

/-- A running async worker stores its result over the state. -/
theorem success_advances {result : Result} {at_ : Nat} (kind : r.kind = .async) (h : AsyncOk r)
    (running : r.stage = .running at_) :
    Advances r (((r.setState (.completed result at_)).emit .requestCompleted).goTo .ended) := by
  have state : r.state = .processing at_ := by
    have stage := h.stage
    rw [AsyncStage, running] at stage
    exact stage
  have history := h.history
  have events := h.events
  rw [state] at history events
  refine advances_of_running (by simp [running]) ?_ rfl ?_ (List.prefix_append _ _)
  · refine requestOk_of_async kind ⟨?_, ?_, rfl, fun _ => rfl⟩
    · show r.history ++ [_] = _
      rw [history]
      rfl
    · show r.events ++ [_] = _
      rw [events]
      rfl
  · intro _
    unfold Settled
    rw [show (((r.setState (.completed result at_)).emit .requestCompleted).goTo .ended).kind =
      .async from kind]
    rfl

/-- A sync worker completes the request and goes on. -/
theorem complete_advances {outcome : Outcome Result} {stage : Stage} (kind : r.kind = .sync)
    (h : SyncOk r) (running : r.stage ≠ .exited) (to_ : stage = .ended ∨ stage = .exited) :
    Advances r ((r.complete outcome).goTo stage) := by
  obtain ⟨taken, done⟩ := complete_ok h
  have kind' : ((r.complete outcome).goTo stage).kind = .sync := (complete_kind _).trans kind
  have history : ((r.complete outcome).goTo stage).history = r.history := complete_history _
  refine advances_of_running running ?_ (complete_kind _) ?_ (by rw [history])
  · refine requestOk_of_sync kind' ⟨fun waits => ?_, fun _ => done, ?_⟩
    · rw [show ((r.complete outcome).goTo stage).sender = false from taken] at waits
      cases waits
    · rcases to_ with rfl | rfl
      · exact taken
      · exact taken
  · intro _
    unfold Settled
    rw [kind']
    exact taken

/-- **Steps of a worker** keep its request in order. -/
theorem work_advances {w : Work Result} (h : RequestOk r) (taken : work sanitize r w = some r') :
    Advances r r' ∧ r.stage ≠ .exited := by
  cases kind : r.kind with
  | async =>
    have ok : AsyncOk r := (requestOk_async kind).mp h
    cases w with
    | begin_ at_ =>
      simp only [work, kind] at taken
      cases stage : r.stage with
      | waiting =>
        simp only [stage, Option.some.injEq] at taken
        subst taken
        have state : r.state = .pending := by
          have stage' := ok.stage
          rw [AsyncStage, stage] at stage'
          exact stage'
        have history := ok.history
        have events := ok.events
        rw [state] at history events
        refine ⟨advances_of_running (by simp [stage]) ?_ rfl ?_ (List.prefix_append _ _), by simp⟩
        · refine requestOk_of_async kind ⟨?_, events, rfl, fun unlisted => ?_⟩
          · show r.history ++ [_] = _
            rw [history]
            rfl
          · have terminal := ok.listed unlisted
            rw [state] at terminal
            cases terminal
        · intro settled
          unfold Settled at settled
          rw [kind, state] at settled
          cases settled
      | running | failing | cleaning | ended | exited => simp [stage] at taken
    | finish ending =>
      simp only [work] at taken
      cases stage : r.stage with
      | waiting =>
        cases ending with
        | error message =>
          simp only [stage, finishWorker, kind, Option.some.injEq] at taken
          subst taken
          exact ⟨failing_advances kind ok (by simp [stage]), by simp⟩
        | success | panic => simp [stage] at taken
      | running at_ =>
        cases ending with
        | error | panic =>
          simp only [stage, finishWorker, kind, Option.some.injEq] at taken
          subst taken
          exact ⟨failing_advances kind ok (by simp [stage]), by simp⟩
        | success result =>
          simp only [stage, finishWorker, kind, Option.some.injEq] at taken
          subst taken
          exact ⟨success_advances kind ok stage, by simp⟩
      | failing | cleaning | ended | exited => simp [stage] at taken
    | store =>
      simp only [work] at taken
      cases stage : r.stage with
      | failing error at_ =>
        simp only [stage, Option.some.injEq] at taken
        subst taken
        have failing := ok.stage
        rw [AsyncStage, stage] at failing
        obtain ⟨history, events, terminal, prefix_⟩ :=
          storeFailure_ok ok fun _ => failing.2
        have kind' : ((r.storeFailure (sanitize error) at_).goTo .ended).kind = .async :=
          (storeFailure_kind _ _).trans kind
        refine ⟨advances_of_running (by simp [stage]) ?_ (storeFailure_kind _ _) ?_ prefix_,
          by simp⟩
        · exact requestOk_of_async kind' ⟨history, events, terminal, fun _ => terminal⟩
        · intro _
          unfold Settled
          rw [kind']
          exact terminal
      | cleaning =>
        have never := ok.stage
        rw [AsyncStage, stage] at never
        exact never.elim
      | waiting | running | ended | exited => simp [stage] at taken
    | exit =>
      simp only [work] at taken
      split at taken
      · rename_i stage
        cases taken
        refine ⟨advances_of_running (by simp [stage]) ?_ rfl id (List.prefix_refl _),
          by simp [stage]⟩
        exact requestOk_of_async kind ⟨ok.history, ok.events, trivial, ok.listed⟩
      · cases taken
    | lose =>
      have lost : r.stage ≠ .exited → Advances r (r.goTo .exited) := by
        intro running
        refine advances_of_running running ?_ rfl id (List.prefix_refl _)
        exact requestOk_of_async kind ⟨ok.history, ok.events, trivial, ok.listed⟩
      simp only [work, kind] at taken
      cases stage : r.stage with
      | waiting | running | failing | cleaning =>
        simp only [stage, Option.some.injEq] at taken
        subst taken
        exact ⟨lost (by simp [stage]), by simp⟩
      | ended | exited => simp [stage] at taken
  | sync =>
    have ok : SyncOk r := (requestOk_sync kind).mp h
    cases w with
    | begin_ at_ =>
      simp only [work, kind] at taken
      cases stage : r.stage with
      | waiting =>
        simp only [stage, Option.some.injEq] at taken
        subst taken
        have waits := ok.stage
        rw [SyncStage, stage] at waits
        refine ⟨advances_of_running (by simp [stage]) ?_ rfl id (List.prefix_refl _), by simp⟩
        exact requestOk_of_sync kind ⟨ok.waits, ok.done, waits⟩
      | running | failing | cleaning | ended | exited => simp [stage] at taken
    | finish ending =>
      simp only [work] at taken
      cases stage : r.stage with
      | waiting =>
        cases ending with
        | error message =>
          simp only [stage, finishWorker, kind, Option.some.injEq] at taken
          subst taken
          exact ⟨complete_advances kind ok (by simp [stage]) (.inl rfl), by simp⟩
        | success | panic => simp [stage] at taken
      | running at_ =>
        cases ending with
        | error | success =>
          simp only [stage, finishWorker, kind, Option.some.injEq] at taken
          subst taken
          exact ⟨complete_advances kind ok (by simp [stage]) (.inl rfl), by simp⟩
        | panic =>
          simp only [stage, finishWorker, kind, Option.some.injEq] at taken
          subst taken
          have waits := ok.stage
          rw [SyncStage, stage] at waits
          refine ⟨advances_of_running (by simp [stage]) ?_ rfl id (List.prefix_refl _), by simp⟩
          exact requestOk_of_sync kind ⟨ok.waits, ok.done, waits⟩
      | failing | cleaning | ended | exited => simp [stage] at taken
    | store =>
      simp only [work] at taken
      cases stage : r.stage with
      | failing error at_ =>
        have never := ok.stage
        rw [SyncStage, stage] at never
        exact never.elim
      | cleaning =>
        simp only [stage, Option.some.injEq] at taken
        subst taken
        exact ⟨complete_advances kind ok (by simp [stage]) (.inl rfl), by simp⟩
      | waiting | running | ended | exited => simp [stage] at taken
    | exit =>
      simp only [work] at taken
      split at taken
      · rename_i stage
        cases taken
        have done := ok.stage
        rw [SyncStage, stage] at done
        refine ⟨advances_of_running (by simp [stage]) ?_ rfl id (List.prefix_refl _),
          by simp [stage]⟩
        exact requestOk_of_sync kind ⟨ok.waits, ok.done, done⟩
      · cases taken
    | lose =>
      simp only [work, kind] at taken
      cases stage : r.stage with
      | waiting | running | failing | cleaning =>
        simp only [stage, Option.some.injEq] at taken
        subst taken
        exact ⟨complete_advances kind ok (by simp [stage]) (.inr rfl), by simp⟩
      | ended | exited => simp [stage] at taken

end Request

/-! ## All requests -/

/-- The tasks that the registry still holds. -/
def Registry.tasks : Registry → List Nat
  | serving tasks | draining tasks => tasks
  | cleared => []

structure Inv {Result : Type} (s : Service Result) : Prop where
  ok : ∀ (i : Nat) (r : Request Result), s.requests[i]? = some r → RequestOk r
  running : ∀ (i : Nat) (r : Request Result), s.requests[i]? = some r → r.stage ≠ .exited →
    i ∈ s.registry.tasks
  kept : ∀ (i : Nat) (r : Request Result), s.requests[i]? = some r →
    Settled r ∨ i ∈ s.registry.tasks ∨ ∃ pass ∈ s.passes, i ∈ pass.ids
  passes : ∀ pass ∈ s.passes, ∀ i ∈ pass.ids, ∃ r, s.requests[i]? = some r ∧ r.stage = .exited
  failing : ∀ pass ∈ s.passes, ∀ at_, pass.failing = some at_ → ∃ (i : Nat) (rest : List Nat) (r : Request Result),
    pass.ids = i :: rest ∧ s.requests[i]? = some r ∧ r.kind = .async ∧
      (r.state.isTerminal = false → r.state.startedAt = at_)
  registered : ∀ i ∈ s.registry.tasks, i < s.requests.length
  over_ : s.registry = .cleared → ∀ (i : Nat) (r : Request Result), s.requests[i]? = some r →
    Settled r

section Service

variable {Result : Type} {sanitize : String → String} {s t : Service Result} {r r' : Request Result}
  {i k : Nat}

/-- One request is replaced, and the others are as they were. -/
theorem get_put (found : s.requests[i]? = some r) (j : Nat) :
    (s.put i r').requests[j]? = if i = j then some r' else s.requests[j]? := by
  have inside := (List.getElem?_eq_some_iff.mp found).1
  show (s.requests.set i r')[j]? = _
  rw [List.getElem?_set]
  by_cases same : i = j
  · rw [if_pos same, if_pos same, if_pos (same ▸ inside)]
  · rw [if_neg same, if_neg same]

/-- A request that advances keeps the service in order. -/
theorem Inv.put (h : Inv s) (found : s.requests[i]? = some r) (advances : Advances r r') :
    Inv (s.put i r') where
  ok j q there := by
    rw [get_put found] at there
    split at there
    · cases there
      exact advances.ok
    · exact h.ok j q there
  running j q there stage := by
    rw [get_put found] at there
    split at there
    · rename_i same
      cases there
      exact same ▸ h.running i r found fun exited => stage (advances.exited exited)
    · exact h.running j q there stage
  kept j q there := by
    rw [get_put found] at there
    split at there
    · rename_i same
      cases there
      subst same
      exact (h.kept i r found).imp_left advances.settled
    · exact h.kept j q there
  passes pass mem j held := by
    obtain ⟨q, there, exited⟩ := h.passes pass mem j held
    rw [get_put found]
    split
    · rename_i same
      subst same
      rw [found] at there
      cases there
      exact ⟨r', rfl, advances.exited exited⟩
    · exact ⟨q, there, exited⟩
  failing pass mem at_ failing := by
    obtain ⟨j, rest, q, ids, there, kind, start⟩ := h.failing pass mem at_ failing
    obtain ⟨q', there', exited⟩ := h.passes pass mem j (by rw [ids]; exact List.mem_cons_self)
    rw [there] at there'
    cases there'
    refine ⟨j, rest, ?_⟩
    rw [get_put found]
    split
    · rename_i same
      subst same
      rw [found] at there
      cases there
      refine ⟨r', ids, rfl, advances.kind.trans kind, fun waits => ?_⟩
      obtain ⟨waits, same⟩ := advances.started exited waits
      exact same.trans (start waits)
    · exact ⟨q, ids, there, kind, start⟩
  registered j mem := by
    show j < (s.requests.set i r').length
    rw [List.length_set]
    exact h.registered j mem
  over_ cleared j q there := by
    rw [get_put found] at there
    split at there
    · cases there
      exact advances.settled (h.over_ cleared i r found)
    · exact h.over_ cleared j q there

/-- The passes change, and no request without an outcome gets lost. -/
theorem Inv.setPass (h : Inv s) {pass pass' : Pass} (at_ : s.passes[k]? = some pass)
    (fewer : ∀ j ∈ pass'.ids, j ∈ pass.ids)
    (done : ∀ j ∈ pass.ids, j ∉ pass'.ids → ∀ q, s.requests[j]? = some q → Settled q)
    (failing : ∀ start, pass'.failing = some start → ∃ i rest r, pass'.ids = i :: rest ∧
      s.requests[i]? = some r ∧ r.kind = .async ∧
        (r.state.isTerminal = false → r.state.startedAt = start)) :
    Inv { s with passes := s.passes.set k pass' } where
  ok := h.ok
  running := h.running
  kept j q there := by
    have inside := (List.getElem?_eq_some_iff.mp at_).1
    rcases h.kept j q there with settled | held | ⟨other, mem, held⟩
    · exact .inl settled
    · exact .inr (.inl held)
    · obtain ⟨k', inside', is⟩ := List.mem_iff_getElem.mp mem
      by_cases same : k = k'
      · subst same
        have : other = pass := by
          rw [← is]
          exact (List.getElem?_eq_some_iff.mp at_).2
        subst this
        by_cases still : j ∈ pass'.ids
        · exact .inr (.inr ⟨pass', List.mem_set inside _, still⟩)
        · exact .inl (done j held still q there)
      · refine .inr (.inr ⟨other, ?_, held⟩)
        apply List.mem_of_getElem? (i := k')
        show (s.passes.set k pass')[k']? = _
        rw [List.getElem?_set_ne same, List.getElem?_eq_getElem inside', is]
  passes other mem j held := by
    rcases List.mem_or_eq_of_mem_set mem with before | rfl
    · exact h.passes other before j held
    · exact h.passes pass (List.mem_of_getElem? at_) j (fewer j held)
  failing other mem start is := by
    rcases List.mem_or_eq_of_mem_set mem with before | rfl
    · exact h.failing other before start is
    · exact failing start is
  registered := h.registered
  over_ := h.over_

/-- A request whose worker has exited is completed by its sender. -/
theorem completed_advances {outcome : Outcome Result} (kind : r.kind = .sync) (ok : RequestOk r)
    (exited : r.stage = .exited) : Advances r (r.complete outcome) := by
  have h := (requestOk_sync kind).mp ok
  have is : r.complete outcome = r := by
    have stage := h.stage
    rw [SyncStage, exited] at stage
    simp [Request.complete, show r.sender = false from stage]
  rw [is]
  exact ⟨ok, rfl, id, id, fun _ waits => ⟨waits, rfl⟩, List.prefix_refl _⟩

/-- A request that its worker left without an outcome fails. -/
theorem failed_advances {error : String} {at_ : Option Nat} (kind : r.kind = .async)
    (ok : RequestOk r) (exited : r.stage = .exited)
    (start : r.state.isTerminal = false → r.state.startedAt = at_) :
    Advances r (r.storeFailure error at_) ∧ Settled (r.storeFailure error at_) := by
  obtain ⟨history, events, terminal, prefix_⟩ :=
    storeFailure_ok ((requestOk_async kind).mp ok) start
  have kind' := (storeFailure_kind (r := r) error at_).trans kind
  have stage := (storeFailure_stage (r := r) error at_).trans exited
  have settled : Settled (r.storeFailure error at_) := by
    unfold Settled
    rw [kind']
    exact terminal
  refine ⟨⟨requestOk_of_async kind' ⟨history, events, ?_, fun _ => terminal⟩, storeFailure_kind _ _,
    fun _ => stage, fun _ => settled, fun _ waits => ?_, prefix_⟩, settled⟩
  · rw [AsyncStage, stage]
    trivial
  · rw [terminal] at waits
    cases waits

/-- The first request of a pass is looked at. -/
theorem inspect_inv {rest : List Nat} (h : Inv s) (at_ : s.passes[k]? = some ⟨i :: rest, none⟩) :
    Inv (inspect s k i rest) := by
  have mem := List.mem_of_getElem? at_
  obtain ⟨r, found, exited⟩ := h.passes _ mem i List.mem_cons_self
  have ok := h.ok i r found
  -- leaving the request is fine when it has its outcome
  have leave : Settled r → Inv { s with passes := s.passes.set k ⟨rest, none⟩ } := by
    intro settled
    apply h.setPass at_ (fun j held => List.mem_cons_of_mem _ held)
    · intro j held gone q there
      rcases List.mem_cons.mp held with rfl | later
      · rw [found] at there
        cases there
        exact settled
      · exact absurd later gone
    · exact fun start is => by cases is
  unfold inspect
  simp only [found]
  cases kind : r.kind with
  | async =>
    have async := (requestOk_async kind).mp ok
    by_cases waits : r.listed = true ∧ ¬ r.state.isTerminal = true
    · simp only [if_pos waits]
      refine h.setPass at_ (fun j held => held) (fun j held gone => absurd held gone) ?_
      intro start is
      cases is
      exact ⟨i, rest, r, rfl, found, kind, fun _ => rfl⟩
    · simp only [if_neg waits]
      apply leave
      unfold Settled
      rw [kind]
      cases terminal : r.state.isTerminal with
      | true => rfl
      | false =>
        have unlisted : r.listed = false := by
          cases listed : r.listed with
          | false => rfl
          | true => exact absurd ⟨listed, by simp [terminal]⟩ waits
        exact (terminal ▸ async.listed unlisted : false = true)
  | sync =>
    have sync := (requestOk_sync kind).mp ok
    have taken := sync.stage
    rw [SyncStage, exited] at taken
    have settled : Settled r := by
      unfold Settled
      rw [kind]
      exact taken
    exact (leave settled).put found (completed_advances kind ok exited)

/-- A pass takes some of the tasks over, and the others remain registered. -/
theorem mem_tasks_or_collected {tasks : List Nat} {p : Nat → Bool} (h : i ∈ tasks) :
    i ∈ tasks.filter (fun i => !p i) ∨ i ∈ tasks.filter p := by
  cases is : p i with
  | true => exact .inr (List.mem_filter.mpr ⟨h, is⟩)
  | false => exact .inl (List.mem_filter.mpr ⟨h, by simp [is]⟩)

theorem hasExited_iff : s.hasExited i = true ↔ ∃ r, s.requests[i]? = some r ∧ r.stage = .exited := by
  unfold Service.hasExited
  cases s.requests[i]? with
  | none | some => simp

/-- A reaper pass takes the exited tasks. -/
theorem reap_inv {tasks : List Nat} (h : Inv s) (serving : s.registry = .serving tasks) :
    Inv { s with
      registry := .serving (tasks.filter fun i => !s.hasExited i)
      passes := s.passes ++ [⟨tasks.filter s.hasExited, none⟩] } where
  ok := h.ok
  running j q there stage := by
    have held := h.running j q there stage
    rw [serving] at held
    refine List.mem_filter.mpr ⟨held, ?_⟩
    rw [Bool.not_eq_true', ← Bool.not_eq_true, hasExited_iff]
    rintro ⟨q', there', exited⟩
    rw [there] at there'
    cases there'
    exact stage exited
  kept j q there := by
    rcases h.kept j q there with settled | held | ⟨pass, mem, held⟩
    · exact .inl settled
    · rw [serving] at held
      rcases mem_tasks_or_collected (p := s.hasExited) held with stays | goes
      · exact .inr (.inl stays)
      · exact .inr (.inr ⟨_, List.mem_append_right _ List.mem_cons_self, goes⟩)
    · exact .inr (.inr ⟨pass, List.mem_append_left _ mem, held⟩)
  passes pass mem j held := by
    rcases List.mem_append.mp mem with before | last
    · exact h.passes pass before j held
    · obtain rfl := List.mem_singleton.mp last
      exact hasExited_iff.mp (List.mem_filter.mp held).2
  failing pass mem start is := by
    rcases List.mem_append.mp mem with before | last
    · exact h.failing pass before start is
    · obtain rfl := List.mem_singleton.mp last
      cases is
  registered j mem := by
    apply h.registered
    rw [serving]
    exact (List.mem_filter.mp mem).1
  over_ cleared := by cases cleared

theorem idle_ids (idle : s.idle = true) {pass : Pass} (mem : pass ∈ s.passes) : pass.ids = [] := by
  simpa using List.all_eq_true.mp idle pass mem

/-- The shutdown joins an exited task and looks at its request. -/
theorem joinNext_inv {tasks : List Nat} (h : Inv s) (draining : s.registry = .draining tasks)
    (exited : s.hasExited i = true) (idle : s.idle = true) :
    Inv { s with registry := .draining (tasks.erase i), passes := [⟨[i], none⟩] } where
  ok := h.ok
  running j q there stage := by
    have held := h.running j q there stage
    rw [draining] at held
    refine (List.mem_erase_of_ne ?_).mpr held
    rintro rfl
    obtain ⟨q', there', exited⟩ := hasExited_iff.mp exited
    rw [there] at there'
    cases there'
    exact stage exited
  kept j q there := by
    rcases h.kept j q there with settled | held | ⟨pass, mem, held⟩
    · exact .inl settled
    · rw [draining] at held
      by_cases same : j = i
      · exact .inr (.inr ⟨_, List.mem_cons_self, by simp [same]⟩)
      · exact .inr (.inl ((List.mem_erase_of_ne same).mpr held))
    · rw [idle_ids idle mem] at held
      cases held
  passes pass mem j held := by
    obtain rfl := List.mem_singleton.mp mem
    obtain rfl := List.mem_singleton.mp held
    exact hasExited_iff.mp exited
  failing pass mem start is := by
    obtain rfl := List.mem_singleton.mp mem
    cases is
  registered j mem := by
    apply h.registered
    rw [draining]
    exact List.mem_of_mem_erase mem
  over_ cleared := by cases cleared

/-- A request that is accepted goes to the registry at once. -/
theorem accept_inv {kind : Kind} {tasks : List Nat} (h : Inv s)
    (serving : s.registry = .serving tasks) :
    Inv { s with
      requests := s.requests ++ [.accepted kind]
      registry := .serving (tasks ++ [s.requests.length]) } := by
  have old : ∀ {j : Nat} {q : Request Result}, s.requests[j]? = some q →
      (s.requests ++ [.accepted kind])[j]? = some q := by
    intro j q there
    rw [List.getElem?_append_left (List.getElem?_eq_some_iff.mp there).1]
    exact there
  have cases_ : ∀ {j : Nat} {q : Request Result},
      (s.requests ++ [.accepted kind])[j]? = some q →
      s.requests[j]? = some q ∨ (j = s.requests.length ∧ q = .accepted kind) := by
    intro j q there
    rw [List.getElem?_append] at there
    split at there
    · exact .inl there
    · rename_i past
      have inside := (List.getElem?_eq_some_iff.mp there).1
      rw [List.length_singleton] at inside
      have zero : j - s.requests.length = 0 := by omega
      rw [zero] at there
      cases there
      exact .inr ⟨by omega, rfl⟩
  have tasks_ : ∀ j, j ∈ s.registry.tasks → j ∈ tasks ++ [s.requests.length] := by
    intro j held
    rw [serving] at held
    exact List.mem_append_left _ held
  refine ⟨?_, ?_, ?_, ?_, ?_, ?_, fun cleared => by cases cleared⟩
  · intro j q there
    rcases cases_ there with before | ⟨-, rfl⟩
    · exact h.ok j q before
    · exact accepted_ok kind
  · intro j q there stage
    rcases cases_ there with before | ⟨rfl, -⟩
    · exact tasks_ j (h.running j q before stage)
    · exact List.mem_append_right _ List.mem_cons_self
  · intro j q there
    rcases cases_ there with before | ⟨rfl, -⟩
    · exact (h.kept j q before).imp_right (Or.imp_left (tasks_ j))
    · exact .inr (.inl (List.mem_append_right _ List.mem_cons_self))
  · intro pass mem j held
    obtain ⟨q, there, exited⟩ := h.passes pass mem j held
    exact ⟨q, old there, exited⟩
  · intro pass mem start is
    obtain ⟨j, rest, q, ids, there, kind', same⟩ := h.failing pass mem start is
    exact ⟨j, rest, q, ids, old there, kind', same⟩
  · intro j mem
    rw [List.length_append, List.length_singleton]
    rcases List.mem_append.mp mem with before | last
    · have := h.registered j (by rw [serving]; exact before)
      omega
    · have := List.mem_singleton.mp last
      omega

/-- When nothing is left of the registry and the passes, every request has its outcome. -/
theorem settled_of_idle (h : Inv s) (none : s.registry.tasks = []) (idle : s.idle = true)
    (found : s.requests[i]? = some r) : Settled r := by
  rcases h.kept i r found with settled | held | ⟨pass, mem, held⟩
  · exact settled
  · rw [none] at held
    cases held
  · rw [idle_ids idle mem] at held
    cases held

/-- The registry is cleared only when nothing is left in it and no pass is at work. -/
theorem clear_inv (h : Inv s) (draining : s.registry = .draining []) (idle : s.idle = true) :
    Inv { s with
      registry := .cleared
      requests := s.requests.map fun r => { r with listed := false } } := by
  have none : s.registry.tasks = [] := by rw [draining]; rfl
  have get : ∀ {j : Nat} {q : Request Result},
      (s.requests.map fun r => { r with listed := false })[j]? = some q →
      ∃ r, s.requests[j]? = some r ∧ q = { r with listed := false } := by
    intro j q there
    rw [List.getElem?_map] at there
    obtain ⟨r, found, rfl⟩ := Option.map_eq_some_iff.mp there
    exact ⟨r, found, rfl⟩
  refine ⟨?_, ?_, ?_, ?_, ?_, fun j mem => (by cases mem), ?_⟩
  · intro j q there
    obtain ⟨r, found, rfl⟩ := get there
    have settled := settled_of_idle h none idle found
    apply unlisted_ok (h.ok j r found)
    intro kind
    unfold Settled at settled
    rw [kind] at settled
    exact settled
  · intro j q there stage
    obtain ⟨r, found, rfl⟩ := get there
    have held := h.running j r found stage
    rw [none] at held
    cases held
  · intro j q there
    obtain ⟨r, found, rfl⟩ := get there
    have settled := settled_of_idle h none idle found
    exact .inl settled
  · intro pass mem j held
    rw [idle_ids idle mem] at held
    cases held
  · intro pass mem start is
    obtain ⟨j, rest, q, ids, -⟩ := h.failing pass mem start is
    rw [idle_ids idle mem] at ids
    cases ids
  · intro _ j q there
    obtain ⟨r, found, rfl⟩ := get there
    have settled := settled_of_idle h none idle found
    exact settled

/-- A pass settles a request that has exited, and goes on with the next one. -/
theorem settle_inv {rest : List Nat} {at_ : Option Nat} {error : String} (h : Inv s)
    (pass : s.passes[k]? = some ⟨i :: rest, some at_⟩) (found : s.requests[i]? = some r) :
    Inv (Service.put { s with passes := s.passes.set k ⟨rest, none⟩ } i
      (r.storeFailure error at_)) := by
  have mem := List.mem_of_getElem? pass
  obtain ⟨j, rest', q, ids, there, kind, start⟩ := h.failing _ mem at_ rfl
  cases ids
  rw [found] at there
  cases there
  obtain ⟨q, there, exited⟩ := h.passes _ mem i List.mem_cons_self
  rw [found] at there
  cases there
  obtain ⟨advances, settled⟩ := failed_advances kind (h.ok i r found) exited start
  refine (h.put found advances).setPass (k := k) pass
    (fun j held => List.mem_cons_of_mem _ held) ?_ (fun start is => by cases is)
  intro j held gone q there
  rcases List.mem_cons.mp held with rfl | later
  · rw [get_put found, if_pos rfl] at there
    cases there
    exact settled
  · exact absurd later gone

/-- Every step keeps the invariant, with one lemma for each action that changes a request. -/
theorem step_inv {a : Action Result} (h : Inv s) (taken : step sanitize s a = some t) : Inv t := by
  cases a with
  | accept kind =>
    simp only [step] at taken
    split at taken
    · rename_i tasks serving
      cases taken
      exact accept_inv h serving
    · cases taken
  | work i w =>
    simp only [step] at taken
    split at taken
    · rename_i r found
      obtain ⟨r', did, rfl⟩ := Option.map_eq_some_iff.mp taken
      exact h.put found (work_advances (h.ok i r found) did).1
    · cases taken
  | drop i =>
    simp only [step] at taken
    split at taken
    · rename_i r found
      split at taken
      · rename_i terminal
        cases taken
        refine h.put found ⟨?_, rfl, id, id, fun _ waits => ⟨waits, rfl⟩, List.prefix_refl _⟩
        exact unlisted_ok (h.ok i r found) fun _ => terminal
      · cases taken
    · cases taken
  | reap =>
    simp only [step] at taken
    split at taken
    · rename_i tasks serving
      cases taken
      exact reap_inv h serving
    · cases taken
  | inspect k =>
    simp only [step] at taken
    split at taken
    · rename_i i rest pass
      cases taken
      exact inspect_inv h pass
    · cases taken
  | settle k =>
    simp only [step] at taken
    split at taken
    · rename_i i rest at_ pass
      split at taken
      · rename_i r found
        cases taken
        exact settle_inv h pass found
      · cases taken
    · cases taken
  | shutdown =>
    simp only [step] at taken
    split at taken
    · rename_i tasks serving
      split at taken
      · cases taken
        have same : s.registry.tasks = tasks := by rw [serving]; rfl
        exact ⟨h.ok, fun j q there stage => same ▸ h.running j q there stage,
          fun j q there => same ▸ h.kept j q there, h.passes, h.failing,
          fun j mem => h.registered j (same ▸ mem), fun cleared => by cases cleared⟩
      · cases taken
    · cases taken
  | joinNext i =>
    simp only [step] at taken
    split at taken
    · rename_i tasks draining
      split at taken
      · rename_i may
        cases taken
        exact joinNext_inv h draining may.2.1 may.2.2
      · cases taken
    · cases taken
  | clear =>
    simp only [step] at taken
    split at taken
    · rename_i draining
      split at taken
      · rename_i idle
        cases taken
        exact clear_inv h draining idle
      · cases taken
    · cases taken

theorem start_inv : Inv (.start : Service Result) := by
  have none : ∀ (i : Nat) (r : Request Result), (Service.start : Service Result).requests[i]? ≠ some r := by
    intro i r found
    simp [Service.start] at found
  exact ⟨fun i r found => absurd found (none i r), fun i r found => absurd found (none i r),
    fun i r found => absurd found (none i r), fun pass mem => by simp [Service.start] at mem,
    fun pass mem => by simp [Service.start] at mem, fun i mem => by simp [Service.start, Registry.tasks] at mem,
    fun cleared => by cases cleared⟩

theorem reachable_inv (h : (machine Result sanitize).Reachable s) : Inv s := by
  apply Machine.Reachable.invariant (P := Inv) start_inv _ h
  intro s a t reply _ inv taken
  obtain ⟨found, took, rfl, rfl⟩ :
      ∃ found, step sanitize s a = some found ∧ found = t ∧ () = reply := by
    simpa [machine] using taken
  exact step_inv inv took

end Service

/-! ## What the service promises -/

/-- A request that is told of its end once: the events of an async one are the ones of its state, and
a sync one is sent one outcome with its event. -/
structure Told {Result : Type} (r : Request Result) : Prop where
  async : r.kind = .async → r.history = track r.state ∧ r.events = endEvents r.state
  sync : r.kind = .sync → (r.sent = [] ∧ r.events = []) ∨
    ∃ outcome, r.sent = [outcome] ∧ r.events = [outcome.event]

/-- The request has ended: with one event, and with one outcome if it is sync. -/
def Ended {Result : Type} (r : Request Result) : Prop :=
  (∃ event, r.events = [event]) ∧ (r.kind = .sync → ∃ outcome, r.sent = [outcome])

section Promise

variable {Result : Type} {sanitize : String → String} {s : Service Result} {r : Request Result}

/-- What a request was told is what its end was, in both forms. -/
theorem told_of_ok (ok : RequestOk r) : Told r where
  async kind := by
    have h := (requestOk_async kind).mp ok
    exact ⟨h.history, h.events⟩
  sync kind := by
    have h := (requestOk_sync kind).mp ok
    cases sender : r.sender with
    | true => exact .inl (h.waits sender)
    | false => exact .inr (h.done sender)

/-- A settled request has one outcome. -/
theorem ended_of_settled (ok : RequestOk r) (settled : Settled r) : Ended r := by
  unfold Settled at settled
  cases kind : r.kind with
  | async =>
    rw [kind] at settled
    have h := (requestOk_async kind).mp ok
    refine ⟨?_, fun sync => by rw [kind] at sync; cases sync⟩
    rw [h.events]
    cases state : r.state with
    | pending | processing => simp [state, TaskState.isTerminal] at settled
    | completed | failed => exact ⟨_, rfl⟩
  | sync =>
    rw [kind] at settled
    obtain ⟨outcome, sent, events⟩ := ((requestOk_sync kind).mp ok).done settled
    exact ⟨⟨_, events⟩, fun _ => ⟨outcome, sent⟩⟩

/-- A terminal state is the last one. -/
theorem terminal_stays {state state' : TaskState Result} (terminal : state.isTerminal = true)
    (more : track state <+: track state') : state' = state := by
  cases state with
  | pending | processing => cases terminal
  | completed result at_ =>
    cases state' with
    | pending | processing => simp [track] at more
    | completed result' at_' => simp_all [track]
    | failed error at_' =>
      cases at_' with
      | none | some => simp [track] at more
  | failed error at_ =>
    cases at_ with
    | none =>
      cases state' with
      | pending | processing | completed => simp [track] at more
      | failed error at_' =>
        cases at_' with
        | none => simp_all [track]
        | some at_' => simp [track] at more
    | some at_ =>
      cases state' with
      | pending | processing | completed => simp [track] at more
      | failed error at_' =>
        cases at_' with
        | none => simp [track] at more
        | some at_' => simp_all [track]

/-- Every request is still there, and its history has only grown. -/
def Extends (s t : Service Result) : Prop :=
  ∀ (i : Nat) (r : Request Result), s.requests[i]? = some r →
    ∃ r', t.requests[i]? = some r' ∧ r'.kind = r.kind ∧ r.history <+: r'.history

theorem Extends.of_same {t : Service Result} (same : t.requests = s.requests) : Extends s t := by
  intro i r found
  rw [same]
  exact ⟨r, found, rfl, List.prefix_refl _⟩

/-- The request keeps its kind and appends to its history. -/
theorem Extends.put {t : Service Result} {i : Nat} {r' : Request Result}
    (found : s.requests[i]? = some r) (same : t.requests = (s.put i r').requests)
    (kind : r'.kind = r.kind) (history : r.history <+: r'.history) : Extends s t := by
  intro j q there
  rw [same, get_put found]
  split
  · rename_i is
    subst is
    rw [found] at there
    cases there
    exact ⟨r', rfl, kind, history⟩
  · exact ⟨q, there, rfl, List.prefix_refl _⟩

/-- A failure is written behind what was there. -/
theorem storeFailure_history (error : String) (at_ : Option Nat) :
    r.history <+: (r.storeFailure error at_).history := by
  unfold Request.storeFailure
  split
  · exact List.prefix_refl _
  · exact List.prefix_append _ _

/-- No step takes back anything of a history. -/
theorem step_extends {t : Service Result} {a : Action Result} (h : Inv s)
    (taken : step sanitize s a = some t) : Extends s t := by
  cases a with
  | accept kind =>
    simp only [step] at taken
    split at taken
    · cases taken
      intro i r found
      refine ⟨r, ?_, rfl, List.prefix_refl _⟩
      show (s.requests ++ [_])[i]? = _
      rw [List.getElem?_append_left (List.getElem?_eq_some_iff.mp found).1]
      exact found
    · cases taken
  | work i w =>
    simp only [step] at taken
    split at taken
    · rename_i r found
      obtain ⟨r', did, rfl⟩ := Option.map_eq_some_iff.mp taken
      obtain ⟨advances, -⟩ := work_advances (h.ok i r found) did
      exact .put found rfl advances.kind advances.history
    · cases taken
  | drop i =>
    simp only [step] at taken
    split at taken
    · rename_i r found
      split at taken
      · cases taken
        exact .put found rfl rfl (List.prefix_refl _)
      · cases taken
    · cases taken
  | inspect k =>
    simp only [step] at taken
    split at taken
    · cases taken
      unfold inspect
      split
      · exact .of_same rfl
      · rename_i r found
        split
        · split
          · exact .of_same rfl
          · exact .of_same rfl
        · exact .put found rfl (complete_kind _) (by rw [complete_history])
    · cases taken
  | settle k =>
    simp only [step] at taken
    split at taken
    · split at taken
      · rename_i r found
        cases taken
        exact .put found rfl (storeFailure_kind _ _) (storeFailure_history _ _)
      · cases taken
    · cases taken
  | reap =>
    simp only [step] at taken
    split at taken
    · cases taken
      exact .of_same rfl
    · cases taken
  | shutdown | joinNext =>
    simp only [step] at taken
    split at taken
    · split at taken
      · cases taken
        exact .of_same rfl
      · cases taken
    · cases taken
  | clear =>
    simp only [step] at taken
    split at taken
    · split at taken
      · cases taken
        intro i r found
        refine ⟨{ r with listed := false }, ?_, rfl, List.prefix_refl _⟩
        show (s.requests.map _)[i]? = _
        rw [List.getElem?_map, found]
        rfl
      · cases taken
    · cases taken

/-- The same of a run, with the invariant along it. -/
theorem run_extends {t : Service Result} {h : List (Action Result × Unit)} (inv : Inv s)
    (run : (machine Result sanitize).Run s h t) : Inv t ∧ Extends s t := by
  induction run with
  | refl => exact ⟨inv, .of_same rfl⟩
  | @snoc t u hist a reply run taken ih =>
    obtain ⟨before, extends_⟩ := ih
    obtain ⟨found, took, rfl, rfl⟩ :
        ∃ found, step sanitize t a = some found ∧ found = u ∧ () = reply := by
      simpa [machine] using taken
    refine ⟨step_inv before took, fun i r there => ?_⟩
    obtain ⟨r₁, there₁, kind₁, history₁⟩ := extends_ i r there
    obtain ⟨r₂, there₂, kind₂, history₂⟩ := step_extends before took i r₁ there₁
    exact ⟨r₂, there₂, kind₂.trans kind₁, history₁.trans history₂⟩

end Promise

/-- **Every accepted request ends once.** In every reachable state, what an async request went through
and its events follow from its state, and a sync one is sent at most one outcome, with its event. In
every run from there, the history of an async request only grows, so that a terminal state stays. No
request without an outcome gets lost, and when the shutdown is over each one has ended. -/
theorem requests_end_once {Result : Type} {sanitize : String → String} {s t : Service Result}
    {h : List (Action Result × Unit)} (reachable : (machine Result sanitize).Reachable s)
    (run : (machine Result sanitize).Run s h t) :
    (∀ r ∈ s.requests, Told r) ∧
    (∀ (i : Nat) (r : Request Result), s.requests[i]? = some r →
      ∃ r', t.requests[i]? = some r' ∧ r.history <+: r'.history ∧
        (r.kind = .async → r.state.isTerminal = true → r'.state = r.state)) ∧
    (∀ (i : Nat) (r : Request Result), s.requests[i]? = some r →
      Ended r ∨ i ∈ s.registry.tasks ∨ ∃ pass ∈ s.passes, i ∈ pass.ids) ∧
    (s.registry = .cleared → ∀ r ∈ s.requests, Ended r) := by
  have inv := reachable_inv reachable
  refine ⟨?_, ?_, ?_, ?_⟩
  · intro r mem
    obtain ⟨i, found⟩ := List.mem_iff_getElem?.mp mem
    exact told_of_ok (inv.ok i r found)
  · intro i r found
    obtain ⟨inv', extends_⟩ := run_extends inv run
    obtain ⟨r', found', kind, history⟩ := extends_ i r found
    refine ⟨r', found', history, fun async terminal => ?_⟩
    have before := (requestOk_async async).mp (inv.ok i r found)
    have after := (requestOk_async (kind.trans async)).mp (inv'.ok i r' found')
    rw [before.history, after.history] at history
    exact terminal_stays terminal history
  · intro i r found
    exact (inv.kept i r found).imp_left (ended_of_settled (inv.ok i r found))
  · intro cleared r mem
    obtain ⟨i, found⟩ := List.mem_iff_getElem?.mp mem
    exact ended_of_settled (inv.ok i r found) (inv.over_ cleared i r found)

/-- An async request fails, and a sync one loses its worker; then the service shuts down. -/
def twoRequests : List (Action Nat) :=
  [.accept .async, .accept .sync, .work 0 (.begin_ 7), .work 0 (.finish .panic), .work 0 .store,
    .work 1 .lose, .work 0 .exit, .reap, .inspect 0, .inspect 0, .shutdown, .clear]

def twoRequestsEnd : Service Nat where
  requests :=
    [⟨.async, .exited, .failed panicked (some 7), false, true,
        [.pending, .processing 7, .failed panicked (some 7)], [], [.requestFailed panicked]⟩,
      ⟨.sync, .exited, .pending, false, false, [.pending], [.error 409 terminated],
        [.requestFailed terminated]⟩]
  registry := .cleared
  passes := [⟨[], none⟩]

/-- A request of each kind comes to its end, and the shutdown with it. -/
theorem twoRequests_end : twoRequestsEnd.requests.Forall Ended := by
  rw [List.forall_iff_forall_mem]
  exact (requests_end_once
    (Machine.Reachable.start.play (show (machine _ id).play _ twoRequests = some _ from rfl))
    (.refl twoRequestsEnd)).2.2.2 rfl

end Mineru.LocalTasks
