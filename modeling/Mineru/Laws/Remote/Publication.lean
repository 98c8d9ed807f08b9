import Mineru.Laws.Remote.Jobs

/-!
# Nothing is published after cancellation

Outside of the gate a job publishes nothing, and inside of it the first thing it does is to check the
flag. The flag cannot be set while a job is inside, so a job that passed the check does all that it
does inside as if there was no flag, and its log is settled when it leaves.

A job that is stopped in the middle by the death of the process is not modelled: its steps simply do
not come any more.
-/

set_option autoImplicit false

namespace Mineru.Remote

open Logic Archive

/-! ## Every run -/

/-- Where a job stands: inside of the gate, or before it or after it. -/
def Stands (job : Job) : Bool → Bool → Running → Prop
  | true, flag, r => (flag = false ∧ Inside job.Settled r.rest r.log) ∨
      (r.log = [] ∧ (Entering job.Settled r.rest ∨ Refused job.Settled r.rest))
  | false, _, r => (r.log = [] ∧ Outside job.Settled r.rest) ∨
      ∃ result, Returns result r.rest ∧ job.Settled result r.log

def State.inside (s : State) (i : Nat) : Bool := s.gate = some (.job i)

structure Inv (jobs : List Job) (s : State) : Prop where
  guard : s.guard = .locked ∨ s.guard = .stored → s.gate = some .guard
  stands : ∀ (i : Nat) (job : Job), jobs[i]? = some job → Stands job (s.inside i) s.flag (s.jobs i)
  /-- There is no other job. -/
  others : ∀ i, jobs[i]? = none → (s.jobs i).rest = .ret (.ok ())

section Runs

variable {jobs : List Job} {job : Job} {s t : State} {i : Nat}

/-- The flag goes up when no job is inside. -/
theorem Stands.flag {flag flag' : Bool} {r : Running} (h : Stands job false flag r) :
    Stands job false flag' r := h

theorem start_inv (jobs : List Job) : Inv jobs (.start jobs) where
  guard h := by rcases h with is | is <;> cases is
  stands i job there := by
    simp only [State.start, there, State.inside]
    exact .inl ⟨rfl, program_outside job⟩
  others i none := by simp only [State.start, none]

theorem guardStep_inv (h : Inv jobs s) (taken : s.guardStep = some t) :
    Inv jobs t ∧ ∀ i, (t.jobs i).log = (s.jobs i).log := by
  unfold State.guardStep at taken
  cases guard : s.guard with
  | armed =>
    simp only [guard] at taken
    split at taken
    · rename_i free
      cases taken
      refine ⟨⟨fun _ => rfl, fun i job there => ?_, h.others⟩, fun _ => rfl⟩
      have stands := h.stands i job there
      rw [show s.inside i = false by simp [State.inside, free]] at stands
      exact stands
    · cases taken
  | locked =>
    simp only [guard] at taken
    cases taken
    have held := h.guard (.inl guard)
    refine ⟨⟨fun _ => held, fun i job there => ?_, h.others⟩, fun _ => rfl⟩
    have stands := h.stands i job there
    have outside : s.inside i = false := by simp [State.inside, held]
    rw [outside] at stands
    change Stands job (s.inside i) true (s.jobs i)
    rw [outside]
    exact stands.flag
  | stored =>
    simp only [guard] at taken
    cases taken
    have held := h.guard (.inr guard)
    refine ⟨⟨fun is => (by rcases is with is | is <;> cases is), fun i job there => ?_, h.others⟩,
      fun _ => rfl⟩
    have stands := h.stands i job there
    rw [show s.inside i = false by simp [State.inside, held]] at stands
    exact stands
  | dropped =>
    simp only [guard] at taken
    cases taken

/-- What one operation of a job does to the gate. -/
inductive Gate (i : Nat) (s t : State) : Prop where
  | stay (gate : t.gate = s.gate)
  | lock (free : s.gate = none) (gate : t.gate = some (.job i))
  | unlock (mine : s.gate = some (.job i)) (gate : t.gate = none)

theorem jobStep_some {look : Look} {ok : Bool} (taken : s.jobStep i look ok = some t) :
    ∃ r, t.jobs = Function.update s.jobs i r ∧ t.flag = s.flag ∧ t.guard = s.guard ∧
      Gate i s t := by
  unfold State.jobStep at taken
  dsimp only at taken
  split at taken
  · cases taken
  · cases taken
    exact ⟨_, rfl, rfl, rfl, .stay rfl⟩
  · split at taken
    · rename_i free
      cases taken
      exact ⟨_, rfl, rfl, rfl, .lock free rfl⟩
    · cases taken
  · split at taken
    · rename_i mine
      cases taken
      exact ⟨_, rfl, rfl, rfl, .unlock mine rfl⟩
    · cases taken
  all_goals
    cases taken
    exact ⟨_, rfl, rfl, rfl, .stay rfl⟩

/-- An operation that is neither the first one inside of the gate nor one behind a refusal leads on.
Outside of the gate it must not be logged, and inside of it the flag is down. -/
theorem Stands.leads {within flag : Bool} {rest rest' : Prog (Except String Unit)}
    {log log' : List Event} (h : Stands job within flag ⟨rest, log⟩)
    (entering : ¬ Entering job.Settled rest) (refused : ¬ Refused job.Settled rest)
    (inside : Inside job.Settled rest log → Inside job.Settled rest' log')
    (outside : Outside job.Settled rest → Outside job.Settled rest' ∧ log' = log)
    (returns : ∀ result, Returns result rest → Returns result rest' ∧ log' = log) :
    Stands job within flag ⟨rest', log'⟩ ∧ (flag = true → log' = log) := by
  cases within with
  | true =>
    rcases h with ⟨down, within⟩ | ⟨-, first | behind⟩
    · exact ⟨.inl ⟨down, inside within⟩, fun up => by rw [down] at up; cases up⟩
    · exact absurd first entering
    · exact absurd behind refused
  | false =>
    rcases h with ⟨empty, before⟩ | ⟨result, after, settled⟩
    · obtain ⟨before', rfl⟩ := outside before
      exact ⟨.inl ⟨empty, before'⟩, fun _ => rfl⟩
    · obtain ⟨after', rfl⟩ := returns result after
      exact ⟨.inr ⟨result, after', settled⟩, fun _ => rfl⟩

/-- An operation of a job leads on, and publishes nothing when the flag is up. -/
theorem jobStep_stands {look : Look} {ok : Bool} (h : Stands job (s.inside i) s.flag (s.jobs i))
    (taken : s.jobStep i look ok = some t) :
    Stands job (t.inside i) t.flag (t.jobs i) ∧
      (s.flag = true → (t.jobs i).log = (s.jobs i).log) := by
  unfold State.jobStep at taken
  obtain ⟨rest, log, running⟩ : ∃ rest log, s.jobs i = ⟨rest, log⟩ := ⟨_, _, rfl⟩
  rw [running] at h ⊢
  simp only [running] at taken
  cases rest with
  | ret result => cases taken
  | step op next =>
    cases op with
    | check =>
      cases taken
      simp only [State.setJob, Function.update_self]
      refine ⟨?_, fun _ => trivial⟩
      change Stands job (s.inside i) s.flag _
      cases within : s.inside i with
      | true =>
        rw [within] at h
        rcases h with ⟨down, inside⟩ | ⟨empty, entering | refused⟩
        · rw [down]
          exact .inl ⟨rfl, inside⟩
        · cases flag : s.flag with
          | true => exact .inr ⟨empty, .inr entering.2⟩
          | false =>
            cases empty
            exact .inl ⟨rfl, entering.1⟩
        · exact refused.elim
      | false =>
        rw [within] at h
        rcases h with ⟨empty, outside⟩ | ⟨result, returns, settled⟩
        · exact .inl ⟨empty, outside s.flag⟩
        · exact .inr ⟨result, returns s.flag, settled⟩
    | lock =>
      dsimp only at taken
      split at taken
      · rename_i free
        cases taken
        rw [show s.inside i = false by simp [State.inside, free]] at h
        simp only [State.setJob, Function.update_self, State.inside, decide_true]
        refine ⟨?_, fun _ => trivial⟩
        rcases h with ⟨empty, outside⟩ | ⟨result, returns, settled⟩
        · exact .inr ⟨empty, .inl outside⟩
        · exact returns.elim
      · cases taken
    | unlock =>
      dsimp only at taken
      split at taken
      · rename_i mine
        cases taken
        rw [show s.inside i = true by simp [State.inside, mine]] at h
        simp only [State.setJob, Function.update_self, State.inside, reduceCtorEq, decide_false]
        refine ⟨?_, fun _ => trivial⟩
        rcases h with ⟨-, settled⟩ | ⟨empty, entering | settled⟩
        · exact .inr settled
        · exact entering.elim
        · cases empty
          exact .inr settled
      · cases taken
    | look =>
      cases taken
      simp only [State.setJob, Function.update_self]
      exact ⟨(h.leads id id (fun inside => inside look) (fun outside => ⟨outside look, rfl⟩)
        fun _ returns => ⟨returns look, rfl⟩).1, fun _ => trivial⟩
    | own =>
      cases taken
      simp only [State.setJob, Function.update_self]
      exact ⟨(h.leads id id (fun inside => inside ok) (fun outside => ⟨outside ok, rfl⟩)
        fun _ returns => ⟨returns ok, rfl⟩).1, fun _ => trivial⟩
    | publish e | reopen e | undo e =>
      cases taken
      simp only [State.setJob, Function.update_self]
      refine h.leads id id (fun inside => ?_) (fun outside => outside.elim) fun _ => False.elim
      cases ok with
      | true => exact inside.2
      | false => exact inside.1

theorem jobStep_inv {look : Look} {ok : Bool} (h : Inv jobs s)
    (taken : s.jobStep i look ok = some t) :
    Inv jobs t ∧ (s.flag = true → ∀ j, (t.jobs j).log = (s.jobs j).log) := by
  obtain ⟨r, changed, flag, guard, steps⟩ := jobStep_some taken
  cases there : jobs[i]? with
  | none =>
    unfold State.jobStep at taken
    rw [h.others i there] at taken
    cases taken
  | some job =>
    have own := jobStep_stands (h.stands i job there) taken
    have other : ∀ j, j ≠ i → t.jobs j = s.jobs j := fun j ne => by
      rw [changed, Function.update_of_ne ne]
    refine ⟨⟨fun held => ?_, fun j job' there' => ?_, fun j none => ?_⟩, fun up j => ?_⟩
    · rw [guard] at held
      have mine := h.guard held
      cases steps with
      | stay gate => exact gate.trans mine
      | lock free gate =>
        rw [mine] at free
        cases free
      | unlock held gate =>
        rw [mine] at held
        cases held
    · by_cases same : j = i
      · subst same
        rw [there] at there'
        cases there'
        exact own.1
      · have gate : t.inside j = s.inside j := by
          cases steps with
          | stay gate => simp only [State.inside, gate]
          | lock free gate => simp [State.inside, gate, free, Ne.symm same]
          | unlock mine gate => simp [State.inside, gate, mine, Ne.symm same]
        rw [gate, flag, other j same]
        exact h.stands j job' there'
    · have ne : j ≠ i := by
        rintro rfl
        rw [there] at none
        cases none
      rw [other j ne]
      exact h.others j none
    · by_cases same : j = i
      · exact same ▸ own.2 up
      · rw [other j same]

theorem step_inv {a : Action} {reply : Unit} (h : Inv jobs s)
    (taken : (machine jobs).step s a = some (t, reply)) :
    Inv jobs t ∧ (s.flag = true → t.flag = true ∧ ∀ i, (t.jobs i).log = (s.jobs i).log) := by
  cases a with
  | guard =>
    obtain ⟨t', stepped, is⟩ := Option.map_eq_some_iff.mp taken
    cases is
    obtain ⟨inv, same⟩ := guardStep_inv h stepped
    refine ⟨inv, fun up => ⟨?_, same⟩⟩
    unfold State.guardStep at stepped
    split at stepped
    · split at stepped
      · cases stepped
        exact up
      · cases stepped
    · cases stepped
      rfl
    · cases stepped
      exact up
    · cases stepped
  | job i look ok =>
    obtain ⟨t', stepped, is⟩ := Option.map_eq_some_iff.mp taken
    cases is
    obtain ⟨inv, same⟩ := jobStep_inv h stepped
    obtain ⟨-, -, flag, -⟩ := jobStep_some stepped
    exact ⟨inv, fun up => ⟨flag.trans up, same up⟩⟩

theorem reachable_inv (reachable : (machine jobs).Reachable s) : Inv jobs s := by
  apply Machine.Reachable.invariant (start_inv jobs) _ reachable
  intro s a t reply _ inv taken
  exact (step_inv inv taken).1

theorem Stands.settled {inside flag : Bool} {r : Running} (h : Stands job inside flag r)
    (up : flag = true) (some : r.log ≠ []) :
    inside = false ∧ ∃ result, Returns result r.rest ∧ job.Settled result r.log := by
  cases inside with
  | true =>
    rcases h with ⟨down, -⟩ | ⟨empty, -⟩
    · rw [down] at up
      cases up
    · exact absurd empty some
  | false =>
    rcases h with ⟨empty, -⟩ | settled
    · exact absurd empty some
    · exact ⟨rfl, settled⟩

theorem Stands.returned {inside flag : Bool} {r : Running} {result : Except String Unit}
    (h : Stands job inside flag r) (done : r.rest = .ret result) : job.Settled result r.log := by
  obtain ⟨rest, log⟩ := r
  cases done
  cases inside with
  | true =>
    rcases h with ⟨-, inside⟩ | ⟨-, entering | refused⟩
    · exact inside.elim
    · exact entering.elim
    · exact refused.elim
  | false =>
    rcases h with ⟨empty, settled⟩ | ⟨result', is, settled⟩
    · cases empty
      exact settled
    · cases is
      exact settled

/-- Once the flag is up, no run changes what any job made public; a job that had made something public
is out of the gate then, what it returns is decided, and it has done all, has undone all, or tells that
it could not: then it has tried every undoing, and one of them failed. A job that returns is settled so,
and with a cancellation it has published nothing. -/
theorem nothing_published (jobs : List Job) (s : State)
    (reachable : (machine jobs).Reachable s) :
    (s.flag = true → ∀ h t, (machine jobs).Run s h t → ∀ i, (t.jobs i).log = (s.jobs i).log) ∧
      (s.flag = true → ∀ (i : Nat) (job : Job), jobs[i]? = some job → (s.jobs i).log ≠ [] →
        s.inside i = false ∧
          ∃ result, Returns result (s.jobs i).rest ∧ job.Settled result (s.jobs i).log) ∧
      ∀ (i : Nat) (job : Job) (result : Except String Unit), jobs[i]? = some job →
        (s.jobs i).rest = .ret result → job.Settled result (s.jobs i).log := by
  have inv := reachable_inv reachable
  refine ⟨fun up h t run => ?_, fun up i job there some => ?_, fun i job result there done => ?_⟩
  · have kept : Inv jobs t ∧ t.flag = true ∧ ∀ i, (t.jobs i).log = (s.jobs i).log := by
      apply run.keeps _ ⟨inv, up, fun _ => rfl⟩
      intro t a u reply before taken
      obtain ⟨inv, up, same⟩ := before
      obtain ⟨inv', still⟩ := step_inv inv taken
      exact ⟨inv', (still up).1, fun i => ((still up).2 i).trans (same i)⟩
    exact kept.2.2
  · exact (inv.stands i job there).settled up some
  · exact (inv.stands i job there).returned done

end Runs

/-- What a job has returned. -/
def Running.result (r : Running) : Option (Except String Unit) :=
  match r.rest with
  | .ret result => some result
  | .step _ _ => none

theorem result_some {r : Running} {result : Except String Unit} (h : r.result = some result) :
    r.rest = .ret result := by
  unfold Running.result at h
  split at h
  · rename_i is
    rw [is, Option.some.inj h]
  · cases h

/-- An archive of two files. -/
def twoFiles : List Entry := [⟨[['a']], false, 0, 0⟩, ⟨[['b']], false, 0, 0⟩]

/-- The next operations of the job, all of them without an error. -/
def smooth (n : Nat) : List Action := List.replicate n (.job 0 .absent true)

/-- The job is done, and then the run is dropped. -/
theorem twoFiles_run :
    ((machine [.extract twoFiles]).play (.start [.extract twoFiles])
      (smooth 49 ++ [.guard, .guard])).map (fun s => (s.flag, (s.jobs 0).result)) =
        some (true, some (.ok ())) := by
  decide +kernel

/-- An extraction of two files publishes both, and a cancellation comes too late. -/
theorem twoFiles_published :
    ∃ s, (machine [.extract twoFiles]).Reachable s ∧ s.flag = true ∧
      Performed twoFiles (s.jobs 0).log := by
  obtain ⟨s, played, is⟩ := Option.map_eq_some_iff.mp twoFiles_run
  have reachable := Machine.Reachable.start.play played
  obtain ⟨up, result⟩ := Prod.mk.inj is
  exact ⟨s, reachable, up, (nothing_published _ s reachable).2.2 0 _ _ rfl (result_some result)⟩

/-- The second file cannot be installed, and the first one cannot be removed; then the run is
dropped. -/
theorem stuckFiles_run :
    ((machine [.extract twoFiles]).play (.start [.extract twoFiles])
      (smooth 44 ++ [.job 0 .absent false, .job 0 .absent true, .job 0 .absent false,
        .job 0 .absent true, .guard, .guard])).map (fun s => (s.flag, (s.jobs 0).log)) =
          some (true, [.install [['a']], .stuck (.remove [['a']])]) := by
  decide +kernel

/-- Neither a forward pass nor a rollback that succeeds leaves a failed undoing behind. -/
theorem stuck_partly {entries : List Entry} {log : List Event} {undoing : Event}
    (mem : .stuck undoing ∈ log) : ¬ (Performed entries log ∨ Undone log) := by
  have forth : ∀ {c : CommitState} {forward : List Event}, Recorded c forward →
      .stuck undoing ∉ forward ∧ .stuck undoing ∉ forward.map Event.inverse := by
    intro c forward recorded
    have kinds : ∀ e ∈ forward, e ≠ .stuck undoing ∧ e.inverse ≠ .stuck undoing := by
      intro e found
      have there := recorded.mem_iff.mp found
      simp only [List.mem_append, List.mem_map] at there
      rcases there with (⟨path, -, rfl⟩ | ⟨path, -, rfl⟩) | ⟨path, -, rfl⟩ <;> exact ⟨nofun, nofun⟩
    refine ⟨fun found => (kinds _ found).1 rfl, fun found => ?_⟩
    obtain ⟨e, there, same⟩ := List.mem_map.mp found
    exact (kinds e there).2 same
  rintro (⟨c, recorded, -⟩ | ⟨c, forward, backward, recorded, inverse, whole⟩)
  · exact (forth recorded).1 mem
  · rw [whole, List.mem_append] at mem
    rcases mem with found | found
    · exact (forth recorded).1 found
    · exact (forth recorded).2 (inverse.mem_iff.mp found)

/-- A commit that started before the flag went up has done a part of it, and has not undone that. -/
theorem partly_published :
    ∃ s, (machine [.extract twoFiles]).Reachable s ∧ s.flag = true ∧ (s.jobs 0).log ≠ [] ∧
      ¬ (Performed twoFiles (s.jobs 0).log ∨ Undone (s.jobs 0).log) := by
  obtain ⟨s, played, is⟩ := Option.map_eq_some_iff.mp stuckFiles_run
  obtain ⟨up, log⟩ := Prod.mk.inj is
  refine ⟨s, Machine.Reachable.start.play played, up, by rw [log]; decide, ?_⟩
  rw [log]
  exact stuck_partly (List.mem_cons_of_mem _ List.mem_cons_self)

end Mineru.Remote
