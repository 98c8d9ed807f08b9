import Mineru.Laws.Official.Identity
import Mineru.Laws.Official.Progress

/-!
# What handlers do to jobs

A handler leaves a record alone, puts in the one it prepared, or touches one: it settles a queued
job or sets the flag of one that has not ended. It never moves the runner through a job. What a
handler has prepared is sound: a job under preparation has files, and its record is fresh.

A preparation goes on over several sections, and other handlers may come in between. What it has in
hand is its own until it is committed, so `Sound` asks nothing of the shared state but the flag of
the end of admissions.
-/

set_option autoImplicit false

namespace Mineru.Official

open Logic

/-! ## Frames -/

theorem notifyOne_running (j : Jobs) (run : Run) :
    j.notifyOne.runner = .running run ↔ j.runner = .running run := by
  unfold Jobs.notifyOne
  split
  · rename_i at_
    simp [at_]
  · exact Iff.rfl

@[simp] theorem notifyOne_stopping (j : Jobs) : j.notifyOne.stopping = j.stopping := by
  unfold Jobs.notifyOne
  split <;> rfl

theorem notifyWaiters_running (j : Jobs) (run : Run) :
    j.notifyWaiters.runner = .running run ↔ j.runner = .running run := by
  unfold Jobs.notifyWaiters
  dsimp only
  split
  · rename_i at_
    simp [at_]
  · exact Iff.rfl

/-- A handler of jobs neither moves the runner through a job nor clears the flag. -/
theorem JobTurn.frame {env : Env} {s : Shared} {held : Id → Bool} {pc : JobPc} {o : JobOutcome}
    (turn : JobTurn env s held pc o) :
    (∀ run, o.state.jobs.runner = .running run ↔ s.jobs.runner = .running run) ∧
      o.state.jobs.stopping = s.jobs.stopping := by
  have same : (∀ run, s.jobs.runner = .running run ↔ s.jobs.runner = .running run) ∧
      s.jobs.stopping = s.jobs.stopping := ⟨fun _ => Iff.rfl, rfl⟩
  cases turn with
  | commit n record running => exact ⟨fun run => notifyOne_running _ run, notifyOne_stopping _⟩
  | cancelQueued id r found queued =>
    constructor
    · intro run
      show (Jobs.setRecord _ _ _).runner = _ ↔ _
      rw [setRecord_runner]
      exact Iff.rfl
    · exact setRecord_stopping _ _ _
  | cancelRunning | stopMark =>
    constructor
    · intro run
      show (Jobs.setRecord _ _ _).runner = _ ↔ _
      rw [setRecord_runner]
    · exact setRecord_stopping _ _ _
  | stopWake shutdown => exact ⟨fun run => notifyWaiters_running _ run, rfl⟩
  | _ => exact same

/-! ## Records -/

/-- What a handler makes of a record that is there. -/
inductive Touched (env : Env) (now : Nat) (r : JobRecord) : JobRecord → Prop where
  | settle (queued : r.response.status = .queued) :
    Touched env now r (({ r with cancel := true } : JobRecord).cancelQueued env now)
  | flag (live : r.response.status.terminal = false) : Touched env now r { r with cancel := true }

theorem Touched.live {env : Env} {now : Nat} {r r' : JobRecord} (h : Touched env now r r') :
    r.response.status.terminal = false := by
  cases h with
  | settle queued => rw [queued]; rfl
  | flag live => exact live

theorem Touched.flagged {env : Env} {now : Nat} {r r' : JobRecord} (h : Touched env now r r') :
    r'.cancel = true := by
  cases h with
  | settle | flag => rfl

theorem record_get {j : Jobs} {id : Id} {r : JobRecord} :
    j.record id = some r ↔ ∃ slot, j.records.get id = some slot ∧ slot.record = r :=
  Option.map_eq_some_iff

/-- A record found after `setRecord` is the new one, or was there before. -/
theorem setRecord_record {j : Jobs} {id k : Id} {r r' old : JobRecord} (found : j.record id = some old)
    (h : (j.setRecord id r).record k = some r') :
    (k = id ∧ r' = r) ∨ j.record k = some r' := by
  rw [record_setRecord found] at h
  split at h
  · rename_i same
    exact .inl ⟨same, (Option.some.inj h).symm⟩
  · exact .inr h

theorem JobTurn.record {env : Env} {s : Shared} {held : Id → Bool} {pc : JobPc} {o : JobOutcome}
    (turn : JobTurn env s held pc o) {id : Id} {r' : JobRecord}
    (found : o.state.jobs.record id = some r') :
    s.jobs.record id = some r' ∨ (∃ n, pc = .prepareCommit n r' ∧ id = .job n) ∨
      ∃ r, s.jobs.record id = some r ∧ Touched env s.store.now r r' ∧
        (o.reply = .canceled id ∨ ∃ ids shutdown, pc = .stopMark ids shutdown) := by
  cases turn with
  | commit n record running =>
    obtain ⟨slot, there, is⟩ := record_get.mp found
    change (Jobs.notifyOne _).records.get id = _ at there
    rw [notifyOne_records, Table.get_set] at there
    split at there
    · rename_i same
      cases there
      subst is
      exact .inr (.inl ⟨n, rfl, same⟩)
    · exact .inl (record_get.mpr ⟨slot, there, is⟩)
  | cancelQueued k r there queued =>
    rcases setRecord_record (j := { s.jobs with cancelCalls := s.jobs.cancelCalls + 1 }) there
      found with ⟨rfl, rfl⟩ | old
    · exact .inr (.inr ⟨r, there, .settle queued, .inl rfl⟩)
    · exact .inl old
  | cancelRunning k r there running =>
    rcases setRecord_record (j := { s.jobs with cancelCalls := s.jobs.cancelCalls + 1 }) there
      found with ⟨rfl, rfl⟩ | old
    · exact .inr (.inr ⟨r, there, .flag (by rw [running]; rfl), .inl rfl⟩)
    · exact .inl old
  | stopMark k ids shutdown r there live =>
    rcases setRecord_record there found with ⟨rfl, rfl⟩ | old
    · exact .inr (.inr ⟨r, there, .flag live, .inr ⟨_, _, rfl⟩⟩)
    · exact .inl old
  | sweep =>
    obtain ⟨slot, there, is⟩ := record_get.mp found
    exact .inl (record_get.mpr ⟨slot, (Table.get_keep_some.mp there).1, is⟩)
  | clear =>
    obtain ⟨slot, there, is⟩ := record_get.mp found
    change (Table.map _ _).get id = _ at there
    rw [Table.get_map] at there
    obtain ⟨slot', old, rfl⟩ := Option.map_eq_some_iff.mp there
    exact .inl (record_get.mpr ⟨slot', old, is⟩)
  | _ => exact .inl found

/-! ## Preparation -/

/-- What a handler relies on at its next section. -/
def JobPc.Sound (stopping : Bool) : JobPc → Prop
  | .prepareMetadata req | .prepareBudget req _ | .prepareSizes req _ _ _ _ => req.files ≠ []
  | .prepareFiles _ _ _ rest files => rest ≠ [] ∨ files ≠ []
  | .prepareCommit _ record => Shape record ∧ Fresh record ∧ record.cancel = false
  | .stopJobs _ | .stopMark _ _ => stopping = true
  | _ => True

def Pc.Sound (stopping : Bool) : Pc → Prop
  | upload _ => True
  | job pc => pc.Sound stopping

theorem Pc.Sound.mono {stopping stopping' : Bool} {pc : Pc} (h : pc.Sound stopping)
    (le : stopping = true → stopping' = true) : pc.Sound stopping' := by
  cases pc with
  | upload pc => trivial
  | job pc =>
    cases pc with
    | stopJobs | stopMark => exact le h
    | _ => exact h

theorem newRecord_untouched (id : Id) (now : Nat) (req : Submission) (metadata budget : Nat)
    (files : List PreparedFile) :
    ∀ f ∈ (newRecord id now req metadata budget files).response.files, Untouched f := by
  intro f mem
  obtain ⟨g, -, rfl⟩ := List.mem_map.mp mem
  exact ⟨rfl, rfl⟩

/-- The record of a new job is fresh and in shape. -/
theorem newRecord_sound (id : Id) (now : Nat) (req : Submission) (metadata budget : Nat)
    {files : List PreparedFile} (nonempty : files ≠ []) :
    let record := newRecord id now req metadata budget files
    Shape record ∧ Fresh record ∧ record.cancel = false := by
  intro record
  have untouched := newRecord_untouched id now req metadata budget files
  have none : ∀ status, status ≠ .queued → 0 = fileCount record.response.files status := by
    intro status other
    symm
    apply fileCount_eq_zero.mpr
    intro f mem is
    exact other (is.symm.trans (untouched f mem).1)
  have length : files.length = record.response.files.length := (List.length_map _).symm
  refine ⟨⟨?_, length, none _ (by decide), none _ (by decide)⟩, ⟨rfl, rfl, length, untouched⟩, rfl⟩
  intro empty
  exact nonempty (List.map_eq_nil_iff.mp empty)

theorem JobTurn.sound {env : Env} {s : Shared} {held : Id → Bool} {pc : JobPc} {o : JobOutcome}
    (turn : JobTurn env s held pc o) {stopping : Bool} (h : pc.Sound stopping) :
    ∀ next, o.next = some next → next.Sound stopping := by
  intro next is
  cases turn with
  | metadata | budget | sizes | stopList | stopSkip | stopMark => cases is; exact h
  | sized req metadata budget total => cases is; exact .inl h
  | lease | take =>
    cases is
    exact .inr (List.append_ne_nil_of_right_ne_nil _ (List.cons_ne_nil _ _))
  | made req metadata budget files =>
    cases is
    exact newRecord_sound _ _ _ _ _ (h.resolve_left fun some => some rfl)
  | stopWake | awaited | parserDown | clear => cases is; trivial
  | stopped shutdown after reply goes =>
    rcases goes with none | some
    · rw [none] at is
      cases is
    · rw [some] at is
      cases is
      trivial
  | takeRunner handle after goes =>
    cases is
    rcases goes with rfl | rfl <;> trivial
  | _ => cases is

theorem validate_files {req : Submission} (valid : req.validate = .ok ()) : req.files ≠ [] := by
  intro empty
  simp [Submission.validate, empty, bind, Except.bind, throw, throwThe, MonadExceptOf.throw]
    at valid

end Mineru.Official
