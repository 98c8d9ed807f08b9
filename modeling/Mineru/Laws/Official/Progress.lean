import Mineru.Laws.Official.Turns

/-!
# The progress of a job

A record is fresh until the runner starts it, in progress while the runner has it, and settled from
then on. `Progress` ties the record to the local state of `run_job`: the files before the index are
finished and counted, the file at the index is as far as the run's position says, and the files
after it are untouched. Every section of `run_job` keeps it, and the last one leaves a settled
record.

`RunTurn` is the inversion of a section: it lists what one section can do to the record and to the
store, with its guards, and all invariants of the run are derived from it. The flag of a
cancellation and the one of the shutdown may be raised between any two sections (`Progress.cancel`,
`Progress.stop`). Neither moves the run.

Here is no statement about when the runner takes its next step; that a job ends at all is shown with
the liveness of the runner.
-/

set_option autoImplicit false

namespace Mineru.Official

open Logic

/-! ## Files -/

def Untouched (f : JobFileResponse) : Prop := f.status = .queued ∧ f.outputFiles = none

def Working (f : JobFileResponse) : Prop := f.status = .running ∧ f.outputFiles = none

/-- The file has one output for each requested format. -/
def Delivered (formats : List OutputFormat) (f : JobFileResponse) : Prop :=
  ∃ refs, f.outputFiles = some refs ∧ ∀ format, (refs.get format).isSome = true ↔ format ∈ formats

def Finished (formats : List OutputFormat) (f : JobFileResponse) : Prop :=
  (f.status = .completed ∧ Delivered formats f) ∨ f.status = .failed

/-- The file at the index, by the position of the run. -/
def Current (flagged : Bool) (formats : List OutputFormat) (f : JobFileResponse) : RunPc → Prop
  | .lookup | .start => False
  | .loopHead | .markRunning => Untouched f
  | .gateArm | .gateCheck _ | .gateWait _ | .admitted | .parsing | .parsed _ | .publishTake _
  | .publishFailed => Working f
  | .naming p => Working f ∧ p.named.map Prod.fst ++ p.rest.map Prod.fst = formats
  | .publishCommit p => Working f ∧ p.named.map Prod.fst = formats
  | .count _ => f.status = .running ∧ Delivered formats f
  | .mark .completed _ last => last = false ∧ f.status = .running ∧ Delivered formats f
  | .mark .failed _ last => last = false ∧ Working f
  | .mark .canceled _ last => last = true ∧ flagged = true ∧ Working f
  | .mark .queued _ _ | .mark .running _ _ => False
  | .finalize => flagged = true ∧ (f.status = .queued ∨ f.status = .running ∨ f.status = .canceled)

/-- The files from the index on: only the loop's head and its end are past the last file. -/
def Ahead (flagged : Bool) (formats : List OutputFormat) (pc : RunPc) :
    List JobFileResponse → Prop
  | [] => pc = .loopHead ∨ pc = .finalize
  | f :: after => Current flagged formats f pc ∧ ∀ g ∈ after, Untouched g

/-- A result that is counted already while its file is still to be marked. -/
def RunPc.due (pc : RunPc) (status : FileStatus) : Nat :=
  match pc with
  | .mark marked _ _ => if marked = status then 1 else 0
  | _ => 0

/-! ## Records -/

/-- What holds of every record: the counters of the response are right. -/
structure Shape (r : JobRecord) : Prop where
  nonempty : r.response.files ≠ []
  total : r.response.progress.total = r.response.files.length
  completed : r.response.progress.completed = fileCount r.response.files .completed
  failed : r.response.progress.failed = fileCount r.response.files .failed

structure Fresh (r : JobRecord) : Prop where
  status : r.response.status = .queued
  notStarted : r.response.startedAt = none
  length : r.files.length = r.response.files.length
  untouched : ∀ f ∈ r.response.files, Untouched f

structure Progress (stopping : Bool) (r : JobRecord) (run : Run) : Prop where
  status : r.response.status = .running
  files : r.files = run.files
  length : run.files.length = r.response.files.length
  split : ∃ before ahead, r.response.files = before ++ ahead ∧ before.length = run.index ∧
    (∀ f ∈ before, Finished r.response.outputFormats f) ∧
    run.successes = fileCount before .completed + run.pc.due .completed ∧
    run.failures = fileCount before .failed + run.pc.due .failed ∧
    Ahead (r.cancel || stopping) r.response.outputFormats run.pc ahead

structure Settled (stopping : Bool) (r : JobRecord) : Prop where
  terminal : r.response.status.terminal = true
  ended : ∀ f ∈ r.response.files,
    f.status = .completed ∨ f.status = .failed ∨ f.status = .canceled
  completed : r.response.status = .completed → ∀ f ∈ r.response.files, f.status = .completed
  failed : r.response.status = .failed → ∀ f ∈ r.response.files, f.status = .failed
  partially : r.response.status = .partially →
    (∃ f ∈ r.response.files, f.status = .completed) ∧
    (∃ f ∈ r.response.files, f.status = .failed) ∧
    ∀ f ∈ r.response.files, f.status ≠ .canceled
  canceled : ∀ f ∈ r.response.files, f.status = .canceled → r.cancel = true ∨ stopping = true
  delivered : ∀ f ∈ r.response.files,
    f.status = .completed → Delivered r.response.outputFormats f
  honoured : r.cancel = true → r.response.status = .canceled

/-! ## Lists of files -/

/-- The file at the index is changed, between those that are done and those to come. -/
theorem modify_middle {α : Type} (before after : List α) (a : α) (f : α → α) :
    (before ++ a :: after).modify before.length f = before ++ f a :: after := by
  induction before with
  | nil => rfl
  | cons b before ih => exact congrArg (b :: ·) ih

theorem fileCount_append (as bs : List JobFileResponse) (status : FileStatus) :
    fileCount (as ++ bs) status = fileCount as status + fileCount bs status :=
  List.countP_append

theorem fileCount_cons (f : JobFileResponse) (fs : List JobFileResponse) (status : FileStatus) :
    fileCount (f :: fs) status = fileCount fs status + if f.status = status then 1 else 0 := by
  unfold fileCount
  rw [List.countP_cons]
  simp only [decide_eq_true_eq]

theorem fileCount_nil (status : FileStatus) : fileCount [] status = 0 := rfl

theorem fileCount_eq_zero {fs : List JobFileResponse} {status : FileStatus} :
    fileCount fs status = 0 ↔ ∀ f ∈ fs, f.status ≠ status := by
  unfold fileCount
  rw [List.countP_eq_zero]
  simp only [decide_eq_true_eq, ne_eq]

theorem fileCount_pos {fs : List JobFileResponse} {status : FileStatus} :
    0 < fileCount fs status ↔ ∃ f ∈ fs, f.status = status := by
  unfold fileCount
  rw [List.countP_pos_iff]
  simp only [decide_eq_true_eq]

/-- The files of two statuses are among all of them. -/
theorem fileCount_add_le (fs : List JobFileResponse) {status other : FileStatus}
    (differ : status ≠ other) : fileCount fs status + fileCount fs other ≤ fs.length := by
  induction fs with
  | nil => exact Nat.le_refl _
  | cons f fs ih =>
    rw [fileCount_cons, fileCount_cons, List.length_cons]
    by_cases first : f.status = status
    · rw [if_pos first, if_neg (first ▸ differ)]
      omega
    · rw [if_neg first]
      split <;> omega

/-- A change of one file that keeps it out of both counters, or in the same one. -/
theorem Shape.modifyFile {r : JobRecord} (h : Shape r) {before after : List JobFileResponse}
    {f : JobFileResponse} (files : r.response.files = before ++ f :: after)
    (g : JobFileResponse → JobFileResponse)
    (same : (g f).status = f.status ∨ (f.status = .queued ∧ (g f).status = .running)) :
    Shape (r.modifyFile before.length g) := by
  have changed : (r.modifyFile before.length g).response.files = before ++ g f :: after := by
    change r.response.files.modify before.length g = _
    rw [files, modify_middle]
  have counts : ∀ status, status ≠ .queued → status ≠ .running →
      fileCount (before ++ g f :: after) status = fileCount r.response.files status := by
    intro status notQueued notRunning
    rw [files, fileCount_append, fileCount_append, fileCount_cons, fileCount_cons]
    rcases same with same | ⟨queued, running⟩
    · rw [same]
    · rw [queued, running, if_neg (Ne.symm notQueued), if_neg (Ne.symm notRunning)]
  refine ⟨?_, ?_, ?_, ?_⟩
  · rw [changed]
    exact List.append_ne_nil_of_right_ne_nil _ (List.cons_ne_nil _ _)
  · rw [changed]
    refine h.total.trans ?_
    rw [files, List.length_append, List.length_append, List.length_cons, List.length_cons]
  · rw [changed, counts .completed (by decide) (by decide)]
    exact h.completed
  · rw [changed, counts .failed (by decide) (by decide)]
    exact h.failed

/-- After `update_progress` the counters are right. -/
theorem Shape.of_update {r : JobRecord} (nonempty : r.response.files ≠ [])
    (total : r.response.progress.total = r.response.files.length) : Shape r.updateProgress where
  nonempty := nonempty
  total := total
  completed := rfl
  failed := rfl

/-! ## Flags -/

/-- A raised flag asks less of the file at the index. -/
theorem Current.mono {flagged flagged' : Bool} {formats : List OutputFormat} {f : JobFileResponse}
    {pc : RunPc} (h : Current flagged formats f pc) (le : flagged = true → flagged' = true) :
    Current flagged' formats f pc := by
  cases pc with
  | mark status message last =>
    cases status with
    | canceled => exact ⟨h.1, le h.2.1, h.2.2⟩
    | _ => exact h
  | finalize => exact ⟨le h.1, h.2⟩
  | _ => exact h

theorem Ahead.mono {flagged flagged' : Bool} {formats : List OutputFormat} {pc : RunPc}
    {files : List JobFileResponse} (h : Ahead flagged formats pc files)
    (le : flagged = true → flagged' = true) : Ahead flagged' formats pc files := by
  cases files with
  | nil => exact h
  | cons f after => exact ⟨h.1.mono le, h.2⟩

/-- The run moves on at the same index, and the files of the record stay. -/
theorem Progress.turn {stopping stopping' : Bool} {r r' : JobRecord} {run run' : Run}
    (h : Progress stopping r run) (response : r'.response = r.response) (inputs : r'.files = r.files)
    (same : run'.files = run.files) (still : run'.index = run.index)
    (step : ∀ before ahead, r.response.files = before ++ ahead → before.length = run.index →
      run.successes = fileCount before .completed + run.pc.due .completed →
      run.failures = fileCount before .failed + run.pc.due .failed →
      Ahead (r.cancel || stopping) r.response.outputFormats run.pc ahead →
      run'.successes = fileCount before .completed + run'.pc.due .completed ∧
        run'.failures = fileCount before .failed + run'.pc.due .failed ∧
        Ahead (r'.cancel || stopping') r.response.outputFormats run'.pc ahead) :
    Progress stopping' r' run' := by
  obtain ⟨before, ahead, files, index, done, successes, failures, rest⟩ := h.split
  refine ⟨?_, (inputs.trans h.files).trans same.symm, ?_, before, ahead, ?_, index.trans still.symm, ?_⟩
  · rw [response]
    exact h.status
  · rw [same, response]
    exact h.length
  · rw [response]
    exact files
  · rw [response]
    exact ⟨done, step before ahead files index successes failures rest⟩

/-- The shutdown leaves the run where it is. -/
theorem Progress.stop {stopping : Bool} {r : JobRecord} {run : Run}
    (h : Progress stopping r run) : Progress true r run :=
  h.turn rfl rfl rfl rfl fun _ _ _ _ successes failures rest =>
    ⟨successes, failures, rest.mono fun _ => Bool.or_true _⟩

/-- So does a cancellation. -/
theorem Progress.cancel {stopping : Bool} {r : JobRecord} {run : Run}
    (h : Progress stopping r run) : Progress stopping { r with cancel := true } run :=
  h.turn rfl rfl rfl rfl fun _ _ _ _ successes failures rest =>
    ⟨successes, failures, rest.mono fun _ => rfl⟩

theorem Settled.stop {stopping : Bool} {r : JobRecord} (h : Settled stopping r) :
    Settled true r :=
  { h with canceled := fun _ _ _ => .inr rfl }

/-- A queued job that is cancelled has not been touched yet. -/
theorem Fresh.cancel {r : JobRecord} (h : Fresh r) : Fresh { r with cancel := true } :=
  ⟨h.status, h.notStarted, h.length, h.untouched⟩

/-! ## The sections of a run -/

variable {stopping : Bool} {r : JobRecord} {run : Run}

theorem Progress.goto (h : Progress stopping r run) (pc : RunPc)
    (due : ∀ status, status = .completed ∨ status = .failed →
      pc.due status = run.pc.due status)
    (next : ∀ ahead, Ahead (r.cancel || stopping) r.response.outputFormats run.pc ahead →
      Ahead (r.cancel || stopping) r.response.outputFormats pc ahead) :
    Progress stopping r { run with pc } :=
  h.turn rfl rfl rfl rfl fun _ ahead _ _ successes failures rest =>
    ⟨successes.trans (congrArg _ (due _ (.inl rfl)).symm),
      failures.trans (congrArg _ (due _ (.inr rfl)).symm), next ahead rest⟩

/-- A queued job starts. -/
theorem Progress.start (fresh : Fresh r) (now : Nat) (zero : run.successes = 0 ∧ run.failures = 0 ∧
    run.index = 0) (nonempty : r.response.files ≠ []) :
    Progress stopping
      { r with
        cancel := r.cancel || stopping
        response := { r.response with status := .running, startedAt := some now } }
      { run with files := r.files, pc := .loopHead } where
  status := rfl
  files := rfl
  length := fresh.length
  split := by
    refine ⟨[], r.response.files, rfl, zero.2.2.symm, nofun, zero.1, zero.2.1, ?_⟩
    cases files : r.response.files with
    | nil => exact absurd files nonempty
    | cons f after =>
      have untouched := fresh.untouched
      rw [files] at untouched
      exact ⟨untouched f List.mem_cons_self, fun g mem => untouched g (List.mem_cons_of_mem _ mem)⟩

/-- The loop's head is left for the file at the index, or for the end. -/
theorem Progress.enter (h : Progress stopping r run) (pc : run.pc = .loopHead)
    (more : run.index < run.files.length) :
    Progress stopping r { run with pc := .markRunning } := by
  refine h.turn rfl rfl rfl rfl fun before ahead files index successes failures rest => ?_
  rw [pc] at rest successes failures
  refine ⟨successes, failures, ?_⟩
  cases ahead with
  | nil =>
    have length := h.length
    rw [files, List.append_nil, index] at length
    omega
  | cons f after => exact rest

/-- The run leaves its loop behind the last file, or at a flag. -/
theorem Progress.leave (h : Progress stopping r run) (pc : run.pc = .loopHead)
    (out : run.files.length ≤ run.index ∨ (r.cancel || stopping) = true) :
    Progress stopping r { run with pc := .finalize } := by
  refine h.turn rfl rfl rfl rfl fun before ahead files index successes failures rest => ?_
  rw [pc] at rest successes failures
  refine ⟨successes, failures, ?_⟩
  cases ahead with
  | nil => exact .inr rfl
  | cons f after =>
    have length := h.length
    rw [files, List.length_append, List.length_cons, index] at length
    rcases out with out | flagged
    · omega
    · exact ⟨⟨flagged, .inl rest.1.1⟩, rest.2⟩

/-- A working file is given up when a flag is set. -/
theorem Progress.abort (h : Progress stopping r run) (pc : RunPc) (is : run.pc = pc)
    (working : ∀ f, Current (r.cancel || stopping) r.response.outputFormats f pc → Working f)
    (due : ∀ status, pc.due status = 0) (inside : pc ≠ .loopHead ∧ pc ≠ .finalize)
    (flagged : (r.cancel || stopping) = true) :
    Progress stopping r { run with pc := .finalize } := by
  refine h.goto _ (fun status _ => (is ▸ due status).symm) fun ahead rest => ?_
  rw [is] at rest
  cases ahead with
  | nil => exact absurd rest (not_or.mpr inside)
  | cons f after => exact ⟨⟨flagged, .inr (.inl (working f rest.1).1)⟩, rest.2⟩

/-- A working file goes on being worked on. -/
theorem Progress.work (h : Progress stopping r run) (pc pc' : RunPc) (is : run.pc = pc)
    (current : ∀ f, Current (r.cancel || stopping) r.response.outputFormats f pc →
      Current (r.cancel || stopping) r.response.outputFormats f pc')
    (due : ∀ status, status = .completed ∨ status = .failed → pc'.due status = pc.due status)
    (inside : pc ≠ .loopHead ∧ pc ≠ .finalize) :
    Progress stopping r { run with pc := pc' } := by
  refine h.goto _ (fun status is' => (due status is').trans (is ▸ rfl)) fun ahead rest => ?_
  rw [is] at rest
  cases ahead with
  | nil => exact absurd rest (not_or.mpr inside)
  | cons f after => exact ⟨current f rest.1, rest.2⟩

/-- A failure is counted, and its file is to be marked. -/
theorem Progress.fail (h : Progress stopping r run) (message : String)
    (working : ∀ f, Current (r.cancel || stopping) r.response.outputFormats f run.pc → Working f)
    (due : ∀ status, run.pc.due status = 0)
    (inside : run.pc ≠ .loopHead ∧ run.pc ≠ .finalize) :
    Progress stopping r (run.fail message) := by
  refine h.turn rfl rfl rfl rfl fun before ahead _ _ successes failures rest => ?_
  rw [due] at successes failures
  refine ⟨successes, congrArg (· + 1) failures, ?_⟩
  cases ahead with
  | nil => exact absurd rest (not_or.mpr inside)
  | cons f after => exact ⟨⟨rfl, working f rest.1⟩, rest.2⟩

/-- A delivered file is counted, and is to be marked. -/
theorem Progress.count (h : Progress stopping r run) {pages : Nat} (pc : run.pc = .count pages) :
    Progress stopping r
      { run with successes := run.successes + 1, pc := .mark .completed none false } := by
  refine h.turn rfl rfl rfl rfl fun before ahead _ _ successes failures rest => ?_
  rw [pc] at rest successes failures
  refine ⟨congrArg (· + 1) successes, failures, ?_⟩
  cases ahead with
  | nil => exact absurd rest (not_or.mpr ⟨nofun, nofun⟩)
  | cons f after => exact ⟨⟨rfl, rest.1⟩, rest.2⟩

/-- The file at the index is changed, and the run moves on with it. -/
theorem Progress.modify (h : Progress stopping r run) (g : JobFileResponse → JobFileResponse)
    (run' : Run) (same : run' = { run with pc := run'.pc, aggregate := run'.aggregate })
    (inside : run.pc ≠ .loopHead ∧ run.pc ≠ .finalize)
    (due : ∀ status, status = .completed ∨ status = .failed →
      run'.pc.due status = run.pc.due status)
    (current : ∀ f, Current (r.cancel || stopping) r.response.outputFormats f run.pc →
      Current (r.cancel || stopping) r.response.outputFormats (g f) run'.pc) :
    Progress stopping (r.modifyFile run.index g) run' := by
  obtain ⟨before, ahead, files, index, done, successes, failures, rest⟩ := h.split
  have len := h.length
  cases ahead with
  | nil => exact absurd rest (not_or.mpr inside)
  | cons f after =>
    have changed : (r.modifyFile run.index g).response.files = before ++ g f :: after := by
      change r.response.files.modify run.index g = _
      rw [files, ← index, modify_middle]
    rw [same]
    refine ⟨h.status, h.files, ?_, before, g f :: after, changed, index, done, ?_, ?_,
      current f rest.1, rest.2⟩
    · rw [changed]
      rw [files, List.length_append, List.length_cons] at len
      rw [List.length_append, List.length_cons]
      exact len
    · exact successes.trans (congrArg _ (due _ (.inl rfl)).symm)
    · exact failures.trans (congrArg _ (due _ (.inr rfl)).symm)

/-- What the outcome of the parser leads to. -/
theorem Progress.onParsed (h : Progress stopping r run) {outcome : Option Parsed}
    (pc : run.pc = .parsed outcome) : Progress stopping r (run.onParsed outcome) := by
  have fail : ∀ message, Progress stopping r (run.fail message) := fun message =>
    h.fail message (fun f current => by rw [pc] at current; exact current)
      (fun status => by rw [pc]; rfl) (by rw [pc]; exact ⟨nofun, nofun⟩)
  cases outcome with
  | none => exact fail _
  | some result =>
    change Progress stopping r (if _ then _ else _)
    split
    · exact fail _
    · exact h.work _ _ pc (fun f current => current) (fun _ _ => rfl) ⟨nofun, nofun⟩

/-! ## Marking a file -/

/-- A marked file is finished, and the loop goes on with the next one. -/
theorem Progress.markFile (h : Progress stopping r run) {status : FileStatus}
    {message : Option String} (pc : run.pc = .mark status message false) :
    Progress stopping (r.markFile run.index status message)
      { run with index := run.index + 1, pc := .loopHead } := by
  obtain ⟨before, ahead, files, index, done, successes, failures, rest⟩ := h.split
  have len := h.length
  rw [pc] at rest successes failures
  cases ahead with
  | nil => exact absurd rest (not_or.mpr ⟨nofun, nofun⟩)
  | cons f after =>
    obtain ⟨current, later⟩ := rest
    have changed : (r.markFile run.index status message).response.files =
        (before ++ [f.mark status message]) ++ after := by
      change r.response.files.modify run.index _ = _
      rw [files, ← index, modify_middle, List.append_assoc]
      rfl
    have marked : (f.mark status message).status = status := rfl
    have finished : Finished r.response.outputFormats (f.mark status message) := by
      cases status with
      | completed => exact .inl ⟨rfl, current.2.2⟩
      | failed => exact .inr rfl
      | canceled => exact absurd current.1 (by decide)
      | queued | running => exact current.elim
    refine ⟨h.status, h.files, ?_, before ++ [f.mark status message], after, changed,
      ?_, ?_, ?_, ?_, ?_⟩
    · rw [changed]
      rw [files, List.length_append, List.length_cons] at len
      rw [List.length_append, List.length_append, List.length_singleton]
      exact len.trans (by omega)
    · rw [List.length_append, List.length_singleton, index]
    · intro file mem
      rcases List.mem_append.mp mem with old | new
      · exact done file old
      · rw [List.mem_singleton.mp new]
        exact finished
    · refine successes.trans ?_
      rw [fileCount_append, fileCount_cons, marked, fileCount_nil, Nat.zero_add]
      rfl
    · refine failures.trans ?_
      rw [fileCount_append, fileCount_cons, marked, fileCount_nil, Nat.zero_add]
      rfl
    · cases after with
      | nil => exact .inl rfl
      | cons next after =>
        exact ⟨later next List.mem_cons_self, fun g mem => later g (List.mem_cons_of_mem _ mem)⟩

/-- A file marked as canceled ends the loop. -/
theorem Progress.markCanceled (h : Progress stopping r run) {status : FileStatus}
    {message : Option String} (pc : run.pc = .mark status message true) :
    Progress stopping (r.markFile run.index status message) { run with pc := .finalize } := by
  have isCanceled : status = .canceled := by
    obtain ⟨before, ahead, -, -, -, -, -, rest⟩ := h.split
    rw [pc] at rest
    cases ahead with
    | nil => exact absurd rest (not_or.mpr ⟨nofun, nofun⟩)
    | cons f after =>
      cases status with
      | canceled => rfl
      | completed | failed => exact absurd rest.1.1 (by decide)
      | queued | running => exact rest.1.elim
  subst isCanceled
  have modified := h.modify (.mark .canceled message) { run with pc := .finalize } rfl
    (by rw [pc]; exact ⟨nofun, nofun⟩) (fun status => by rw [pc]; rintro (rfl | rfl) <;> rfl)
    (fun f current => by rw [pc] at current; exact ⟨current.2.1, .inr (.inr rfl)⟩)
  exact ⟨modified.status, modified.files, modified.length, modified.split⟩

/-! ## Publication -/

/-- A published file has a reference for each format that was rendered. -/
theorem outputReferences_keys (named : List (OutputFormat × FileObject × List UInt8))
    (format : OutputFormat) :
    ((outputReferences named).get format).isSome = true ↔ format ∈ named.map Prod.fst := by
  suffices general : ∀ refs : Table OutputFormat OutputReference,
      ((named.foldl (fun refs a => refs.set a.1 ⟨a.2.1.id, a.2.2.length⟩) refs).get
        format).isSome = true ↔ (refs.get format).isSome = true ∨ format ∈ named.map Prod.fst by
    refine (general ∅).trans ⟨fun h => h.resolve_left ?_, .inr⟩
    rw [Table.get_empty]
    exact Bool.false_ne_true
  induction named with
  | nil => exact fun refs => ⟨.inl, fun h => h.resolve_right List.not_mem_nil⟩
  | cons a named ih =>
    intro refs
    rw [List.foldl_cons, ih, Table.get_set, List.map_cons, List.mem_cons]
    split
    · rename_i same
      simp [same]
    · rename_i other
      simp [other]

/-- The outputs of a file are written into its record. -/
theorem Progress.publish (h : Progress stopping r run) {p : Publication}
    (pc : run.pc = .publishCommit p) (total : Nat) :
    Progress stopping (r.published run.index p)
      { run with aggregate := run.aggregate + total, pc := .count p.pages } := by
  refine h.modify _ { run with aggregate := run.aggregate + total, pc := .count p.pages } rfl
    (by rw [pc]; exact ⟨nofun, nofun⟩) (fun status _ => by rw [pc]; rfl) fun f current => ?_
  rw [pc] at current
  refine ⟨current.1.1, outputReferences p.named, rfl, fun format => ?_⟩
  rw [outputReferences_keys, current.2]

/-! ## The end of a job -/

/-- What `finalize_job` makes of a file. -/
theorem mem_finalized {env : Env} {now : Nat} {status : JobStatus} {f : JobFileResponse}
    (mem : f ∈ (r.finalized env now status).response.files) :
    ∃ g ∈ r.response.files, f.outputFiles = g.outputFiles ∧
      f.status = if g.status = .queued ∨ g.status = .running then .canceled else g.status := by
  obtain ⟨g, there, same⟩ := List.mem_map.mp mem
  refine ⟨g, there, ?_⟩
  subst same
  split
  · exact ⟨rfl, rfl⟩
  · exact ⟨rfl, rfl⟩

theorem finalized_mem {env : Env} {now : Nat} {status : JobStatus} {g : JobFileResponse}
    (mem : g ∈ r.response.files) (ended : g.status ≠ .queued ∧ g.status ≠ .running) :
    g ∈ (r.finalized env now status).response.files := by
  refine List.mem_map.mpr ⟨g, mem, if_neg ?_⟩
  exact not_or.mpr ended

/-- A run at its end without a flag has finished every file, and counted it. -/
theorem Progress.all_finished (h : Progress stopping r run) (pc : run.pc = .finalize)
    (unflagged : (r.cancel || stopping) = false) :
    (∀ f ∈ r.response.files, Finished r.response.outputFormats f) ∧
      run.successes = fileCount r.response.files .completed ∧
      run.failures = fileCount r.response.files .failed := by
  obtain ⟨before, ahead, files, index, done, successes, failures, rest⟩ := h.split
  rw [pc] at successes failures rest
  cases ahead with
  | nil =>
    rw [List.append_nil] at files
    rw [files]
    exact ⟨done, successes, failures⟩
  | cons f after =>
    rw [unflagged] at rest
    exact absurd rest.1.1 Bool.false_ne_true

/-- Every file of a run at its end is finished, or not and a flag is set. -/
theorem Progress.at_end (h : Progress stopping r run) (pc : run.pc = .finalize) :
    ∀ f ∈ r.response.files, Finished r.response.outputFormats f ∨
      ((r.cancel || stopping) = true ∧ f.status ≠ .completed ∧ f.status ≠ .failed) := by
  obtain ⟨before, ahead, files, index, done, successes, failures, rest⟩ := h.split
  rw [pc] at rest
  intro f mem
  rw [files] at mem
  rcases List.mem_append.mp mem with old | new
  · exact .inl (done f old)
  · cases ahead with
    | nil => cases new
    | cons g after =>
      obtain ⟨⟨flagged, status⟩, later⟩ := rest
      refine .inr ⟨flagged, ?_⟩
      rcases List.mem_cons.mp new with rfl | mem
      · rcases status with status | status | status <;> rw [status] <;> exact ⟨nofun, nofun⟩
      · rw [(later f mem).1]
        exact ⟨nofun, nofun⟩

/-- Whatever the counters say, a job ends in a final status. -/
theorem finalStatus_terminal (flagged : Bool) (successes failures : Nat) :
    (finalStatus flagged successes failures).terminal = true := by
  unfold finalStatus
  repeat' split
  all_goals rfl

/-- Which counters a final status speaks of: completed jobs have no failed file, failed ones (below)
no successful file, and partial ones some of both. -/
theorem finalStatus_completed {flagged : Bool} {successes failures : Nat}
    (h : finalStatus flagged successes failures = .completed) :
    flagged = false ∧ failures = 0 := by
  unfold finalStatus at h
  grind

theorem finalStatus_failed {flagged : Bool} {successes failures : Nat}
    (h : finalStatus flagged successes failures = .failed) :
    flagged = false ∧ successes = 0 := by
  unfold finalStatus at h
  grind

theorem finalStatus_partially {flagged : Bool} {successes failures : Nat}
    (h : finalStatus flagged successes failures = .partially) :
    flagged = false ∧ 0 < successes ∧ 0 < failures := by
  unfold finalStatus at h
  grind

/-- A finished file passes the end unchanged. -/
theorem Progress.finalized_file (h : Progress stopping r run) (pc : run.pc = .finalize)
    (unflagged : (r.cancel || stopping) = false) {env : Env} {now : Nat} {status : JobStatus}
    {f : JobFileResponse} (mem : f ∈ (r.finalized env now status).response.files) :
    ∃ g ∈ r.response.files, f.status = g.status ∧ (g.status = .completed ∨ g.status = .failed) := by
  obtain ⟨g, there, -, same⟩ := mem_finalized mem
  have ended : g.status = .completed ∨ g.status = .failed :=
    ((h.all_finished pc unflagged).1 g there).imp And.left id
  refine ⟨g, there, ?_, ended⟩
  rw [same, if_neg]
  rcases ended with ended | ended <;> rw [ended] <;> decide

/-- `finalize_job` settles the record. -/
theorem Progress.finalized (h : Progress stopping r run) (pc : run.pc = .finalize) (env : Env)
    (now : Nat) :
    Settled stopping (r.finalized env now
      (finalStatus (r.cancel || stopping) run.successes run.failures)) where
  terminal := finalStatus_terminal _ _ _
  ended f mem := by
    obtain ⟨g, -, -, status⟩ := mem_finalized mem
    rw [status]
    cases g.status <;> simp
  completed isCompleted f mem := by
    obtain ⟨unflagged, none⟩ := finalStatus_completed isCompleted
    obtain ⟨g, there, same, ended⟩ := h.finalized_file pc unflagged mem
    refine same.trans (ended.resolve_right fun failed => ?_)
    exact fileCount_eq_zero.mp ((h.all_finished pc unflagged).2.2 ▸ none) g there failed
  failed isFailed f mem := by
    obtain ⟨unflagged, none⟩ := finalStatus_failed isFailed
    obtain ⟨g, there, same, ended⟩ := h.finalized_file pc unflagged mem
    refine same.trans (ended.resolve_left fun completed => ?_)
    exact fileCount_eq_zero.mp ((h.all_finished pc unflagged).2.1 ▸ none) g there completed
  partially isPartial := by
    obtain ⟨unflagged, some, some'⟩ := finalStatus_partially isPartial
    obtain ⟨-, successes, failures⟩ := h.all_finished pc unflagged
    obtain ⟨f, there, completed⟩ := fileCount_pos.mp (successes ▸ some)
    obtain ⟨g, there', failed⟩ := fileCount_pos.mp (failures ▸ some')
    refine ⟨⟨f, finalized_mem there (by rw [completed]; exact ⟨nofun, nofun⟩), completed⟩,
      ⟨g, finalized_mem there' (by rw [failed]; exact ⟨nofun, nofun⟩), failed⟩, fun f mem => ?_⟩
    obtain ⟨g, -, same, ended⟩ := h.finalized_file pc unflagged mem
    rw [same]
    rcases ended with ended | ended <;> rw [ended] <;> decide
  canceled f mem canceled := by
    obtain ⟨g, there, -, status⟩ := mem_finalized mem
    rcases h.at_end pc g there with finished | ⟨flagged, -, -⟩
    · rcases finished with ⟨ended, -⟩ | ended <;> rw [status, ended] at canceled <;> cases canceled
    · exact (Bool.or_eq_true _ _).mp flagged
  delivered f mem completed := by
    obtain ⟨g, there, outputs, status⟩ := mem_finalized mem
    rcases h.at_end pc g there with finished | ⟨-, other, other'⟩
    · rcases finished with ⟨-, refs, found, keys⟩ | failed
      · exact ⟨refs, outputs.trans found, keys⟩
      · rw [status, failed] at completed
        cases completed
    · rw [status] at completed
      split at completed
      · cases completed
      · exact absurd completed other
  honoured cancel := by
    change finalStatus _ _ _ = _
    change r.cancel = true at cancel
    rw [cancel]
    rfl

/-- The counters of a response stay right when its record is finalized. -/
theorem Shape.finalized (shape : Shape r) (env : Env) (now : Nat) (status : JobStatus) :
    Shape (r.finalized env now status) where
  nonempty := fun none => shape.nonempty (List.map_eq_nil_iff.mp none)
  total := shape.total.trans (List.length_map _).symm
  completed := rfl
  failed := rfl

/-- Canceling a queued job settles it. -/
theorem cancelQueued_settled (r : JobRecord) (env : Env) (now : Nat) (stopping : Bool) :
    Settled stopping (({ r with cancel := true } : JobRecord).cancelQueued env now) where
  terminal := rfl
  ended f mem := by
    obtain ⟨g, -, rfl⟩ := List.mem_map.mp mem
    exact .inr (.inr rfl)
  completed := nofun
  failed := nofun
  partially := nofun
  canceled _ _ _ := .inl rfl
  delivered f mem completed := by
    obtain ⟨g, -, rfl⟩ := List.mem_map.mp mem
    cases completed
  honoured _ := rfl

theorem Shape.cancelQueued (shape : Shape r) (env : Env) (now : Nat) :
    Shape (r.cancelQueued env now) where
  nonempty := fun none => shape.nonempty (List.map_eq_nil_iff.mp none)
  total := shape.total.trans (List.length_map _).symm
  completed := rfl
  failed := rfl

/-! ## The run as a whole -/

/-- The run is past the check that its job is queued. -/
def RunPc.started : RunPc → Bool
  | .lookup | .start => false
  | _ => true

/-- The loop over the formats renders all of them, in their order. -/
theorem renderAll_formats {env : Env} {result : Parsed} {aggregate : Nat}
    {formats : List OutputFormat} {total : Nat} {rendered out : List (OutputFormat × List UInt8)}
    {sum : Nat} (h : renderAll env result aggregate formats total rendered = some (out, sum)) :
    out.map Prod.fst = rendered.map Prod.fst ++ formats := by
  induction formats generalizing total rendered with
  | nil =>
    cases h
    rw [List.append_nil]
  | cons format formats ih =>
    unfold renderAll at h
    obtain ⟨bytes, -, h⟩ := Option.bind_eq_some_iff.mp h
    split at h
    · rw [ih h, List.map_append, List.append_assoc]
      rfl
    · cases h

/-- A section changes the record of its job, and no other one. -/
def Writes (s s' : Shared) (id : Id) (r' : JobRecord) : Prop :=
  ∀ k r, s'.jobs.record k = some r → (k = id ∧ r = r') ∨ (k ≠ id ∧ s.jobs.record k = some r)

theorem Writes.same {s s' : Shared} {id : Id} {r : JobRecord}
    (found : s.jobs.record id = some r) (records : s'.jobs.records = s.jobs.records) :
    Writes s s' id r := by
  intro k r' there
  have old : s.jobs.record k = some r' := by
    unfold Jobs.record at there ⊢
    rwa [records] at there
  by_cases same : k = id
  · subst same
    exact .inl ⟨rfl, Option.some.inj (old.symm.trans found)⟩
  · exact .inr ⟨same, old⟩

/-- A section replaces the record of its job and no other one. -/
theorem Writes.set {s s' : Shared} {id : Id} {r r' : JobRecord}
    (found : s.jobs.record id = some r) (is : s'.jobs = s.jobs.setRecord id r') :
    Writes s s' id r' := by
  intro k r'' there
  rw [is, record_setRecord found] at there
  split at there
  · rename_i same
    exact .inl ⟨same, (Option.some.inj there).symm⟩
  · rename_i other
    exact .inr ⟨other, there⟩

/-- What a section of a run past its start leaves: a settled record at its end, and else a record
in progress. -/
structure Forward (s s' : Shared) (run : Run) (r : JobRecord) (next : Option Run)
    (r' : JobRecord) : Prop where
  writes : Writes s s' run.job r'
  stopping : s'.jobs.stopping = s.jobs.stopping
  shape : Shape r'
  cancel : r'.cancel = r.cancel ∨ r'.cancel = (r.cancel || s.jobs.stopping)
  ends : match next with
    | none => Settled s.jobs.stopping r'
    | some run' => run'.job = run.job ∧ run'.pc.started = true ∧
      Progress s.jobs.stopping r' run'

section Forward

variable {env : Env} {s : Shared} {run : Run} {r : JobRecord}

theorem Forward.keep {store : Store} {processed pages : Nat} (shape : Shape r)
    (found : s.jobs.record run.job = some r) {run' : Run} (job : run'.job = run.job)
    (started : run'.pc.started = true) (h : Progress s.jobs.stopping r run') :
    Forward s { store, jobs := { s.jobs with
      filesProcessed := processed, pagesProcessed := pages } } run r (some run') r :=
  ⟨.same found rfl, rfl, shape, .inl rfl, job, started, h⟩

/-- A section that only works leaves the record as it is. -/
theorem Works.progress (h : Progress s.jobs.stopping r run) {pc : RunPc} (works : Works run.pc pc) :
    Progress s.jobs.stopping r { run with pc } ∧ pc.started = true := by
  generalize is : run.pc = before at works
  cases works with
  | named p done =>
    refine ⟨h.work _ _ is (fun f current => ⟨current.1, ?_⟩) (fun _ _ => rfl) ⟨nofun, nofun⟩, rfl⟩
    have formats := current.2
    rwa [done, List.map_nil, List.append_nil] at formats
  | uncommitted p =>
    exact ⟨h.work _ _ is (fun f current => current.1) (fun _ _ => rfl) ⟨nofun, nofun⟩, rfl⟩
  | _ =>
    exact ⟨h.work _ _ is (fun f current => current) (fun _ _ => rfl) ⟨nofun, nofun⟩, rfl⟩

/-- A record whose response of one file changed, by the record's split at the index. -/
theorem Progress.modify_shape {stopping : Bool} (h : Progress stopping r run) (shape : Shape r)
    (inside : run.pc ≠ .loopHead ∧ run.pc ≠ .finalize) (g : JobFileResponse → JobFileResponse)
    (same : ∀ f, Current (r.cancel || stopping) r.response.outputFormats f run.pc →
      (g f).status = f.status ∨ (f.status = .queued ∧ (g f).status = .running)) :
    Shape (r.modifyFile run.index g) := by
  obtain ⟨before, ahead, files, index, -, -, -, rest⟩ := h.split
  cases ahead with
  | nil => exact absurd rest (not_or.mpr inside)
  | cons f after =>
    rw [← index]
    exact shape.modifyFile files g (same f rest.1)

theorem Shape.markFile (shape : Shape r) (index : Nat) (status : FileStatus)
    (message : Option String) : Shape (r.markFile index status message) := by
  have length : (r.modifyFile index (.mark status message)).response.files.length =
      r.response.files.length := List.length_modify _ _ _
  apply Shape.of_update
  · intro none
    rw [none] at length
    exact shape.nonempty (List.length_eq_zero_iff.mp length.symm)
  · exact shape.total.trans length.symm

/-- A section of a run past its start keeps its record in progress, or settles it. -/
theorem RunTurn.forward {s' : Shared} {next : Option Run} (turn : RunTurn env s run r s' next)
    (found : s.jobs.record run.job = some r) (shape : Shape r) (started : run.pc.started = true)
    (h : Progress s.jobs.stopping r run) : ∃ r', Forward s s' run r next r' := by
  have keep : ∀ {run' : Run}, run'.job = run.job → run'.pc.started = true →
      Progress s.jobs.stopping r run' → ∃ r', Forward s s run r (some run') r' :=
    fun job started h => ⟨r, .keep shape found job started h⟩
  cases turn with
  | skip pc | start pc => rw [pc] at started; cases started
  | enter pc more => exact keep rfl rfl (h.enter pc more)
  | leave pc out => exact keep rfl rfl (h.leave pc out)
  | markRunning pc =>
    have inside : run.pc ≠ .loopHead ∧ run.pc ≠ .finalize := by rw [pc]; exact ⟨nofun, nofun⟩
    refine ⟨_, .set found rfl, setRecord_stopping _ _ _, h.modify_shape shape inside _ ?_,
      .inl rfl, rfl, rfl, h.modify _ { run with pc := .gateArm } rfl inside ?_ ?_⟩
    · intro f current
      rw [pc] at current
      exact .inr ⟨current.1, rfl⟩
    · intro status _
      rw [pc]
      rfl
    · intro f current
      rw [pc] at current
      exact ⟨rfl, current.2⟩
  | work pc works store same ledger =>
    obtain ⟨next, past⟩ := works.progress h
    exact ⟨r, .keep shape found rfl past next⟩
  | abort aborts flagged =>
    generalize is : run.pc = before at aborts
    refine keep rfl rfl ?_
    cases aborts <;>
      exact h.abort _ is (fun f current => current) (fun _ => rfl) ⟨nofun, nofun⟩ flagged
  | fail fails message =>
    refine keep rfl rfl (h.fail message ?_ ?_ ?_) <;> generalize run.pc = before at fails <;>
      cases fails
    · exact fun f current => current
    · exact fun f current => current
    · exact fun status => rfl
    · exact fun status => rfl
    · exact ⟨nofun, nofun⟩
    · exact ⟨nofun, nofun⟩
  | late outcome pc flagged =>
    refine keep rfl rfl (h.work _ _ pc (fun f current => ⟨rfl, flagged, current⟩) ?_
      ⟨nofun, nofun⟩)
    rintro status (rfl | rfl) <;> rfl
  | parsed outcome pc =>
    refine keep ?_ ?_ (h.onParsed pc)
    · cases outcome with
      | none => rfl
      | some result => unfold Run.onParsed; dsimp only; split <;> rfl
    · cases outcome with
      | none => rfl
      | some result => unfold Run.onParsed; dsimp only; split <;> rfl
  | take result p file pc there rendered made =>
    refine keep rfl rfl (h.work _ _ pc (fun f current => ⟨current, ?_⟩) (fun _ _ => rfl)
      ⟨nofun, nofun⟩)
    have formats := renderAll_formats rendered
    rw [made]
    exact formats
  | name p format bytes rest object pc next made =>
    refine ⟨r, .keep shape found rfl rfl (h.work _ _ pc (fun f current => ⟨current.1, ?_⟩)
      (fun _ _ => rfl) ⟨nofun, nofun⟩)⟩
    have formats := current.2
    rw [next] at formats
    simpa using formats
  | publish p charged ledger pc clear splits free =>
    have inside : run.pc ≠ .loopHead ∧ run.pc ≠ .finalize := by rw [pc]; exact ⟨nofun, nofun⟩
    exact ⟨_, .set found rfl, setRecord_stopping _ _ _,
      h.modify_shape shape inside _ fun f current => .inl rfl, .inl rfl, rfl, rfl,
      h.publish pc p.total⟩
  | count pages pc => exact ⟨r, .keep shape found rfl rfl (h.count pc)⟩
  | mark status message pc =>
    exact ⟨_, .set found rfl, setRecord_stopping _ _ _, shape.markFile _ _ _, .inl rfl, rfl, rfl,
      h.markFile pc⟩
  | markLast status message pc =>
    exact ⟨_, .set found rfl, setRecord_stopping _ _ _, shape.markFile _ _ _, .inl rfl, rfl, rfl,
      h.markCanceled pc⟩
  | finalize pc =>
    exact ⟨_, .set found rfl, setRecord_stopping _ _ _, shape.finalized env _ _, .inl rfl,
      h.finalized pc env _⟩

end Forward

end Mineru.Official
