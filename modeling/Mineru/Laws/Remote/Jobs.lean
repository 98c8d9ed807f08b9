import Mineru.Laws.Remote.Program

/-!
# What a job makes public

A commit records what it publishes, so that what it returns tells of its log: all was done, all was
undone, or every undoing was tried and one of them failed. Each job checks the flag first when it is
inside of the gate.

The log is about the operations of the job alone. That nobody else works on the output root meanwhile
is not said here.
-/

set_option autoImplicit false

namespace Mineru.Remote

open Logic Archive

/-! ## The commit -/

/-- The log is what the commit has recorded. -/
def Recorded (s : CommitState) (log : List Event) : Prop :=
  log.Perm (s.created_dirs.map .createDir ++ s.backed_up.map .backUp ++ s.installed.map .install)

/-- Part of a forward pass, with the flag down: it records what it publishes, installs the files
`paths` when it does not fail, and fails with an error of its own. -/
def Forward {α : Type} (x : Commit α) (paths : List Path) : Prop :=
  ∀ s log, Recorded s log → Held (fun r l => Recorded r.2 l ∧
    (∀ a, r.1 = .ok a → r.2.installed = s.installed ++ paths) ∧
      ∀ e, r.1 = .error e → e ≠ operationCancelled) (x s) log

namespace Forward

variable {α β : Type} {x : Commit α} {f : α → Commit β} {p q : List Path}

theorem pure (a : α) : Forward (Pure.pure a : Commit α) [] := by
  intro s log recorded
  exact ⟨recorded, fun _ _ => (List.append_nil _).symm, fun e is => by cases is⟩

theorem fail {e : String} (own : e ≠ operationCancelled) : Forward (Commit.fail e : Commit α) p := by
  intro s log recorded
  refine ⟨recorded, fun a is => (by cases is), fun e' is => ?_⟩
  cases is
  exact own

/-- What two steps publish one after the other is recorded in this order. -/
theorem bind (h : Forward x p) (next : ∀ a, Forward (f a) q) :
    Forward (x >>= f) (p ++ q) := by
  intro s log recorded
  apply Held.andThen (h s log recorded)
  rintro ⟨result, s'⟩ log' ⟨recorded', installed, own⟩
  cases result with
  | ok a =>
    apply (next a s' log' recorded').weaken
    rintro ⟨result, s''⟩ log'' ⟨recorded'', installed', own'⟩
    refine ⟨recorded'', fun b is => ?_, own'⟩
    rw [installed' b is, installed a rfl, List.append_assoc]
  | error e => exact ⟨recorded', fun b is => (by cases is), fun e' is => own e' (by simpa using is)⟩

theorem check : Forward checkCancellation [] := by
  intro s log recorded
  exact ⟨recorded, fun _ _ => (List.append_nil _).symm, fun e is => by cases is⟩

theorem look : Forward (Commit.perform .look) [] := by
  intro s log recorded look
  exact ⟨recorded, fun _ _ => (List.append_nil _).symm, fun e is => by cases is⟩

/-- An operation inside the private directory leaves no event. Its error is not that of a cancelled
job. -/
theorem own {e : String} (own : e ≠ operationCancelled) : Forward (Remote.own e) [] := by
  intro s log recorded ok
  cases ok with
  | true => exact ⟨recorded, fun _ _ => (List.append_nil _).symm, fun e is => by cases is⟩
  | false =>
    refine ⟨recorded, fun a is => (by cases is), fun e' is => ?_⟩
    cases is
    exact own

/-- A public operation that is recorded. -/
theorem publish {event : Event} {e : String} {record : CommitState → CommitState}
    (own : e ≠ operationCancelled)
    (recorded : ∀ s log, Recorded s log → Recorded (record s) (log ++ [event]))
    (installed : ∀ s, (record s).installed = s.installed ++ p) :
    Forward (Remote.publish event e record) p := by
  intro s log before
  constructor
  · refine ⟨before, fun a is => (by cases is), fun e' is => ?_⟩
    cases is
    exact own
  · exact ⟨recorded s log before, fun _ _ => installed s, fun e is => by cases is⟩

end Forward

section Passes

/-- The logs of a commit hold what its events have published: here a directory, below a backup and a
file. -/
theorem recorded_created {s : CommitState} {log : List Event} {path : Path} (h : Recorded s log) :
    Recorded { s with created_dirs := s.created_dirs ++ [path] } (log ++ [.createDir path]) := by
  unfold Recorded at h ⊢
  rw [List.map_append, List.perm_iff_count] at *
  intro e
  have count := h e
  simp only [List.count_append, List.map_singleton] at count ⊢
  omega

theorem recorded_backed {s : CommitState} {log : List Event} {path : Path} (h : Recorded s log) :
    Recorded { s with backed_up := s.backed_up ++ [path] } (log ++ [.backUp path]) := by
  unfold Recorded at h ⊢
  rw [List.map_append, List.perm_iff_count] at *
  intro e
  have count := h e
  simp only [List.count_append, List.map_singleton] at count ⊢
  omega

theorem recorded_installed {s : CommitState} {log : List Event} {path : Path} (h : Recorded s log) :
    Recorded { s with installed := s.installed ++ [path] } (log ++ [.install path]) := by
  unfold Recorded at h ⊢
  rw [List.map_append, List.perm_iff_count] at *
  intro e
  have count := h e
  simp only [List.count_append, List.map_singleton] at count ⊢
  omega

theorem enterOrCreate_forward (current : Path) (look : Look) :
    Forward (enterOrCreate current look) [] := by
  cases look with
  | directory => exact .pure ()
  | absent =>
    apply Forward.bind (p := []) .check
    intro _
    apply Forward.bind (p := []) (.publish (by decide) (fun _ _ => recorded_created) fun s =>
      (List.append_nil _).symm)
    intro _
    exact .check
  | failed | file | special => exact .fail (by decide)

theorem ensureDirectoryLoop_forward (current parts : Path) :
    Forward (ensureDirectoryLoop current parts) [] := by
  induction parts generalizing current with
  | nil => exact .pure ()
  | cons name parts ih =>
    apply Forward.bind (p := []) .look
    intro look
    apply Forward.bind (p := []) (enterOrCreate_forward _ look)
    intro _
    apply Forward.bind (p := []) (.own (by decide))
    intro _
    exact ih _

/-- Directories are made where they are missing and published as such. No file becomes public by
this. -/
theorem ensureDirectory_forward (path : Path) : Forward (ensureDirectory path) [] := by
  apply Forward.bind (p := []) .check
  intro _
  apply Forward.bind (p := []) (.own (by decide))
  intro _
  exact ensureDirectoryLoop_forward _ _

/-- A backup moves a path away and publishes no file. -/
theorem backUp_forward (path : Path) (look : Look) : Forward (backUp path look) [] := by
  cases look with
  | absent => exact .pure ()
  | file =>
    apply Forward.bind (p := []) (.own (by decide))
    intro _
    apply Forward.bind (p := []) (.publish (by decide) (fun _ _ => recorded_backed) fun s =>
      (List.append_nil _).symm)
    intro _
    exact .check
  | failed | directory | special => exact .fail (by decide)

/-- The one step by which a file becomes public. -/
theorem install_forward (path : Path) : Forward (install path) [path] := by
  apply Forward.bind (p := []) .check
  intro _
  have named : Forward (named path) [] := by
    unfold Remote.named
    split
    · exact .fail (by decide)
    · exact .pure ()
  apply Forward.bind (p := []) named
  intro _
  apply Forward.bind (p := []) (ensureDirectory_forward _)
  intro _
  apply Forward.bind (p := []) (.own (by decide))
  intro _
  apply Forward.bind (p := []) .look
  intro look
  apply Forward.bind (p := []) (backUp_forward path look)
  intro _
  apply Forward.bind (p := []) .check
  intro _
  apply Forward.bind (p := [path]) (q := []) (.publish (by decide)
    (fun _ _ => recorded_installed) fun s => rfl)
  intro _
  exact .check

/-- The files among the entries. -/
def filesOf (entries : List Entry) : List Path :=
  (entries.filter fun entry => !entry.directory).map Entry.path

/-- The loop over the entries publishes their files, in their order. -/
theorem publishEntries_forward (entries : List Entry) :
    Forward (publishEntries entries) (filesOf entries) := by
  induction entries with
  | nil => exact .pure ()
  | cons entry entries ih =>
    have turn : Forward (publishEntry entry) (if entry.directory then [] else [entry.path]) := by
      unfold publishEntry
      split
      · exact ensureDirectory_forward _
      · exact install_forward _
    have split : filesOf (entry :: entries) =
        (if entry.directory then [] else [entry.path]) ++ filesOf entries := by
      unfold filesOf
      cases dir : entry.directory <;> simp [dir]
    rw [split]
    exact turn.bind fun _ => ih

/-- A forward pass that succeeds has published exactly the files of the entries. -/
theorem forwardPass_forward (entries : List Entry) :
    Forward (forwardPass entries) (filesOf entries) := by
  apply Forward.bind (p := []) .check
  intro _
  have whole := (publishEntries_forward entries).bind fun _ => Forward.check
  rwa [List.append_nil] at whole

end Passes

/-! ## The jobs -/

def Event.inverse : Event → Event
  | .createDir path => .removeDir path
  | .backUp path => .restore path
  | .install path => .remove path
  | e => e

/-- A commit has done all that it makes public: every file is installed. -/
def Performed (entries : List Entry) (log : List Event) : Prop :=
  ∃ s : CommitState, Recorded s log ∧ s.installed = filesOf entries

/-- A commit has undone all that it made public. -/
def Undone (log : List Event) : Prop :=
  ∃ s forward backward, Recorded s forward ∧ backward.Perm (forward.map Event.inverse) ∧
    log = forward ++ backward

/-- A rollback tried to undo all that the commit made public, and some of the undoings failed. -/
def PartlyUndone (log : List Event) : Prop :=
  ∃ s forward undoings tried, Recorded s forward ∧ undoings.Perm (forward.map Event.inverse) ∧
    List.Forall₂ (fun undoing e => e = undoing ∨ e = .stuck undoing) undoings tried ∧
    (∃ undoing, .stuck undoing ∈ tried) ∧ log = forward ++ tried

/-- How a job ends, by what it returns: an error of a commit has undone everything, or tells that it
could not, in which case an undoing has failed; and a cancellation has published nothing. -/
def Job.Settled : Job → Except String Unit → List Event → Prop
  | .extract entries, .ok _, log => Performed entries log
  | .extract _, .error e, log =>
    ((e = partialPublication ∧ PartlyUndone log) ∨ Undone log) ∧ (e = operationCancelled → log = [])
  | .preview relative, .ok _, log => log = [.write relative]
  | .preview _, .error _, log => log = []

section Jobs

variable {α β : Type}

/-- A loop of the rollback tries every undoing; it succeeds when none of them failed. -/
theorem undoAll_held (events log : List Event) :
    Held (fun ok l => ∃ tried,
      List.Forall₂ (fun undoing e => e = undoing ∨ e = .stuck undoing) events tried ∧
        l = log ++ tried ∧ (ok = true → tried = events) ∧
        (ok = false → ∃ undoing, .stuck undoing ∈ tried)) (undoAll events) log := by
  induction events generalizing log with
  | nil => exact ⟨[], .nil, (List.append_nil _).symm, fun _ => rfl, fun no => by cases no⟩
  | cons e events ih =>
    have turn : Held (fun ok l => l = log ++ [if ok then e else .stuck e]) (undo e) log :=
      ⟨rfl, rfl, rfl⟩
    apply turn.andThen
    intro undone log' first
    apply (ih log').andThen
    rintro rest log'' ⟨tried, each, second, all, some⟩
    refine ⟨(if undone then e else .stuck e) :: tried, .cons ?_ each, ?_, ?_, ?_⟩
    · cases undone with
      | true => exact .inl rfl
      | false => exact .inr rfl
    · rw [second, first, List.append_assoc]
      rfl
    · intro both
      obtain ⟨done, done'⟩ := Bool.and_eq_true_iff.mp both
      rw [all done', done]
      rfl
    · intro failed
      cases undone with
      | false => exact ⟨e, List.mem_cons_self⟩
      | true =>
        obtain ⟨undoing, mem⟩ := some failed
        exact ⟨undoing, List.mem_cons_of_mem _ mem⟩

/-- The three logs together are the inverses of what was published, though not in the order of the
events. -/
theorem undoing_perm {s : CommitState} {log : List Event} (h : Recorded s log) :
    s.undoing.Perm (log.map Event.inverse) := by
  have inverse := h.map Event.inverse
  have created : Event.inverse ∘ Event.createDir = Event.removeDir := rfl
  have backed : Event.inverse ∘ Event.backUp = Event.restore := rfl
  have installed : Event.inverse ∘ Event.install = Event.remove := rfl
  simp only [List.map_append, List.map_map, created, backed, installed] at inverse
  apply List.Perm.trans _ inverse.symm
  rw [List.perm_iff_count]
  intro e
  simp only [CommitState.undoing, List.map_reverse, List.count_append, List.count_reverse]
  omega

/-- What the settling of a commit returns: on success all is public; on an error all of it was
undone, or the answer says that some of it may remain. -/
theorem settle_held {entries : List Entry} {r : Except String Unit × CommitState}
    {log : List Event} (recorded : Recorded r.2 log)
    (installed : ∀ a, r.1 = .ok a → r.2.installed = filesOf entries)
    (own : ∀ e, r.1 = .error e → e ≠ operationCancelled) :
    Held (Job.Settled (.extract entries)) (settle r) log := by
  obtain ⟨result, s⟩ := r
  cases result with
  | ok a => exact ⟨s, recorded, installed a rfl⟩
  | error e =>
    apply (undoAll_held s.undoing log).andThen
    rintro ok log' ⟨tried, each, whole, all, some⟩
    cases ok with
    | true =>
      refine ⟨.inr ⟨s, log, s.undoing, recorded, undoing_perm recorded, ?_⟩,
        fun is => absurd is (own e rfl)⟩
      rw [whole, all rfl]
    | false =>
      exact ⟨.inl ⟨rfl, s, log, s.undoing, tried, recorded, undoing_perm recorded, each, some rfl,
        whole⟩, fun is => absurd is (by decide)⟩

theorem undone_nil : Undone [] := ⟨{}, [], [], .refl _, .refl _, rfl⟩

theorem settled_error (job : Job) (e : String) : job.Settled (.error e) [] := by
  cases job with
  | extract entries => exact ⟨.inr undone_nil, fun _ => rfl⟩
  | preview relative => rfl

/-- The commit, as it is seen from the outside: its result tells of its log. -/
theorem commitStagedOverlay_outside (entries : List Entry) :
    Outside (Job.Settled (.extract entries)) (commitStagedOverlay entries) := by
  have inside : Inside (Job.Settled (.extract entries))
      ((forwardPass entries {}).andThen fun r => (settle r).andThen fun result =>
        .step .unlock fun _ => .ret result) [] := by
    apply (forwardPass_forward entries {} [] (.refl _)).inside
    intro r log ⟨recorded, installed, own⟩
    apply (settle_held recorded installed own).inside
    intro result log' settled
    exact ⟨result, rfl, settled⟩
  exact ⟨inside, _, rfl, settled_error _ _⟩

/-- A part of a job before the gate. -/
def Before (x : Commit α) : Prop := ∀ s, Plain (fun _ => True) (x s)

namespace Before

variable {x : Commit α} {f : α → Commit β}

theorem bind (h : Before x) (next : ∀ a, Before (f a)) : Before (x >>= f) := by
  intro s
  apply (h s).andThen
  rintro ⟨result, s'⟩ -
  cases result with
  | ok a => exact next a s'
  | error e => trivial

theorem pure (a : α) : Before (Pure.pure a : Commit α) := fun _ => trivial

theorem check : Before checkCancellation := by
  intro s flag
  cases flag <;> trivial

theorem own (e : String) : Before (Remote.own e) := by
  intro s ok
  cases ok <;> trivial

end Before

theorem eachEntry_before (e : String) (entries : List Entry) : Before (eachEntry e entries) := by
  induction entries with
  | nil => exact .pure ()
  | cons entry entries ih =>
    exact .bind .check fun _ => .bind (.own _) fun _ => .bind .check fun _ => ih

/-- A step that publishes nothing and fails ends the job with nothing public. -/
theorem orFail_outside {job : Job} {x : Commit Unit} {next : Prog (Except String Unit)}
    (h : Before x) (rest : Outside job.Settled next) : Outside job.Settled (orFail x next) := by
  apply (h {}).outside
  rintro ⟨result, s⟩ -
  cases result with
  | ok a => exact rest
  | error e => exact settled_error job e

theorem cleanedUp_returns (result : Except String Unit) : Returns result (cleanedUp result) := by
  unfold cleanedUp
  split
  · rfl
  · exact fun _ => rfl

theorem validated_before (entries : List Entry) : Before (validated entries) :=
  .bind .check fun _ => .bind .check fun _ => .bind (.own _) fun _ => .bind .check fun _ =>
    .bind (.own _) fun _ => .bind (eachEntry_before _ entries) fun _ => .bind .check fun _ =>
      .bind (.own _) fun _ => .bind .check fun _ => .own _

/-- Unpacking and checking come before the gate and publish nothing. -/
theorem staged_before (entries : List Entry) : Before (staged entries) :=
  .bind (eachEntry_before _ entries) fun _ => .bind (eachEntry_before _ entries) fun _ => .check

/-- The extraction from beginning to end. Its cleaning up changes nothing of the result. -/
theorem extractCancellable_outside (entries : List Entry) :
    Outside (Job.Settled (.extract entries)) (extractCancellable entries) :=
  orFail_outside (validated_before entries)
    ((orFail_outside (staged_before entries) (commitStagedOverlay_outside entries)).andThen
      cleanedUp_returns)

/-- The preview publishes one file, and undoes nothing, because nothing follows it. -/
theorem publishFile_held (relative : Path) :
    Held (fun r l => Job.Settled (.preview relative) r.1 l) (publishFile relative {}) [] := by
  intro look
  cases look with
  | absent | file => exact ⟨rfl, rfl⟩
  | directory | special | failed => rfl

theorem cleanedTemp_returns (result : Except String Unit) : Returns result (cleanedTemp result) := by
  cases result with
  | ok a => rfl
  | error e => exact fun _ => rfl

theorem publishTemp_outside (relative : Path) :
    Outside (Job.Settled (.preview relative)) (publishTemp relative) := by
  have inside : Inside (Job.Settled (.preview relative))
      ((publishFile relative {}).andThen fun r => .step .unlock fun _ => .ret r.1) [] := by
    apply (publishFile_held relative).inside
    intro r log settled
    exact ⟨r.1, rfl, settled⟩
  exact ⟨inside, .error operationCancelled, rfl, rfl⟩

/-- The preview from beginning to end. -/
theorem generateAndPublish_outside (relative : Path) :
    Outside (Job.Settled (.preview relative)) (generateAndPublish relative) := by
  apply orFail_outside
  · exact .bind .check fun _ => .bind (.own _) fun _ => .bind (.own _) fun _ => .bind (.own _)
      fun _ => .bind .check fun _ => .bind .check fun _ => .bind (.own _) fun _ => .own _
  · exact (orFail_outside (.own _) (publishTemp_outside relative)).andThen cleanedTemp_returns

theorem program_outside (job : Job) : Outside job.Settled job.program := by
  cases job with
  | extract entries => exact extractCancellable_outside entries
  | preview relative => exact generateAndPublish_outside relative

end Jobs

end Mineru.Remote
