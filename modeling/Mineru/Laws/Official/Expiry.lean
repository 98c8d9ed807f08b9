import Mineru.Laws.Official.Integrity

/-!
# How long outputs live

An artifact expires a retention after its publication, and its job a retention after its end. In
runs in which no client deletes a file and the clock stands still from a publication to the end of
its job (`steady`), the artifacts of a listed job are there until the job expires. `Kept` is what a
step leaves of the files that have not expired, and `Carried` what it leaves of a record's outputs.

Each has one lemma for each kind of turn, of a handler (`UploadTurn.kept`, `JobTurn.kept`) and of
the runner (`RunTurn.kept`, `RunTurn.carried`), and `lasting_step` puts them together into the
invariant `Lasting`. What a deletion would do is ruled out action by action: `Steady` says of a
handler between two sections that it is not about to delete.

Without the condition on the clock the theorem is false, and the counterexample is a run in which
time passes between a publication and the end of its job.
-/

set_option autoImplicit false

namespace Mineru.Official

open Logic

variable {env : Env} {now : Nat}

/-- The running job has published a file, or is publishing one. -/
def Service.publishing (s : Service) : Bool :=
  match s.shared.jobs.runner with
  | .running run => match run.pc with
    | .naming _ | .publishCommit _ => true
    | _ => match s.shared.jobs.record run.job with
      | some r => r.response.files.any fun f => f.outputFiles.isSome
      | none => false
  | _ => false

/-- No client deletes a file, and the clock stands still from a publication to the end of its job. -/
def steady (s : Service) : Action → Bool
  | .tick seconds => decide (seconds = 0) || !s.publishing
  | .call (.deleteFile _) => false
  | _ => true

/-! ## Files that stay -/

/-- The files that have not expired are still there. -/
structure Kept (s s' : Store) : Prop where
  clock : s'.now = s.now
  files : ∀ id f x, s.entries.get id = some (.file f) → f.object.expiresAt = some x → s.now < x →
    s'.entries.get id = some (.file f)

theorem Kept.of_same {s s' : Store} (clock : s'.now = s.now) (entries : s'.entries = s.entries) :
    Kept s s' := by
  refine ⟨clock, fun id f x there _ _ => ?_⟩
  rw [entries]
  exact there

/-- The cleaning of the store removes expired files only. -/
theorem cleanupExpired_kept (s : Store) : Kept s s.cleanupExpired.1 := by
  refine ⟨rfl, fun id f x there expires later => ?_⟩
  refine Table.get_keep_some.mpr ⟨there, ?_⟩
  simp [Store.expired, expires, later]

/-- What is set or removed is an upload. -/
theorem Kept.of_upload {s s' : Store} {n : Nat} (clock : s'.now = s.now)
    (files : ∀ id f, s.entries.get id = some (.file f) → ∃ n, id = .file n)
    (entries : ∀ k, k ≠ .upload n → s'.entries.get k = s.entries.get k) : Kept s s' := by
  refine ⟨clock, fun k f x there _ _ => ?_⟩
  obtain ⟨m, rfl⟩ := files k f there
  rw [entries _ (by simp)]
  exact there

/-- Files inserted under free identifiers replace none, and one of them is found. -/
theorem insertFiles_keeps {id : Id} {e : Entry} (files : List File) :
    ∀ entries : Table Id Entry, entries.get id = some e → (∀ f ∈ files, f.object.id ≠ id) →
      (Store.insertFiles entries files).get id = some e := by
  induction files with
  | nil => exact fun _ there _ => there
  | cons f files ih =>
    intro entries there other
    apply ih
    · rw [Table.get_set, if_neg (other f List.mem_cons_self).symm]
      exact there
    · exact fun g mem => other g (List.mem_cons_of_mem _ mem)

/-- A file of a batch is found under its name afterwards, be it in the place of an older one. -/
theorem insertFiles_finds {id : Id} (files : List File) :
    ∀ entries : Table Id Entry, (∃ k ∈ files, k.object.id = id) →
      ∃ g ∈ files, (Store.insertFiles entries files).get id = some (.file g) := by
  induction files with
  | nil =>
    rintro entries ⟨k, mem, -⟩
    cases mem
  | cons f files ih =>
    intro entries some_
    by_cases later : ∃ k ∈ files, k.object.id = id
    · obtain ⟨g, mem, found⟩ := ih (entries.set f.object.id (.file f)) later
      exact ⟨g, List.mem_cons_of_mem _ mem, found⟩
    · obtain ⟨k, mem, is⟩ := some_
      rcases List.mem_cons.mp mem with rfl | there
      · refine ⟨k, List.mem_cons_self, insertFiles_keeps files _ ?_ fun g among same =>
          later ⟨g, among, same⟩⟩
        rw [Table.get_set, if_pos is.symm]
      · exact absurd ⟨k, there, is⟩ later

/-! ## Records -/

/-- A record has an expiry when it has ended. -/
def Dated (r : JobRecord) : Prop := r.expiry = none ↔ r.response.status.terminal = false

/-- Until when the outputs of a record are to be there. -/
def deadline (env : Env) (now : Nat) (r : JobRecord) : Nat := r.expiry.getD (now + env.retention)

/-- The outputs of a record are in the store and expire no earlier than the record. -/
def Lives (env : Env) (s : Store) (r : JobRecord) : Prop :=
  ∀ f ∈ r.response.files, ∀ refs, f.outputFiles = some refs → ∀ format ref,
    refs.get format = some ref → s.now < deadline env s.now r →
      ∃ g x, s.entries.get ref.fileId = some (.file g) ∧ g.object.expiresAt = some x ∧
        deadline env s.now r ≤ x

/-- A record has the outputs it had, and its expiry, or it has just got one. -/
structure Carried (env : Env) (now : Nat) (r r' : JobRecord) : Prop where
  outputs : ∀ f' ∈ r'.response.files, ∀ refs, f'.outputFiles = some refs →
    ∃ f ∈ r.response.files, f.outputFiles = some refs
  expiry : r'.expiry = r.expiry ∨ (r.expiry = none ∧ r'.expiry = some (now + env.retention))

theorem Carried.refl (env : Env) (now : Nat) (r : JobRecord) : Carried env now r r :=
  ⟨fun f mem _ is => ⟨f, mem, is⟩, .inl rfl⟩

/-- The deadline of a record is computed from what every turn carries on. -/
theorem Carried.deadline {r r' : JobRecord} (h : Carried env now r r') :
    deadline env now r' = deadline env now r := by
  unfold Official.deadline
  rcases h.expiry with same | ⟨none, some⟩
  · rw [same]
  · rw [none, some]
    rfl

/-- Outputs that live before a turn live behind it: the record names the same files, and none of
them is gone before it expires. -/
theorem Lives.carry {s s' : Store} {r r' : JobRecord} (h : Lives env s r) (kept : Kept s s')
    (carried : Carried env s.now r r') : Lives env s' r' := by
  intro f' mem refs is format ref found later
  obtain ⟨f, there, same⟩ := carried.outputs f' mem refs is
  rw [kept.clock, carried.deadline] at later ⊢
  obtain ⟨g, x, entry, expires, le⟩ := h f there refs same format ref found later
  exact ⟨g, x, kept.files _ g x entry expires (Nat.lt_of_lt_of_le later le), expires, le⟩

/-- A record without an output has none that could be missing. -/
theorem Fresh.lives {s : Store} {r : JobRecord} (h : Fresh r) : Lives env s r := by
  intro f mem refs is
  rw [(h.untouched f mem).2] at is
  cases is

theorem Touched.carried {r r' : JobRecord} (h : Touched env now r r') (dated : Dated r) :
    Carried env now r r' ∧ Dated r' := by
  cases h with
  | settle queued =>
    have none : r.expiry = none := dated.mpr (by rw [queued]; rfl)
    refine ⟨⟨fun f' mem refs is => ?_, .inr ⟨none, rfl⟩⟩, ?_⟩
    · obtain ⟨f, there, rfl⟩ := List.mem_map.mp mem
      exact ⟨f, there, is⟩
    · constructor <;> intro h <;> cases h
  | flag live => exact ⟨⟨fun f mem _ is => ⟨f, mem, is⟩, .inl rfl⟩, dated⟩

/-- A change of one file that leaves its outputs. -/
theorem modifyFile_carried (r : JobRecord) (index : Nat) {g : JobFileResponse → JobFileResponse}
    (same : ∀ f, (g f).outputFiles = f.outputFiles) : Carried env now r (r.modifyFile index g) := by
  refine ⟨fun f' mem refs is => ?_, .inl rfl⟩
  change f' ∈ r.response.files.modify index g at mem
  obtain ⟨k, lt, rfl⟩ := List.mem_iff_getElem.mp mem
  rw [List.getElem_modify] at is
  have there : k < r.response.files.length := by rwa [List.length_modify] at lt
  refine ⟨r.response.files[k], List.getElem_mem there, ?_⟩
  split at is
  · exact (same _).symm.trans is
  · exact is

theorem markFile_carried (r : JobRecord) (index : Nat) (status : FileStatus)
    (message : Option String) : Carried env now r (r.markFile index status message) := by
  have h : Carried env now r (r.modifyFile index (.mark status message)) :=
    modifyFile_carried r index fun _ => rfl
  exact ⟨h.outputs, h.expiry⟩

/-- The outputs of a published record are those that it had, and the references of the
publication. -/
theorem published_outputs {r : JobRecord} {index : Nat} {p : Publication} {f' : JobFileResponse}
    (mem : f' ∈ (r.published index p).response.files) {refs : Table OutputFormat OutputReference}
    (is : f'.outputFiles = some refs) :
    refs = outputReferences p.named ∨ ∃ f ∈ r.response.files, f.outputFiles = some refs := by
  change f' ∈ r.response.files.modify index _ at mem
  obtain ⟨k, lt, rfl⟩ := List.mem_iff_getElem.mp mem
  rw [List.getElem_modify] at is
  have there : k < r.response.files.length := by rwa [List.length_modify] at lt
  split at is
  · exact .inl (Option.some.inj is).symm
  · exact .inr ⟨_, List.getElem_mem there, is⟩

/-- Every reference of a publication names one of its artifacts. -/
theorem outputReferences_mem (named : List (OutputFormat × FileObject × List UInt8))
    {format : OutputFormat} {ref : OutputReference}
    (found : (outputReferences named).get format = some ref) :
    ∃ a ∈ named, ref.fileId = a.2.1.id := by
  suffices general : ∀ refs : Table OutputFormat OutputReference,
      (named.foldl (fun refs a => refs.set a.1 ⟨a.2.1.id, a.2.2.length⟩) refs).get format =
        some ref → (∃ a ∈ named, ref.fileId = a.2.1.id) ∨ refs.get format = some ref by
    rcases general ∅ found with h | none
    · exact h
    · cases (Table.get_empty (α := OutputReference) format).symm.trans none
  clear found
  induction named with
  | nil => exact fun refs h => .inr h
  | cons a named ih =>
    intro refs h
    rcases ih _ h with ⟨b, mem, is⟩ | before
    · exact .inl ⟨b, List.mem_cons_of_mem _ mem, is⟩
    · rw [Table.get_set] at before
      split at before
      · cases before
        exact .inl ⟨a, List.mem_cons_self, rfl⟩
      · exact .inr before

/-! ## Sections -/

/-- A publication that goes through. -/
structure Publishes (s s' : Shared) (run : Run) (r r' : JobRecord) (p : Publication) : Prop where
  pc : run.pc = .publishCommit p
  record : r' = r.published run.index p
  open_ : r.expiry = none
  entries : ∃ charged, s'.store.entries = Store.insertFiles s.store.entries charged ∧
    charged.map File.object = p.named.map fun a => a.2.1
  free : ∀ a ∈ p.named, s.store.entries.get a.2.1.id = none

/-- A turn of the run carries the outputs of its record, or publishes one more file with a whole
retention ahead of it. -/
theorem RunTurn.carried {s s' : Shared} {run : Run} {r r' : JobRecord} {next : Option Run}
    (turn : RunTurn env s run r s' next) (found : s.jobs.record run.job = some r)
    (dated : Dated r) (live : run.pc ≠ .start → r.response.status.terminal = false)
    (after : s'.jobs.record run.job = some r') :
    Dated r' ∧ (Carried env s.store.now r r' ∨ ∃ p, Publishes s s' run r r' p) := by
  have same : s'.jobs.records = s.jobs.records →
      Dated r' ∧ (Carried env s.store.now r r' ∨ ∃ p, Publishes s s' run r r' p) := by
    intro records
    unfold Jobs.record at after found
    rw [records, found] at after
    cases after
    exact ⟨dated, .inl (.refl _ _ _)⟩
  have set : ∀ r'', s'.jobs = s.jobs.setRecord run.job r'' → r' = r'' := by
    intro r'' jobs
    rw [jobs, record_setRecord found, if_pos rfl] at after
    exact (Option.some.inj after).symm
  cases turn with
  | start pc queued =>
    cases set _ rfl
    have none : r.expiry = none := dated.mpr (by rw [queued]; rfl)
    exact ⟨⟨fun _ => rfl, fun _ => none⟩, .inl ⟨fun f mem _ is => ⟨f, mem, is⟩, .inl rfl⟩⟩
  | markRunning pc =>
    cases set _ rfl
    exact ⟨dated, .inl (modifyFile_carried r run.index fun _ => rfl)⟩
  | mark status message | markLast status message =>
    cases set _ rfl
    exact ⟨dated, .inl (markFile_carried r run.index status message)⟩
  | finalize pc =>
    cases set _ rfl
    have none : r.expiry = none := dated.mpr (live (by rw [pc]; intro h; cases h))
    refine ⟨⟨fun h => (by cases h), fun h => ?_⟩, .inl ⟨fun f' mem refs is => ?_, .inr ⟨none, rfl⟩⟩⟩
    · cases (finalStatus_terminal _ _ _).symm.trans h
    · obtain ⟨f, there, outputs, -⟩ := mem_finalized mem
      exact ⟨f, there, outputs.symm.trans is⟩
  | publish p charged ledger pc clear splits free =>
    cases set _ rfl
    have none : r.expiry = none := dated.mpr (live (by rw [pc]; intro h; cases h))
    refine ⟨dated, .inr ⟨p, pc, rfl, none, ⟨charged, rfl, ?_⟩, free⟩⟩
    rw [splits.objects, List.map_map]
    rfl
  | _ => exact same rfl

/-! ## Shutdown -/

/-- The admissions are over, and the table of jobs lists none. -/
def Shut (j : Jobs) : Prop :=
  j.stopping = true ∧ ∀ id slot, j.records.get id = some slot → slot.listed = false

/-- What a handler relies on at its next section, in a run without deletions. -/
def Pc.Steady (j : Jobs) : Pc → Prop
  | upload pc => ∀ id, pc ≠ .deleteFile id
  | job pc => match pc with
    | .prepareCommit _ record => record.expiry = none
    | .stopJobs _ | .stopMark _ _ | .stopCancelNotify _ | .takeRunner | .awaitRunner
    | .shutdownParser | .clearJobs => j.stopping = true
    | .clearStore => Shut j
    | _ => True

theorem Shut.collect {s : Service} (h : Shut s.shared.jobs) : Shut s.collect.shared.jobs :=
  ⟨h.1, fun id slot found => h.2 id slot ((collect_records s id slot).mp found).1⟩

/-- A handler that does not delete stays so, whatever the others do to the jobs. -/
theorem Pc.Steady.mono {j j' : Jobs} {pc : Pc} (h : pc.Steady j)
    (stopping : j.stopping = true → j'.stopping = true) (shut : Shut j → Shut j') :
    pc.Steady j' := by
  cases pc with
  | upload pc => exact h
  | job pc =>
    cases pc with
    | stopJobs | stopMark | stopCancelNotify | takeRunner | awaitRunner | shutdownParser
    | clearJobs => exact stopping h
    | clearStore => exact shut h
    | _ => exact h

theorem setRecord_listed {j : Jobs} {id k : Id} {r : JobRecord} {slot : JobSlot}
    (h : (j.setRecord id r).records.get k = some slot) :
    ∃ slot', j.records.get k = some slot' ∧ slot'.listed = slot.listed := by
  unfold Jobs.setRecord at h
  split at h
  · rename_i old found
    rw [Table.get_set] at h
    split at h
    · rename_i same
      cases h
      exact ⟨old, same ▸ found, rfl⟩
    · exact ⟨slot, h, rfl⟩
  · exact ⟨slot, h, rfl⟩

/-- A job is listed from its admission on. -/
theorem JobTurn.admitted {s : Shared} {held : Id → Bool} {pc : JobPc} {o : JobOutcome}
    (turn : JobTurn env s held pc o) {id : Id} {slot : JobSlot}
    (found : o.state.jobs.records.get id = some slot) (listed : slot.listed = true) :
    (∃ slot', s.jobs.records.get id = some slot' ∧ slot'.listed = true) ∨
      (s.jobs.stopping = false ∧ ∃ n record, pc = .prepareCommit n record ∧ id = .job n) := by
  have old : ∀ {j : Jobs} {k : Id} {r : JobRecord}, j.records = s.jobs.records →
      (j.setRecord k r).records.get id = some slot →
      ∃ slot', s.jobs.records.get id = some slot' ∧ slot'.listed = true := by
    intro j k r records found
    obtain ⟨slot', there, same⟩ := setRecord_listed found
    exact ⟨slot', records ▸ there, same.trans listed⟩
  cases turn with
  | commit n record running =>
    change (Jobs.notifyOne _).records.get id = _ at found
    rw [notifyOne_records, Table.get_set] at found
    split at found
    · rename_i same
      exact .inr ⟨running, n, record, rfl, same⟩
    · exact .inl ⟨slot, found, listed⟩
  | cancelQueued | cancelRunning =>
    exact .inl (old (j := { s.jobs with cancelCalls := s.jobs.cancelCalls + 1 }) rfl found)
  | stopMark k ids shutdown r there live => exact .inl (old rfl found)
  | sweep => exact .inl ⟨slot, (Table.get_keep_some.mp found).1, listed⟩
  | clear =>
    change (Table.map _ _).get id = _ at found
    rw [Table.get_map] at found
    obtain ⟨slot', -, rfl⟩ := Option.map_eq_some_iff.mp found
    cases listed
  | _ => exact .inl ⟨slot, found, listed⟩

/-- Which records are listed is decided by the handlers of jobs; the run never lists one
(`RunTurn.listed`). -/
theorem JobTurn.listed {s : Shared} {held : Id → Bool} {pc : JobPc} {o : JobOutcome}
    (turn : JobTurn env s held pc o) {id : Id} {slot : JobSlot}
    (found : o.state.jobs.records.get id = some slot) (listed : slot.listed = true) :
    (∃ slot', s.jobs.records.get id = some slot' ∧ slot'.listed = true) ∨
      s.jobs.stopping = false :=
  (turn.admitted found listed).imp_right And.left

theorem RunTurn.listed {s s' : Shared} {run : Run} {r : JobRecord} {next : Option Run}
    (turn : RunTurn env s run r s' next) {id : Id} {slot : JobSlot}
    (found : s'.jobs.records.get id = some slot) :
    ∃ slot', s.jobs.records.get id = some slot' ∧ slot'.listed = slot.listed := by
  cases turn with
  | start | markRunning | mark | markLast | finalize | publish => exact setRecord_listed found
  | _ => exact ⟨slot, found, rfl⟩

/-- Once the service stops it never starts again. -/
theorem Turn.stopping {s s' : Service} {reply : Reply} (turn : Turn env s s' reply)
    (h : JobsInv s) (stopping : s.shared.jobs.stopping = true) :
    s'.shared.jobs.stopping = true := by
  rcases turn.handled with handled | ⟨-, -, turn⟩
  · exact handled.stopping stopping
  · exact (turn.stopping h.orderly).trans stopping

/-- A service that has been shut down stays so. -/
theorem Turn.shut {s s' : Service} {reply : Reply} (turn : Turn env s s' reply) (h : JobsInv s)
    (shut : Shut s.shared.jobs) : Shut s'.shared.jobs := by
  refine ⟨turn.stopping h shut.1, fun id slot found => Bool.eq_false_iff.mpr fun listed => ?_⟩
  have absent : ∀ slot', s.shared.jobs.records.get id = some slot' → slot'.listed ≠ true := by
    intro slot' there is
    rw [shut.2 id slot' there] at is
    cases is
  cases turn with
  | clock | foreign | drop | abandon => exact absent slot found listed
  | call request o first =>
    subst first
    change (firstSection s.shared request).state.jobs.records.get id = some slot at found
    rw [(firstSection_opened s.shared request).records] at found
    exact absent slot found listed
  | resume i pc input o there run =>
    rcases handlerSection_turn run with ⟨upc, uo, rfl, turn, rfl⟩ | ⟨jpc, jo, rfl, turn, rfl⟩
    · exact absent slot found listed
    · rcases turn.listed found listed with ⟨slot', old, is⟩ | running
      · exact absent slot' old is
      · rw [shut.1] at running
        cases running
  | run input shared step =>
    cases runnerStep_turn step with
    | job run r s₁ next at_ pc there turn =>
      obtain ⟨slot', old, same⟩ := turn.listed found
      exact absent slot' old (same.trans listed)
    | _ => exact absent slot found listed

/-- The handlers of uploads never come to delete a file. -/
theorem UploadTurn.steady {s : Store} {pc : UploadPc} {o : UploadOutcome}
    (turn : UploadTurn env s pc o) (id : Id) : o.next ≠ some (.deleteFile id) := by
  intro is
  cases turn with
  | grant k contentLength u reservation next found writable reserved writer =>
    rcases writer with rfl | ⟨e, rfl⟩ <;> cases is
  | _ => cases is

/-- A handler that is not about to delete goes on with a section of which the same is true. -/
theorem JobTurn.steady {s : Shared} {held : Id → Bool} {pc : JobPc} {o : JobOutcome}
    (turn : JobTurn env s held pc o) (h : (Pc.job pc).Steady s.jobs) :
    ∀ next, o.next = some next → (Pc.job next).Steady o.state.jobs := by
  intro next is
  have stopping := turn.frame.2
  cases turn with
  | stopList | stopSkip | stopWake | awaited | parserDown => cases is; exact h
  | stopMark id ids shutdown r found live => cases is; exact stopping.trans h
  | stopped shutdown after reply goes =>
    rcases goes with none | some
    · rw [none] at is
      cases is
    · rw [some] at is
      cases is
      exact h
  | takeRunner handle after goes =>
    cases is
    rcases goes with rfl | rfl <;> exact h
  | clear =>
    cases is
    refine ⟨h, fun id slot found => ?_⟩
    change (Table.map _ _).get id = _ at found
    rw [Table.get_map] at found
    obtain ⟨slot', -, rfl⟩ := Option.map_eq_some_iff.mp found
    rfl
  | made req metadata budget files => cases is; rfl
  | metadata | budget | sizes | sized | lease | take => cases is; trivial
  | _ => cases is

/-! ## What a section keeps -/

/-- A handler of uploads and files keeps the files that have not expired, if it is not a
deletion. -/
theorem UploadTurn.kept {s : Store} {pc : UploadPc} {o : UploadOutcome}
    (turn : UploadTurn env s pc o)
    (files : ∀ id f, s.entries.get id = some (.file f) → ∃ n, id = .file n ∧ n < s.ids)
    (placed : ∀ id u, s.entries.get id = some (.upload u) → ∃ n, id = .upload n)
    (writer : ∀ w, pc.writer = some w → ∃ n, w.id = .upload n)
    (steady : ∀ id, pc ≠ .deleteFile id) : Kept s o.state := by
  have kinds : ∀ id f, s.entries.get id = some (.file f) → ∃ n, id = .file n := by
    intro id f there
    obtain ⟨n, is, -⟩ := files id f there
    exact ⟨n, is⟩
  have set : ∀ {id : Id} {e : Entry}, (∃ n, id = .upload n) →
      Kept s { s with entries := s.entries.set id e } := by
    rintro id e ⟨n, rfl⟩
    exact .of_upload rfl kinds fun k other => (Table.get_set _ _ _ _).trans (if_neg other)
  have remove : ∀ {id : Id}, (∃ n, id = .upload n) →
      Kept s { s with entries := s.entries.remove id } := by
    rintro id ⟨n, rfl⟩
    exact .of_upload rfl kinds fun k other => (Table.get_remove _ _ _).trans (if_neg other)
  cases turn with
  | cleanup req => exact cleanupExpired_kept s
  | metadata n req now ttl c s' charged | input n req now ttl metadata c s' charged =>
    obtain ⟨ledger, -, rfl⟩ := Store.reserve_some charged
    exact .of_same rfl rfl
  | commit n req now ttl metadata reservation u made => exact set ⟨n, rfl⟩
  | grant id contentLength u reservation next found | broken id contentLength u found =>
    exact set (placed id u found)
  | store w data u u' found declared made => exact set (placed w.id u found)
  | guard w error dropped reply => exact remove (writer w rfl)
  | cancel id u found open_ => exact remove (placed id u found)
  | delete id f found => exact absurd rfl (steady id)
  | complete id digest u bytes object found live first stored made =>
    obtain ⟨n, rfl⟩ := placed id u found
    refine ⟨rfl, fun k f x there _ _ => ?_⟩
    obtain ⟨m, rfl, below⟩ := files k f there
    have other : Id.file m ≠ .file s.ids := fun same => by
      cases same
      exact Nat.lt_irrefl _ below
    refine ((Table.get_set _ _ _ _).trans (if_neg (by simp))).trans ?_
    exact ((Table.get_set _ _ _ _).trans (if_neg other)).trans there
  | _ => exact .of_same rfl rfl

/-- A handler of jobs touches no file, but for the clearing of the store at the shutdown. -/
theorem JobTurn.kept {s : Shared} {held : Id → Bool} {pc : JobPc} {o : JobOutcome}
    (turn : JobTurn env s held pc o) :
    o.state.store.now = s.store.now ∧ (pc = .clearStore ∨ Kept s.store o.state.store) := by
  cases turn with
  | refuseCharged req metadata budget rest files n c store dropped e charged
  | metadata req c store charged | budget req metadata c store charged
  | take req metadata budget file rest files prepared n store charged =>
    obtain ⟨ledger, -, rfl⟩ := Store.reserve_some charged
    exact ⟨rfl, .inr (.of_same rfl rfl)⟩
  | clearStore => exact ⟨rfl, .inl rfl⟩
  | _ => exact ⟨rfl, .inr (.of_same rfl rfl)⟩

theorem firstSection_kept (s : Shared) (request : Request) :
    Kept s.store (firstSection s request).state.store := by
  cases request with
  | createUpload req =>
    simp only [firstSection, createAccepting]
    split <;> exact .of_same rfl rfl
  | prepareJob req slot =>
    obtain ⟨state, -⟩ := prepareStart_outcome s req slot
    simp only [firstSection, liftJob, state]
    exact .of_same rfl rfl
  | getJob | cancelJob =>
    simp only [firstSection, lookupJob]
    split <;> exact .of_same rfl rfl
  | start =>
    simp only [firstSection, startRunner]
    split <;> exact .of_same rfl rfl
  | stopAdmissions | stopStore | shutdown => exact .of_same rfl rfl
  | _ => exact cleanupExpired_kept s.store

/-- A run adds files under new names and removes none. -/
theorem RunTurn.kept {s s' : Shared} {run : Run} {r : JobRecord} {next : Option Run}
    (turn : RunTurn env s run r s' next) : Kept s.store s'.store := by
  cases turn with
  | work pc works store same ledger =>
    refine .of_same ?_ ?_
    · exact (congrArg Store.now same).trans rfl
    · exact (congrArg Store.entries same).trans rfl
  | publish p charged ledger pc clear splits free =>
    refine ⟨rfl, fun id f x there _ _ => ?_⟩
    refine insertFiles_keeps charged _ there fun g mem same => ?_
    have named : g.object ∈ (p.named.map Prod.snd).map Prod.fst :=
      splits.objects ▸ List.mem_map.mpr ⟨g, mem, rfl⟩
    rw [List.map_map] at named
    obtain ⟨a, among, is⟩ := List.mem_map.mp named
    have none := free a among
    rw [show a.2.1 = g.object from is, same, there] at none
    cases none
  | _ => exact .of_same rfl rfl

theorem RunnerTurn.kept {s s' : Shared} (turn : RunnerTurn env s s') : Kept s.store s'.store := by
  cases turn with
  | job run r s' next at_ pc found turn => exact ⟨turn.kept.clock, turn.kept.files⟩
  | _ => exact .of_same rfl rfl

/-- A publication has read the clock now, and its artifacts expire a retention later. -/
def RunPc.Timed (env : Env) (now : Nat) : RunPc → Prop
  | naming p | publishCommit p =>
    p.now = now ∧ ∀ a ∈ p.named, a.2.1.expiresAt = some (now + env.retention)
  | _ => True

/-- The clock has not moved since the publication, so the record's deadline is not before that of
its files. -/
theorem RunTurn.timed {s s' : Shared} {run run' : Run} {r : JobRecord}
    (turn : RunTurn env s run r s' (some run')) (h : run.pc.Timed env s.store.now) :
    run'.pc.Timed env s.store.now := by
  generalize is : some run' = next at turn
  cases turn with
  | work pc works store same ledger =>
    cases is
    generalize run.pc = before at works h
    cases works with
    | named p done => exact h
    | _ => trivial
  | parsed outcome pc =>
    cases is
    cases outcome with
    | none => trivial
    | some result =>
      simp only [Run.onParsed]
      split <;> trivial
  | take result p file pc there rendered made =>
    cases is
    show p.now = _ ∧ ∀ a ∈ p.named, _
    rw [made]
    exact ⟨rfl, fun a mem => by cases mem⟩
  | name p format bytes rest object pc next made =>
    cases is
    rw [pc] at h
    refine ⟨h.1, fun a mem => ?_⟩
    rcases List.mem_append.mp mem with old | new
    · exact h.2 a old
    · rw [List.mem_singleton.mp new, made]
      exact congrArg (fun n => some (n + env.retention)) h.1
  | _ => cases is <;> trivial

theorem UploadTurn.clock {s : Store} {pc : UploadPc} {o : UploadOutcome}
    (turn : UploadTurn env s pc o) : o.state.now = s.now := by
  cases turn with
  | metadata n req now ttl c s' charged | input n req now ttl metadata c s' charged =>
    obtain ⟨ledger, -, rfl⟩ := Store.reserve_some charged
    rfl
  | _ => rfl

/-- The only request that leads to a deletion is the one that asks for it, which `steady` does not
allow. -/
theorem firstSection_steady (s : Shared) (request : Request)
    (allowed : ∀ id, request ≠ .deleteFile id) :
    ∀ pc, (firstSection s request).next = some pc → pc.Steady (firstSection s request).state.jobs := by
  intro pc is
  cases request with
  | createUpload req =>
    simp only [firstSection, createAccepting] at is ⊢
    split at is
    · cases is
      exact fun id same => by cases same
    · cases is
  | prepareJob req slot =>
    simp only [firstSection, prepareStart] at is ⊢
    repeat' split at is
    all_goals cases is
    trivial
  | getJob | cancelJob =>
    simp only [firstSection, lookupJob] at is ⊢
    split at is
    all_goals cases is
    trivial
  | start =>
    simp only [firstSection, startRunner] at is ⊢
    split at is
    all_goals cases is
    trivial
  | stopAdmissions | shutdown =>
    cases is
    rfl
  | stopStore => cases is
  | sweep =>
    cases is
    trivial
  | deleteFile id => exact absurd rfl (allowed id)
  | _ =>
    cases is
    exact fun id same => by cases same

/-! ## The invariant -/

/-- What the states of a steady run have. -/
structure Lasting (env : Env) (s : Service) : Prop where
  inv : StoreInv env s
  below : ∀ n f, s.shared.store.entries.get (.file n) = some (.file f) → n < s.shared.store.ids
  writers : ∀ i pc w, Puts s i pc w → ∃ n, w.id = .upload n
  tasks : ∀ i t pc, s.tasks.get i = some t → t.next = some pc → pc.Steady s.shared.jobs
  dated : ∀ id r, s.shared.jobs.record id = some r → Dated r
  timed : ∀ run, s.shared.jobs.runner = .running run → run.pc.Timed env s.shared.store.now
  lives : Shut s.shared.jobs ∨
    ∀ id r, s.shared.jobs.record id = some r → Lives env s.shared.store r

section Step

variable {s s' : Service} {reply : Reply}

/-- Names of files are given out in order, so a new one is not in use. -/
theorem Turn.below (turn : Turn env s s' reply) (h : Lasting env s) :
    ∀ n f, s'.shared.store.entries.get (.file n) = some (.file f) → n < s'.shared.store.ids := by
  intro n f there
  obtain ⟨i, before, after, moves⟩ := turn.moves h.inv.jobs.numbered.named
  rcases moves.issues.entries _ _ there with ⟨e, old, -⟩ | ⟨same, -, -⟩ | ⟨m, same, lt, -⟩
  · cases e with
    | upload u =>
      obtain ⟨⟨m, is⟩, -⟩ := h.inv.uploads.placed _ u old
      cases is
    | file g => exact Nat.lt_of_lt_of_le (h.below n g old) moves.issues.grows
  · obtain ⟨t, found, reserves⟩ := moves.was _ same
    exact Nat.lt_of_lt_of_le (h.inv.jobs.numbered.below i t _ found reserves) moves.issues.grows
  · cases same
    exact lt

theorem Turn.writers (turn : Turn env s s' reply) (h : Lasting env s) :
    ∀ i pc w, Puts s' i pc w → ∃ n, w.id = .upload n := by
  have stay : WritersStay s s' → ∀ i pc w, Puts s' i pc w → ∃ n, w.id = .upload n := by
    intro stays i pc w puts
    obtain ⟨pc', before, -⟩ := stays.puts puts
    exact h.writers i pc' w before
  cases turn.storeTurn with
  | quiet subset writers | create j n t u found reserves made entries writers
  | store j t w data u at_ writing found declared entries writers
  | complete k u bytes object found first stored made ids entries writers
  | publish charged entries free artifacts writers => exact stay writers
  | grant k id u found writable entries writer others named =>
    rintro i pc w ⟨t, there, writing, is⟩
    by_cases at_ : i = k
    · subst at_
      obtain ⟨w', is', here, -⟩ := writer t pc there writing
      rw [is] at is'
      cases is'
      rw [here]
      exact (h.inv.uploads.placed id u found).1
    · rw [others i at_] at there
      exact h.writers i pc w ⟨t, there, writing, is⟩

/-- Only the end of a shutdown removes files that have not expired. -/
theorem Turn.kept (turn : Turn env s s' reply) (h : Lasting env s)
    (clock : s'.shared.store.now = s.shared.store.now) :
    Shut s.shared.jobs ∨ Kept s.shared.store s'.shared.store := by
  cases turn with
  | clock seconds => exact .inr (.of_same clock rfl)
  | foreign | drop | abandon => exact .inr (.of_same rfl rfl)
  | call request o first =>
    subst first
    exact .inr (firstSection_kept s.shared request)
  | resume i pc input o there run =>
    have steady := h.tasks i _ _ there rfl
    rcases handlerSection_turn run with ⟨upc, uo, rfl, turn, rfl⟩ | ⟨jpc, jo, rfl, turn, rfl⟩
    · refine .inr (turn.kept (fun id f found => ?_) (fun id u found => ?_) (fun w is => ?_) steady)
      · obtain ⟨n, rfl⟩ := h.inv.uploads.files id f found
        exact ⟨n, rfl, h.below n f found⟩
      · exact (h.inv.uploads.placed id u found).1
      · exact h.writers i upc w ⟨_, there, writing_of_writer is _, is⟩
    · rcases turn.kept.2 with rfl | kept
      · exact .inl steady
      · exact .inr kept
  | run input shared step => exact .inr (runnerStep_turn step).kept

/-- No action that is allowed starts a deletion. -/
theorem act_steady {a : Action} (act : s.act env a = some (s', reply)) (allowed : steady s a = true)
    (h : Lasting env s) :
    (∀ i t pc, s'.tasks.get i = some t → t.next = some pc → pc.Steady s'.shared.jobs) ∧
    ((∀ seconds, a ≠ .tick seconds) → s'.shared.store.now = s.shared.store.now) := by
  have turn := act_turn act
  have old : ∀ {i t pc}, s.tasks.get i = some t → t.next = some pc → pc.Steady s'.shared.jobs :=
    fun found next => (h.tasks _ _ _ found next).mono (turn.stopping h.inv.jobs)
      (turn.shut h.inv.jobs)
  cases a with
  | tick seconds =>
    cases act
    exact ⟨fun i t pc found next => old found next, fun other => absurd rfl (other seconds)⟩
  | foreignId =>
    cases act
    exact ⟨fun i t pc found next => old found next, fun _ => rfl⟩
  | call request =>
    cases act
    refine ⟨fun i t pc found next => ?_, fun _ => (firstSection_kept s.shared request).clock⟩
    rcases setTask_get_some found with ⟨rfl, rfl⟩ | ⟨-, there⟩
    · refine firstSection_steady s.shared request (fun id is => ?_) pc next
      subst is
      cases allowed
    · exact old there next
  | resume i input =>
    rcases resume_cases act with ⟨t, found, rfl, rfl⟩ | ⟨pc, o, found, run, rfl, rfl⟩
    · refine ⟨fun j u pc found' next => ?_, fun _ => rfl⟩
      rcases setTask_get_some found' with ⟨rfl, rfl⟩ | ⟨-, there⟩
      · exact old found next
      · exact old there next
    · rcases handlerSection_turn run with ⟨upc, uo, rfl, section_, rfl⟩ | ⟨jpc, jo, rfl, section_, rfl⟩
      · refine ⟨fun j u pc' found' next' => ?_, fun _ => section_.clock⟩
        rcases setTask_get_some found' with ⟨rfl, rfl⟩ | ⟨-, there⟩
        · obtain ⟨next, is, rfl⟩ := Option.map_eq_some_iff.mp next'
          exact fun id same => section_.steady id (same ▸ is)
        · exact old there next'
      · refine ⟨fun j u pc' found' next' => ?_, fun _ => section_.kept.1⟩
        rcases setTask_get_some found' with ⟨rfl, rfl⟩ | ⟨-, there⟩
        · obtain ⟨next, is, rfl⟩ := Option.map_eq_some_iff.mp next'
          exact section_.steady (h.tasks _ _ _ found rfl) next is
        · exact old there next'
  | abandon i =>
    obtain ⟨w, data, found, rfl, rfl⟩ := abandon_cases act
    refine ⟨fun j u pc found' next => ?_, fun _ => rfl⟩
    rcases setTask_get_some found' with ⟨rfl, rfl⟩ | ⟨-, there⟩
    · cases next
      exact fun id same => by cases same
    · exact old there next
  | run input =>
    obtain ⟨shared, step, out⟩ := Option.map_eq_some_iff.mp act
    cases out
    exact ⟨fun i t pc found next => old found next, fun _ => (runnerStep_turn step).kept.clock⟩

/-- A publication leaves outputs that live. -/
theorem Publishes.lives {s s' : Shared} {run : Run} {r r' : JobRecord} {p : Publication}
    (h : Publishes s s' run r r' p) (kept : Kept s.store s'.store)
    (timed : run.pc.Timed env s.store.now) (lives : Lives env s.store r) :
    Lives env s'.store r' := by
  have expiry : r'.expiry = none := by
    rw [h.record]
    exact h.open_
  have same : deadline env s'.store.now r' = deadline env s.store.now r := by
    unfold deadline
    rw [expiry, h.open_, kept.clock]
  intro f' mem refs is format ref found later
  rw [same] at later ⊢
  rw [kept.clock] at later
  rw [h.record] at mem
  rcases published_outputs mem is with rfl | ⟨f, there, old⟩
  · obtain ⟨a, among, names⟩ := outputReferences_mem p.named found
    rw [h.pc] at timed
    obtain ⟨charged, entries, objects⟩ := h.entries
    have one : ∃ k ∈ charged, k.object.id = ref.fileId := by
      have there : a.2.1 ∈ charged.map File.object := objects ▸ List.mem_map.mpr ⟨a, among, rfl⟩
      obtain ⟨k, mem, is⟩ := List.mem_map.mp there
      exact ⟨k, mem, by rw [is, names]⟩
    obtain ⟨g, mem, entry⟩ := insertFiles_finds charged s.store.entries one
    have artifact : g.object ∈ p.named.map fun a => a.2.1 := objects ▸ List.mem_map.mpr ⟨g, mem, rfl⟩
    obtain ⟨b, among', is'⟩ := List.mem_map.mp artifact
    refine ⟨g, s.store.now + env.retention, by rw [entries]; exact entry, ?_, ?_⟩
    · rw [← is']
      exact timed.2 b among'
    · unfold deadline
      rw [h.open_]
      exact Nat.le_refl _
  · obtain ⟨g, x, entry, expires, le⟩ := lives f there refs old format ref found later
    exact ⟨g, x, kept.files _ g x entry expires (Nat.lt_of_lt_of_le later le), expires, le⟩

/-- What becomes of a record: it is new, keeps its outputs, or gets the ones that are published. -/
inductive Passed (env : Env) (s s' : Shared) (id : Id) (r' : JobRecord) : Prop where
  | fresh (h : Fresh r')
  | carried (r : JobRecord) (old : s.jobs.record id = some r) (h : Carried env s.store.now r r')
  | published (r : JobRecord) (run : Run) (p : Publication) (old : s.jobs.record id = some r)
    (at_ : s.jobs.runner = .running run) (h : Publishes s s' run r r' p)

/-- What one step of the service does to a record that is still there: its outputs are carried on,
or one more file was published to it just now. -/
theorem Turn.passed (turn : Turn env s s' reply) (h : Lasting env s) {id : Id} {r' : JobRecord}
    (found : s'.shared.jobs.record id = some r') :
    Dated r' ∧ Passed env s.shared s'.shared id r' := by
  have same : ∀ {shared : Shared}, s.shared.jobs.record id = some r' →
      Dated r' ∧ Passed env s.shared shared id r' :=
    fun old => ⟨h.dated id r' old, .carried r' old (.refl _ _ _)⟩
  rcases turn.handled with handled | ⟨-, -, turn⟩
  · rcases handled.records id r' found with old | ⟨i, n, there, rfl⟩ | ⟨r, old, touched, -⟩
    · exact same old
    · obtain ⟨-, fresh, -⟩ := h.inv.jobs.prepared i _ _ there rfl
      have none : r'.expiry = none := h.tasks i _ _ there rfl
      refine ⟨⟨fun _ => ?_, fun _ => none⟩, .fresh fresh⟩
      rw [fresh.status]
      rfl
    · obtain ⟨carried, dated⟩ := touched.carried (h.dated id r old)
      exact ⟨dated, .carried r old carried⟩
  · generalize s'.shared = shared at turn found ⊢
    cases turn with
    | job run r s₁ next at_ pc there turn =>
      obtain ⟨after, forward, -⟩ := turn.advance h.inv.jobs.orderly at_ pc there
      change s₁.jobs.record id = some r' at found
      have job : id = run.job ∨ (id ≠ run.job ∧ s.shared.jobs.record id = some r') := by
        rcases forward.writes id r' found with ⟨is, -⟩ | other
        · exact .inl is
        · exact .inr other
      rcases job with rfl | ⟨-, old⟩
      · have live : run.pc ≠ .start → r.response.status.terminal = false := by
          intro started
          refine Bool.eq_false_iff.mpr fun terminal => ?_
          obtain ⟨-, idle⟩ :=
            ((h.inv.jobs.orderly.records run.job r there).2.of_terminal terminal)
          have unstarted := idle run at_ rfl
          generalize run.pc = before at started pc unstarted
          cases before with
          | lookup => exact pc rfl
          | start => exact started rfl
          | _ => cases unstarted
        obtain ⟨dated, carried | ⟨p, publishes⟩⟩ :=
          turn.carried there (h.dated run.job r there) live found
        · exact ⟨dated, .carried r there carried⟩
        · exact ⟨dated, .published r run p there at_ ⟨publishes.pc, publishes.record,
            publishes.open_, publishes.entries, publishes.free⟩⟩
      · exact same old
    | _ => exact same found

/-- A run that has published sees the same clock until its job ends. -/
theorem Turn.timed (turn : Turn env s s' reply) (h : Lasting env s)
    (clock : s'.shared.store.now = s.shared.store.now) :
    ∀ run, s'.shared.jobs.runner = .running run → run.pc.Timed env s'.shared.store.now := by
  intro run at_
  rw [clock]
  rcases turn.handled with handled | ⟨-, -, turn⟩
  · exact h.timed run ((handled.runner run).mp at_)
  · clear clock
    generalize s'.shared = shared at turn at_
    cases turn with
    | pop | looked =>
      cases at_
      trivial
    | job run' r s₁ next before pc found turn =>
      cases next with
      | none => cases at_
      | some run'' =>
        cases at_
        exact turn.timed (h.timed run' before)
    | _ => cases at_

/-- `collect` drops records that no one holds, and reservations. -/
theorem Lasting.of_turn (h : Lasting env s) (inv : StoreInv env s'.collect)
    (turn : Turn env s s' reply) (clock : s'.shared.store.now = s.shared.store.now)
    (tasks : ∀ i t pc, s'.tasks.get i = some t → t.next = some pc → pc.Steady s'.shared.jobs) :
    Lasting env s'.collect where
  inv := inv
  below := turn.below h
  writers := turn.writers h
  tasks i t pc found next := (tasks i t pc found next).mono id Shut.collect
  dated id r found := (turn.passed h (collect_record found)).1
  timed := turn.timed h clock
  lives := by
    rcases turn.kept h clock with shut | kept
    · exact .inl (turn.shut h.inv.jobs shut).collect
    rcases h.lives with shut | lives
    · exact .inl (turn.shut h.inv.jobs shut).collect
    refine .inr fun id r' found => ?_
    cases (turn.passed h (collect_record found)).2 with
    | fresh fresh => exact fresh.lives
    | carried r old carried => exact (lives id r old).carry ⟨kept.clock, kept.files⟩ carried
    | published r run p old at_ publishes =>
      exact publishes.lives kept (h.timed run at_) (lives id r old)

/-- The running job has no outputs yet. -/
theorem not_publishing {run : Run} {r : JobRecord} (quiet : s.publishing = false)
    (at_ : s.shared.jobs.runner = .running run) (found : s.shared.jobs.record run.job = some r) :
    ∀ f ∈ r.response.files, f.outputFiles = none := by
  intro f mem
  simp only [Service.publishing, at_, found] at quiet
  split at quiet
  · cases quiet
  · cases quiet
  · have all := List.any_eq_false.mp quiet f mem
    exact Option.not_isSome_iff_eq_none.mp all

/-- The clock moves while no job is publishing. -/
theorem Lasting.tick (h : Lasting env s) (quiet : s.publishing = false) (seconds : Nat)
    {t : Service} (is : t = { s with shared := { s.shared with
      store := { s.shared.store with now := s.shared.store.now + seconds } } })
    (inv : StoreInv env t.collect) : Lasting env t.collect where
  inv := inv
  below := by
    subst is
    exact h.below
  writers := by
    subst is
    exact h.writers
  tasks i u pc found next := by
    subst is
    exact (h.tasks i u pc found next).mono id Shut.collect
  dated id r found := by
    subst is
    exact h.dated id r (collect_record found)
  timed run at_ := by
    subst is
    change s.shared.jobs.runner = .running run at at_
    simp only [Service.publishing, at_] at quiet
    generalize run.pc = pc at quiet
    cases pc with
    | naming | publishCommit => cases quiet
    | _ => trivial
  lives := by
    rcases h.lives with shut | lives
    · subst is
      exact .inl (Shut.collect shut)
    refine .inr fun id r found => ?_
    have old : s.shared.jobs.record id = some r := by
      subst is
      exact collect_record found
    intro f mem refs outputs format ref there later
    have absent : f.outputFiles ≠ none := by
      rw [outputs]
      simp
    cases dated : r.expiry with
    | none =>
      have live := (h.dated id r old).mp dated
      cases (h.inv.jobs.orderly.records id r old).2 with
      | fresh fresh _ => exact absurd (fresh.untouched f mem).2 absent
      | running run at_ job _ _ =>
        subst job
        exact absurd (not_publishing quiet at_ old f mem) absent
      | settled settled _ =>
        rw [settled.terminal] at live
        cases live
    | some x =>
      have fixed : ∀ now, deadline env now r = x := fun now => by
        unfold deadline
        rw [dated]
        rfl
      have before : s.shared.store.now ≤ t.collect.shared.store.now := by
        subst is
        exact Nat.le_add_right _ _
      obtain ⟨g, y, entry, expires, le⟩ := lives id r old f mem refs outputs format ref there
        (by rw [fixed] at later ⊢; exact Nat.lt_of_le_of_lt before later)
      refine ⟨g, y, ?_, expires, ?_⟩
      · subst is
        exact entry
      · rw [fixed] at le ⊢
        exact le

end Step

/-- The invariant over one step, from the lemmas about each kind of turn. -/
theorem lasting_step {s s' : Service} {a : Action} {reply : Reply} (h : Lasting env s)
    (step : ((service env now).restrict steady).step s a = some (s', reply)) :
    Lasting env s' := by
  unfold Machine.restrict at step
  dsimp only at step
  split at step
  · rename_i allowed
    have inv := storeInv_step h.inv step
    obtain ⟨s₁, act, turn, rfl⟩ := step_turn step
    obtain ⟨tasks, clock⟩ := act_steady act allowed h
    cases a with
    | tick seconds =>
      cases act
      rcases Bool.or_eq_true _ _ ▸ allowed with still | quiet
      · have zero : seconds = 0 := of_decide_eq_true still
        subst zero
        exact h.of_turn inv turn rfl tasks
      · exact h.tick (by simpa using quiet) seconds rfl inv
    | _ => exact h.of_turn inv turn (clock fun seconds is => by cases is) tasks
  · cases step

/-- The invariant over a whole run, by induction on its steps. -/
theorem steady_lasting {s : Service} (reach : ((service env now).restrict steady).Reachable s) :
    Lasting env s := by
  refine reach.invariant ?_ fun _ _ _ _ _ h step => lasting_step h step
  have noEntry : ∀ id e, (service env now).start.shared.store.entries.get id ≠ some e := by
    intro id e found
    cases (Table.get_empty (α := Entry) id).symm.trans found
  have noTask : ∀ i t, (service env now).start.tasks.get i ≠ some t := by
    intro i t found
    cases (Table.get_empty (α := Task) i).symm.trans found
  have noRecord : ∀ id r, (service env now).start.shared.jobs.record id ≠ some r := by
    intro id r found
    obtain ⟨slot, there, -⟩ := record_get.mp found
    cases (Table.get_empty (α := JobSlot) id).symm.trans there
  refine ⟨reachable_storeInv .start, ?_, ?_, ?_, ?_, ?_, .inr ?_⟩
  · exact fun n f there => absurd there (noEntry _ _)
  · rintro i pc w ⟨t, there, -⟩
    exact absurd there (noTask i t)
  · exact fun i t pc there => absurd there (noTask i t)
  · exact fun id r there => absurd there (noRecord id r)
  · exact fun run at_ => by cases at_
  · exact fun id r there => absurd there (noRecord id r)

/-! ## Results -/

/-- **In a steady run the outputs of a job that is listed are in the store until the job expires.**
Cleaning the store at any moment before leaves them there, for every file of the job and every
format. -/
theorem outputs_last (env : Env) (now : Nat) {s : Service}
    (reach : ((service env now).restrict steady).Reachable s) {id : Id} {r : JobRecord} {x : Nat}
    (found : s.shared.jobs.listed id = some r)
    (ended : r.response.status = .completed ∨ r.response.status = .partially)
    (expiry : r.expiry = some x) (later : s.shared.store.now < x) :
    ∀ f ∈ r.response.files, f.status = .completed → ∀ refs, f.outputFiles = some refs →
      ∀ format ref, refs.get format = some ref →
        ∃ g, s.shared.store.cleanupExpired.1.entries.get ref.fileId = some (.file g) := by
  have h := steady_lasting reach
  unfold Jobs.listed at found
  cases slot : s.shared.jobs.records.get id with
  | none =>
    rw [slot] at found
    cases found
  | some old =>
    rw [slot] at found
    dsimp only at found
    split at found
    · rename_i listed
      cases found
      rcases h.lives with shut | lives
      · rw [shut.2 id old slot] at listed
        cases listed
      · intro f mem _ refs is format ref there
        have limit : ∀ now, deadline env now old.record = x := fun now => by
          unfold deadline
          rw [expiry]
          rfl
        obtain ⟨g, y, entry, expires, le⟩ := lives id old.record (record_get.mpr ⟨old, slot, rfl⟩)
          f mem refs is format ref there (by rw [limit]; exact later)
        rw [limit] at le
        exact ⟨g, (cleanupExpired_kept s.shared.store).files _ g y entry expires
          (Nat.lt_of_lt_of_le later le)⟩
    · cases found

/-- A job of one file is submitted, and the runner publishes its output. -/
def published : List Action :=
  .call (.prepareJob
    { files := [⟨.raw (text "a.txt") [0], none⟩], tier := none, ocrMode := .auto
      outputFormats := [.markdown] } true) ::
    List.replicate 7 (.resume 0 .go) ++ .call .start :: List.replicate 8 (.run .go) ++
  .run (.gate true) :: .run .go :: .run (.parsed (some ⟨1, fun _ _ => some [7]⟩)) ::
    List.replicate 8 (.run .go)

/-- The output that the first job, completed and not expired, refers to. -/
def due (s : Service) : Option OutputReference :=
  (s.shared.jobs.listed (.job 1)).bind fun r => r.expiry.bind fun x =>
    if r.response.status = .completed ∧ s.shared.store.now < x then
      r.response.files.head?.bind fun f =>
        if f.status = .completed then f.outputFiles.bind fun refs => refs.get .markdown else none
    else none

theorem due_some {s : Service} {ref : OutputReference} (h : due s = some ref) :
    ∃ r x f refs, s.shared.jobs.listed (.job 1) = some r ∧ r.response.status = .completed ∧
      r.expiry = some x ∧ s.shared.store.now < x ∧ f ∈ r.response.files ∧ f.status = .completed ∧
      f.outputFiles = some refs ∧ refs.get .markdown = some ref := by
  obtain ⟨r, found, h⟩ := Option.bind_eq_some_iff.mp h
  obtain ⟨x, expiry, h⟩ := Option.bind_eq_some_iff.mp h
  split at h
  · rename_i ended
    obtain ⟨f, first, h⟩ := Option.bind_eq_some_iff.mp h
    split at h
    · rename_i completed
      obtain ⟨refs, is, there⟩ := Option.bind_eq_some_iff.mp h
      exact ⟨r, x, f, refs, found, ended.1, expiry, ended.2, List.mem_of_head? first, completed, is,
        there⟩
    · cases h
  · cases h

/-- The store has a file there. -/
def Store.hasFile (s : Store) (id : Id) : Bool :=
  match s.entries.get id with
  | some (.file _) => true
  | _ => false

def noDeletion (_ : Service) : Action → Bool
  | .call (.deleteFile _) => false
  | _ => true

/-- A second passes between the publication and the end of the job: the output expires first. -/
theorem outputs_expire_first : ¬ ∀ (s : Service) (id : Id) (r : JobRecord) (x : Nat),
    ((service smallEnv 0).restrict noDeletion).Reachable s →
    s.shared.jobs.listed id = some r →
    (r.response.status = .completed ∨ r.response.status = .partially) →
    r.expiry = some x → s.shared.store.now < x →
    ∀ f ∈ r.response.files, f.status = .completed → ∀ refs, f.outputFiles = some refs →
      ∀ format ref, refs.get format = some ref →
        ∃ g, s.shared.store.cleanupExpired.1.entries.get ref.fileId = some (.file g) := by
  intro last
  have check : ((((service smallEnv 0).restrict noDeletion).play (service smallEnv 0).start
      (published ++ [.tick 1, .run .go, .tick 3599])).any fun s =>
        (due s).any fun ref => !s.shared.store.cleanupExpired.1.hasFile ref.fileId) = true := by
    decide +kernel
  obtain ⟨s, played, check⟩ := (Option.any_eq_true _ _).mp check
  obtain ⟨ref, is, missing⟩ := (Option.any_eq_true _ _).mp check
  obtain ⟨r, x, f, refs, found, status, expiry, later, mem, completed, outputs, there⟩ := due_some is
  obtain ⟨g, entry⟩ := last s (.job 1) r x (Machine.Reachable.start.play played) found (.inl status)
    expiry later f mem completed refs outputs .markdown ref there
  unfold Store.hasFile at missing
  rw [entry] at missing
  cases missing

/-- A job of one file has ended. -/
theorem outputs_last_published : ∃ s r ref g,
    ((service smallEnv 0).restrict steady).Reachable s ∧
    s.shared.jobs.listed (.job 1) = some r ∧
    s.shared.store.cleanupExpired.1.entries.get (OutputReference.fileId ref) = some (.file g) := by
  have check : ((((service smallEnv 0).restrict steady).play (service smallEnv 0).start
      (published ++ [.run .go, .tick 3599])).any fun s => (due s).isSome) = true := by
    decide +kernel
  obtain ⟨s, played, check⟩ := (Option.any_eq_true _ _).mp check
  obtain ⟨ref, is⟩ := Option.isSome_iff_exists.mp check
  obtain ⟨r, x, f, refs, found, status, expiry, later, mem, completed, outputs, there⟩ := due_some is
  have reach : ((service smallEnv 0).restrict steady).Reachable s :=
    Machine.Reachable.start.play played
  obtain ⟨g, entry⟩ := outputs_last smallEnv 0 reach found (.inl status) expiry later f mem completed
    refs outputs .markdown ref there
  exact ⟨s, r, ref, g, reach, found, entry⟩

end Mineru.Official
