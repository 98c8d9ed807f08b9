import Mineru.Laws.Official.Store
import Mineru.Official.Service

/-!
# What an action can do

`Turn` lists what the actions of the service do before `collect`, so that an invariant is proved by
one case for each kind of action. The frame laws after it say what `collect` and `setTask` leave
alone.

There is an inductive type for each part of the service: `UploadTurn` and `JobTurn` for the sections
of handlers, `RunTurn` for those of a run, `RunnerTurn` for the loop around it. Each constructor
carries the guards of its section and the state that it leaves. The inversion lemmas
(`uploadSection_turn`, `jobSection_turn`, `runSection_turn`) are the only places where the section
functions are unfolded.

Nothing here says that a turn comes, only what it is when it does.
-/

set_option autoImplicit false

namespace Mineru.Official

open Logic

/-- What an action does to the service, before what nothing refers to is let go. -/
inductive Turn (env : Env) (s : Service) : Service → Reply → Prop where
  | clock (seconds : Nat) :
    Turn env s
      { s with shared := { s.shared with
        store := { s.shared.store with now := s.shared.store.now + seconds } } } .pending
  | foreign :
    Turn env s { s with shared := { s.shared with store := s.shared.store.takeId } } .pending
  | call (request : Request) (o : ServiceOutcome) (first : o = firstSection s.shared request) :
    Turn env s
      (({ s with nextTask := s.nextTask + 1, shared := o.state } : Service).setTask s.nextTask
        ⟨o.dropped, o.next⟩) o.reply
  | drop (i : Nat) (t : Task) (found : s.tasks.get i = some t) :
    Turn env s (s.setTask i { t with dropping := [] }) .pending
  | resume (i : Nat) (pc : Pc) (input : Input) (o : ServiceOutcome)
      (found : s.tasks.get i = some ⟨[], some pc⟩)
      (run : handlerSection env s.shared (held (s.tasks.remove i) s.shared.jobs.runner) pc input =
        some o) :
    Turn env s (({ s with shared := o.state } : Service).setTask i ⟨o.dropped, o.next⟩) o.reply
  | abandon (i : Nat) (w : Writer) (data : List UInt8)
      (found : s.tasks.get i = some ⟨[], some (.upload (.receiving w data))⟩) :
    Turn env s (s.setTask i ⟨[], some (.upload (.failing w none))⟩) .pending
  | run (input : RunInput) (shared : Shared) (step : runnerStep env s.shared input = some shared) :
    Turn env s { s with shared } .pending

/-- A handler that resumes drops what it moved out, or runs its next section. -/
theorem resume_cases {env : Env} {s s' : Service} {i : Nat} {input : Input} {r : Reply}
    (h : s.resume env i input = some (s', r)) :
    (∃ t, s.tasks.get i = some t ∧ s' = s.setTask i { t with dropping := [] } ∧ r = .pending) ∨
    ∃ pc o, s.tasks.get i = some ⟨[], some pc⟩ ∧
      handlerSection env s.shared (held (s.tasks.remove i) s.shared.jobs.runner) pc input = some o ∧
      s' = ({ s with shared := o.state } : Service).setTask i ⟨o.dropped, o.next⟩ ∧
      r = o.reply := by
  unfold Service.resume at h
  split at h
  · cases h
  · rename_i t found
    split at h
    · cases h
    · rename_i pc none some
      obtain ⟨o, run, out⟩ := Option.map_eq_some_iff.mp h
      cases out
      obtain ⟨dropping, next⟩ := t
      cases none
      cases some
      exact .inr ⟨pc, o, found, run, rfl, rfl⟩
    · cases h
      exact .inl ⟨t, found, rfl, rfl⟩

/-- Only a `put` that awaits the next chunk is given up. -/
theorem abandon_cases {s s' : Service} {i : Nat} {r : Reply} (h : s.abandon i = some (s', r)) :
    ∃ w data, s.tasks.get i = some ⟨[], some (.upload (.receiving w data))⟩ ∧
      s' = s.setTask i ⟨[], some (.upload (.failing w none))⟩ ∧ r = .pending := by
  unfold Service.abandon at h
  split at h
  · rename_i w data found
    cases h
    exact ⟨w, data, found, rfl, rfl⟩
  · cases h

/-- Every action takes one of the turns. -/
theorem act_turn {env : Env} {s s' : Service} {a : Action} {r : Reply}
    (h : s.act env a = some (s', r)) : Turn env s s' r := by
  cases a with
  | tick seconds =>
    cases h
    exact .clock seconds
  | foreignId =>
    cases h
    exact .foreign
  | call request =>
    cases h
    exact .call request _ rfl
  | resume i input =>
    rcases resume_cases h with ⟨t, found, rfl, rfl⟩ | ⟨pc, o, found, run, rfl, rfl⟩
    · exact .drop i t found
    · exact .resume i pc input o found run
  | abandon i =>
    obtain ⟨w, data, found, rfl, rfl⟩ := abandon_cases h
    exact .abandon i w data found
  | run input =>
    obtain ⟨shared, step, out⟩ := Option.map_eq_some_iff.mp h
    cases out
    exact .run input shared step

/-- A step of the service is a turn with `collect` after it. -/
theorem step_turn {env : Env} {now : Nat} {s s' : Service} {a : Action} {r : Reply}
    (h : (service env now).step s a = some (s', r)) :
    ∃ s₁, s.act env a = some (s₁, r) ∧ Turn env s s₁ r ∧ s' = s₁.collect := by
  obtain ⟨⟨s₁, r'⟩, act, out⟩ := Option.map_eq_some_iff.mp h
  cases out
  exact ⟨s₁, act, act_turn act, rfl⟩

/-! ## Frames -/

section Collect

variable (s : Service)

@[simp] theorem collect_entries : s.collect.shared.store.entries = s.shared.store.entries := rfl

/-- `collect` keeps the records that are listed or held. -/
theorem collect_records (id : Id) (slot : JobSlot) :
    s.collect.shared.jobs.records.get id = some slot ↔
      s.shared.jobs.records.get id = some slot ∧
        (slot.listed = true ∨ held s.tasks s.shared.jobs.runner id = true) := by
  change (Table.keep _ _).get id = some slot ↔ _
  rw [Table.get_keep_some, Bool.or_eq_true]

end Collect

/-- Every handler but one stays where it is. -/
theorem setTask_get (s : Service) (i j : Nat) (t : Task) :
    (s.setTask i t).tasks.get j =
      if j = i then (if t.next.isNone ∧ t.dropping = [] then none else some t)
      else s.tasks.get j := by
  unfold Service.setTask
  obtain ⟨dropping, next⟩ := t
  cases next with
  | some pc => exact Table.get_set _ _ _ _
  | none =>
    cases dropping with
    | nil => exact Table.get_remove _ _ _
    | cons c cs => exact Table.get_set _ _ _ _

/-- The handler that took a turn, as it is found afterwards. -/
theorem setTask_get_some {s : Service} {i j : Nat} {t u : Task}
    (h : (s.setTask i t).tasks.get j = some u) :
    (j = i ∧ u = t) ∨ (j ≠ i ∧ s.tasks.get j = some u) := by
  rw [setTask_get] at h
  split at h
  · rename_i same
    split at h
    · cases h
    · exact .inl ⟨same, (Option.some.inj h).symm⟩
  · rename_i other
    exact .inr ⟨other, h⟩

@[simp] theorem setTask_shared (s : Service) (i : Nat) (t : Task) :
    (s.setTask i t).shared = s.shared := rfl

/-! ## Records -/

theorem record_setRecord {j : Jobs} {id : Id} {r : JobRecord} (found : j.record id = some r)
    (r' : JobRecord) (id' : Id) :
    (j.setRecord id r').record id' = if id' = id then some r' else j.record id' := by
  obtain ⟨slot, there, -⟩ := Option.map_eq_some_iff.mp found
  unfold Jobs.setRecord
  rw [there]
  simp only [Jobs.record, Table.get_set]
  split <;> rfl

@[simp] theorem setRecord_runner (j : Jobs) (id : Id) (r : JobRecord) :
    (j.setRecord id r).runner = j.runner := by
  unfold Jobs.setRecord
  split <;> rfl

@[simp] theorem setRecord_stopping (j : Jobs) (id : Id) (r : JobRecord) :
    (j.setRecord id r).stopping = j.stopping := by
  unfold Jobs.setRecord
  split <;> rfl

/-! ## Sections of the upload handlers -/

/-- What a section of an upload handler can do: everything that it changes, and when. -/
inductive UploadTurn (env : Env) (s : Store) : UploadPc → UploadOutcome → Prop where
  | reject (pc : UploadPc) (e : WireError) :
    UploadTurn env s pc (.reject s pc.refs e)
  | read (pc : UploadPc) (id : Id) (dropped : Cells) (reply : Reply)
      (reads : pc = .getUpload id ∨ pc = .getFile id ∨ pc = .fileContent id) :
    UploadTurn env s pc (.answer s dropped reply)
  | cleanup (req : UploadCreate) :
    UploadTurn env s (.createCleanup req)
      ⟨s.cleanupExpired.1, some (.createStart req), s.cleanupExpired.2, .pending⟩
  | start (req : UploadCreate) (valid : req.validate = .ok ()) (small : req.bytes ≤ env.fileCap) :
    UploadTurn env s (.createStart req)
      (.goto s.takeId (.createMetadata s.ids req s.now (req.expiresAfter.getD 3600)))
  | metadata (n : Nat) (req : UploadCreate) (now ttl c : Nat) (s' : Store)
      (charged : s.reserveMetadata 2 = some (c, s')) :
    UploadTurn env s (.createMetadata n req now ttl) (.goto s' (.createInput n req now ttl c))
  | input (n : Nat) (req : UploadCreate) (now ttl metadata c : Nat) (s' : Store)
      (charged : s.inputReservation req.bytes = some (c, s')) :
    UploadTurn env s (.createInput n req now ttl metadata)
      (.goto s' (.createCommit n req now ttl metadata c))
  | commit (n : Nat) (req : UploadCreate) (now ttl metadata reservation : Nat) (u : Upload)
      (made : u = { request := req, created := now, expires := now + ttl, bytes := none
                    reservation := some reservation, metadata, fileId := none
                    uploading := false }) :
    UploadTurn env s (.createCommit n req now ttl metadata reservation)
      (.answer { s with entries := s.entries.set (.upload n) (.upload u) } []
        (.upload (uploadResponse (.upload n) req now (now + ttl) none)))
  | grant (id : Id) (contentLength : Option Nat) (u : Upload) (reservation : Nat) (next : UploadPc)
      (found : s.entries.get id = some (.upload u)) (writable : u.writable s.now = true)
      (reserved : u.reservation = some reservation)
      (writer : next = .receiving ⟨id, u.request.bytes, reservation⟩ [] ∨
        ∃ e, next = .failing ⟨id, u.request.bytes, reservation⟩ e) :
    UploadTurn env s (.putAdmit id contentLength)
      (.goto { s with entries := s.entries.set id (.upload { u with uploading := true }) } next)
  | broken (id : Id) (contentLength : Option Nat) (u : Upload)
      (found : s.entries.get id = some (.upload u)) (writable : u.writable s.now = true)
      (missing : u.reservation = none) :
    UploadTurn env s (.putAdmit id contentLength)
      (.reject { s with entries := s.entries.set id (.upload { u with uploading := true }) } []
        .internal)
  | receive (w : Writer) (data chunk : List UInt8) (fits : (data ++ chunk).length ≤ w.expected) :
    UploadTurn env s (.receiving w data) (.goto s (.receiving w (data ++ chunk)))
  | received (w : Writer) (data : List UInt8) (whole : data.length = w.expected) :
    UploadTurn env s (.receiving w data) (.goto s (.putCommit w data))
  | fail (pc : UploadPc) (w : Writer) (data : List UInt8) (e : WireError)
      (writing : pc = .receiving w data ∨ pc = .putCommit w data) :
    UploadTurn env s pc (.goto s (.failing w (some e)))
  | store (w : Writer) (data : List UInt8) (u u' : Upload)
      (found : s.entries.get w.id = some (.upload u))
      (declared : ∀ d, u.request.sha256sum = some d → d = env.sha256 data)
      (made : u' = { u with
        bytes := some ⟨data, w.reservation⟩
        request := { u.request with sha256sum := some (env.sha256 data) }
        reservation := none
        uploading := false }) :
    UploadTurn env s (.putCommit w data)
      (.answer { s with entries := s.entries.set w.id (.upload u') } [w.reservation] .stored)
  | guard (w : Writer) (error : Option WireError) (dropped : Cells) (reply : Reply) :
    UploadTurn env s (.failing w error)
      (.answer { s with entries := s.entries.remove w.id } dropped reply)
  | complete (id : Id) (digest : Option Text) (u : Upload) (bytes : Charged) (object : FileObject)
      (found : s.entries.get id = some (.upload u)) (live : s.now < u.expires)
      (first : u.fileId = none) (stored : u.bytes = some bytes)
      (made : object = { id := .file s.ids, bytes := u.request.bytes, createdAt := u.created
                         expiresAt := some u.expires, filename := u.request.filename
                         purpose := u.request.purpose, sha256sum := u.request.sha256sum }) :
    UploadTurn env s (.complete id digest)
      (.answer
        { s.takeId with
          entries := (s.entries.set (.file s.ids)
            (.file { object, bytes, source := true, metadata := some u.metadata })).set id
              (.upload { u with fileId := some (.file s.ids), bytes := none }) } []
        (.upload (uploadResponse id u.request u.created u.expires (some object))))
  | completed (id : Id) (digest : Option Text) (u : Upload) (fileId : Id) (f : File)
      (found : s.entries.get id = some (.upload u)) (known : u.fileId = some fileId)
      (file : s.entries.get fileId = some (.file f)) :
    UploadTurn env s (.complete id digest)
      (.answer s [] (.upload (uploadResponse id u.request u.created u.expires (some f.object))))
  | cancel (id : Id) (u : Upload) (found : s.entries.get id = some (.upload u))
      (open_ : u.fileId = none) :
    UploadTurn env s (.cancelUpload id)
      (.answer { s with entries := s.entries.remove id } u.refs
        (.upload { uploadResponse id u.request u.created u.expires none with status := .canceled }))
  | delete (id : Id) (f : File) (found : s.entries.get id = some (.file f)) :
    UploadTurn env s (.deleteFile id)
      (.answer { s with entries := s.entries.remove id } f.refs (.deleted id))

theorem createStart_turn (env : Env) (s : Store) (req : UploadCreate) :
    UploadTurn env s (.createStart req) (createStart env s req) := by
  unfold createStart
  cases valid : req.validate with
  | error e => exact .reject _ e
  | ok u =>
    dsimp only
    split
    · exact .reject _ _
    · rename_i caps
      split
      · exact .reject _ _
      · exact .start req valid (by omega)

theorem putAdmit_turn (env : Env) (s : Store) (id : Id) (contentLength : Option Nat) :
    UploadTurn env s (.putAdmit id contentLength) (putAdmit env s id contentLength) := by
  unfold putAdmit
  split
  · rename_i u found
    split
    · rename_i writable
      split
      · exact .reject _ _
      · dsimp only
        split
        · rename_i missing
          exact .broken id contentLength u found writable missing
        · rename_i reservation reserved
          split
          · exact .grant id contentLength u reservation _ found writable reserved (.inr ⟨_, rfl⟩)
          · exact .grant id contentLength u reservation _ found writable reserved (.inl rfl)
    · exact .reject _ _
  · exact .reject _ _

theorem receive_turn {env : Env} {s : Store} {w : Writer} {data : List UInt8} {input : Input}
    {o : UploadOutcome} (h : receive s w data input = some o) :
    UploadTurn env s (.receiving w data) o := by
  cases input with
  | go | flag => cases h
  | interrupted | deadline =>
    cases h
    exact .fail _ w data _ (.inl rfl)
  | chunk chunk =>
    simp only [receive] at h
    split at h
    · cases h
      exact .fail _ w data _ (.inl rfl)
    · rename_i fits
      cases h
      exact .receive w data chunk (by rw [List.length_append]; omega)
  | eof =>
    simp only [receive] at h
    split at h
    · rename_i whole
      cases h
      exact .received w data whole
    · cases h
      exact .fail _ w data _ (.inl rfl)

theorem putCommit_turn (env : Env) (s : Store) (w : Writer) (data : List UInt8) :
    UploadTurn env s (.putCommit w data) (putCommit env s w data) := by
  unfold putCommit
  split
  · rename_i u found
    dsimp only
    split
    · rename_i same
      refine .store w data u _ found (fun d declared => ?_) rfl
      rw [declared] at same
      exact of_decide_eq_true same
    · exact .fail _ w data _ (.inr rfl)
  · exact .fail _ w data _ (.inr rfl)

theorem complete_turn (env : Env) (s : Store) (id : Id) (digest : Option Text) :
    UploadTurn env s (.complete id digest) (complete s id digest) := by
  unfold complete
  split
  · rename_i u found
    split
    · exact .reject _ _
    · rename_i live
      split
      · rename_i fileId known
        split
        · rename_i f file
          split
          · exact .reject _ _
          · exact .completed id digest u fileId f found known file
        · exact .reject _ _
      · rename_i first
        split
        · exact .reject _ _
        · rename_i bytes stored
          split
          · exact .reject _ _
          · exact .complete id digest u bytes _ found (by omega) first stored rfl
  · exact .reject _ _

theorem cancelUpload_turn (env : Env) (s : Store) (id : Id) :
    UploadTurn env s (.cancelUpload id) (cancelUpload s id) := by
  unfold cancelUpload
  split
  · rename_i u found
    split
    · exact .reject _ _
    · rename_i first
      exact .cancel id u found (Option.not_isSome_iff_eq_none.mp first)
  · exact .reject _ _

theorem getUpload_turn (env : Env) (s : Store) (id : Id) :
    UploadTurn env s (.getUpload id) (getUpload s id) := by
  unfold getUpload
  repeat' split
  all_goals first
    | exact .reject _ _
    | exact .read _ id _ _ (.inl rfl)

/-- Every section of an upload handler takes one of the turns. -/
theorem uploadSection_turn {env : Env} {s : Store} {pc : UploadPc} {input : Input}
    {o : UploadOutcome} (h : uploadSection env s pc input = some o) : UploadTurn env s pc o := by
  cases pc with
  | receiving w data => exact receive_turn h
  | createCleanup req =>
    cases h
    exact .cleanup req
  | createStart req =>
    cases h
    exact createStart_turn env s req
  | createMetadata n req now ttl =>
    cases h
    unfold createMetadata
    split
    · exact .reject _ _
    · rename_i charged
      exact .metadata n req now ttl _ _ charged
  | createInput n req now ttl metadata =>
    cases h
    unfold createInput
    split
    · exact .reject _ _
    · rename_i charged
      exact .input n req now ttl metadata _ _ charged
  | createCommit n req now ttl metadata reservation =>
    cases h
    unfold commitUpload
    split
    · exact .commit n req now ttl metadata reservation _ rfl
    · exact .reject _ _
  | getUpload id =>
    cases h
    exact getUpload_turn env s id
  | putAdmit id contentLength =>
    cases h
    exact putAdmit_turn env s id contentLength
  | putCommit w data =>
    cases h
    exact putCommit_turn env s w data
  | failing w error =>
    cases h
    exact .guard w error _ _
  | complete id digest =>
    cases h
    exact complete_turn env s id digest
  | cancelUpload id =>
    cases h
    exact cancelUpload_turn env s id
  | getFile id =>
    cases h
    unfold getFile
    split
    · exact .read _ id _ _ (.inr (.inl rfl))
    · exact .reject _ _
  | deleteFile id =>
    cases h
    unfold deleteFile
    split
    · rename_i f found
      exact .delete id f found
    · exact .reject _ _
  | fileContent id =>
    cases h
    unfold fileContent
    split
    · split
      · exact .reject _ _
      · exact .read _ id _ _ (.inr (.inr rfl))
    · exact .reject _ _

/-! ## Sections of the other handlers -/

/-- What a section of a handler of jobs, or of the service, can do. -/
inductive JobTurn (env : Env) (s : Shared) (held : Id → Bool) : JobPc → JobOutcome → Prop where
  | refuse (pc : JobPc) (dropped : Cells) (e : WireError)
      (ended : ∀ id, pc = .canceling id →
        ∃ r, s.jobs.record id = some r ∧ r.response.status.terminal = true ∧ e = jobTerminal) :
    JobTurn env s held pc (.reject s dropped e)
  | refuseCharged (req : Submission) (metadata budget : Nat) (rest : List SubmittedFile)
      (files : List PreparedFile) (n c : Nat) (store : Store) (dropped : Cells) (e : WireError)
      (charged : s.store.inputReservation n = some (c, store)) :
    JobTurn env s held (.prepareFiles req metadata budget rest files)
      (.reject { s with store } dropped e)
  | metadata (req : Submission) (c : Nat) (store : Store)
      (charged : s.store.reserveMetadata (1 + req.files.length * req.outputFormats.length) =
        some (c, store)) :
    JobTurn env s held (.prepareMetadata req) (.goto { s with store } (.prepareBudget req c))
  | budget (req : Submission) (metadata c : Nat) (store : Store)
      (charged : s.store.artifactBudget Store.jobCap = some (c, store)) :
    JobTurn env s held (.prepareBudget req metadata)
      (.goto { s with store } (.prepareSizes req metadata c req.files 0))
  | sizes (req : Submission) (metadata budget : Nat) (file : SubmittedFile)
      (rest : List SubmittedFile) (total total' : Nat) :
    JobTurn env s held (.prepareSizes req metadata budget (file :: rest) total)
      (.goto s (.prepareSizes req metadata budget rest total'))
  | sized (req : Submission) (metadata budget total : Nat) :
    JobTurn env s held (.prepareSizes req metadata budget [] total)
      (.goto s (.prepareFiles req metadata budget req.files []))
  | lease (req : Submission) (metadata budget : Nat) (file : SubmittedFile)
      (rest : List SubmittedFile) (files : List PreparedFile) (prepared : PreparedFile) (id : Id)
      (object : FileObject) (leased : s.store.inputLease id = some (object, prepared.data)) :
    JobTurn env s held (.prepareFiles req metadata budget (file :: rest) files)
      (.goto s (.prepareFiles req metadata budget rest (files ++ [prepared])))
  | take (req : Submission) (metadata budget : Nat) (file : SubmittedFile)
      (rest : List SubmittedFile) (files : List PreparedFile) (prepared : PreparedFile) (n : Nat)
      (store : Store)
      (charged : s.store.inputReservation n = some (prepared.data.reservation, store)) :
    JobTurn env s held (.prepareFiles req metadata budget (file :: rest) files)
      (.goto { s with store } (.prepareFiles req metadata budget rest (files ++ [prepared])))
  | made (req : Submission) (metadata budget : Nat) (files : List PreparedFile) :
    JobTurn env s held (.prepareFiles req metadata budget [] files)
      (.goto { s with store := s.store.takeId }
        (.prepareCommit s.store.ids
          (newRecord (.job s.store.ids) s.store.now req metadata budget files)))
  | commit (n : Nat) (record : JobRecord) (running : s.jobs.stopping = false) :
    JobTurn env s held (.prepareCommit n record)
      (.answer
        { s with
          jobs := ({ s.jobs with
            records := s.jobs.records.set (.job n) ⟨record, true⟩
            queue := s.jobs.queue ++ [.job n]
            jobsCreated := s.jobs.jobsCreated + 1 } : Jobs).notifyOne } []
        (.accepted record.response))
  | read (id : Id) (r : JobRecord) (found : s.jobs.record id = some r) :
    JobTurn env s held (.reading id) (.answer s [] (.job r.response))
  | cancelQueued (id : Id) (r : JobRecord) (found : s.jobs.record id = some r)
      (queued : r.response.status = .queued) :
    JobTurn env s held (.canceling id)
      (.answer
        ((({ s with jobs := { s.jobs with cancelCalls := s.jobs.cancelCalls + 1 } } :
          Shared).shrinkReservations r).setRecord id
            (({ r with cancel := true } : JobRecord).cancelQueued env s.store.now)) []
        (.canceled id))
  | cancelRunning (id : Id) (r : JobRecord) (found : s.jobs.record id = some r)
      (running : r.response.status = .running) :
    JobTurn env s held (.canceling id)
      (.answer
        (({ s with jobs := { s.jobs with cancelCalls := s.jobs.cancelCalls + 1 } } :
          Shared).setRecord id { r with cancel := true }) []
        (.canceled id))
  | sweep :
    JobTurn env s held .sweepJobs (sweepJobs s held)
  | handle :
    JobTurn env s held .setHandle
      (.answer { s with jobs := { s.jobs with handle := true } } [] .done)
  | stopList (ids : List Id) (shutdown : Bool) :
    JobTurn env s held (.stopJobs shutdown) (.goto s (.stopMark ids shutdown))
  | stopSkip (id : Id) (ids : List Id) (shutdown : Bool) :
    JobTurn env s held (.stopMark (id :: ids) shutdown) (.goto s (.stopMark ids shutdown))
  | stopMark (id : Id) (ids : List Id) (shutdown : Bool) (r : JobRecord)
      (found : s.jobs.record id = some r) (live : r.response.status.terminal = false) :
    JobTurn env s held (.stopMark (id :: ids) shutdown)
      (.goto (s.setRecord id { r with cancel := true }) (.stopMark ids shutdown))
  | stopWake (shutdown : Bool) :
    JobTurn env s held (.stopMark [] shutdown)
      (.goto { s with jobs := s.jobs.notifyWaiters } (.stopCancelNotify shutdown))
  | stopped (shutdown : Bool) (next : Option JobPc) (reply : Reply)
      (after : next = none ∨ next = some .takeRunner) :
    JobTurn env s held (.stopCancelNotify shutdown)
      ⟨{ s with jobs := { s.jobs with cancelCalls := s.jobs.cancelCalls + 1 } }, next, [], reply⟩
  | takeRunner (handle : Bool) (next : JobPc) (after : next = .awaitRunner ∨ next = .shutdownParser) :
    JobTurn env s held .takeRunner (.goto { s with jobs := { s.jobs with handle } } next)
  | awaited (left : s.jobs.runner = .left) :
    JobTurn env s held .awaitRunner (.goto s .shutdownParser)
  | parserDown :
    JobTurn env s held .shutdownParser (.goto s .clearJobs)
  | clear :
    JobTurn env s held .clearJobs (clearJobs s)
  | clearStore :
    JobTurn env s held .clearStore (clearStore s)

theorem prepareSizes_turn (env : Env) (s : Shared) (held : Id → Bool) (req : Submission)
    (metadata budget : Nat) (rest : List SubmittedFile) (total : Nat) :
    JobTurn env s held (.prepareSizes req metadata budget rest total)
      (prepareSizes env s req metadata budget rest total) := by
  cases rest with
  | nil => exact .sized req metadata budget total
  | cons file rest =>
    unfold prepareSizes
    dsimp only
    split
    · exact .refuse _ _ _ nofun
    · split
      · exact .sizes req metadata budget file rest total _
      · exact .refuse _ _ _ nofun

/-- Taking a file leases a file of the store, or charges a reservation, or does neither and
fails. -/
theorem takeFile_cases {env : Env} {s s' : Store} {source : InputSource}
    {out : Except (WireError × Cells) (Option Id × Text × Charged)}
    (h : takeFile env s source = (s', out)) :
    (s' = s ∧ ∃ e, out = .error e) ∨
    (s' = s ∧ ∃ id object bytes, s.inputLease id = some (object, bytes) ∧
      out = .ok (some id, object.filename, bytes)) ∨
    (∃ n c, s.inputReservation n = some (c, s') ∧
      ((∃ e, out = .error e) ∨ ∃ name data, out = .ok (none, name, ⟨data, c⟩))) := by
  cases source with
  | fileId id =>
    simp only [takeFile] at h
    split at h
    · cases h
      exact .inl ⟨rfl, _, rfl⟩
    · rename_i object bytes leased
      obtain ⟨id, rfl, leased⟩ := Option.bind_eq_some_iff.mp leased
      split at h
      · cases h
        exact .inl ⟨rfl, _, rfl⟩
      · cases h
        exact .inr (.inl ⟨rfl, id, object, bytes, leased, rfl⟩)
  | inline name data =>
    simp only [takeFile] at h
    split at h
    · cases h
      exact .inl ⟨rfl, _, rfl⟩
    · rename_i c s'' charged
      split at h
      · cases h
        exact .inr (.inr ⟨_, c, charged, .inl ⟨_, rfl⟩⟩)
      · cases h
        exact .inr (.inr ⟨_, c, charged, .inr ⟨_, _, rfl⟩⟩)
  | raw name bytes =>
    simp only [takeFile] at h
    split at h
    · cases h
      exact .inl ⟨rfl, _, rfl⟩
    · rename_i c s'' charged
      cases h
      exact .inr (.inr ⟨_, c, charged, .inr ⟨_, _, rfl⟩⟩)

theorem prepareFiles_turn (env : Env) (s : Shared) (held : Id → Bool) (req : Submission)
    (metadata budget : Nat) (rest : List SubmittedFile) (files : List PreparedFile) :
    JobTurn env s held (.prepareFiles req metadata budget rest files)
      (prepareFiles env s req metadata budget rest files) := by
  cases rest with
  | nil => exact .made req metadata budget files
  | cons file rest =>
    unfold prepareFiles
    dsimp only
    split
    · rename_i store e dropped taken
      rcases takeFile_cases taken with ⟨rfl, -⟩ | ⟨rfl, -⟩ | ⟨n, c, charged, -⟩
      · exact .refuse _ _ _ nofun
      · exact .refuse _ _ _ nofun
      · exact .refuseCharged req metadata budget _ files n c store _ _ charged
    · rename_i store fileId name data taken
      rcases takeFile_cases taken with ⟨rfl, e, out⟩ | ⟨rfl, id, object, bytes, leased, out⟩ |
        ⟨n, c, charged, ⟨e, out⟩ | ⟨name', data', out⟩⟩
      · cases out
      · cases out
        split
        · exact .refuse _ _ _ nofun
        · exact .lease req metadata budget file rest files _ id object leased
      · cases out
      · cases out
        split
        · exact .refuseCharged req metadata budget _ files n c store _ _ charged
        · exact .take req metadata budget file rest files _ n store charged

theorem cancelJob_turn {env : Env} {s : Shared} {held : Id → Bool} {id : Id} {o : JobOutcome}
    (h : cancelJob env s id = some o) : JobTurn env s held (.canceling id) o := by
  unfold cancelJob at h
  split at h
  · cases h
  · rename_i r found
    split at h
    · rename_i terminal
      cases h
      refine .refuse _ _ _ fun id' same => ?_
      cases same
      exact ⟨r, found, terminal, rfl⟩
    · rename_i live
      dsimp only at h
      split at h
      · rename_i queued
        cases h
        exact .cancelQueued id r found queued
      · rename_i notQueued
        cases h
        refine .cancelRunning id r found ?_
        cases status : r.response.status with
        | running => rfl
        | queued => exact absurd status notQueued
        | completed | failed | partially | canceled => exact absurd (status ▸ rfl) live

theorem stopMark_turn (env : Env) (s : Shared) (held : Id → Bool) (ids : List Id)
    (shutdown locked : Bool) :
    JobTurn env s held (.stopMark ids shutdown) (stopMark s ids shutdown locked) := by
  cases ids with
  | nil => exact .stopWake shutdown
  | cons id ids =>
    unfold stopMark
    dsimp only
    split
    · exact .stopSkip id ids shutdown
    · rename_i r found
      split
      · rename_i live
        rw [Bool.and_eq_true, Bool.not_eq_true'] at live
        exact .stopMark id ids shutdown r found live.2
      · exact .stopSkip id ids shutdown

/-- Every section of the other handlers takes one of the turns. -/
theorem jobSection_turn {env : Env} {s : Shared} {held : Id → Bool} {pc : JobPc} {input : Input}
    {o : JobOutcome} (h : jobSection env s held pc input = some o) : JobTurn env s held pc o := by
  cases pc with
  | prepareMetadata req =>
    cases h
    unfold prepareMetadata
    split
    · exact .refuse _ _ _ nofun
    · rename_i charged
      exact .metadata req _ _ charged
  | prepareBudget req metadata =>
    cases h
    unfold prepareBudget
    split
    · exact .refuse _ _ _ nofun
    · rename_i charged
      exact .budget req metadata _ _ charged
  | prepareSizes req metadata budget rest total =>
    cases h
    exact prepareSizes_turn env s held req metadata budget rest total
  | prepareFiles req metadata budget rest files =>
    cases h
    exact prepareFiles_turn env s held req metadata budget rest files
  | prepareCommit n record =>
    cases h
    unfold commitJob
    split
    · exact .refuse _ _ _ nofun
    · rename_i running
      rw [Bool.or_eq_true, not_or, Bool.not_eq_true] at running
      exact .commit n record running.1
  | reading id =>
    obtain ⟨r, found, rfl⟩ := Option.map_eq_some_iff.mp h
    exact .read id r found
  | canceling id => exact cancelJob_turn h
  | sweepJobs =>
    cases h
    exact .sweep
  | setHandle =>
    cases h
    exact .handle
  | stopJobs shutdown =>
    cases h
    exact .stopList _ shutdown
  | stopMark ids shutdown =>
    cases h
    exact stopMark_turn env s held ids shutdown _
  | stopCancelNotify shutdown =>
    cases h
    unfold stopCancelNotify
    split
    · exact .stopped shutdown (some .takeRunner) _ (.inr rfl)
    · exact .stopped shutdown none _ (.inl rfl)
  | takeRunner =>
    cases h
    unfold takeRunner
    split
    · exact .takeRunner false _ (.inl rfl)
    · exact .takeRunner s.jobs.handle _ (.inr rfl)
  | awaitRunner =>
    simp only [jobSection, awaitRunner] at h
    split at h
    · rename_i left
      cases h
      exact .awaited left
    · cases h
  | shutdownParser =>
    cases h
    unfold shutdownParser
    split
    · exact .parserDown
    · exact .refuse _ _ _ nofun
  | clearJobs =>
    cases h
    exact .clear
  | clearStore =>
    cases h
    exact .clearStore

/-- A section of a handler is one of an upload handler or one of the others. -/
theorem handlerSection_turn {env : Env} {s : Shared} {held : Id → Bool} {pc : Pc} {input : Input}
    {o : ServiceOutcome} (h : handlerSection env s held pc input = some o) :
    (∃ upc uo, pc = .upload upc ∧ UploadTurn env s.store upc uo ∧ o = liftUpload s uo) ∨
    (∃ jpc jo, pc = .job jpc ∧ JobTurn env s held jpc jo ∧ o = liftJob jo) := by
  cases pc with
  | upload pc =>
    obtain ⟨uo, run, rfl⟩ := Option.map_eq_some_iff.mp h
    exact .inl ⟨pc, uo, rfl, uploadSection_turn run, rfl⟩
  | job pc =>
    obtain ⟨jo, run, rfl⟩ := Option.map_eq_some_iff.mp h
    exact .inr ⟨pc, jo, rfl, jobSection_turn run, rfl⟩

/-! ## Sections of the run -/

/-- Moves of the run that change nothing but its position, while its file is being worked on. -/
inductive Works : RunPc → RunPc → Prop where
  | arm (seen : Nat) : Works .gateArm (.gateCheck seen)
  | wait (seen : Nat) : Works (.gateCheck seen) (.gateWait seen)
  | woken (seen : Nat) : Works (.gateWait seen) .gateArm
  | grant (seen : Nat) : Works (.gateWait seen) .admitted
  | parse : Works .admitted .parsing
  | parsed (outcome : Option Parsed) : Works .parsing (.parsed outcome)
  | unrendered (result : Parsed) : Works (.publishTake result) .publishFailed
  | uncommitted (p : Publication) : Works (.publishCommit p) .publishFailed
  | named (p : Publication) (done : p.rest = []) : Works (.naming p) (.publishCommit p)

/-- Positions at which a flag makes the run give up its file. -/
inductive Aborts : RunPc → Prop where
  | gateCheck (seen : Nat) : Aborts (.gateCheck seen)
  | admitted : Aborts .admitted
  | publishFailed : Aborts .publishFailed

/-- Positions at which the file fails. -/
inductive Fails : RunPc → Prop where
  | gateWait (seen : Nat) : Fails (.gateWait seen)
  | publishFailed : Fails .publishFailed

/-- What a section of `run_job` can do, given its record. -/
inductive RunTurn (env : Env) (s : Shared) (run : Run) (r : JobRecord) :
    Shared → Option Run → Prop where
  | skip (pc : run.pc = .start) (notQueued : r.response.status ≠ .queued) :
    RunTurn env s run r s none
  | start (pc : run.pc = .start) (queued : r.response.status = .queued) :
    RunTurn env s run r
      (s.setRecord run.job { r with
        cancel := r.cancel || s.jobs.stopping
        response := { r.response with status := .running, startedAt := some s.store.now } })
      (some { run with files := r.files, pc := .loopHead })
  | enter (pc : run.pc = .loopHead) (more : run.index < run.files.length) :
    RunTurn env s run r s (some { run with pc := .markRunning })
  | leave (pc : run.pc = .loopHead)
      (out : run.files.length ≤ run.index ∨ s.jobs.flagged r = true) :
    RunTurn env s run r s (some { run with pc := .finalize })
  | markRunning (pc : run.pc = .markRunning) :
    RunTurn env s run r (s.setRecord run.job (r.markRunning run.index))
      (some { run with pc := .gateArm })
  | work (pc : RunPc) (works : Works run.pc pc) (store : Store)
      (same : store = { s.store with ledger := store.ledger })
      (ledger : store = s.store ∨ ∃ p, run.pc = .publishCommit p) :
    RunTurn env s run r { s with store } (some { run with pc })
  | abort (aborts : Aborts run.pc) (flagged : s.jobs.flagged r = true) :
    RunTurn env s run r s (some { run with pc := .finalize })
  | fail (fails : Fails run.pc) (message : String) :
    RunTurn env s run r s (some (run.fail message))
  | late (outcome : Option Parsed) (pc : run.pc = .parsed outcome)
      (flagged : s.jobs.flagged r = true) :
    RunTurn env s run r s (some { run with pc := .mark .canceled none true })
  | parsed (outcome : Option Parsed) (pc : run.pc = .parsed outcome) :
    RunTurn env s run r s (some (run.onParsed outcome))
  | take (result : Parsed) (p : Publication) (file : PreparedFile)
      (pc : run.pc = .publishTake result) (there : r.files[run.index]? = some file)
      (rendered : renderAll env result run.aggregate r.response.outputFormats 0 [] =
        some (p.rest, p.total))
      (made : p = { pages := result.pages, metadata := r.metadata, budget := r.artifactBudget
                    stem := safeStem file.name, total := p.total, now := s.store.now, named := []
                    rest := p.rest }) :
    RunTurn env s run r s (some { run with pc := .naming p })
  | name (p : Publication) (format : OutputFormat) (bytes : List UInt8)
      (rest : List (OutputFormat × List UInt8)) (object : FileObject)
      (pc : run.pc = .naming p) (next : p.rest = (format, bytes) :: rest)
      (made : object =
        { id := .file s.store.ids, bytes := bytes.length, createdAt := p.now
          expiresAt := some (p.now + env.retention)
          filename := p.stem ++ '.' :: text (outputName format), purpose := text "parse"
          sha256sum := some (env.sha256 bytes) }) :
    RunTurn env s run r { s with store := s.store.takeId }
      (some { run with
        pc := .naming { p with named := p.named ++ [(format, object, bytes)], rest } })
  | publish (p : Publication) (charged : List File) (ledger : Ledger Pool)
      (pc : run.pc = .publishCommit p) (clear : s.jobs.flagged r = false)
      (splits : Store.Splits p.metadata p.budget s.store.ledger (p.named.map Prod.snd) charged
        ledger)
      (free : ∀ a ∈ p.named, s.store.entries.get a.2.1.id = none) :
    RunTurn env s run r
      (({ s with store := { s.store with
        entries := Store.insertFiles s.store.entries charged, ledger } } : Shared).setRecord run.job
          (r.published run.index p))
      (some { run with aggregate := run.aggregate + p.total, pc := .count p.pages })
  | count (pages : Nat) (pc : run.pc = .count pages) :
    RunTurn env s run r
      { s with jobs := { s.jobs with
        filesProcessed := s.jobs.filesProcessed + 1
        pagesProcessed := s.jobs.pagesProcessed + pages } }
      (some { run with successes := run.successes + 1, pc := .mark .completed none false })
  | mark (status : FileStatus) (message : Option String) (pc : run.pc = .mark status message false) :
    RunTurn env s run r (s.setRecord run.job (r.markFile run.index status message))
      (some { run with index := run.index + 1, pc := .loopHead })
  | markLast (status : FileStatus) (message : Option String)
      (pc : run.pc = .mark status message true) :
    RunTurn env s run r (s.setRecord run.job (r.markFile run.index status message))
      (some { run with pc := .finalize })
  | finalize (pc : run.pc = .finalize) :
    RunTurn env s run r (finalizeJob env s run r) none

theorem publishCommit_turn (env : Env) {s : Shared} {run : Run} {r : JobRecord} {p : Publication}
    (pc : run.pc = .publishCommit p) :
    RunTurn env s run r (publishCommit s run r p).1 (some (publishCommit s run r p).2) := by
  unfold publishCommit
  split
  · exact .work _ (pc ▸ .uncommitted p) s.store rfl (.inl rfl)
  · rename_i clear
    have after : After (Store.publishArtifactBatch (p.named.map Prod.snd) p.metadata p.budget)
        s.store _ _ := Store.publish_after _ _
    unfold After at after
    split
    · rename_i store failed
      rw [failed] at after
      obtain ⟨ledger, rfl⟩ := after
      exact .work _ (pc ▸ .uncommitted p) _ rfl (.inr ⟨p, pc⟩)
    · rename_i store done
      rw [done] at after
      obtain ⟨charged, ledger, splits, free, rfl⟩ := after
      exact .publish p charged ledger pc (Bool.eq_false_iff.mpr clear) splits fun a mem =>
        free a.2 (List.mem_map.mpr ⟨a, mem, rfl⟩)

/-- Every section of `run_job` takes one of the turns. -/
theorem runSection_turn {env : Env} {s s' : Shared} {run : Run} {r : JobRecord} {input : RunInput}
    {next : Option Run} (h : runSection env s run r input = some (s', next)) :
    RunTurn env s run r s' next := by
  unfold runSection at h
  split at h
  · cases h
  · rename_i pc
    unfold startJob at h
    split at h
    · rename_i notQueued
      cases h
      exact .skip pc notQueued
    · rename_i queued
      cases h
      exact .start pc (Decidable.of_not_not queued)
  · rename_i pc
    split at h
    · rename_i out
      cases h
      exact .leave pc out
    · rename_i more
      cases h
      exact .enter pc (Nat.lt_of_not_le fun le => more (.inl le))
  · rename_i pc
    cases h
    exact .markRunning pc
  · rename_i pc
    cases h
    exact .work _ (pc ▸ .arm _) s.store rfl (.inl rfl)
  · rename_i seen pc
    cases h
    split
    · rename_i flagged
      exact .abort (pc ▸ .gateCheck seen) flagged
    · exact .work _ (pc ▸ .wait seen) s.store rfl (.inl rfl)
  · rename_i seen pc
    split at h
    · cases h
      exact .work _ (pc ▸ .grant seen) s.store rfl (.inl rfl)
    · cases h
      exact .fail (pc ▸ .gateWait seen) _
    · split at h
      · cases h
      · cases h
        exact .work _ (pc ▸ .woken seen) s.store rfl (.inl rfl)
  · rename_i pc
    cases h
    split
    · rename_i flagged
      exact .abort (pc ▸ .admitted) flagged
    · exact .work _ (pc ▸ .parse) s.store rfl (.inl rfl)
  · rename_i pc
    split at h
    · rename_i outcome
      cases h
      exact .work _ (pc ▸ .parsed outcome) s.store rfl (.inl rfl)
    · cases h
  · rename_i outcome pc
    split at h
    · rename_i flagged
      cases h
      exact .late outcome pc flagged
    · cases h
      exact .parsed outcome pc
  · rename_i result pc
    obtain ⟨run', taken, out⟩ := Option.map_eq_some_iff.mp h
    cases out
    unfold publishTake at taken
    split at taken
    · cases taken
    · rename_i file there
      split at taken
      · cases taken
        exact .work _ (pc ▸ .unrendered result) s.store rfl (.inl rfl)
      · rename_i rest total rendered
        cases taken
        exact .take result _ file pc there rendered rfl
  · rename_i p pc
    cases next : p.rest with
    | nil =>
      simp only [nameArtifact, next] at h
      cases h
      exact .work _ (pc ▸ .named p next) s.store rfl (.inl rfl)
    | cons a rest =>
      obtain ⟨format, bytes⟩ := a
      simp only [nameArtifact, next] at h
      cases h
      exact .name p format bytes rest _ pc next rfl
  · rename_i p pc
    cases h
    exact publishCommit_turn env pc
  · rename_i pages pc
    cases h
    exact .count pages pc
  · rename_i pc
    split at h
    · rename_i flagged
      cases h
      exact .abort (pc ▸ .publishFailed) flagged
    · cases h
      exact .fail (pc ▸ .publishFailed) _
  · rename_i status message last pc
    cases last with
    | false =>
      cases h
      exact .mark status message pc
    | true =>
      cases h
      exact .markLast status message pc
  · rename_i pc
    cases h
    exact .finalize pc

/-- A step of `run_job` looks its record up, or is a section that has it. -/
theorem runStep_turn {env : Env} {s s' : Shared} {run : Run} {input : RunInput}
    {next : Option Run} (h : runStep env s run input = some (s', next)) :
    (run.pc = .lookup ∧ s' = s ∧
      ((s.jobs.listed run.job = none ∧ next = none) ∨
        ∃ r, s.jobs.listed run.job = some r ∧ next = some { run with pc := .start })) ∨
    (run.pc ≠ .lookup ∧ ∃ r, s.jobs.record run.job = some r ∧ RunTurn env s run r s' next) := by
  unfold runStep at h
  split at h
  · rename_i pc
    split at h
    · rename_i missing
      cases h
      exact .inl ⟨pc, rfl, .inl ⟨missing, rfl⟩⟩
    · rename_i r found
      cases h
      exact .inl ⟨pc, rfl, .inr ⟨r, found, rfl⟩⟩
  · rename_i pc
    obtain ⟨r, found, run⟩ := Option.bind_eq_some_iff.mp h
    exact .inr ⟨pc, r, found, runSection_turn run⟩

/-- What a step of the runner can do: take up or end a job, go through its loop, or go on with its
job. -/
inductive RunnerTurn (env : Env) (s : Shared) : Shared → Prop where
  | arm (at_ : s.jobs.runner = .top) :
    RunnerTurn env s { s with jobs := { s.jobs with runner := .armed s.jobs.notify.calls } }
  | pop (seen : Nat) (id : Id) (queue : List Id) (at_ : s.jobs.runner = .armed seen)
      (first : s.jobs.queue = id :: queue) :
    RunnerTurn env s { s with jobs := { s.jobs with
      queue
      runner := .running { job := id, files := [], successes := 0, failures := 0, aggregate := 0
                           index := 0, pc := .lookup } } }
  | empty (seen : Nat) (at_ : s.jobs.runner = .armed seen) (none : s.jobs.queue = []) :
    RunnerTurn env s { s with jobs := { s.jobs with runner := .check seen } }
  | leave (seen : Nat) (at_ : s.jobs.runner = .check seen) (stopping : s.jobs.stopping = true)
      (none : s.jobs.queue = []) :
    RunnerTurn env s { s with jobs := { s.jobs with runner := .left } }
  | wait (seen : Nat) (at_ : s.jobs.runner = .check seen)
      (stay : ¬ (s.jobs.stopping = true ∧ s.jobs.queue = [])) :
    RunnerTurn env s { s with jobs := { s.jobs with runner := .awaiting seen } }
  | permit (seen : Nat) (at_ : s.jobs.runner = .awaiting seen)
      (stored : s.jobs.notify.permit = true) :
    RunnerTurn env s { s with jobs := { s.jobs with
      notify := { s.jobs.notify with permit := false }, runner := .top } }
  | register (at_ : s.jobs.runner = .awaiting s.jobs.notify.calls)
      (none : s.jobs.notify.permit = false) :
    RunnerTurn env s { s with jobs := { s.jobs with runner := .registered false } }
  | called (seen : Nat) (at_ : s.jobs.runner = .awaiting seen) :
    RunnerTurn env s { s with jobs := { s.jobs with runner := .top } }
  | woken (at_ : s.jobs.runner = .registered true) :
    RunnerTurn env s { s with jobs := { s.jobs with runner := .top } }
  | missed (run : Run) (at_ : s.jobs.runner = .running run) (pc : run.pc = .lookup)
      (missing : s.jobs.listed run.job = none) :
    RunnerTurn env s { s with jobs := { s.jobs with runner := .top } }
  | looked (run : Run) (r : JobRecord) (at_ : s.jobs.runner = .running run) (pc : run.pc = .lookup)
      (found : s.jobs.listed run.job = some r) :
    RunnerTurn env s
      { s with jobs := { s.jobs with runner := .running { run with pc := .start } } }
  | job (run : Run) (r : JobRecord) (s' : Shared) (next : Option Run)
      (at_ : s.jobs.runner = .running run) (pc : run.pc ≠ .lookup)
      (found : s.jobs.record run.job = some r) (turn : RunTurn env s run r s' next) :
    RunnerTurn env s
      { s' with jobs := { s'.jobs with runner := (next.map Runner.running).getD .top } }

theorem runnerStep_turn {env : Env} {s s' : Shared} {input : RunInput}
    (h : runnerStep env s input = some s') : RunnerTurn env s s' := by
  unfold runnerStep at h
  dsimp only at h
  split at h
  · cases h
  · cases h
  · rename_i at_
    cases h
    exact .arm at_
  · rename_i seen at_
    split at h
    · rename_i none
      cases h
      exact .empty seen at_ none
    · rename_i id queue first
      cases h
      exact .pop seen id queue at_ first
  · rename_i seen at_
    cases h
    split
    · rename_i stop
      exact .leave seen at_ stop.1 stop.2
    · rename_i stay
      exact .wait seen at_ stay
  · rename_i seen at_
    split at h
    · rename_i stored
      cases h
      exact .permit seen at_ stored
    · rename_i none
      split at h
      · rename_i same
        cases h
        exact .register (same ▸ at_) (Bool.eq_false_iff.mpr none)
      · cases h
        exact .called seen at_
  · rename_i woken at_
    split at h
    · rename_i is
      cases h
      exact .woken (is ▸ at_)
    · cases h
  · rename_i run at_
    obtain ⟨⟨s₁, next⟩, step, out⟩ := Option.map_eq_some_iff.mp h
    cases out
    rcases runStep_turn step with ⟨pc, rfl, ⟨missing, rfl⟩ | ⟨r, found, rfl⟩⟩ | ⟨pc, r, found, turn⟩
    · exact .missed run at_ pc missing
    · exact .looked run r at_ pc found
    · exact .job run r s₁ next at_ pc found turn

end Mineru.Official
