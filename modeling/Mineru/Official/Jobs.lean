import Mineru.Official.Uploads

/-!
# Jobs

`server/jobs.rs` with `jobs/query.rs`, `jobs/output.rs` and `jobs/tier.rs`: the admission of a job,
its run, its publication, its cancellation and its end.

A `JobRecord` is shared by an `Arc` between the table of jobs and whoever looked it up; the model
keeps one table of all records that are still referred to, and says which of them the table of jobs
lists. The record's mutex is never held across an `await`, so each of its sections is one function.
The two loads of `canceled || stopping` count as one, since neither flag is ever cleared.
-/

set_option autoImplicit false

namespace Mineru.Official

open Logic

/-! ## Records -/

/-- `PreparedFile`; the tier is an `OfficialTier`, which has the same members as `Tier`. -/
structure PreparedFile where
  fileId : Option Id
  name : Text
  data : Charged
  pageRange : Option Text
  tier : Tier
  deriving DecidableEq, Repr

/-- `JobRecord`, without the semaphore permit of its slot. -/
structure JobRecord where
  response : JobResponse
  files : List PreparedFile
  cancel : Bool
  metadata : Nat
  artifactBudget : Nat
  expiry : Option Nat
  ocrMode : OcrMode

/-- A record, and whether the table of jobs lists it. -/
structure JobSlot where
  record : JobRecord
  listed : Bool

def preparedRefs (files : List PreparedFile) : Cells := files.map fun f => f.data.reservation

def JobRecord.refs (r : JobRecord) : Cells :=
  r.metadata :: r.artifactBudget :: preparedRefs r.files

/-- The files of one status. -/
def fileCount (files : List JobFileResponse) (status : FileStatus) : Nat :=
  files.countP fun f => f.status = status

/-- `update_progress`. -/
def JobRecord.updateProgress (r : JobRecord) : JobRecord :=
  { r with
    response :=
      { r.response with
        progress :=
          { r.response.progress with
            completed := fileCount r.response.files .completed
            failed := fileCount r.response.files .failed } } }

/-- A change of the response of one file. -/
def JobRecord.modifyFile (r : JobRecord) (index : Nat) (f : JobFileResponse → JobFileResponse) :
    JobRecord :=
  { r with response := { r.response with files := r.response.files.modify index f } }

def parseFailed (message : String) : ApiErrorBody := ⟨"server_error", "parse_failed", message⟩

/-- What `mark_file` does to the file: the error of a file without a message stays. -/
def JobFileResponse.mark (status : FileStatus) (message : Option String) (file : JobFileResponse) :
    JobFileResponse :=
  { file with status, error := (message.map parseFailed).orElse fun _ => file.error }

/-- `mark_file`. -/
def JobRecord.markFile (r : JobRecord) (index : Nat) (status : FileStatus)
    (message : Option String) : JobRecord :=
  (r.modifyFile index (.mark status message)).updateProgress

/-! ## The shared state -/

/-- A `tokio::sync::Notify`: its permit, and how often `notify_waiters` was called. The one task
that waits on it is the runner, which keeps its own side. -/
structure Notify where
  permit : Bool
  calls : Nat
  deriving DecidableEq, Repr

/-- What a parsed document has that the job uses: its pages, and its rendering in a format within a
number of bytes. -/
structure Parsed where
  pages : Nat
  render : OutputFormat → Nat → Option (List UInt8)

/-- The local state of `publish_outputs` after it rendered every format. -/
structure Publication where
  pages : Nat
  metadata : Nat
  budget : Nat
  stem : Text
  total : Nat
  now : Nat
  named : List (OutputFormat × FileObject × List UInt8)
  rest : List (OutputFormat × List UInt8)

/-- Where `run_job` is. -/
inductive RunPc where
  | lookup
  | start
  | loopHead
  | markRunning
  | gateArm
  | gateCheck (seen : Nat)
  | gateWait (seen : Nat)
  | admitted
  | parsing
  | parsed (outcome : Option Parsed)
  | publishTake (result : Parsed)
  | naming (p : Publication)
  | publishCommit (p : Publication)
  | count (pages : Nat)
  | publishFailed
  | mark (status : FileStatus) (message : Option String) (last : Bool)
  | finalize

/-- The local state of `run_job`. -/
structure Run where
  job : Id
  files : List PreparedFile
  successes : Nat
  failures : Nat
  aggregate : Nat
  index : Nat
  pc : RunPc

/-- The runner: its loop, with the number of `notify_waiters` calls that its `Notified` saw, and
whether the registered one was woken. -/
inductive Runner where
  | notStarted
  | top
  | armed (seen : Nat)
  | check (seen : Nat)
  | awaiting (seen : Nat)
  | registered (woken : Bool)
  | left
  | running (run : Run)

/-- The state of `ServiceInner` beside the store, with the runner. -/
structure Jobs where
  records : Table Id JobSlot
  queue : List Id
  notify : Notify
  cancelCalls : Nat
  stopping : Bool
  jobsCreated : Nat
  pagesProcessed : Nat
  filesProcessed : Nat
  runner : Runner
  handle : Bool

structure Shared where
  store : Store
  jobs : Jobs

namespace Jobs

def empty : Jobs where
  records := ∅
  queue := []
  notify := ⟨false, 0⟩
  cancelCalls := 0
  stopping := false
  jobsCreated := 0
  pagesProcessed := 0
  filesProcessed := 0
  runner := .notStarted
  handle := false

/-- The record of a job. -/
def record (j : Jobs) (id : Id) : Option JobRecord := (j.records.get id).map JobSlot.record

/-- A job that the table of jobs lists. -/
def listed (j : Jobs) (id : Id) : Option JobRecord :=
  match j.records.get id with
  | some slot => if slot.listed then some slot.record else none
  | none => none

/-- A section under the record's mutex leaves another record. -/
def setRecord (j : Jobs) (id : Id) (r : JobRecord) : Jobs :=
  match j.records.get id with
  | some slot => { j with records := j.records.set id { slot with record := r } }
  | none => j

/-- `notify_one`: it wakes the registered runner, or stores the permit. -/
def notifyOne (j : Jobs) : Jobs :=
  match j.runner with
  | .registered false => { j with runner := .registered true }
  | _ => { j with notify := { j.notify with permit := true } }

/-- `notify_waiters`: it wakes the registered runner, and every `Notified` from before. -/
def notifyWaiters (j : Jobs) : Jobs :=
  { j with
    notify := { j.notify with calls := j.notify.calls + 1 }
    runner := match j.runner with
      | .registered _ => .registered true
      | r => r }

/-- The flags that `run_job` looks at between its steps. -/
def flagged (j : Jobs) (r : JobRecord) : Bool := r.cancel || j.stopping

end Jobs

namespace Shared

def setRecord (s : Shared) (id : Id) (r : JobRecord) : Shared :=
  { s with jobs := s.jobs.setRecord id r }

/-- A record gives up its budget and all but one of its metadata units. -/
def shrinkReservations (s : Shared) (r : JobRecord) : Shared :=
  { s with store := (s.store.shrinkTo r.artifactBudget 0).shrinkTo r.metadata 1 }

end Shared

/-! ## Admission -/

def toAsciiLowercase (c : Char) : Char :=
  if 'A' ≤ c && c ≤ 'Z' then Char.ofNat (c.toNat + 32) else c

/-- `is_native`: every extension but those of PDF and images. -/
def isNative (name : Text) : Bool :=
  let extension := (name.reverse.takeWhile (· ≠ '.')).reverse.map toAsciiLowercase
  decide (extension ∉ ["pdf", "png", "jpg", "jpeg", "webp", "gif", "bmp", "tiff", "jp2"].map text)

/-- `requested_tier`. -/
def requestedTier (request : Option Tier) (name : Text) : Tier :=
  request.getD (if isNative name then .flash else .standard)

def jobCapacity : WireError := .capacity "Job capacity is exhausted."

def artifactCapacity : WireError := .capacity "Artifact storage capacity is exhausted."

/-- The sections of `prepare_job`, of the other handlers of jobs, and of the service's own
operations. `reading` and `canceling` hold the record they looked up. -/
inductive JobPc where
  | prepareMetadata (req : Submission)
  | prepareBudget (req : Submission) (metadata : Nat)
  | prepareSizes (req : Submission) (metadata budget : Nat) (rest : List SubmittedFile)
      (total : Nat)
  | prepareFiles (req : Submission) (metadata budget : Nat) (rest : List SubmittedFile)
      (files : List PreparedFile)
  | prepareCommit (n : Nat) (record : JobRecord)
  | reading (id : Id)
  | canceling (id : Id)
  | sweepJobs
  | setHandle
  | stopJobs (shutdown : Bool)
  | stopMark (ids : List Id) (shutdown : Bool)
  | stopCancelNotify (shutdown : Bool)
  | takeRunner
  | awaitRunner
  | shutdownParser
  | clearJobs
  | clearStore

def JobPc.refs : JobPc → Cells
  | prepareBudget _ metadata => [metadata]
  | prepareSizes _ metadata budget _ _ => [metadata, budget]
  | prepareFiles _ metadata budget _ files => metadata :: budget :: preparedRefs files
  | prepareCommit _ record => record.refs
  | _ => []

/-- The records that a handler holds. -/
def JobPc.holds : JobPc → List Id
  | reading id | canceling id => [id]
  | _ => []

abbrev JobOutcome := Outcome Shared JobPc

/-- The first section of `prepare_job`; `slot` says whether a job slot is free. -/
def prepareStart (s : Shared) (req : Submission) (slot : Bool) : JobOutcome :=
  if s.jobs.stopping then .reject s [] .shuttingDown
  else match req.validate with
    | .error e => .reject s [] e
    | .ok () => if slot then .goto s (.prepareMetadata req) else .reject s [] jobCapacity

def prepareMetadata (s : Shared) (req : Submission) : JobOutcome :=
  match s.store.reserveMetadata (1 + req.files.length * req.outputFormats.length) with
  | none => .reject s [] .metadataCapacity
  | some (metadata, store) => .goto { s with store } (.prepareBudget req metadata)

def prepareBudget (s : Shared) (req : Submission) (metadata : Nat) : JobOutcome :=
  match s.store.artifactBudget Store.jobCap with
  | none => .reject s [metadata] artifactCapacity
  | some (budget, store) => .goto { s with store } (.prepareSizes req metadata budget req.files 0)

def notForParsing : WireError := .bad "file_id" "File purpose is not parse."

/-- The size of one file, as far as it is known before the file is taken. -/
def submittedSize (env : Env) (s : Store) : InputSource → Except WireError Nat
  | .fileId id =>
    match id.bind s.file with
    | none => .error .notFound
    | some object =>
      if object.purpose ≠ text "parse" then .error notForParsing
      else if object.bytes > env.fileCap then .error .tooLarge
      else .ok object.bytes
  | .inline _ data =>
    if decodedSize data > inlineMaxBytes ∨ decodedSize data > env.fileCap then .error .tooLarge
    else .ok (decodedSize data)
  | .raw _ bytes =>
    if bytes = [] then .error (.bad "files" "Empty files are not supported.")
    else if bytes.length > env.fileCap then .error .tooLarge
    else .ok bytes.length

/-- One turn of the loop over the sizes. -/
def prepareSizes (env : Env) (s : Shared) (req : Submission) (metadata budget : Nat)
    (rest : List SubmittedFile) (total : Nat) : JobOutcome :=
  match rest with
  | [] => .goto s (.prepareFiles req metadata budget req.files [])
  | file :: rest =>
    match submittedSize env s.store file.source with
    | .error e => .reject s [metadata, budget] e
    | .ok size =>
      if total + size < word ∧ total + size ≤ Store.jobCap then
        .goto s (.prepareSizes req metadata budget rest (total + size))
      else .reject s [metadata, budget] .tooLarge

/-- Taking one file: its identifier, its name and its bytes, or an error and what is dropped. -/
def takeFile (env : Env) (s : Store) : InputSource →
    Store × Except (WireError × Cells) (Option Id × Text × Charged)
  | .fileId id =>
    match id.bind s.inputLease with
    | none => (s, .error (.notFound, []))
    | some (object, bytes) =>
      if object.purpose ≠ text "parse" then (s, .error (notForParsing, [bytes.reservation]))
      else (s, .ok (id, object.filename, bytes))
  | .inline name data =>
    match s.inputReservation (decodedSize data) with
    | none => (s, .error (.inputCapacity, []))
    | some (reservation, s) =>
      match env.decode data with
      | none => (s, .error (.bad "data" "Expected valid base64 data.", [reservation]))
      | some decoded => (s, .ok (none, name, ⟨decoded, reservation⟩))
  | .raw name bytes =>
    match s.inputReservation bytes.length with
    | none => (s, .error (.inputCapacity, []))
    | some (reservation, s) => (s, .ok (none, name, ⟨bytes, reservation⟩))

/-- The page range that a prepared file keeps. -/
def keptRange (range : Option Text) : Option Text :=
  range.filter fun v => decide (trim v ≠ [] ∧ trim v ≠ text "all")

/-- The record of a new job. -/
def newRecord (id : Id) (now : Nat) (req : Submission) (metadata budget : Nat)
    (files : List PreparedFile) : JobRecord where
  response :=
    { jobId := id
      status := .queued
      createdAt := now
      startedAt := none
      finishedAt := none
      tier := req.tier.getD (if files.any (·.tier = .flash) then .flash else .standard)
      outputFormats := req.outputFormats
      progress := ⟨files.length, 0, 0⟩
      files := files.map fun f =>
        { fileId := f.fileId, name := f.name, pageRange := f.pageRange.getD [], status := .queued
          parse := none, outputFiles := none, error := none } }
  files := files
  cancel := false
  metadata := metadata
  artifactBudget := budget
  expiry := none
  ocrMode := req.ocrMode

/-- One turn of the loop over the files; after it the record is made. -/
def prepareFiles (env : Env) (s : Shared) (req : Submission) (metadata budget : Nat)
    (rest : List SubmittedFile) (files : List PreparedFile) : JobOutcome :=
  match rest with
  | [] =>
    let record := newRecord (.job s.store.ids) s.store.now req metadata budget files
    .goto { s with store := s.store.takeId } (.prepareCommit s.store.ids record)
  | file :: rest =>
    let held := metadata :: budget :: preparedRefs files
    match takeFile env s.store file.source with
    | (store, .error (e, dropped)) => .reject { s with store } (held ++ dropped) e
    | (store, .ok (fileId, name, data)) =>
      let tier := requestedTier req.tier name
      if isNative name ∧ tier ≠ .flash then
        .reject { s with store } (held ++ [data.reservation])
          (.bad "tier" "Native formats require the flash tier.")
      else
        let prepared : PreparedFile :=
          { fileId, name, data, pageRange := keptRange file.pageRange, tier }
        .goto { s with store } (.prepareFiles req metadata budget rest (files ++ [prepared]))

/-- `commit_job`. -/
def commitJob (s : Shared) (n : Nat) (record : JobRecord) : JobOutcome :=
  if s.jobs.stopping || !s.store.accepting then .reject s record.refs .shuttingDown
  else
    let id : Id := .job n
    let jobs :=
      { s.jobs with
        records := s.jobs.records.set id ⟨record, true⟩
        queue := s.jobs.queue ++ [id]
        jobsCreated := s.jobs.jobsCreated + 1 }
    .answer { s with jobs := jobs.notifyOne } [] (.accepted record.response)

/-! ## Queries and cancellation -/

/-- The lookup of `get` and `cancel`, which take a clone of the record's `Arc`. -/
def lookupJob (s : Shared) (id : Id) (next : JobPc) : JobOutcome :=
  match s.jobs.listed id with
  | some _ => .goto s next
  | none => .reject s [] .notFound

def readJob (s : Shared) (id : Id) : Option JobOutcome :=
  (s.jobs.record id).map fun r => .answer s [] (.job r.response)

def jobTerminal : WireError := .plain 409 "job_terminal" "Terminal jobs cannot be canceled."

/-- What a cancellation makes of a queued job. -/
def JobRecord.cancelQueued (r : JobRecord) (env : Env) (now : Nat) : JobRecord :=
  let files := r.response.files.map fun f => { f with status := FileStatus.canceled }
  let response := { r.response with status := .canceled, finishedAt := some now, files }
  { { r with response }.updateProgress with
    files := []
    expiry := some (now + env.retention) }

/-- The section of `cancel` under the record's mutex. -/
def cancelJob (env : Env) (s : Shared) (id : Id) : Option JobOutcome :=
  match s.jobs.record id with
  | none => none
  | some r =>
    if r.response.status.terminal then some (.reject s [] jobTerminal)
    else
      let s := { s with jobs := { s.jobs with cancelCalls := s.jobs.cancelCalls + 1 } }
      let r := { r with cancel := true }
      if r.response.status = .queued then
        some (.answer ((s.shrinkReservations r).setRecord id (r.cancelQueued env s.store.now)) []
          (.canceled id))
      else some (.answer (s.setRecord id r) [] (.canceled id))

/-! ## The run of a job -/

/-- The end of a run of `run_job` (`none`), or what comes next. -/
abbrev RunOutcome := Shared × Option Run

/-- What the run waits for besides its turn: the gate, which is open or closed, and the outcome of
`parse_rich`. -/
inductive RunInput where
  | go
  | gate (opened : Bool)
  | parsed (outcome : Option Parsed)

/-- `job.response.files[index].status = "running"`. -/
def JobRecord.markRunning (r : JobRecord) (index : Nat) : JobRecord :=
  r.modifyFile index fun file => { file with status := .running }

/-- The section of `run_job` that starts a queued job. -/
def startJob (s : Shared) (run : Run) (r : JobRecord) : RunOutcome :=
  if r.response.status ≠ .queued then (s, none)
  else
    let started :=
      { r with
        cancel := r.cancel || s.jobs.stopping
        response := { r.response with status := .running, startedAt := some s.store.now } }
    (s.setRecord run.job started, some { run with files := r.files, pc := .loopHead })

/-- The end of a file that did not parse. -/
def Run.fail (run : Run) (message : String) : Run :=
  { run with failures := run.failures + 1, pc := .mark .failed (some message) false }

/-- The `match` on the outcome of the parser. -/
def Run.onParsed (run : Run) : Option Parsed → Run
  | none => run.fail "document parsing failed"
  | some result =>
    if result.pages > 1000 then run.fail "page limit exceeded"
    else { run with pc := .publishTake result }

/-- The loop of `publish_outputs` over the formats: the rendered bytes and their total. -/
def renderAll (env : Env) (result : Parsed) (aggregate : Nat) :
    List OutputFormat → Nat → List (OutputFormat × List UInt8) →
      Option (List (OutputFormat × List UInt8) × Nat)
  | [], total, rendered => some (rendered, total)
  | format :: formats, total, rendered => do
    let cap := min (Store.jobCap - (aggregate + total)) env.zipCap
    let bytes ← result.render format cap
    if total + bytes.length + aggregate ≤ Store.jobCap then
      renderAll env result aggregate formats (total + bytes.length) (rendered ++ [(format, bytes)])
    else none

def safeStem (name : Text) : Text :=
  let stem := if '.' ∈ name then (name.reverse.dropWhile (· ≠ '.')).tail.reverse else name
  (stem.map fun c => if isAsciiAlphanumeric c || c == '-' || c == '_' then c else '_').take 100

def outputName : OutputFormat → String
  | .markdown => "markdown"
  | .middleJson => "middle_json"
  | .structuredContent => "structured_content"
  | .zip => "zip"

/-- `publish_outputs` up to its clock reading. What it takes from the record does not change while
the job runs, so the section stands where the clock is read. -/
def publishTake (env : Env) (s : Shared) (run : Run) (r : JobRecord) (result : Parsed) :
    Option Run :=
  match r.files[run.index]? with
  | none => none
  | some file => some <|
    match renderAll env result run.aggregate r.response.outputFormats 0 [] with
    | none => { run with pc := .publishFailed }
    | some (rendered, total) =>
      let p : Publication :=
        { pages := result.pages, metadata := r.metadata, budget := r.artifactBudget
          stem := safeStem file.name, total, now := s.store.now, named := [], rest := rendered }
      { run with pc := .naming p }

/-- One turn of the loop that names the artifacts. -/
def nameArtifact (env : Env) (s : Shared) (run : Run) (p : Publication) : Shared × Run :=
  match p.rest with
  | [] => (s, { run with pc := .publishCommit p })
  | (format, bytes) :: rest =>
    let object : FileObject :=
      { id := .file s.store.ids
        bytes := bytes.length
        createdAt := p.now
        expiresAt := some (p.now + env.retention)
        filename := p.stem ++ '.' :: text (outputName format)
        purpose := text "parse"
        sha256sum := some (env.sha256 bytes) }
    let p := { p with named := p.named ++ [(format, object, bytes)], rest }
    ({ s with store := s.store.takeId }, { run with pc := .naming p })

/-- The references to the artifacts of a file. -/
def outputReferences (named : List (OutputFormat × FileObject × List UInt8)) :
    Table OutputFormat OutputReference :=
  named.foldl (fun refs a => refs.set a.1 ⟨a.2.1.id, a.2.2.length⟩) ∅

/-- What `publish_outputs` writes into the record. -/
def JobRecord.published (r : JobRecord) (index : Nat) (p : Publication) : JobRecord :=
  r.modifyFile index fun file =>
    { file with outputFiles := some (outputReferences p.named), parse := some p.pages }

/-- The last section of `publish_outputs`. -/
def publishCommit (s : Shared) (run : Run) (r : JobRecord) (p : Publication) : Shared × Run :=
  if s.jobs.flagged r then (s, { run with pc := .publishFailed })
  else
    match s.store.publishArtifactBatch (p.named.map Prod.snd) p.metadata p.budget with
    | .error _ store => ({ s with store }, { run with pc := .publishFailed })
    | .ok () store =>
      (({ s with store } : Shared).setRecord run.job (r.published run.index p),
        { run with aggregate := run.aggregate + p.total, pc := .count p.pages })

/-- The counters of a completed file. -/
def countFile (s : Shared) (run : Run) (pages : Nat) : RunOutcome :=
  ({ s with
      jobs := { s.jobs with
        filesProcessed := s.jobs.filesProcessed + 1
        pagesProcessed := s.jobs.pagesProcessed + pages } },
    some { run with successes := run.successes + 1, pc := .mark .completed none false })

/-- The status that `finalize_job` gives the job. -/
def finalStatus (flagged : Bool) (successes failures : Nat) : JobStatus :=
  if flagged then .canceled
  else if failures = 0 then .completed
  else if successes = 0 then .failed
  else .partially

/-- What `finalize_job` makes of the record. -/
def JobRecord.finalized (r : JobRecord) (env : Env) (now : Nat) (status : JobStatus) : JobRecord :=
  let canceled := r.response.files.map fun f =>
    if f.status = .queued ∨ f.status = .running then { f with status := .canceled } else f
  let r := { r with response := { r.response with files := canceled } }
  let r := r.updateProgress
  { r with
    response := { r.response with finishedAt := some now, status }
    files := []
    expiry := some (now + env.retention) }

def finalizeJob (env : Env) (s : Shared) (run : Run) (r : JobRecord) : Shared :=
  (s.shrinkReservations r).setRecord run.job
    (r.finalized env s.store.now (finalStatus (s.jobs.flagged r) run.successes run.failures))

/-- The sections of `run_job` that hold the record; `none` where the run has to wait. -/
def runSection (env : Env) (s : Shared) (run : Run) (r : JobRecord) (input : RunInput) :
    Option RunOutcome :=
  match run.pc with
  | .lookup => none
  | .start => some (startJob s run r)
  | .loopHead =>
    if run.files.length ≤ run.index ∨ s.jobs.flagged r then
      some (s, some { run with pc := .finalize })
    else some (s, some { run with pc := .markRunning })
  | .markRunning =>
    some (s.setRecord run.job (r.markRunning run.index), some { run with pc := .gateArm })
  | .gateArm => some (s, some { run with pc := .gateCheck s.jobs.cancelCalls })
  | .gateCheck seen =>
    some (s, some { run with pc := if s.jobs.flagged r then .finalize else .gateWait seen })
  | .gateWait seen =>
    match input with
    | .gate true => some (s, some { run with pc := .admitted })
    | .gate false => some (s, some (run.fail "runtime unavailable"))
    | _ =>
      if s.jobs.cancelCalls = seen then none else some (s, some { run with pc := .gateArm })
  | .admitted =>
    some (s, some { run with pc := if s.jobs.flagged r then .finalize else .parsing })
  | .parsing =>
    match input with
    | .parsed outcome => some (s, some { run with pc := .parsed outcome })
    | _ => none
  | .parsed outcome =>
    if s.jobs.flagged r then some (s, some { run with pc := .mark .canceled none true })
    else some (s, some (run.onParsed outcome))
  | .publishTake result => (publishTake env s run r result).map fun run => (s, some run)
  | .naming p =>
    let (s, run) := nameArtifact env s run p
    some (s, some run)
  | .publishCommit p =>
    let (s, run) := publishCommit s run r p
    some (s, some run)
  | .count pages => some (countFile s run pages)
  | .publishFailed =>
    if s.jobs.flagged r then some (s, some { run with pc := .finalize })
    else some (s, some (run.fail "artifact generation failed"))
  | .mark status message last =>
    some (s.setRecord run.job (r.markFile run.index status message),
      some (if last then { run with pc := .finalize }
        else { run with index := run.index + 1, pc := .loopHead }))
  | .finalize => some (finalizeJob env s run r, none)

/-- The next section of `run_job`. -/
def runStep (env : Env) (s : Shared) (run : Run) (input : RunInput) : Option RunOutcome :=
  match run.pc with
  | .lookup =>
    match s.jobs.listed run.job with
    | none => some (s, none)
    | some _ => some (s, some { run with pc := .start })
  | _ => (s.jobs.record run.job).bind fun r => runSection env s run r input

end Mineru.Official
