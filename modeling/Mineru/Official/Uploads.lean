import Mineru.Official.Store

/-!
# Uploads and files over HTTP

The handlers of `server/uploads.rs` and `server/files.rs`, cut where another thread can come in
between: a section runs under one lock, or does one atomic operation. `UploadPc` is where a handler
is, with what it holds there, and `uploadSection` runs the next section. An upload under creation
has the number of its identifier.

Every handler but `create` starts with `cleanup_expired`; `create` looks at `accepting` before that.
The body of a `put` arrives as inputs. A handler can be given up by its client only while it awaits
the next chunk of the body, which ends it as an error does: `WriterGuard` removes the upload.
-/

set_option autoImplicit false

namespace Mineru.Official

open Logic

/-- What a handler answers; `pending` while it runs. -/
inductive Reply where
  | pending
  | rejected (e : WireError)
  | upload (r : UploadResponse)
  | stored
  | file (f : FileObject)
  | deleted (id : Id)
  | content (data : List UInt8) (filename : Text)
  | job (r : JobResponse)
  | accepted (r : JobResponse)
  | canceled (id : Id)
  | done

/-- What a section waits for besides its turn. -/
inductive Input where
  | go
  | chunk (data : List UInt8)
  | interrupted
  | deadline
  | eof
  | flag (b : Bool)
  deriving DecidableEq, Repr

/-- What a section leaves: the state, the next section (`none` after the last one), the references
that it drops, and the answer. -/
structure Outcome (σ π : Type) where
  state : σ
  next : Option π
  dropped : Cells
  reply : Reply

namespace Outcome

variable {σ π : Type}

def goto (state : σ) (next : π) : Outcome σ π := ⟨state, some next, [], .pending⟩

def answer (state : σ) (dropped : Cells) (reply : Reply) : Outcome σ π :=
  ⟨state, none, dropped, reply⟩

def reject (state : σ) (dropped : Cells) (e : WireError) : Outcome σ π :=
  ⟨state, none, dropped, .rejected e⟩

end Outcome

/-- A `put` past its admission: `WriterGuard` and the declared length. -/
structure Writer where
  id : Id
  expected : Nat
  reservation : Nat
  deriving DecidableEq, Repr

inductive UploadPc where
  | createCleanup (req : UploadCreate)
  | createStart (req : UploadCreate)
  | createMetadata (n : Nat) (req : UploadCreate) (now ttl : Nat)
  | createInput (n : Nat) (req : UploadCreate) (now ttl metadata : Nat)
  | createCommit (n : Nat) (req : UploadCreate) (now ttl metadata reservation : Nat)
  | getUpload (id : Id)
  | putAdmit (id : Id) (contentLength : Option Nat)
  | receiving (w : Writer) (data : List UInt8)
  | putCommit (w : Writer) (data : List UInt8)
  | failing (w : Writer) (error : Option WireError)
  | complete (id : Id) (digest : Option Text)
  | cancelUpload (id : Id)
  | getFile (id : Id)
  | deleteFile (id : Id)
  | fileContent (id : Id)
  deriving DecidableEq, Repr

def UploadPc.refs : UploadPc → Cells
  | createInput _ _ _ _ metadata => [metadata]
  | createCommit _ _ _ _ metadata reservation => [metadata, reservation]
  | receiving w _ | putCommit w _ | failing w _ => [w.reservation]
  | _ => []

abbrev UploadOutcome := Outcome Store UploadPc

/-! ## Creation -/

/-- `upload_response`. -/
def uploadResponse (id : Id) (req : UploadCreate) (created expires : Nat)
    (file : Option FileObject) : UploadResponse where
  id := id
  bytes := req.bytes
  createdAt := created
  expiresAt := expires
  filename := req.filename
  purpose := req.purpose
  mimeType := req.mimeType
  sha256sum := req.sha256sum
  status := if file.isSome then .completed else .pending
  file := file

/-- The first check of `create`. -/
def createAccepting (s : Store) (req : UploadCreate) : UploadOutcome :=
  if s.accepting then .goto s (.createCleanup req) else .reject s [] .shuttingDown

/-- `create` up to its reservations: the checks, the identifier and the creation time. -/
def createStart (env : Env) (s : Store) (req : UploadCreate) : UploadOutcome :=
  match req.validate with
  | .error e => .reject s [] e
  | .ok () =>
    let ttl := req.expiresAfter.getD 3600
    if req.bytes > env.fileCap ∨ req.bytes > env.bodyCap then .reject s [] .tooLarge
    else if ttl > env.retention then
      .reject s [] (.bad "expires_after" "Expiry exceeds configured retention.")
    else .goto s.takeId (.createMetadata s.ids req s.now ttl)

def createMetadata (s : Store) (n : Nat) (req : UploadCreate) (now ttl : Nat) : UploadOutcome :=
  match s.reserveMetadata 2 with
  | none => .reject s [] .metadataCapacity
  | some (metadata, s) => .goto s (.createInput n req now ttl metadata)

def createInput (s : Store) (n : Nat) (req : UploadCreate) (now ttl metadata : Nat) :
    UploadOutcome :=
  match s.inputReservation req.bytes with
  | none => .reject s [metadata] .inputCapacity
  | some (reservation, s) => .goto s (.createCommit n req now ttl metadata reservation)

/-- `commit_upload`. -/
def commitUpload (s : Store) (n : Nat) (req : UploadCreate) (now ttl metadata reservation : Nat) :
    UploadOutcome :=
  if s.accepting then
    let id : Id := .upload n
    let upload : Upload :=
      { request := req, created := now, expires := now + ttl, bytes := none
        reservation := some reservation, metadata, fileId := none, uploading := false }
    .answer { s with entries := s.entries.set id (.upload upload) } []
      (.upload (uploadResponse id req now (now + ttl) none))
  else .reject s [metadata, reservation] .shuttingDown

def getUpload (s : Store) (id : Id) : UploadOutcome :=
  match s.entries.get id with
  | some (.upload u) =>
    if u.expires ≤ s.now then .reject s [] .notFound
    else match u.fileId with
      | none => .answer s [] (.upload (uploadResponse id u.request u.created u.expires none))
      | some fid => match s.entries.get fid with
        | some (.file f) =>
          .answer s [] (.upload (uploadResponse id u.request u.created u.expires (some f.object)))
        | _ => .reject s [] .notFound
  | _ => .reject s [] .notFound

/-! ## Content -/

def notWritable : WireError := .plain 409 "upload_conflict" "Upload is not writable."

/-- The condition under which a `put` is admitted. -/
def Upload.writable (u : Upload) (now : Nat) : Bool :=
  now < u.expires && u.fileId.isNone && u.bytes.isNone && !u.uploading

/-- The admission of `put`, and the check of `content-length` after it. -/
def putAdmit (env : Env) (s : Store) (id : Id) (contentLength : Option Nat) : UploadOutcome :=
  match s.entries.get id with
  | some (.upload u) =>
    if u.writable s.now then
      if u.request.bytes > env.fileCap ∨ u.request.bytes > env.bodyCap then .reject s [] .tooLarge
      else
        let s := { s with entries := s.entries.set id (.upload { u with uploading := true }) }
        match u.reservation with
        | none => .reject s [] .internal
        | some reservation =>
          let w : Writer := ⟨id, u.request.bytes, reservation⟩
          if contentLength.any (· ≠ w.expected) then
            .goto s (.failing w
              (some (.bad "content-length" "Content length does not match upload.")))
          else .goto s (.receiving w [])
    else .reject s [] notWritable
  | _ => .reject s [] .notFound

/-- One turn of the loop over the body. -/
def receive (s : Store) (w : Writer) (data : List UInt8) : Input → Option UploadOutcome
  | .chunk chunk =>
    if data.length + chunk.length > w.expected then
      some (.goto s (.failing w (some .tooLarge)))
    else some (.goto s (.receiving w (data ++ chunk)))
  | .interrupted => some (.goto s (.failing w (some (.bad "body" "Upload body was interrupted."))))
  | .deadline =>
    some (.goto s (.failing w (some (.plain 408 "upload_timeout" "Upload deadline exceeded."))))
  | .eof =>
    if data.length = w.expected then some (.goto s (.putCommit w data))
    else some (.goto s (.failing w
      (some (.bad "body" "Upload length does not match declaration."))))
  | _ => none

/-- The last section of `put`. -/
def putCommit (env : Env) (s : Store) (w : Writer) (data : List UInt8) : UploadOutcome :=
  let digest := env.sha256 data
  let mismatch : UploadOutcome :=
    .goto s (.failing w (some (.bad "sha256sum" "Upload digest does not match.")))
  match s.entries.get w.id with
  | some (.upload u) =>
    if u.request.sha256sum.all (· = digest) then
      let u :=
        { u with
          bytes := some ⟨data, w.reservation⟩
          request := { u.request with sha256sum := some digest }
          reservation := none
          uploading := false }
      .answer { s with entries := s.entries.set w.id (.upload u) } [w.reservation] .stored
    else mismatch
  | _ => mismatch

/-- The drop of `WriterGuard`. -/
def writerDrop (s : Store) (w : Writer) (error : Option WireError) : UploadOutcome :=
  let removed := ((s.entries.get w.id).map Entry.refs).getD []
  .answer { s with entries := s.entries.remove w.id } (removed ++ [w.reservation])
    (match error with
      | none => .pending
      | some e => .rejected e)

/-! ## Completion and cancellation -/

def uploadIncomplete : WireError := .plain 409 "upload_incomplete" "Upload content is missing."

def digestMismatch : WireError := .bad "sha256sum" "Upload digest does not match."

/-- The check of a digest that came with a completion. -/
def digestDiffers (digest : Option Text) (req : UploadCreate) : Bool :=
  digest.any fun d => decide (req.sha256sum ≠ some d)

def complete (s : Store) (id : Id) (digest : Option Text) : UploadOutcome :=
  match s.entries.get id with
  | some (.upload u) =>
    if u.expires ≤ s.now then .reject s [] .notFound
    else match u.fileId with
      | some fileId => match s.entries.get fileId with
        | some (.file f) =>
          if digestDiffers digest u.request then .reject s [] digestMismatch
          else
            .answer s [] (.upload (uploadResponse id u.request u.created u.expires (some f.object)))
        | _ => .reject s [] .notFound
      | none => match u.bytes with
        | none => .reject s [] uploadIncomplete
        | some bytes =>
          if digestDiffers digest u.request then .reject s [] digestMismatch
          else
            let fileId : Id := .file s.ids
            let object : FileObject :=
              { id := fileId, bytes := u.request.bytes, createdAt := u.created
                expiresAt := some u.expires, filename := u.request.filename
                purpose := u.request.purpose, sha256sum := u.request.sha256sum }
            let file : File := { object, bytes, source := true, metadata := some u.metadata }
            let upload := { u with fileId := some fileId, bytes := none }
            .answer
              { s.takeId with
                entries := (s.entries.set fileId (.file file)).set id (.upload upload) } []
              (.upload (uploadResponse id u.request u.created u.expires (some object)))
  | _ => .reject s [] .notFound

def cancelUpload (s : Store) (id : Id) : UploadOutcome :=
  match s.entries.get id with
  | some (.upload u) =>
    if u.fileId.isSome then
      .reject s [] (.plain 409 "upload_conflict" "Completed uploads cannot be canceled.")
    else
      .answer { s with entries := s.entries.remove id } u.refs
        (.upload { uploadResponse id u.request u.created u.expires none with status := .canceled })
  | _ => .reject s [] .notFound

/-! ## Files -/

def getFile (s : Store) (id : Id) : UploadOutcome :=
  match s.file id with
  | some object => .answer s [] (.file object)
  | none => .reject s [] .notFound

def deleteFile (s : Store) (id : Id) : UploadOutcome :=
  match s.entries.get id with
  | some (.file f) => .answer { s with entries := s.entries.remove id } f.refs (.deleted id)
  | _ => .reject s [] .notFound

/-- `content`; the response holds the bytes until it is sent. -/
def fileContent (s : Store) (id : Id) : UploadOutcome :=
  match s.entries.get id with
  | some (.file f) =>
    if f.source then
      .reject s [] (.plain 403 "file_not_downloadable"
        "Source file content is not available for download.")
    else .answer s [f.bytes.reservation] (.content f.bytes.data f.object.filename)
  | _ => .reject s [] .notFound

/-- The next section of a handler. -/
def uploadSection (env : Env) (s : Store) (pc : UploadPc) (input : Input) : Option UploadOutcome :=
  match pc with
  | .createCleanup req =>
    let (s, removed) := s.cleanupExpired
    some { state := s, next := some (.createStart req), dropped := removed, reply := .pending }
  | .createStart req => some (createStart env s req)
  | .createMetadata n req now ttl => some (createMetadata s n req now ttl)
  | .createInput n req now ttl metadata => some (createInput s n req now ttl metadata)
  | .createCommit n req now ttl metadata reservation =>
    some (commitUpload s n req now ttl metadata reservation)
  | .getUpload id => some (getUpload s id)
  | .putAdmit id contentLength => some (putAdmit env s id contentLength)
  | .receiving w data => receive s w data input
  | .putCommit w data => some (putCommit env s w data)
  | .failing w error => some (writerDrop s w error)
  | .complete id digest => some (complete s id digest)
  | .cancelUpload id => some (cancelUpload s id)
  | .getFile id => some (getFile s id)
  | .deleteFile id => some (deleteFile s id)
  | .fileContent id => some (fileContent s id)

end Mineru.Official
