import Mineru.Logic.Table
import Mineru.Text

/-!
# Wire types

The requests and responses of the official API and the checks on them: `wire.rs` and
`server/submission.rs`.

An identifier is `next_id`'s text for a number, such as `upload_0000000000000001`; the model keeps
the stem and the number. Times are the seconds of the clock, also where a job response has them as
text. `access_level` and the links of a job response are constant texts and left out, and so are
the upload URL, method and headers, which repeat the identifier and the MIME type.
-/

set_option autoImplicit false

namespace Mineru.Official

open Logic

/-! ## Errors -/

structure WireError where
  status : Nat
  code : String
  message : String
  param : Option String
  deriving DecidableEq, Repr

namespace WireError

def bad (param message : String) : WireError where
  status := 400
  code := "invalid_request_error"
  message := message
  param := some param

def tooLarge : WireError where
  status := 413
  code := "file_too_large"
  message := "The request exceeds the allowed size."
  param := none

/-- The `error` of the handlers: an error without a parameter. -/
def plain (status : Nat) (code message : String) : WireError := ⟨status, code, message, none⟩

def notFound : WireError := plain 404 "not_found" "The requested resource was not found."

def internal : WireError := plain 500 "server_error" "The request could not be processed."

def shuttingDown : WireError := plain 503 "server_shutting_down" "The server is shutting down."

/-- A `capacity_exceeded` error. -/
def capacity (message : String) : WireError := plain 429 "capacity_exceeded" message

def metadataCapacity : WireError := capacity "Metadata capacity is exhausted."

def inputCapacity : WireError := capacity "Input storage capacity is exhausted."

end WireError

/-! ## Identifiers -/

/-- The stem and the number of a `next_id`. -/
inductive Id where
  | upload (n : Nat)
  | file (n : Nat)
  | job (n : Nat)
  deriving DecidableEq, Repr

def Id.number : Id → Nat
  | upload n | file n | job n => n

/-! ## Uploads and files -/

/-- `UPLOAD_MAX_BYTES`. -/
def uploadMaxBytes : Nat := 16777216

/-- `INLINE_MAX_BYTES`. -/
def inlineMaxBytes : Nat := 1048576

/-- `UploadCreate`; `expiresAfter` holds the seconds, since the only anchor is the creation. -/
structure UploadCreate where
  filename : Text
  bytes : Nat
  mimeType : Text
  purpose : Text
  sha256sum : Option Text
  expiresAfter : Option Nat
  deriving DecidableEq, Repr

structure FileObject where
  id : Id
  bytes : Nat
  createdAt : Nat
  expiresAt : Option Nat
  filename : Text
  purpose : Text
  sha256sum : Option Text
  deriving DecidableEq, Repr

inductive UploadStatus where
  | pending
  | completed
  | canceled
  deriving DecidableEq, Repr

structure UploadResponse where
  id : Id
  bytes : Nat
  createdAt : Nat
  expiresAt : Nat
  filename : Text
  purpose : Text
  mimeType : Text
  sha256sum : Option Text
  status : UploadStatus
  file : Option FileObject
  deriving DecidableEq, Repr

def isAsciiDigit (c : Char) : Bool := '0' ≤ c && c ≤ '9'

def isAsciiAlphanumeric (c : Char) : Bool :=
  isAsciiDigit c || ('a' ≤ c && c ≤ 'z') || ('A' ≤ c && c ≤ 'Z')

def validateHash (hash : Text) : Except WireError Unit :=
  if utf8Len hash ≠ 64 ∨ ¬ hash.all fun c => isAsciiDigit c || ('a' ≤ c && c ≤ 'f') then
    .error (.bad "sha256sum" "Expected a lowercase SHA-256 hex digest.")
  else .ok ()

def UploadCreate.validate (req : UploadCreate) : Except WireError Unit := do
  if trim req.filename = [] ∨ utf8Len req.filename > 255 then
    throw (.bad "filename" "A valid filename is required.")
  if trim req.mimeType = [] ∨ utf8Len req.mimeType > 255 then
    throw (.bad "mime_type" "A valid MIME type is required.")
  if req.bytes = 0 then
    throw (.bad "bytes" "Bytes must be positive.")
  if req.bytes > uploadMaxBytes then
    throw .tooLarge
  if req.purpose ≠ text "parse" ∧ req.purpose ≠ text "input_image" then
    throw (.bad "purpose" "Unsupported upload purpose.")
  if let some hash := req.sha256sum then
    validateHash hash
  if let some seconds := req.expiresAfter then
    if ¬ (3600 ≤ seconds ∧ seconds ≤ 2592000) then
      throw (.bad "expires_after" "Unsupported upload expiry.")

/-! ## Job submissions -/

inductive OutputFormat where
  | markdown
  | middleJson
  | structuredContent
  | zip
  deriving DecidableEq, Repr

inductive Tier where
  | flash
  | basic
  | standard
  | advanced
  deriving DecidableEq, Repr

inductive OcrMode where
  | auto
  | txt
  | ocr
  deriving DecidableEq, Repr

/-- `InputSource`; the identifier of a `file_id` source is `none` when the text is blank. -/
inductive InputSource where
  | fileId (fileId : Option Id)
  | inline (name data : Text)
  | raw (name : Text) (bytes : List UInt8)
  deriving DecidableEq, Repr

structure SubmittedFile where
  source : InputSource
  pageRange : Option Text
  deriving DecidableEq, Repr

structure Submission where
  files : List SubmittedFile
  tier : Option Tier
  ocrMode : OcrMode
  outputFormats : List OutputFormat
  deriving DecidableEq, Repr

def invalidPageRange : WireError := .bad "page_range" "Invalid page range."

/-- A page number, counted from the end after `r`. -/
def pageEndpoint (value : Text) : Except WireError (Bool × Nat) :=
  let (relative, digits) := match value with
    | 'r' :: rest => (true, rest)
    | _ => (false, value)
  if digits = [] ∨ digits.head? = some '0' ∨ ¬ digits.all isAsciiDigit then .error invalidPageRange
  else
    let n := digits.foldl (fun n c => n * 10 + (c.toNat - '0'.toNat)) 0
    if n < 2 ^ 32 then .ok (relative, n) else .error invalidPageRange

/-- One part of a page range: a page, or a first and a last page in order. -/
def validatePagePart (part : Text) : Except WireError Unit := do
  match (part.splitOn '-').map trim with
  | [first] =>
    let _ ← pageEndpoint first
  | [first, last] =>
    let (startRelative, start) ← pageEndpoint first
    let (relative, stop) ← pageEndpoint last
    let invalidOrder : Bool := match startRelative, relative with
      | true, true => start < stop
      | false, false => start > stop
      | _, _ => false
    if invalidOrder then throw invalidPageRange
  | _ => throw invalidPageRange

def validatePageRange (value : Text) : Except WireError Unit :=
  let value := trim value
  if value = [] ∨ value = text "all" then .ok ()
  else (value.splitOn ',').forM validatePagePart

/-- The number of `=` at the end of base64 data. -/
def base64Padding (data : Text) : Nat := (data.reverse.takeWhile (· == '=')).length

def validateInlineBase64 (data : Text) : Except WireError Unit :=
  let padding := base64Padding data
  if utf8Len data > (inlineMaxBytes + 2) / 3 * 4 then .error .tooLarge
  else if utf8Len data % 4 ≠ 0 ∨ padding > 2 ∨
      ¬ (data.take (data.length - padding)).all
        (fun c => isAsciiAlphanumeric c || c == '+' || c == '/') ∨
      utf8Len data / 4 * 3 - padding > inlineMaxBytes then
    .error (.bad "data" "Expected valid bounded base64 data.")
  else .ok ()

def decodedSize (data : Text) : Nat := utf8Len data / 4 * 3 - base64Padding data

def validateName (name : Text) : Except WireError Unit :=
  if trim name = [] ∨ utf8Len name > 255 then .error (.bad "name" "A valid filename is required.")
  else .ok ()

/-- The checks on one file of a submission. -/
def SubmittedFile.validate (file : SubmittedFile) : Except WireError Unit := do
  if let some range := file.pageRange then
    validatePageRange range
  match file.source with
  | .fileId none => throw (.bad "file_id" "A file identifier is required.")
  | .fileId (some _) => pure ()
  | .inline name data =>
    validateName name
    validateInlineBase64 data
  | .raw name _ => validateName name

def Submission.validate (req : Submission) : Except WireError Unit := do
  if req.files = [] ∨ req.files.length > 100 then
    throw (.bad "files" "Expected between 1 and 100 files.")
  if req.outputFormats = [] then
    throw (.bad "output_formats" "At least one output format is required.")
  if ¬ req.outputFormats.Nodup then
    throw (.bad "output_formats" "Output formats must be unique.")
  req.files.forM SubmittedFile.validate

/-! ## Job responses -/

inductive JobStatus where
  | queued
  | running
  | completed
  | partially
  | failed
  | canceled
  deriving DecidableEq, Repr

inductive FileStatus where
  | queued
  | running
  | completed
  | failed
  | canceled
  deriving DecidableEq, Repr

structure OutputReference where
  fileId : Id
  bytes : Nat
  deriving DecidableEq, Repr

structure ApiErrorBody where
  errorType : String
  code : String
  message : String
  deriving DecidableEq, Repr

/-- `parse` holds the number of pages; `outputFiles` is keyed by the format whose `output_name` the
key of the source is. -/
structure JobFileResponse where
  fileId : Option Id
  name : Text
  pageRange : Text
  status : FileStatus
  parse : Option Nat
  outputFiles : Option (Table OutputFormat OutputReference)
  error : Option ApiErrorBody

structure JobProgress where
  total : Nat
  completed : Nat
  failed : Nat
  deriving DecidableEq, Repr

structure JobResponse where
  jobId : Id
  status : JobStatus
  createdAt : Nat
  startedAt : Option Nat
  finishedAt : Option Nat
  tier : Tier
  outputFormats : List OutputFormat
  progress : JobProgress
  files : List JobFileResponse

/-- What `matches!(status, "queued" | "running")` is false of. -/
def JobStatus.terminal : JobStatus → Bool
  | queued | running => false
  | completed | partially | failed | canceled => true

end Mineru.Official
