import Mineru.Logic.Threads
import Mineru.Models.Disk

/-!
# The model cache

`ensure_layout` and `verify_layout` of `cache.rs`, as threads over one disk: any number of calls run
at the same time, in one process or in several, with one cache root. Every call to the file system
or the network is a step of its own, with what comes back as the event; a call may also fail, time
out, be cancelled, or end with its process. The other names of the root are left alone meanwhile, as
the cache requires of its callers.

SHA-256, `Url::join` and the text of a status code are parameters. `remove_file` of a dropped
temporary file succeeds. The `127.0.0.1` exception of `check_url` exists in test builds only and is
left out.
-/

set_option autoImplicit false

namespace Mineru.Models

open Logic

/-! ## The manifest -/

def repo : Text := text "opendatalab/MinerU-4_models_onnx"
def revision : Text := text "358310b4f64b95f9fefc372ad899356e4111f376"
def maxRedirects : Nat := 4

inductive DownloadPolicy where
  | auto
  | offline
  deriving DecidableEq, Repr

structure ModelArtifact where
  path : Text
  size : Nat
  sha256 : Text

structure ModelManifest where
  repository : Text
  revision : Text
  layout : ModelArtifact
  layoutConfig : ModelArtifact

def manifest : ModelManifest where
  repository := repo
  revision := revision
  layout :=
    { path := text "Layout/PP-DocLayoutV2/inference.onnx"
      size := 213963712
      sha256 := text "cd540dc296ff3115fe78efa65b68501e6a8dc74b198acc9834a725ffaa095aac" }
  layoutConfig :=
    { path := text "Layout/PP-DocLayoutV2/inference.yml"
      size := 1482
      sha256 := text "93100e0fb2cd76b9d246a853deea85e191d8333b2cfca7be76e82e4c4ebfa819" }

/-- Which artifact of the manifest. -/
inductive Slot where
  | layout
  | layoutConfig
  deriving DecidableEq, Repr

def Slot.artifact : Slot → ModelArtifact
  | .layout => manifest.layout
  | .layoutConfig => manifest.layoutConfig

/-- `ModelError`; the text of an I/O error is left out. -/
inductive ModelError where
  | io
  | http (message : Text)
  | timeout
  | invalid (message : Text)
  | offline
  deriving DecidableEq, Repr

/-! ## URLs -/

/-- What the code asks of a `url::Url`; `path` is the rest of it. -/
structure Url where
  scheme : Text
  username : Text
  password : Option Text
  host : Option Text
  port : Option Nat
  path : Text
  fragment : Option Text
  deriving DecidableEq, Repr

def sourceUrl (path : Text) : Url where
  scheme := text "https"
  username := []
  password := none
  host := some (text "huggingface.co")
  port := none
  path := text "/" ++ repo ++ text "/resolve/" ++ revision ++ text "/" ++ path
  fragment := none

def allowed : List Text :=
  [text "huggingface.co", text "cdn-lfs.huggingface.co", text "cdn-lfs-us-1.huggingface.co",
    text "cdn-lfs-eu-1.huggingface.co", text "us.aws.cdn.hf.co", text "eu.aws.cdn.hf.co",
    text "ap.aws.cdn.hf.co", text "cas-bridge.xethub.hf.co", text "transfer.xethub.hf.co"]

/-- The condition of `check_url`. -/
def approved (url : Url) : Bool :=
  !(url.scheme ≠ text "https" || url.username ≠ [] || url.password.isSome ||
    url.host.getD [] ∉ allowed || url.port.any (· ≠ 443) || url.fragment.isSome)

def checkUrl (url : Url) : Except ModelError Unit :=
  if approved url then .ok ()
  else .error (.invalid (text "model URL is not an approved HTTPS host"))

/-! ## Paths and digests -/

/-- What is not this repository's. -/
structure World where
  root : Path
  sha256 : Bytes → Bytes
  join : Url → Text → Except Text Url
  statusText : Nat → Text

/-- `Path::file_name`, for a path of the manifest. -/
def fileName (path : Text) : Text := (path.splitOn '/').getLast?.getD []

/-- The directory of `artifact_path`. -/
def artifactDir (root : Path) (hash : Text) : Path :=
  root ++ [text "models", repo.flatMap fun c => if c = '/' then text "--" else [c], revision, hash]

def artifactPath (root : Path) (hash path : Text) : Path := artifactDir root hash ++ [fileName path]

namespace World

variable (w : World)

def parent (slot : Slot) : Path := artifactDir w.root slot.artifact.sha256

def destination (slot : Slot) : Path := artifactPath w.root slot.artifact.sha256 slot.artifact.path

/-- The bytes are the ones of the manifest. -/
def genuine (slot : Slot) (bytes : Bytes) : Bool :=
  bytes.length == slot.artifact.size && hexDigest (w.sha256 bytes) == slot.artifact.sha256

end World

/-! ## Tasks -/

/-- A `NamedTempFile`, by its random suffix. -/
structure Temp where
  suffix : Text
  inode : Nat
  deriving DecidableEq, Repr

def Temp.name (temp : Temp) : Text := text ".tmp" ++ temp.suffix

/-- Which call of `verified_file` is meant: the first one of `ensure_artifact`, the one of `download`
on its temporary file, the second one of `ensure_artifact`, and the one of `verify_artifact` after
`persist` or in `verify_layout`. -/
inductive Check where
  | present
  | downloaded (temp : Temp)
  | winner (temp : Temp)
  | placed
  | verify
  deriving DecidableEq, Repr

/-- The call that comes next. -/
inductive Pc where
  | stat (check : Check)
  | openFile (check : Check)
  | read (check : Check) (inode : Nat) (taken : Bytes)
  | createDirs (todo : List Path)
  | statParent
  | newTemp
  | send (temp : Temp) (url : Url) (redirects : Nat)
  | answer (temp : Temp) (url : Url) (redirects : Nat)
  | reopen (temp : Temp)
  | receive (temp : Temp) (size : Nat)
  | sync (temp : Temp)
  | persist (temp : Temp)
  | ended
  | killed (left : Option Temp)
  deriving DecidableEq, Repr

/-- `ensure_layout` or `verify_layout`. -/
inductive Kind where
  | ensure
  | verify
  deriving DecidableEq, Repr

/-- One call: the artifact that is worked on, and those after it. -/
structure Task where
  kind : Kind
  policy : DownloadPolicy
  slot : Slot
  rest : List Slot
  pc : Pc
  deriving DecidableEq, Repr

def Kind.firstCheck : Kind → Check
  | .ensure => .present
  | .verify => .verify

def ensureLayout (policy : DownloadPolicy) : Task where
  kind := .ensure
  policy := policy
  slot := .layoutConfig
  rest := [.layout]
  pc := .stat .present

def verifyLayout (policy : DownloadPolicy) : Task where
  kind := .verify
  policy := policy
  slot := .layout
  rest := [.layoutConfig]
  pc := .stat .verify

structure Response where
  status : Nat
  location : Option Text
  contentLength : Option Nat
  deriving DecidableEq, Repr

/-- What comes back from the next call, or what happens instead. -/
inductive Event where
  | go
  | suffix (random : Text)
  | chunk (count : Nat)
  | response (response : Response)
  | refused (message : Text)
  | body (chunk : Bytes)
  | bodyEnd
  | fail
  | timeout
  | cancel
  | kill

/-- What a call does that can be seen: a request for an artifact, or its result. -/
inductive Reply where
  | silent
  | sent (slot : Slot) (url : Url)
  | returned (result : Except ModelError Path)

namespace Check

def temp : Check → Option Temp
  | .downloaded temp | .winner temp => some temp
  | .present | .placed | .verify => none

/-- The path that is verified. -/
def path (w : World) (slot : Slot) : Check → Path
  | .downloaded temp => w.parent slot ++ [temp.name]
  | .present | .winner _ | .placed | .verify => w.destination slot

end Check

namespace Pc

/-- The temporary file that is dropped when the call ends here. -/
def temp : Pc → Option Temp
  | .stat check | .openFile check | .read check _ _ => check.temp
  | .send temp _ _ | .answer temp _ _ | .reopen temp | .receive temp _ | .sync temp
  | .persist temp => some temp
  | .createDirs _ | .statParent | .newTemp | .ended => none
  | .killed left => left

def isOver : Pc → Bool
  | .ended | .killed _ => true
  | _ => false

/-- Inside the `timeout` around `download`. -/
def downloading : Pc → Bool
  | .stat (.downloaded _) | .openFile (.downloaded _) | .read (.downloaded _) _ _ => true
  | .send _ _ _ | .answer _ _ _ | .reopen _ | .receive _ _ | .sync _ => true
  | _ => false

/-- The next call is one that may fail with an I/O error. -/
def callsDisk : Pc → Bool
  | .send _ _ _ | .answer _ _ _ | .ended | .killed _ => false
  | _ => true

end Pc

abbrev Outcome := Disk × Task × Reply

namespace Task

variable (w : World) (d : Disk) (t : Task)

def goto (pc : Pc) : Task := { t with pc }

def tempPath (temp : Temp) : Path := w.parent t.slot ++ [temp.name]

def dropTemp : Disk :=
  match t.pc.temp with
  | some temp => (d.removeFile (t.tempPath w temp)).getD d
  | none => d

def go (pc : Pc) : Outcome := (d, t.goto pc, .silent)

def finish (result : Except ModelError Path) : Outcome :=
  (t.dropTemp w d, t.goto .ended, .returned result)

def fault (error : ModelError) : Outcome := t.finish w d (.error error)

def invalid (message : String) : Outcome := t.fault w d (.invalid (text message))

/-- The artifact is there: the next one, or the end. -/
def found : Outcome :=
  match t.rest with
  | slot :: rest => (t.dropTemp w d, { t with slot, rest, pc := .stat t.kind.firstCheck }, .silent)
  | [] => t.finish w d (.ok (w.destination .layout))

/-- What follows `verified_file`. -/
def conclude : Check → Bool → Outcome
  | .present, true | .winner _, true | .placed, true | .verify, true => t.found w d
  | .present, false =>
    if t.policy = .offline then t.fault w d .offline
    else t.go d (.createDirs (w.parent t.slot).inits.tail)
  | .downloaded temp, true => t.go d (.stat (.winner temp))
  | .downloaded _, false => t.invalid w d "download failed pinned size or SHA-256 verification"
  | .winner temp, false => t.go d (.persist temp)
  | .placed, false | .verify, false =>
    t.invalid w d "cached artifact failed size or SHA-256 verification"

/-! ### `verified_file` -/

def stat (check : Check) : Outcome :=
  match d.lookup (check.path w t.slot) with
  | .error _ => t.fault w d .io
  | .ok none => t.conclude w d check false
  | .ok (some .link) => t.invalid w d "model cache path is a symlink"
  | .ok (some .dir) => t.conclude w d check false
  | .ok (some (.file inode)) =>
    if (d.content inode).length ≠ t.slot.artifact.size then t.conclude w d check false
    else t.go d (.openFile check)

/-- With `O_NOFOLLOW`; a directory can be opened, but is no file. -/
def openFile (check : Check) : Outcome :=
  match d.lookup (check.path w t.slot) with
  | .error _ | .ok none | .ok (some .link) => t.fault w d .io
  | .ok (some .dir) => t.conclude w d check false
  | .ok (some (.file inode)) => t.go d (.read check inode [])

/-- One `read` of at most a buffer, below the limit of `take`; it returns nothing only at the end. -/
def read (check : Check) (inode : Nat) (taken : Bytes) (count : Nat) : Option Outcome :=
  let left := min (t.slot.artifact.size + 1 - taken.length)
    ((d.content inode).length - taken.length)
  if count = 0 then
    if left = 0 then some (t.conclude w d check (w.genuine t.slot taken)) else none
  else if count ≤ min (64 * 1024) left then
    some (t.go d (.read check inode
      (taken ++ ((d.content inode).drop taken.length).take count)))
  else none

/-! ### `ensure_artifact` -/

/-- `create_dir_all`, one directory. -/
def createDirs : List Path → Outcome
  | [] => t.go d .statParent
  | p :: todo =>
    if d.isDir p then t.go d (.createDirs todo)
    else match d.createDir p with
      | some d' => t.go d' (.createDirs todo)
      | none => t.fault w d .io

def statParent : Outcome :=
  match d.lookup (w.parent t.slot) with
  | .error _ | .ok none => t.fault w d .io
  | .ok (some .link) => t.invalid w d "model cache directory is a symlink"
  | .ok (some .dir) | .ok (some (.file _)) => t.go d .newTemp

/-- `NamedTempFile::new_in`, which tries another name when one is taken. -/
def newTemp (suffix : Text) : Outcome :=
  let temp : Temp := ⟨suffix, d.next⟩
  match d.createFile (t.tempPath w temp) with
  | some d' => t.go d' (.send temp (sourceUrl t.slot.artifact.path) 0)
  | none =>
    if (d.tree.get (t.tempPath w temp)).isSome then t.go d .newTemp else t.fault w d .io

def persist (temp : Temp) : Outcome :=
  match d.rename (t.tempPath w temp) (w.destination t.slot) with
  | some d' => t.go d' (.stat .placed)
  | none => t.fault w d .io

/-! ### `download` -/

def send (temp : Temp) (url : Url) (redirects : Nat) : Outcome :=
  match checkUrl url with
  | .error error => t.fault w d error
  | .ok () => (d, t.goto (.answer temp url redirects), .sent t.slot url)

def redirect (temp : Temp) (url : Url) (redirects : Nat) (location : Option Text) : Outcome :=
  if redirects = maxRedirects then t.invalid w d "too many model redirects"
  else match location with
    | none => t.invalid w d "invalid redirect"
    | some target => match w.join url target with
      | .error message => t.fault w d (.invalid message)
      | .ok url => match checkUrl url with
        | .error error => t.fault w d error
        | .ok () => t.go d (.send temp url (redirects + 1))

def answer (temp : Temp) (url : Url) (redirects : Nat) (response : Response) : Outcome :=
  if 300 ≤ response.status ∧ response.status < 400 then
    t.redirect w d temp url redirects response.location
  else if response.status ≠ 200 then
    t.fault w d (.invalid (text "model server returned " ++ w.statusText response.status))
  else if response.contentLength.any (· ≠ t.slot.artifact.size) then
    t.invalid w d "model response has incorrect length"
  else t.go d (.reopen temp)

/-- One chunk of the body; `size` saturates at `u64::MAX`. -/
def receive (temp : Temp) (size : Nat) (chunk : Bytes) : Outcome :=
  let size := min (size + chunk.length) (2 ^ 64 - 1)
  if t.slot.artifact.size < size then t.invalid w d "model response exceeds pinned size"
  else t.go (d.append temp.inode chunk) (.receive temp size)

end Task

/-! ## Steps -/

/-- The next call, with what comes back. -/
def advance (w : World) (d : Disk) (t : Task) : Pc → Event → Option Outcome
  | .stat check, .go => some (t.stat w d check)
  | .openFile check, .go => some (t.openFile w d check)
  | .read check inode taken, .chunk count => t.read w d check inode taken count
  | .createDirs todo, .go => some (t.createDirs w d todo)
  | .statParent, .go => some (t.statParent w d)
  | .newTemp, .suffix random => some (t.newTemp w d random)
  | .send temp url redirects, .go => some (t.send w d temp url redirects)
  | .answer temp url redirects, .response response =>
    some (t.answer w d temp url redirects response)
  | .answer _ _ _, .refused message => some (t.fault w d (.http message))
  | .reopen temp, .go => some (t.go d (.receive temp 0))
  | .receive temp size, .body chunk => some (t.receive w d temp size chunk)
  | .receive temp _, .bodyEnd => some (t.go d (.sync temp))
  | .receive _ _, .refused message => some (t.fault w d (.http message))
  | .sync temp, .go => some (t.go d (.stat (.downloaded temp)))
  | .persist temp, .go => some (t.persist w d temp)
  | _, _ => none

def step (w : World) (d : Disk) (t : Task) (event : Event) : Option Outcome :=
  if t.pc.isOver then none
  else match event with
    | .cancel => some (t.dropTemp w d, t.goto .ended, .silent)
    | .kill => some (d, t.goto (.killed t.pc.temp), .silent)
    | .timeout => if t.pc.downloading then some (t.fault w d .timeout) else none
    | .fail => if t.pc.callsDisk then some (t.fault w d .io) else none
    | event => advance w d t t.pc event

def code (w : World) : Code Disk Task Event Reply where
  begins t := decide (t = ensureLayout t.policy) || decide (t = verifyLayout t.policy)
  step := step w

/-- All calls on one disk. -/
def machine (w : World) (d : Disk) : Machine (Threads Nat Disk Task) (Move Nat Task Event)
    (Option Reply) :=
  (code w).machine d

end Mineru.Models
