import Mineru.Json

/-!
# The frames of the persistent worker

`persistent/protocol.rs`: the owner writes request frames to the worker and reads frames that end at a
newline. What `parse_persistent_frame` makes of the bytes of a frame is a parameter.
-/

set_option autoImplicit false

namespace Mineru.Worker

abbrev Bytes := List UInt8

def requestCap : Nat := 64 * 1024

def persistentProtocol : Text := text "mineru-rs-official-worker/2"

def bundleName : Text := text "hybrid-v4"

structure HandshakeFrame where
  frameType : Text
  protocol : Text
  status : Text
  packageVersion : Text
  schemaVersion : Text
  maxInFlight : Nat
  capabilities : Value
  diagnostic : Option Text

structure ResultFrame where
  frameType : Text
  protocol : Text
  requestId : Text
  sequence : Nat
  status : Text
  packageVersion : Text
  schemaVersion : Text
  bundleName : Text
  error : Option Text
  diagnostic : Option Text
  deriving DecidableEq, Repr

structure ErrorFrame where
  frameType : Text
  protocol : Text
  status : Text
  packageVersion : Text
  schemaVersion : Text
  bundleName : Text
  error : Text
  diagnostic : Option Text
  deriving DecidableEq, Repr

inductive PersistentFrame where
  | handshake (frame : HandshakeFrame)
  | result (frame : ResultFrame)
  | error (frame : ErrorFrame)

/-- What the owner is given: the versions of its session config, whether a value equals the
capabilities of the config, the bytes of the frames that it writes, and the parser. -/
structure Protocol where
  packageVersion : Text
  schemaVersion : Text
  isCapabilities : Value → Bool
  startFrame : Bytes
  requestFrame : Text → Nat → Bytes
  parse : Bytes → Except String PersistentFrame

/-- `strip_suffix(b"\n").unwrap_or(&bytes)`. -/
def stripNewline (bytes : Bytes) : Bytes :=
  if bytes.getLast? = some 10 then bytes.dropLast else bytes

/-- The conditions on a handshake frame. -/
def HandshakeFrame.matches (p : Protocol) (frame : HandshakeFrame) : Bool :=
  decide (frame.frameType = text "handshake") && decide (frame.protocol = persistentProtocol) &&
    decide (frame.status = text "ready") && decide (frame.packageVersion = p.packageVersion) &&
    decide (frame.schemaVersion = p.schemaVersion) && decide (frame.maxInFlight = 1) &&
    p.isCapabilities frame.capabilities

/-- `validate_persistent_error`. -/
def ErrorFrame.matches (p : Protocol) (frame : ErrorFrame) : Bool :=
  decide (frame.frameType = text "error") && decide (frame.protocol = persistentProtocol) &&
    decide (frame.status = text "error") && decide (frame.packageVersion = p.packageVersion) &&
    decide (frame.schemaVersion = p.schemaVersion) &&
    decide (frame.bundleName = Worker.bundleName)

/-- The conditions on a result frame for a request. -/
def ResultFrame.matches (p : Protocol) (requestId : Text) (sequence : Nat) (frame : ResultFrame) :
    Bool :=
  decide (frame.frameType = text "result") && decide (frame.protocol = persistentProtocol) &&
    decide (frame.requestId = requestId) && decide (frame.sequence = sequence) &&
    decide (frame.packageVersion = p.packageVersion) &&
    decide (frame.schemaVersion = p.schemaVersion) &&
    decide (frame.bundleName = Worker.bundleName) &&
    (decide (frame.status = text "ok") || decide (frame.status = text "error"))

/-- The errors that end a session. Diagnostics are not kept. -/
inductive Failure where
  | unavailable (message : String)
  | io (message : String)
  | shuttingDown
  | deadline
  | cancelled
  | tooLarge
  | eof
  | noNewline
  | invalid (message : String)
  | handshakeMismatch
  | startupFailed (error : Text)
  | handshakeExpected
  | exitedBefore
  | emptyId
  | repeatedId
  | errorMismatch
  | protocolError (error : Text)
  | resultExpected
  | resultMismatch
  | noMessage
  | exitedAfter
  deriving DecidableEq, Repr

def Failure.display : Failure → String
  | unavailable message => "official Python persistent worker unavailable: " ++ message
  | io message => message
  | shuttingDown => "official persistent worker is shutting down"
  | deadline => "official persistent worker deadline expired"
  | cancelled => "official persistent worker request cancelled"
  | tooLarge => "official persistent frame exceeds its limit"
  | eof => "official persistent worker stdout EOF"
  | noNewline => "official persistent frame has no newline"
  | invalid message => message
  | handshakeMismatch => "official persistent handshake mismatch"
  | startupFailed _ => "official persistent startup failed"
  | handshakeExpected => "official persistent handshake frame expected"
  | exitedBefore => "official persistent worker exited before request"
  | emptyId => "official persistent request id is empty"
  | repeatedId => "official persistent request id was repeated"
  | errorMismatch => "official persistent error frame mismatch"
  | protocolError _ => "official persistent protocol error"
  | resultExpected => "official persistent result frame expected"
  | resultMismatch => "official persistent result mismatch"
  | noMessage => "official persistent result error has no message"
  | exitedAfter => "official persistent worker exited after request"

/-- The end of `handshake`, given the frame that was read. -/
def judgeHandshake (p : Protocol) (bytes : Bytes) : Except Failure Unit :=
  match p.parse (stripNewline bytes) with
  | .error message => .error (.invalid message)
  | .ok (.handshake frame) => if frame.matches p then .ok () else .error .handshakeMismatch
  | .ok (.error frame) =>
    if frame.matches p then .error (.startupFailed frame.error) else .error .errorMismatch
  | .ok (.result _) => .error .handshakeExpected

/-- The end of `request` up to the last look at the process, given the frame that was read. -/
def judgeResult (p : Protocol) (requestId : Text) (sequence : Nat) (bytes : Bytes) :
    Except Failure ResultFrame :=
  match p.parse (stripNewline bytes) with
  | .error message => .error (.invalid message)
  | .ok (.error frame) =>
    if frame.matches p then .error (.protocolError frame.error) else .error .errorMismatch
  | .ok (.handshake _) => .error .resultExpected
  | .ok (.result frame) =>
    if !frame.matches p requestId sequence then .error .resultMismatch
    else if frame.status = text "error" ∧ frame.error = none then .error .noMessage
    else .ok frame

/-- What one turn of `read_persistent_frame` makes of the bytes that are there. -/
inductive Chunk where
  | whole (frame rest : Bytes)
  | part (frame rest : Bytes)
  | failed (failure : Failure)
  deriving DecidableEq, Repr

/-- One turn of `read_persistent_frame`, when `fill_buf` returns `available`, which are not none, and
`later` bytes follow. -/
def readChunk (frame available later : Bytes) : Chunk :=
  match available.findIdx? (· == 10) with
  | some newline =>
    if frame.length + (newline + 1) > requestCap then .failed .tooLarge
    else .whole (frame ++ available.take (newline + 1)) (available.drop (newline + 1) ++ later)
  | none =>
    if frame.length + available.length > requestCap then .failed .tooLarge
    else .part (frame ++ available) later

end Mineru.Worker
