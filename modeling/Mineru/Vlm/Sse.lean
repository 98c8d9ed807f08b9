import Mineru.Error
import Mineru.Json

/-!
# Reading a stream of events

The read loop of `stream` in `vlm_http.rs`. The bytes of the response come in chunks, `pending` keeps
what is behind the last line end, and `event` the data of the event that is not complete. The texts go
to a channel; `sent` is what was sent, also when the loop fails.

The chunks are those that arrive: an error of the transport is not modelled.
-/

set_option autoImplicit false

namespace Mineru.Vlm

/-- What the loop reads of the configuration, and `serde_json::from_str`. -/
structure SseConfig where
  maxResponseBytes : Nat
  allowTruncatedContent : Bool
  fromStr : Text → Option Value

/-- The local variables of the loop, and what the channel got. -/
structure Reading where
  wire : Nat := 0
  assembled : Nat := 0
  pending : List UInt8 := []
  event : List UInt8 := []
  done : Bool := false
  terminal : Bool := false
  sent : List Text := []

/-- What a function of the loop returns, with the variables behind it. -/
abbrev Step := Except VlmError Unit × Reading

def streamError (message : String) : VlmError := .protocol "stream" message

/-- `b'\n'`. -/
def LF : UInt8 := 10

/-- `b'\r'`. -/
def CR : UInt8 := 13

/-- `std::str::from_utf8`. -/
def fromUtf8 (bytes : List UInt8) : Option Text :=
  (String.fromUTF8? ⟨bytes.toArray⟩).map String.toList

/-- `Value::get`. -/
def getMember (v : Value) (key : String) : Option Value :=
  match v with
  | .object members => Value.find members (text key)
  | _ => none

/-- The first choice of a chunk. -/
def firstChoice (v : Value) : Except VlmError Value :=
  if (getMember v "error").isSome || (getMember v "object").bind Value.asStr == some (text "error") then
    .error (streamError "error object in successful response")
  else match getMember v "choices" with
    | some (.array (.object choice :: _)) => .ok (.object choice)
    | _ => .error (streamError "missing choices")

/-- Whether the choice is the last one. -/
def finished (config : SseConfig) (choice : Value) : Except VlmError Bool :=
  match getMember choice "finish_reason" with
  | none => .ok false
  | some .null => .ok false
  | some (.string reason) =>
    if reason ≠ text "stop" && !(reason = text "length" && config.allowTruncatedContent) then
      .error (streamError "unexpected finish reason")
    else .ok true
  | some _ => .error (streamError "invalid finish reason")

/-- The text of the choice. -/
def deltaContent (choice : Value) : Option Text :=
  ((getMember choice "delta").bind fun delta => getMember delta "content").bind Value.asStr

/-- `tx.send`, within the cap. -/
def sendContent (config : SseConfig) (s : Reading) : Option Text → Step
  | none => (.ok (), { s with event := [] })
  | some content =>
    let assembled := s.assembled + utf8Len content
    if assembled > config.maxResponseBytes then
      (.error (.limitExceeded "completion" config.maxResponseBytes assembled), { s with assembled })
    else (.ok (), { s with assembled, sent := s.sent ++ [content], event := [] })

/-- `sse_event`. -/
def sseEvent (config : SseConfig) (s : Reading) : Step :=
  if s.event = [] then (.ok (), s)
  else match fromUtf8 s.event with
    | none => (.error (streamError "invalid SSE UTF-8"), s)
    | some data =>
      if data = text "[DONE]" then
        if s.terminal then (.ok (), { s with event := [], done := true })
        else (.error (streamError "[DONE] before terminal completion"), s)
      else if s.terminal then (.error (streamError "data after terminal completion"), s)
      else match config.fromStr data with
        | none => (.error (streamError "invalid SSE JSON"), s)
        | some v => match firstChoice v with
          | .error error => (.error error, s)
          | .ok choice => match finished config choice with
            | .error error => (.error error, s)
            | .ok terminal => sendContent config { s with terminal } (deltaContent choice)

/-- `strip_prefix`. -/
def strip (start bytes : List UInt8) : Option (List UInt8) :=
  if start.isPrefixOf bytes then some (bytes.drop start.length) else none

/-- `b"data:"`. -/
def DATA : List UInt8 := [100, 97, 116, 97, 58]

/-- The event with the data of a line. -/
def addLine (event line : List UInt8) : List UInt8 :=
  match strip DATA line with
  | some data => (if event = [] then [] else event ++ [LF]) ++ (strip [32] data).getD data
  | none => event

/-- `sse_line`. -/
def sseLine (config : SseConfig) (s : Reading) (line : List UInt8) : Step :=
  if line = [] then sseEvent config s else (.ok (), { s with event := addLine s.event line })

/-- A line without its line feed and carriage return. -/
def popEnd (line : List UInt8) : List UInt8 :=
  let line := if line.getLast? = some LF then line.dropLast else line
  if line.getLast? = some CR then line.dropLast else line

/-- The lines of `pending`: the loop ends with an error, or with the stream done, or without a line. -/
def readLines (config : SseConfig) (s : Reading) : Step :=
  if _h : LF ∈ s.pending then
    let n := s.pending.idxOf LF
    let step := sseLine config { s with pending := s.pending.drop (n + 1) }
      (popEnd (s.pending.take (n + 1)))
    match step with
    | (.error error, s) => (.error error, s)
    | (.ok (), s') =>
      if s'.done then (.ok (), s')
      else readLines config { s' with pending := s.pending.drop (n + 1) }
  else (.ok (), s)
termination_by s.pending.length
decreasing_by
  have here := List.idxOf_lt_length_of_mem _h
  simp only [List.length_drop]
  omega

/-- Behind the last chunk. -/
def readRest (config : SseConfig) (s : Reading) : Step :=
  let step := if s.pending = [] then (.ok (), s) else sseLine config s s.pending
  match step with
  | (.error error, s) => (.error error, s)
  | (.ok (), s) => match if s.event = [] then (.ok (), s) else sseEvent config s with
    | (.error error, s) => (.error error, s)
    | (.ok (), s) =>
      if s.done then (.ok (), s) else (.error (streamError "SSE stream ended without [DONE]"), s)

/-- The loop over the chunks. -/
def readChunks (config : SseConfig) : List (List UInt8) → Reading → Step
  | [], s => readRest config s
  | chunk :: chunks, s =>
    let wire := s.wire + chunk.length
    if wire > config.maxResponseBytes then
      (.error (.limitExceeded "response" config.maxResponseBytes wire), { s with wire })
    else match readLines config { s with wire, pending := s.pending ++ chunk } with
      | (.error error, s) => (.error error, s)
      | (.ok (), s) => if s.done then (.ok (), s) else readChunks config chunks s

/-- The result of a response, and the texts that were sent. -/
def readStream (config : SseConfig) (chunks : List (List UInt8)) : Except VlmError Unit × List Text :=
  let (result, s) := readChunks config chunks {}
  (result, s.sent)

end Mineru.Vlm
