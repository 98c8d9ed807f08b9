import Mineru.Logic.Transition
import Mineru.Semantic.Page

/-!
# The classic pipeline

The loop of `official_two_step_snapshot_page_core`: one encoder at a time, which owns the blocks
while it runs, and up to `max_requests_per_batch` requests in flight. Each turn of the loop may start
an encoder and then waits for the encoder or a request, whichever ends; the model leaves open which.
`resident_bytes` counts the reservation of the encoder and the leases of the requests.
-/

set_option autoImplicit false

namespace Mineru.Semantic

open Logic
open Logic.Checked (fail)

/-- The running encoder. -/
structure Encoder where
  order : Nat
  candidate : Candidate
  blocks : List Block

/-- Where the loop is. -/
inductive Pc where
  | head
  | select
  | exited
  | stopped (halt : Halt VlmError)
  deriving DecidableEq, Repr

structure Classic where
  pc : Pc
  blocks : Option (List Block)
  replies : Replies
  encoder : Option Encoder
  requests : List Request
  nextCandidate : Nat
  residentBytes : Nat
  encoderReservation : Nat
  encodedBytes : Nat
  rawBytes : Nat
  warnings : List Warning

namespace Classic

def start (p : Page) : Classic where
  pc := .head
  blocks := some p.blocks
  replies := List.replicate p.candidates.length none
  encoder := none
  requests := []
  nextCandidate := 0
  residentBytes := 0
  encoderReservation := 0
  encodedBytes := p.encodedBytes
  rawBytes := p.rawBytes
  warnings := p.warnings.map .other

/-- The condition of the loop. -/
def continues (p : Page) (s : Classic) : Bool :=
  decide (s.nextCandidate < p.candidates.length) || s.encoder.isSome || !s.requests.isEmpty

/-- The condition under which a turn starts an encoder. -/
def admits (p : Page) (s : Classic) : Bool :=
  s.encoder.isNone && decide (s.nextCandidate < p.candidates.length) &&
    decide (s.requests.length < p.maxRequests) &&
    decide (s.residentBytes ≤ p.batchCap - p.requestCap)

/-- An encoder starts on the next candidate and takes the blocks. -/
def startEncoder (p : Page) (s : Classic) : Checked VlmError Classic :=
  match p.candidates[s.nextCandidate]? with
  | none => .error .panic
  | some candidate =>
    if s.residentBytes + p.requestCap ≥ word then .error .panic
    else match s.blocks with
      | none => .error .panic
      | some blocks => .ok { s with
          pc := .select
          blocks := none
          encoder := some { order := s.nextCandidate, candidate, blocks }
          nextCandidate := s.nextCandidate + 1
          residentBytes := s.residentBytes + p.requestCap
          encoderReservation := p.requestCap }

/-- The top of the loop, up to where it waits. -/
def turn (p : Page) (s : Classic) : Checked VlmError Classic :=
  if s.continues p then
    if s.admits p then s.startEncoder p else .ok { s with pc := .select }
  else match s.blocks with
    | none => .error .panic
    | some _ => .ok { s with pc := .exited }

/-- A candidate whose image is over a cap is answered with empty content. -/
def degrade (s : Classic) (order index bytes cap : Nat) (kind : CapKind) : Classic :=
  { s with
    pc := .head
    encoder := none
    replies := s.replies.set order (some (index, []))
    warnings := s.warnings ++ [.cap bytes cap kind] }

/-- The encoder ended; `s` no longer has its reservation. -/
def retain (p : Page) (s : Classic) (order : Nat) (candidate : Candidate) (bytes : Nat) :
    Checked VlmError Classic :=
  let index := candidate.originalIndex
  if order ≥ s.replies.length ∨ index ≥ p.blocks.length then fail invalidIndex
  else if bytes > p.requestCap then .ok (s.degrade order index bytes p.requestCap .perRequest)
  else if s.residentBytes + bytes ≥ word then fail (residentOverflow p)
  else if s.residentBytes + bytes > p.batchCap then
    .ok (s.degrade order index bytes p.batchCap .batch)
  else do
    charge (p.chargeEncoded order)
    return { s with
      pc := .head
      encoder := none
      residentBytes := s.residentBytes + bytes
      encodedBytes := saturatingAdd s.encodedBytes bytes
      requests := s.requests ++ [⟨order, index, candidate.reply, bytes⟩] }

/-- The arm of the encoder. -/
def encoded (p : Page) (s : Classic) (e : Encoder) : Checked VlmError Classic :=
  match e.candidate.encoded with
  | .error error => fail error
  | .ok image =>
    match backfill e.blocks e.candidate.originalIndex image.tokens with
    | none => fail workerFailed
    | some blocks => do
      let residentBytes ←
        checkedSub s.residentBytes s.encoderReservation
      retain p { s with blocks := some blocks, residentBytes, encoderReservation := 0 } e.order
        e.candidate image.data.length

/-- The arm of the requests. -/
def completed (p : Page) (s : Classic) (r : Request) (rest : List Request) :
    Checked VlmError Classic := do
  let (reply, rawBytes, warnings) ← r.outcome
  let residentBytes ← checkedSub s.residentBytes r.lease
  if r.order ≥ s.replies.length ∨ r.blockIndex ≥ p.blocks.length then fail invalidIndex
  return { s with
    pc := .head
    requests := rest
    residentBytes
    rawBytes := saturatingAdd s.rawBytes rawBytes
    replies := s.replies.set r.order (some (r.blockIndex, reply))
    warnings := s.warnings ++ warnings }

/-- The locals of a pipeline that stops are dropped. -/
def settle (s : Classic) : Checked VlmError Classic → Classic
  | .ok s' => s'
  | .error halt => { s with pc := .stopped halt }

end Classic

/-- The loop goes on from its head, or what it waits for happens. -/
inductive Event where
  | turn
  | encoded
  | completed (i : Nat)
  deriving DecidableEq, Repr

def Classic.step (p : Page) (s : Classic) : Event → Option Classic
  | .turn => if s.pc = .head then some (s.settle (s.turn p)) else none
  | .encoded =>
    if s.pc = .select then s.encoder.map fun e => s.settle (s.encoded p e) else none
  | .completed i =>
    if s.pc = .select then
      s.requests[i]?.map fun r => s.settle (s.completed p r (s.requests.eraseIdx i))
    else none

/-- The classic pipeline of a page. -/
def classic (p : Page) : Machine Classic Event Unit where
  start := .start p
  step s a := (s.step p a).map fun s => (s, ())

end Mineru.Semantic
