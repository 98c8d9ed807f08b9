import Mineru.Semantic.Classic

/-!
# The two-phase pipeline

`official_two_step_semantic_two_phase`: the candidates are encoded in chunks, whose encoders run side
by side and end in any order; the results of a chunk are retained or degraded in source order before
the next chunk starts. After the last chunk every retained candidate is asked for, and the replies
come in any order. (`max_requests_per_batch` only holds requests back, so that fewer orders happen.)
-/

set_option autoImplicit false

namespace Mineru.Semantic

open Logic
open Logic.Checked (fail)

/-- Where the two phases are. -/
inductive Phase where
  | chunkHead
  | encoding (outstanding : List Nat)
  | requesting
  | exited
  | stopped (halt : Halt VlmError)
  deriving DecidableEq, Repr

structure TwoPhase where
  phase : Phase
  blocks : List Block
  replies : Replies
  chunkStart : Nat
  chunkResults : List (Option Encoded)
  retained : List Request
  residentBytes : Nat
  encodedBytes : Nat
  rawBytes : Nat
  warnings : List Warning

namespace TwoPhase

def start (p : Page) : TwoPhase where
  phase := .chunkHead
  blocks := p.blocks
  replies := List.replicate p.candidates.length none
  chunkStart := 0
  chunkResults := []
  retained := []
  residentBytes := 0
  encodedBytes := p.encodedBytes
  rawBytes := p.rawBytes
  warnings := p.warnings.map .other

def chunkEnd (p : Page) (s : TwoPhase) : Nat :=
  min (s.chunkStart + max p.parallelism 1) p.candidates.length

/-- The head of the loop over the chunks; after the last chunk the requests are sent. -/
def turn (p : Page) (s : TwoPhase) : TwoPhase :=
  if s.chunkStart < p.candidates.length then
    let size := s.chunkEnd p - s.chunkStart
    { s with
      phase := .encoding (List.range' s.chunkStart size)
      chunkResults := List.replicate size none }
  else { s with phase := .requesting }

/-- A candidate whose image is over a cap is answered with empty content. -/
def degrade (s : TwoPhase) (order index bytes cap : Nat) (kind : CapKind) : TwoPhase :=
  { s with
    replies := s.replies.set order (some (index, []))
    warnings := s.warnings ++ [.cap bytes cap kind] }

/-- The token map of a candidate is written, whose block there is. -/
def backfilled (s : TwoPhase) (index : Nat) (tokens : Tokens) : TwoPhase :=
  if tokens = [] then s
  else { s with blocks := s.blocks.modify index fun b => { b with tokenMap := some tokens } }

/-- The result of one candidate is retained or degraded. -/
def retain (p : Page) (s : TwoPhase) (order : Nat) (candidate : Candidate) (image : Encoded) :
    Checked VlmError TwoPhase :=
  let index := candidate.originalIndex
  let bytes := image.data.length
  if order ≥ s.replies.length ∨ index ≥ p.blocks.length then fail invalidIndex
  else
    let s := s.backfilled index image.tokens
    if bytes > p.requestCap then .ok (s.degrade order index bytes p.requestCap .perRequest)
    else if s.residentBytes + bytes ≥ word then fail (residentOverflow p)
    else if s.residentBytes + bytes > p.batchCap then
      .ok (s.degrade order index bytes p.batchCap .batch)
    else do
      charge (p.chargeEncoded order)
      charge (p.chargeResident order)
      return { s with
        residentBytes := s.residentBytes + bytes
        encodedBytes := saturatingAdd s.encodedBytes bytes
        retained := s.retained ++ [⟨order, index, candidate.reply, bytes⟩] }

/-- The results of a chunk, from the one of `order` on. -/
def retainAll (p : Page) (s : TwoPhase) (order : Nat) :
    List (Option Encoded) → Checked VlmError TwoPhase
  | [] => .ok { s with chunkStart := order, phase := .chunkHead }
  | result :: rest =>
    match result, p.candidates[order]? with
    | some image, some candidate => do
      let s ← s.retain p order candidate image
      s.retainAll p (order + 1) rest
    | _, _ => .error .panic

/-- The encoder of a candidate ends; after the last one of the chunk its results are retained. -/
def encoded (p : Page) (s : TwoPhase) (order : Nat) (outstanding : List Nat) :
    Checked VlmError TwoPhase :=
  match p.candidates[order]? with
  | none => .error .panic
  | some candidate => match candidate.encoded with
    | .error error => fail error
    | .ok image =>
      let chunkResults := s.chunkResults.set (order - s.chunkStart) (some image)
      if outstanding = [] then s.retainAll p s.chunkStart chunkResults
      else .ok { s with phase := .encoding outstanding, chunkResults }

/-- A request ends. -/
def completed (p : Page) (s : TwoPhase) (r : Request) (rest : List Request) :
    Checked VlmError TwoPhase := do
  let (reply, rawBytes, warnings) ← r.outcome
  let residentBytes ← checkedSub s.residentBytes r.lease
  if r.order ≥ s.replies.length ∨ r.blockIndex ≥ p.blocks.length then fail invalidIndex
  return { s with
    retained := rest
    residentBytes
    rawBytes := saturatingAdd s.rawBytes rawBytes
    replies := s.replies.set r.order (some (r.blockIndex, reply))
    warnings := s.warnings ++ warnings }

def settle (s : TwoPhase) : Checked VlmError TwoPhase → TwoPhase
  | .ok s' => s'
  | .error halt => { s with phase := .stopped halt }

end TwoPhase

/-- What the pipeline waits for. -/
inductive PhaseEvent where
  | turn
  | encoded (i : Nat)
  | completed (i : Nat)
  deriving DecidableEq, Repr

def TwoPhase.step (p : Page) (s : TwoPhase) : PhaseEvent → Option TwoPhase
  | .turn => match s.phase with
    | .chunkHead => some (s.turn p)
    | .requesting => if s.retained = [] then some { s with phase := .exited } else none
    | _ => none
  | .encoded i => match s.phase with
    | .encoding outstanding => outstanding[i]?.map fun order =>
      s.settle (s.encoded p order (outstanding.eraseIdx i))
    | _ => none
  | .completed i => match s.phase with
    | .requesting => s.retained[i]?.map fun r =>
      s.settle (s.completed p r (s.retained.eraseIdx i))
    | _ => none

/-- The two-phase pipeline of a page. -/
def twoPhase (p : Page) : Machine TwoPhase PhaseEvent Unit where
  start := .start p
  step s a := (s.step p a).map fun s => (s, ())

end Mineru.Semantic
