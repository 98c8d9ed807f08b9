import Mineru.Error
import Mineru.Logic.Checked
import Mineru.Logic.Ledger
import Mineru.Text

/-!
# The semantic requests of a page

`official_two_step_snapshot_page_core` of `vlm_client.rs` crops and encodes one image for each
candidate block of a page and asks the model about it. Two pipelines do this. Here is what they
share: the candidates with what becomes of them, the blocks, the caps, and the replies that
`complete_official_semantic_page` fills into the blocks.

The encoder and the server are no part of the model: a candidate carries what they make of it. The
document's byte budgets are shared with other pages, so a page only learns what a charge for one of
its candidates answers.
-/

set_option autoImplicit false

namespace Mineru.Semantic

open Logic
open Logic.Checked (fail)

/-- A table token map, as `encode_semantic_candidate_capped_with_tokens` returns it. -/
abbrev Tokens := List (Text × Text)

/-- An encoded candidate: the bytes of its image and its table tokens. -/
structure Encoded where
  data : List UInt8
  tokens : Tokens
  deriving DecidableEq, Repr

/-- What `predict_official_budgeted` answers. -/
inductive Reply where
  | text (reply : Text) (rawBytes : Nat)
  | protocol (operation message : String)
  | fatal (e : VlmError)
  deriving DecidableEq, Repr

/-- A `SemanticCandidate`, with what the encoder and the server make of it. -/
structure Candidate where
  originalIndex : Nat
  encoded : Except VlmError Encoded
  reply : Reply

/-- A layout block: its content, and the table token map in its metadata. -/
structure Block where
  content : Option Text
  tokenMap : Option Tokens
  deriving DecidableEq, Repr

inductive CapKind where
  | perRequest
  | batch
  deriving DecidableEq, Repr

inductive Warning where
  | cap (bytes cap : Nat) (kind : CapKind)
  | requestFailed (e : VlmError)
  | other (message : String)
  deriving DecidableEq, Repr

/-- The text of a warning (`cap_warning`, and the one of the `Protocol` arm). -/
def Warning.display : Warning → String
  | cap bytes limit .perRequest => "encoded semantic request bytes (" ++ toString bytes ++
      ") exceed the per-request cap " ++ toString limit ++ "; continuing with empty content"
  | cap bytes limit .batch => "encoded semantic request bytes (" ++ toString bytes ++
      ") exceed the batch cap " ++ toString limit ++ "; continuing with empty content"
  | requestFailed e =>
      "semantic request failed: " ++ e.display ++ "; continuing with empty content"
  | other message => message

/-- What a page hands to its semantic pipeline. `chargeEncoded` and `chargeResident` are what the
document's budgets answer for the candidate of an order. -/
structure Page where
  blocks : List Block
  candidates : List Candidate
  requestCap : Nat
  batchCap : Nat
  maxRequests : Nat
  parallelism : Nat
  chargeEncoded : Nat → Except VlmError Unit
  chargeResident : Nat → Except VlmError Unit
  encodedBytes : Nat
  rawBytes : Nat
  warnings : List String

/-- A reply with the index of its block. -/
abbrev Replies := List (Option (Nat × Text))

def invalidIndex : VlmError := .protocol "official PDF" "semantic reply index is invalid"

def workerFailed : VlmError := .transport "official PDF" "worker failed"

/-- The error of an overflow of the resident bytes. -/
def residentOverflow (p : Page) : VlmError :=
  .limitExceeded "encoded batch bytes" p.batchCap (word - 1)

/-- A charge, whose error stops the page. -/
def charge (answer : Except VlmError Unit) : Checked VlmError Unit :=
  match answer with
  | .ok _ => .ok ()
  | .error e => fail e

/-- `usize::saturating_add`. -/
def saturatingAdd (a b : Nat) : Nat := min (a + b) (word - 1)

/-- `usize::checked_sub` with its `expect`. -/
def checkedSub (a b : Nat) : Checked VlmError Nat :=
  if b ≤ a then .ok (a - b) else .error .panic

/-- The token map of a candidate is written into its block; `none` when there is no such block. -/
def backfill (blocks : List Block) (index : Nat) (tokens : Tokens) : Option (List Block) :=
  if tokens = [] then some blocks
  else if index < blocks.length then
    some (blocks.modify index fun b => { b with tokenMap := some tokens })
  else none

/-- A request in flight: its candidate, and the bytes that it holds. -/
structure Request where
  order : Nat
  blockIndex : Nat
  reply : Reply
  lease : Nat

/-- What a request leaves behind: the reply text, its raw bytes and its warnings. -/
def Request.outcome (r : Request) : Checked VlmError (Text × Nat × List Warning) :=
  match r.reply with
  | .text reply rawBytes => .ok (reply, rawBytes, [])
  | .protocol operation message =>
    .ok ([], 0, [.requestFailed (.protocol operation message)])
  | .fatal e => fail e

/-- The first half of `complete_official_semantic_page`: the replies are filled into the blocks. -/
def fillReplies : List Block → Replies → Checked VlmError (List Block)
  | blocks, [] => .ok blocks
  | _, none :: _ => fail (.protocol "official PDF" "semantic reply missing")
  | blocks, some (index, reply) :: rest =>
    if index < blocks.length then
      fillReplies (blocks.modify index fun b => { b with content := some reply }) rest
    else .error .panic

end Mineru.Semantic
