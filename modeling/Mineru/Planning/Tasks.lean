import Mineru.Logic.Ledger
import Mineru.Text

/-!
# Planning the tasks of a run

`plan_tasks` of `mineru_api/planning.rs` groups the input documents into tasks. The pipeline backend
packs them, largest first, into bins of `window` pages, each document into the emptiest bin that has
room (`place` is one turn of the loop); every other backend gets one task for each document.
-/

set_option autoImplicit false

namespace Mineru.Planning

open Logic

inductive Backend where
  | pipeline | vlmEngine | vlmHttpClient | hybridEngine | hybridHttpClient
  deriving DecidableEq, Repr

structure InputDocument where
  path : Text
  suffix : Text
  stem : Text
  effectivePages : Nat
  order : Nat
  /-- `effective_pages` is a `usize`. -/
  fits : effectivePages < word
  deriving DecidableEq

structure PlannedTask where
  index : Nat
  documents : List InputDocument
  totalPages : Nat
  deriving DecidableEq

/-- `usize::checked_add`. -/
def checkedAdd (a b : Nat) : Option Nat := if a + b < word then some (a + b) else none

/-- A new bin. Its index is set once every document has its place. -/
def singleton (doc : InputDocument) : PlannedTask :=
  { index := 0, documents := [doc], totalPages := doc.effectivePages }

/-- The bin has room for the document. -/
def hasRoom (window : Nat) (doc : InputDocument) (bin : PlannedTask) : Bool :=
  (checkedAdd bin.totalPages doc.effectivePages).any fun total => total ≤ window

/-- The bin with room that has the fewest pages, the first of them. -/
def target (window : Nat) (bins : List PlannedTask) (doc : InputDocument) : Option Nat :=
  ((bins.zipIdx.filter fun entry => hasRoom window doc entry.1).argmin
    fun entry => toLex (entry.1.totalPages, entry.2)).map Prod.snd

/-- One turn of the loop of `plan_tasks`. -/
def place (window : Nat) (bins : List PlannedTask) (doc : InputDocument) : List PlannedTask :=
  if doc.effectivePages > window then bins ++ [singleton doc]
  else
    -- `bins[i]` is in range: the index comes from the enumeration of the bins
    let found := do
      let i ← target window bins doc
      let bin ← bins[i]?
      let total ← checkedAdd bin.totalPages doc.effectivePages
      return (i, total)
    match found with
    | some (i, total) => bins.modify i fun bin =>
        { bin with totalPages := total, documents := bin.documents ++ [doc] }
    | none => bins ++ [singleton doc]

/-- The order of the sort key `(Reverse(effective_pages), order)`. -/
def before (a b : InputDocument) : Prop :=
  b.effectivePages < a.effectivePages ∨ a.effectivePages = b.effectivePages ∧ a.order ≤ b.order

instance : DecidableRel before := fun _ _ => inferInstanceAs (Decidable (_ ∨ _))

/-- The documents in the order in which the loop takes them. -/
def packingOrder (documents : List InputDocument) : List InputDocument :=
  documents.insertionSort before

/-- The bins once the documents have been placed. -/
def pack (window : Nat) (documents : List InputDocument) : List PlannedTask :=
  documents.foldl (place window) []

/-- `plan_tasks`. -/
def planTasks (backend : Backend) (documents : List InputDocument) (window : Nat) :
    Except Text (List PlannedTask) :=
  if window = 0 ∨ documents.any fun d => d.effectivePages = 0 then
    .error (text "pages and processing window must be nonzero")
  else if backend ≠ .pipeline then
    .ok (documents.mapIdx fun index d =>
      { index := index + 1, totalPages := d.effectivePages, documents := [d] })
  else
    .ok ((pack window (packingOrder documents)).mapIdx fun index task =>
      { task with index := index + 1 })

end Mineru.Planning
