import Mineru.Error
import Mineru.Logic.Ledger
import Mineru.Text

/-!
# Planning the windows of a document

`plan_window` of `official_route.rs` takes the next pages of a document into a window: as many as the
window size and the byte cap of its slot allow. A page whose byte estimate fails, or is over the cap
of the whole route, is skipped with a warning. A page over the slot cap alone becomes a window of its
own, which may use the whole cap.

A `usize` is a number below `word`.
-/

set_option autoImplicit false

namespace Mineru.Route

open Logic

inductive WindowPlanMode where
  | slot
  | fullCapFallback
  deriving DecidableEq, Repr

structure PlannedWindow where
  indexes : List Nat
  bytes : Nat
  mode : WindowPlanMode
  consumed : Nat
  deriving DecidableEq, Repr

/-- `page_image_bytes` with its limits: the estimate for a page of the document. -/
abbrev PageBytes := Nat → Except VlmError Nat

def splitImageSlotCaps (fullCap : Nat) : Nat × Nat :=
  (fullCap / 2, fullCap - fullCap / 2)

def inFlightImageLimit (fullCap actual : Nat) : VlmError :=
  .limitExceeded "in-flight image bytes" fullCap actual

/-- `retain_window`. -/
def retainWindow (cursor : Nat) (window : PlannedWindow) : Except VlmError Nat :=
  if cursor + window.consumed < word then .ok (cursor + window.consumed)
  else .error (inFlightImageLimit (word - 1) (word - 1))

/-- The local variables of `plan_window`. -/
structure Planning where
  planned : List Nat
  total : Nat
  warnings : List Text
  firstError : Option VlmError
  consumed : Nat

namespace Planning

def start : Planning := ⟨[], 0, [], none, 0⟩

/-- A page is skipped: only the first error is kept. -/
def skip (s : Planning) (warning : Text) (error : VlmError) : Planning :=
  { s with
    warnings := s.warnings ++ [warning]
    firstError := s.firstError.orElse fun _ => some error
    consumed := s.consumed + 1 }

def take (s : Planning) (index bytes : Nat) : Planning :=
  { s with planned := s.planned ++ [index], total := s.total + bytes, consumed := s.consumed + 1 }

/-- Behind the loop: a window without pages is a hard error. -/
def finish (s : Planning) (fullCap : Nat) : Except VlmError (PlannedWindow × List Text) :=
  if s.planned = [] then
    .error (s.firstError.getD (inFlightImageLimit fullCap (word - 1)))
  else .ok (⟨s.planned, s.total, .slot, s.consumed⟩, s.warnings)

end Planning

def pageSkipped (index : Nat) (reason : String) : Text :=
  text ("page " ++ toString index ++ " skipped: " ++ reason)

def overBudget (bytes : Nat) : String :=
  "page exceeds the in-flight image byte budget (" ++ toString bytes ++ " bytes)"

/-- The loop of `plan_window` over the pages from the cursor on. -/
def planLoop (size slotCap fullCap : Nat) (pageBytes : PageBytes) :
    List Nat → Planning → Except VlmError (PlannedWindow × List Text)
  | [], s => s.finish fullCap
  | index :: rest, s =>
    if size ≤ s.planned.length then s.finish fullCap
    else match pageBytes index with
      | .error error =>
        planLoop size slotCap fullCap pageBytes rest
          (s.skip (pageSkipped index error.display) error)
      | .ok bytes =>
        if fullCap < bytes then
          planLoop size slotCap fullCap pageBytes rest
            (s.skip (pageSkipped index (overBudget bytes)) (inFlightImageLimit fullCap bytes))
        else if s.planned = [] ∧ slotCap < bytes then
          .ok (⟨[index], bytes, .fullCapFallback, s.consumed + 1⟩, s.warnings)
        else if word ≤ s.total + bytes then .error (inFlightImageLimit fullCap (word - 1))
        else if slotCap < s.total + bytes then s.finish fullCap
        else planLoop size slotCap fullCap pageBytes rest (s.take index bytes)

def invalidOptions : VlmError := .invalidConfig "invalid official PDF options"

def outsideSelected : VlmError := .invalidInput "window cursor is outside selected pages"

/-- `plan_window`. -/
def planWindow (indexes : List Nat) (cursor size slotCap fullCap : Nat) (pageBytes : PageBytes) :
    Except VlmError (PlannedWindow × List Text) :=
  if size = 0 ∨ slotCap = 0 ∨ fullCap = 0 ∨ fullCap < slotCap then .error invalidOptions
  else if indexes.length ≤ cursor then .error outsideSelected
  else planLoop size slotCap fullCap pageBytes (indexes.drop cursor) .start

/-- The selected pages of a document with their estimates, and the cap of its route. -/
structure Document where
  indexes : List Nat
  pageBytes : PageBytes
  fullCap : Nat
  fits : indexes.length < word
  fullCap_pos : 0 < fullCap

def Document.planWindow (d : Document) (cursor size slotCap : Nat) :
    Except VlmError (PlannedWindow × List Text) :=
  Route.planWindow d.indexes cursor size slotCap d.fullCap d.pageBytes

end Mineru.Route
