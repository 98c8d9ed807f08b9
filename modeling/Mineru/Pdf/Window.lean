import Mineru.Logic.Transition
import Mineru.Pdf.Dimensions
import Mineru.Text

/-!
# Rendering a window

`render_window_core` of `pdf.rs` renders the pages of a window. It takes as many of them as the byte cap
admits, renders these with some tasks at a time, and goes on with the next ones when all are done. The
machine stops where the function waits for a task: the one that ends, and how, is the action.
-/

set_option autoImplicit false

namespace Mineru.Pdf

open Logic

/-- `RenderedPage`, with its size, scale and image in one. -/
structure RenderedPage (π : Type) where
  index : Nat
  raster : π
  deriving DecidableEq, Repr

/-- The arguments of `render_window_core`, with the `page_dimensions` of the document. -/
structure Job where
  indexes : List Nat
  estimate : Nat → Except Error Nat
  maxInFlightImageBytes : Nat
  workers : Nat
  tolerant : Bool
  failOnEmpty : Bool

/-- How a call ends. -/
inductive Ending (π : Type) where
  | returned (result : Except Error (List (RenderedPage π) × List Text))
  | panicked
  | diverged

/-- The local variables of `render_window_core`, and the pages of the tasks in its `JoinSet`. -/
structure Rendering (π : Type) where
  pending : List (Nat × Nat)
  windowPending : List Nat
  tasks : List Nat
  rendered : List (RenderedPage π)
  warnings : List Text
  firstError : Option Error
  ending : Option (Ending π)

/-- `usize::saturating_add`. -/
def saturatingAdd (a b : Nat) : Nat := min (a + b) (word - 1)

/-- The loop of `admitted_window`: the pages that are admitted, and what is left of the sizes. -/
def admitFrom (cap : Nat) : Nat → List Nat → List (Nat × Nat) →
    Except Error (List Nat × List (Nat × Nat))
  | _, admitted, [] => .ok (admitted, [])
  | used, admitted, (index, bytes) :: sizes =>
    if cap < saturatingAdd used bytes then
      if admitted = [] then .error (.limitExceeded "in-flight image bytes" cap bytes)
      else .ok (admitted, (index, bytes) :: sizes)
    else admitFrom cap (saturatingAdd used bytes) (admitted ++ [index]) sizes

def admittedWindow (sizes : List (Nat × Nat)) (cap : Nat) :
    Except Error (List Nat × List (Nat × Nat)) :=
  admitFrom cap 0 [] sizes

/-- How a warning begins. -/
def renderPage (index : Nat) : Text := text "render page " ++ text (toString index) ++ text " failed: "

def pageFailed (index : Nat) (reason : String) : Text := renderPage index ++ text reason

def overBudget (actual : Nat) : String :=
  "page exceeds the in-flight image byte budget (" ++ toString actual ++ " bytes)"

/-- `BTreeMap::insert` on the pages in the order of their indexes. -/
def insertPage {π : Type} (page : RenderedPage π) : List (RenderedPage π) → List (RenderedPage π)
  | [] => [page]
  | other :: pages =>
    if page.index < other.index then page :: other :: pages
    else if page.index = other.index then page :: pages
    else other :: insertPage page pages

namespace Rendering

variable {π : Type}

/-- A page is left out. Only the first error is kept. -/
def warn (s : Rendering π) (index : Nat) (reason : String) (error : Error) : Rendering π :=
  { s with
    warnings := s.warnings ++ [pageFailed index reason]
    firstError := s.firstError.orElse fun _ => some error }

def fail (s : Rendering π) (error : Error) : Rendering π :=
  { s with ending := some (.returned (.error error)) }

/-- Behind the loops. -/
def finish (job : Job) (s : Rendering π) : Rendering π :=
  if job.tolerant ∧ job.failOnEmpty ∧ 0 < job.indexes.length ∧ s.rendered = [] then
    s.fail (s.firstError.getD (.pdf "renderer returned no page"))
  else { s with ending := some (.returned (.ok (s.rendered, s.warnings))) }

/-- The first tasks of a window; it has enough pages, or the `expect` fails. -/
def spawnFirst : Nat → Rendering π → Rendering π
  | 0, s => s
  | n + 1, s => match s.windowPending with
    | [] => { s with ending := some .panicked }
    | index :: rest =>
      spawnFirst n { s with windowPending := rest, tasks := s.tasks ++ [index] }

/-- A window begins. One without pages has no task to wait for and leaves the sizes as they are. -/
def beginWindow (job : Job) (s : Rendering π) (window : List Nat) : Rendering π :=
  if window = [] then { s with ending := some .diverged }
  else spawnFirst (min (max job.workers 1) window.length) { s with windowPending := window }

/-- The outer loop up to the next window, or to its end. -/
def advance (job : Job) : List (Nat × Nat) → Rendering π → Rendering π
  | [], s => finish job { s with pending := [] }
  | (index, bytes) :: sizes, s =>
    match admittedWindow ((index, bytes) :: sizes) job.maxInFlightImageBytes with
    | .ok (window, rest) => beginWindow job { s with pending := rest } window
    | .error (.limitExceeded resource limit actual) =>
      if job.tolerant then
        advance job sizes (s.warn index (overBudget actual)
          (.limitExceeded "in-flight image bytes" job.maxInFlightImageBytes actual))
      else fail { s with pending := (index, bytes) :: sizes } (.limitExceeded resource limit actual)
    | .error error => fail { s with pending := (index, bytes) :: sizes } error

/-- The loop over the estimates. -/
def measure (job : Job) : List Nat → Rendering π → Rendering π
  | [], s => s
  | index :: indexes, s => match job.estimate index with
    | .ok bytes => measure job indexes { s with pending := s.pending ++ [(index, bytes)] }
    | .error error =>
      if job.tolerant then measure job indexes (s.warn index error.display error)
      else s.fail error

/-- Up to the first task. -/
def begin (job : Job) : Rendering π :=
  let s := measure job job.indexes ⟨[], [], [], [], [], none, none⟩
  if s.ending.isSome then s else advance job s.pending s

/-- How the task of a page ends: `render_page_safe` returns, or the task panics or is aborted. -/
inductive Outcome (π : Type) where
  | page (raster : π)
  | failed (error : Error)
  | lost (message : String)

/-- Behind the match on the outcome: the next page of the window, or the next window. -/
def refill (job : Job) (s : Rendering π) : Rendering π :=
  match s.windowPending with
  | index :: rest => { s with windowPending := rest, tasks := s.tasks ++ [index] }
  | [] => if s.tasks = [] then advance job s.pending s else s

/-- A task has ended. -/
def join (job : Job) (s : Rendering π) (index : Nat) (outcome : Outcome π) : Rendering π :=
  let s := { s with tasks := s.tasks.erase index }
  match outcome with
  | .page raster => refill job { s with rendered := insertPage ⟨index, raster⟩ s.rendered }
  | .failed error =>
    if job.tolerant then refill job (s.warn index error.display error) else s.fail error
  | .lost message => s.fail (.workerJoin message)

end Rendering

open Rendering in
/-- `render_window_core`: the actions are the tasks that end, with their outcomes. -/
def machine (π : Type) (job : Job) : Machine (Rendering π) (Nat × Outcome π) Unit where
  start := begin job
  step s action :=
    if s.ending.isNone ∧ action.1 ∈ s.tasks then some (join job s action.1 action.2, ()) else none

end Mineru.Pdf
