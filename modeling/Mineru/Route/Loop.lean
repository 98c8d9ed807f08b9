import Mineru.Logic.Transition
import Mineru.Route.Plan

/-!
# The window loop of a route

The loop of `official_route.rs` renders the pages of a document in windows, has them recognized and
stages them. Its state is cut at the awaits: phase A runs the recognition of the current window
beside the rendering of the next one, and phase B stages the current window beside the recognition of
the next one. The futures of a phase end in any order.

An action is what the loop does between two awaits, or the end of a future with its result. The
state records, beside the variables of the loop, what `plan_window` was called for, what was asked
for the snapshots, and the windows in the order in which they are staged.
-/

set_option autoImplicit false

namespace Mineru.Route

open Logic

structure RenderedPage (Image : Type) where
  index : Nat
  image : Image

/-- `WindowState`; its warnings are the ones of the plan and then the ones of the renderer. -/
structure WindowState (Image : Type) where
  plan : PlannedWindow
  planWarnings : List Text
  rendered : List (RenderedPage Image)
  renderWarnings : List Text

namespace WindowState

variable {Image : Type}

def warnings (w : WindowState Image) : List Text := w.planWarnings ++ w.renderWarnings

def images (w : WindowState Image) : List Image := w.rendered.map (·.image)

end WindowState

inductive PrefetchState (Image : Type) where
  | rendered (window : WindowState Image)
  | pendingFallback (plan : PlannedWindow) (warnings : List Text)

/-- A page in the stage: a rendered one with a snapshot, or the blank page of an index. -/
inductive StagedPage (Image Snapshot : Type) where
  | rendered (page : RenderedPage Image) (snapshot : Snapshot)
  | placeholder (index : Nat)

def StagedPage.index {Image Snapshot : Type} : StagedPage Image Snapshot → Nat
  | rendered page _ => page.index
  | placeholder index => index

/-- What `OfficialOutputStage` holds of the pages. -/
structure Stage (Image Snapshot : Type) where
  previewPages : List Nat
  pages : List (StagedPage Image Snapshot)

namespace Stage

variable {Image Snapshot : Type}

def mustIncrease : VlmError :=
  .protocol "official output validation" "official pages must have increasing source indexes"

/-- `is_some_and(|previous| *previous >= index)` on the last page. -/
def behind (previous : Option Nat) (index : Nat) : Bool :=
  match previous with
  | some previous => index ≤ previous
  | none => false

/-- `write_preview_page` and then `write_prepared_page`. -/
def write (s : Stage Image Snapshot) (page : StagedPage Image Snapshot) :
    Except VlmError (Stage Image Snapshot) :=
  if behind s.previewPages.getLast? page.index then .error mustIncrease
  else if behind (s.pages.getLast?.map (·.index)) page.index then .error mustIncrease
  else .ok ⟨s.previewPages ++ [page.index], s.pages ++ [page]⟩

end Stage

/-- The render of the next window in phase A. -/
inductive NextRender (Image : Type) where
  | running (plan : PlannedWindow) (warnings : List Text)
  | done (window : WindowState Image)

/-- Phase A: without snapshots, the recognition of the current window is running. -/
structure PhaseA (Image Snapshot : Type) where
  current : WindowState Image
  snapshots : Option (List Snapshot)
  next : Option (NextRender Image)
  pendingFallback : Option (PlannedWindow × List Text)

/-- Phase B: what is left to stage of the current window, and the next window with its snapshots. -/
structure PhaseB (Image Snapshot : Type) where
  current : WindowState Image
  indexes : List Nat
  rendered : List (RenderedPage Image)
  snapshots : List Snapshot
  next : Option (WindowState Image × Option (List Snapshot))
  pendingFallback : Option (PlannedWindow × List Text)

inductive Phase (Image Snapshot : Type) where
  | top
  | rendering (plan : PlannedWindow) (warnings : List Text)
  | phaseA (a : PhaseA Image Snapshot)
  | phaseB (b : PhaseB Image Snapshot)
  | finished
  | failed (error : VlmError)
  | panicked (message : String)

structure Loop (Image Snapshot : Type) where
  cursor : Nat
  nextSlot : Fin 2
  prefetch : Option (PrefetchState Image)
  nextSnapshots : Option (List Snapshot)
  stage : Stage Image Snapshot
  completed : Nat
  warned : List Text
  phase : Phase Image Snapshot
  /-- The windows that `plan_window` planned and the cursor was moved over. -/
  plans : List (PlannedWindow × List Text)
  /-- The images of each request for snapshots, with its reply. -/
  replies : List (List Image × List Snapshot)
  /-- The windows that went into phase B, with their snapshots. -/
  windows : List (WindowState Image × List Snapshot)

/-- A document with the window size of its route. -/
structure Selection extends Document where
  processingWindowSize : Nat
  size_pos : 0 < processingWindowSize

namespace Selection

variable (r : Selection)

def slotCap (slot : Fin 2) : Nat :=
  if slot = 0 then (splitImageSlotCaps r.fullCap).1 else (splitImageSlotCaps r.fullCap).2

def overlapEnabled : Bool := r.slotCap 0 ≠ 0 && r.slotCap 1 ≠ 0

def planRouteWindow (cursor : Nat) : Except VlmError (PlannedWindow × List Text) :=
  r.planWindow cursor r.processingWindowSize r.fullCap

def planRouteWindowInSlot (cursor : Nat) (slot : Fin 2) :
    Except VlmError (PlannedWindow × List Text) :=
  r.planWindow cursor r.processingWindowSize (r.slotCap slot)

end Selection

namespace Loop

variable {Image Snapshot : Type}

def start : Loop Image Snapshot :=
  ⟨0, 0, none, none, ⟨[], []⟩, 0, [], .top, [], [], []⟩

def fail (s : Loop Image Snapshot) (error : VlmError) : Loop Image Snapshot :=
  { s with phase := .failed error }

def panic (s : Loop Image Snapshot) (message : String) : Loop Image Snapshot :=
  { s with phase := .panicked message }

/-- A window is planned from the cursor on, and the cursor moves behind it. -/
def retain (s : Loop Image Snapshot) (planned : PlannedWindow × List Text) :
    Except VlmError (Loop Image Snapshot) :=
  (retainWindow s.cursor planned.1).map fun cursor =>
    { s with cursor, plans := s.plans ++ [planned] }

/-- The window after the current one: to render beside it, or a fallback that waits for it. -/
def planNext (r : Selection) (s : Loop Image Snapshot) (current : WindowState Image) :
    Except VlmError (Loop Image Snapshot × Option (PlannedWindow × List Text) ×
      Option (PlannedWindow × List Text)) :=
  if r.overlapEnabled = true ∧ current.plan.mode = .slot ∧ s.cursor < r.indexes.length then
    match r.planRouteWindowInSlot s.cursor (1 - s.nextSlot) with
    | .error error => .error error
    | .ok planned => match s.retain planned with
      | .error error => .error error
      | .ok s =>
        if planned.1.mode = .slot then .ok (s, some planned, none)
        -- the fallback takes both slots, so the loop goes on with the first one
        else .ok ({ s with nextSlot := 0 }, none, some planned)
  else .ok (s, none, none)

/-- The window beside the current one would go over the cap. -/
def exceeds (r : Selection) (current : WindowState Image) :
    Option (PlannedWindow × List Text) → Bool
  | some next =>
    word ≤ current.plan.bytes + next.1.bytes || r.fullCap < current.plan.bytes + next.1.bytes
  | none => false

/-- From a rendered window to phase A. -/
def enter (r : Selection) (s : Loop Image Snapshot) (current : WindowState Image)
    (pendingSnapshots : Option (List Snapshot)) : Loop Image Snapshot :=
  let vlm := if pendingSnapshots.isNone then some current.images else none
  match planNext r s current with
  | .error error => s.fail error
  | .ok (s, next, pendingFallback) =>
    if exceeds r current next then s.fail (inFlightImageLimit r.fullCap (word - 1))
    else if pendingSnapshots.isNone ∧ vlm.isNone then s.panic "vlm pending"
    else { s with
      phase := .phaseA
        ⟨current, pendingSnapshots, next.map fun planned => .running planned.1 planned.2,
          pendingFallback⟩ }

/-- The head of the loop. -/
def turn (r : Selection) (s : Loop Image Snapshot) : Loop Image Snapshot :=
  if s.cursor < r.indexes.length ∨ s.prefetch.isSome then
    match s.prefetch with
    | some (.rendered current) => match s.nextSnapshots with
      | some snapshots =>
        enter r { s with prefetch := none, nextSnapshots := none } current (some snapshots)
      | none => s.panic "a rendered prefetch always carries its phase-B snapshots"
    | some (.pendingFallback plan warnings) =>
      { s with prefetch := none, phase := .rendering plan warnings }
    | none =>
      match if r.overlapEnabled then r.planRouteWindowInSlot s.cursor s.nextSlot
        else r.planRouteWindow s.cursor with
      | .error error => s.fail error
      | .ok planned => match s.retain planned with
        | .error error => s.fail error
        | .ok s => { s with phase := .rendering planned.1 planned.2 }
  else { s with phase := .finished }

def unexpectedCount : VlmError := .pdf "VLM returned an unexpected page count"

def invalidPrefetch : VlmError := .pdf "invalid prefetch state during phase B"

/-- Phase A is over: the current window goes to the stage. -/
def beginB (s : Loop Image Snapshot) (a : PhaseA Image Snapshot) (snapshots : List Snapshot) :
    Loop Image Snapshot :=
  if snapshots.length = a.current.rendered.length then
    let staging (next : Option (WindowState Image)) : Loop Image Snapshot :=
      { s with
        prefetch := none
        warned := s.warned ++ a.current.warnings
        windows := s.windows ++ [(a.current, snapshots)]
        phase := .phaseB
          ⟨a.current, a.current.plan.indexes, a.current.rendered, snapshots,
            next.map fun window => (window, none), a.pendingFallback⟩ }
    match s.prefetch with
    | some (.rendered next) => staging (some next)
    | some (.pendingFallback _ _) => s.fail invalidPrefetch
    | none => staging none
  else s.fail unexpectedCount

/-- Both futures of phase A are done. -/
def join (s : Loop Image Snapshot) (a : PhaseA Image Snapshot) : Option (Loop Image Snapshot) :=
  match a.snapshots, a.next with
  | some snapshots, some (.done next) =>
    some (beginB { s with prefetch := some (.rendered next), nextSlot := 1 - s.nextSlot } a snapshots)
  | some snapshots, none => some (beginB s a snapshots)
  | _, _ => none

/-- A page goes to the stage, and phase B goes on with the rest of the window. -/
def putPage (s : Loop Image Snapshot) (b : PhaseB Image Snapshot) (rest : List Nat)
    (page : StagedPage Image Snapshot) (rendered : List (RenderedPage Image))
    (snapshots : List Snapshot) : Loop Image Snapshot :=
  match s.stage.write page with
  | .error error => s.fail error
  | .ok stage =>
    { s with
      stage
      completed := s.completed + 1
      phase := .phaseB { b with indexes := rest, rendered, snapshots } }

/-- The next page of the window goes to the stage: the rendered one of its index, with its snapshot,
or else a placeholder. -/
def stagePage (s : Loop Image Snapshot) (b : PhaseB Image Snapshot) (index : Nat)
    (rest : List Nat) : Loop Image Snapshot :=
  match b.rendered with
  | page :: rendered =>
    if page.index = index then
      match b.snapshots with
      | snapshot :: snapshots => s.putPage b rest (.rendered page snapshot) rendered snapshots
      | [] => s.panic "snapshots match rendered pages"
    else s.putPage b rest (.placeholder index) b.rendered b.snapshots
  | [] => s.putPage b rest (.placeholder index) b.rendered b.snapshots

/-- Phase B is over. -/
def endB (s : Loop Image Snapshot) (b : PhaseB Image Snapshot) : Option (Loop Image Snapshot) :=
  let fallback := b.pendingFallback.map fun planned =>
    (.pendingFallback planned.1 planned.2 : PrefetchState Image)
  match b.indexes, b.next with
  | [], none => some { s with prefetch := fallback.or s.prefetch, phase := .top }
  | [], some (next, some snapshots) =>
    if snapshots.length = next.rendered.length then
      some { s with
        nextSnapshots := some snapshots
        prefetch := fallback.or (some (.rendered next))
        phase := .top }
    else some (s.fail unexpectedCount)
  | _, _ => none

inductive Action (Image Snapshot : Type) where
  /-- The loop goes on where it is, up to its next await. -/
  | advance
  /-- The running render ends. -/
  | rendered (pages : List (RenderedPage Image)) (warnings : List Text)
  /-- The running recognition ends. -/
  | recognized (snapshots : List Snapshot)
  /-- A deadline check, a future or a write of the stage fails. -/
  | fails (error : VlmError)

/-- The tolerant renderer returns some of the pages that it is asked for, in their order. -/
def tolerant (plan : PlannedWindow) (pages : List (RenderedPage Image)) : Bool :=
  (pages.map (·.index)).isSublist plan.indexes

def step (r : Selection) (s : Loop Image Snapshot) :
    Action Image Snapshot → Option (Loop Image Snapshot)
  | .advance => match s.phase with
    | .top => some (turn r s)
    | .phaseA a => join s a
    | .phaseB b => match b.indexes with
      | index :: rest => some (stagePage s b index rest)
      | [] => endB s b
    | _ => none
  | .rendered pages warnings => match s.phase with
    | .rendering plan planWarnings =>
      if tolerant plan pages then some (enter r s ⟨plan, planWarnings, pages, warnings⟩ none)
      else none
    | .phaseA a => match a.next with
      | some (.running plan planWarnings) =>
        if tolerant plan pages then
          some { s with
            phase := .phaseA { a with next := some (.done ⟨plan, planWarnings, pages, warnings⟩) } }
        else none
      | _ => none
    | _ => none
  | .recognized snapshots => match s.phase with
    | .phaseA a =>
      if a.snapshots.isNone then
        some { s with
          replies := s.replies ++ [(a.current.images, snapshots)]
          phase := .phaseA { a with snapshots := some snapshots } }
      else none
    | .phaseB b => match b.next with
      | some (next, none) =>
        some { s with
          replies := s.replies ++ [(next.images, snapshots)]
          phase := .phaseB { b with next := some (next, some snapshots) } }
      | _ => none
    | _ => none
  | .fails error => match s.phase with
    | .finished | .failed _ | .panicked _ => none
    | _ => some (s.fail error)

/-- The windows whose images are being rendered, or are rendered and not yet staged. -/
def inFlight (s : Loop Image Snapshot) : List PlannedWindow :=
  match s.phase with
  | .top => match s.prefetch with
    | some (.rendered window) => [window.plan]
    | _ => []
  | .rendering plan _ => [plan]
  | .phaseA a => a.current.plan :: match a.next with
    | some (.running plan _) => [plan]
    | some (.done window) => [window.plan]
    | none => []
  | .phaseB b => b.current.plan :: match b.next with
    | some (window, _) => [window.plan]
    | none => []
  | .finished | .failed _ | .panicked _ => []

end Loop

/-- The loop of a route as a machine. -/
def Selection.machine (r : Selection) (Image Snapshot : Type) :
    Machine (Loop Image Snapshot) (Loop.Action Image Snapshot) Unit where
  start := .start
  step s a := (Loop.step r s a).map fun t => (t, ())

end Mineru.Route
