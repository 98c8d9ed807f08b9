import Mineru.Laws.Route.Plan
import Mineru.Route.Loop

/-!
# Laws of the window loop

The invariant of the loop keeps three accounts. The windows that were planned cut the pages up to
the cursor into consecutive parts. They are the windows that went to the stage, followed by the ones
that the phase holds. And the pages in the stage, followed by the ones that phase B has left, are
the ones of the windows that went there. Beside them it knows in which slot each window fits.

There is one lemma for each place where the loop can be: at its top (`turn_inv`), when a phase is
joined (`join_inv`), at a page that is staged (`stagePage_inv`), at the end of phase B (`endB_inv`)
and where it fails (`Inv.fail`). They are put together in `step_inv`, and a run is an induction over
the steps.

The futures of a phase may end in any order, with any outcome. The estimates are those of the
planner; how they compare with the pixels that are really rendered is not part of the loop.
-/

set_option autoImplicit false

namespace Mineru.Route

open Logic

/-! ## The planned windows -/

/-- The calls that planned the windows up to a cursor, each from where the one before it ended. -/
inductive Planned (d : Document) : List (PlannedWindow × List Text) → Nat → Prop where
  | nil : Planned d [] 0
  | snoc {plans : List (PlannedWindow × List Text)} {cursor slotCap : Nat}
      {planned : PlannedWindow × List Text} (before : Planned d plans cursor)
      (window : d.Window slotCap cursor planned.1 planned.2) :
      Planned d (plans ++ [planned]) (cursor + planned.1.consumed)

namespace Planned

variable {d : Document} {plans : List (PlannedWindow × List Text)} {cursor : Nat}

theorem cursor_le (h : Planned d plans cursor) : cursor ≤ d.indexes.length := by
  cases h with
  | nil => exact Nat.zero_le _
  | snoc before window => exact window.within

/-- What a call plans of the pages that it takes: the ones that can be planned, with the sum of their
estimates as its bytes, and a warning for each of the others. -/
structure Takes (d : Document) (pages : List Nat) (planned : PlannedWindow × List Text) : Prop where
  some : pages ≠ []
  consumed : planned.1.consumed = pages.length
  indexes : planned.1.indexes = pages.filter d.plannable
  warned : planned.2 = d.skipWarnings pages
  bytes : planned.1.bytes = totalBytes d.pageBytes planned.1.indexes

/-- The pages up to the cursor are cut into parts, one for each call. -/
theorem parts (h : Planned d plans cursor) :
    ∃ parts, parts.flatten = d.indexes.take cursor ∧ List.Forall₂ (Takes d) parts plans := by
  induction h with
  | nil => exact ⟨[], by simp, .nil⟩
  | @snoc plans cursor slotCap planned before window ih =>
    obtain ⟨parts, whole, takes⟩ := ih
    have within := window.within
    refine ⟨parts ++ [(d.indexes.drop cursor).take planned.1.consumed], ?_, ?_⟩
    · rw [List.flatten_append, whole, List.take_add]
      simp
    · apply List.rel_append takes
      refine .cons ⟨?_, ?_, window.indexes, window.warned, window.bytes⟩ .nil
      · have pos := window.pos
        intro none
        have := congrArg List.length none
        simp at this
        omega
      · simp
        omega

/-- The windows hold the pages up to the cursor that can be planned, in their order. -/
theorem pages (h : Planned d plans cursor) :
    plans.flatMap (fun planned => planned.1.indexes) = (d.indexes.take cursor).filter d.plannable := by
  induction h with
  | nil => simp
  | snoc before window ih =>
    rw [List.flatMap_append, ih, List.take_add, List.filter_append, ← window.indexes]
    simp

/-- The pages that cannot be planned have a warning each, in their order. -/
theorem warnings (h : Planned d plans cursor) :
    plans.flatMap (fun planned => planned.2) = d.skipWarnings (d.indexes.take cursor) := by
  induction h with
  | nil => simp [Document.skipWarnings, skipWarnings]
  | snoc before window ih =>
    rw [List.flatMap_append, ih, List.take_add]
    simp only [List.flatMap_cons, List.flatMap_nil, List.append_nil, window.warned]
    exact (skipWarnings_append _ _).symm

end Planned

/-! ## Rendered pages and their snapshots -/

section Merge

variable {Image Snapshot : Type}

/-- What phase B stages of a window: at each index of the plan the rendered page with the snapshot of
its position, or a placeholder. -/
def merge : List Nat → List (RenderedPage Image) → List Snapshot → List (StagedPage Image Snapshot)
  | [], _, _ => []
  | index :: rest, page :: rendered, snapshot :: snapshots =>
    if page.index = index then .rendered page snapshot :: merge rest rendered snapshots
    else .placeholder index :: merge rest (page :: rendered) (snapshot :: snapshots)
  | index :: rest, rendered, snapshots => .placeholder index :: merge rest rendered snapshots

def StagedPage.asRendered : StagedPage Image Snapshot → Option (RenderedPage Image × Snapshot)
  | rendered page snapshot => some (page, snapshot)
  | placeholder _ => none

theorem merge_index (indexes : List Nat) (rendered : List (RenderedPage Image))
    (snapshots : List Snapshot) : (merge indexes rendered snapshots).map (·.index) = indexes := by
  fun_induction merge indexes rendered snapshots with
  | case1 => rfl
  | case2 rest page rendered snapshot snapshots ih =>
    rw [List.map_cons, ih]
    rfl
  | case3 index rest page rendered snapshot snapshots other ih =>
    rw [List.map_cons, ih]
    rfl
  | case4 index rest rendered snapshots other ih =>
    rw [List.map_cons, ih]
    rfl

/-- Every rendered page of the window is staged, each with the snapshot of its position. -/
theorem merge_rendered (indexes : List Nat) (rendered : List (RenderedPage Image))
    (snapshots : List Snapshot) (length : snapshots.length = rendered.length)
    (some : (rendered.map (·.index)).Sublist indexes) :
    (merge indexes rendered snapshots).filterMap (·.asRendered) = rendered.zip snapshots := by
  fun_induction merge indexes rendered snapshots with
  | case1 rendered snapshots =>
    have none := List.map_eq_nil_iff.mp (List.sublist_nil.mp some)
    simp [none]
  | case2 rest page rendered snapshot snapshots ih =>
    show (page, snapshot) :: (merge rest rendered snapshots).filterMap (·.asRendered) = _
    rw [ih (by simpa using length) (by simpa using some)]
    rfl
  | case3 index rest page rendered snapshot snapshots other ih =>
    rw [List.filterMap_cons_none rfl, ih length]
    cases some with
    | cons _ sub => exact sub
    | cons_cons => exact absurd rfl other
  | case4 index rest rendered snapshots other ih =>
    rw [List.filterMap_cons_none rfl]
    cases rendered with
    | nil =>
      rw [ih length (by simp)]
    | cons page rendered =>
      cases snapshots with
      | nil => simp at length
      | cons snapshot snapshots => exact absurd rfl (other page rendered snapshot snapshots rfl)

end Merge

/-! ## The slots -/

namespace Selection

variable {r : Selection}

theorem one_sub_one_sub (slot : Fin 2) : 1 - (1 - slot) = slot := by
  revert slot
  decide

theorem slotCap_add (slot : Fin 2) : r.slotCap slot + r.slotCap (1 - slot) = r.fullCap := by
  have parts : r.slotCap 0 + r.slotCap 1 = r.fullCap := by
    show r.fullCap / 2 + (r.fullCap - r.fullCap / 2) = r.fullCap
    omega
  match slot with
  | 0 => exact parts
  | 1 => exact (Nat.add_comm _ _).trans parts

/-- The window is within the cap of the route, and within the cap of the slot when it is for one. -/
structure Fits (r : Selection) (slot : Fin 2) (w : PlannedWindow) : Prop where
  full : w.bytes ≤ r.fullCap
  slot : r.overlapEnabled = true → w.mode = .slot → w.bytes ≤ r.slotCap slot

/-- Two windows in different slots are within the cap together. -/
theorem Fits.add {slot : Fin 2} {w w' : PlannedWindow} (h : r.Fits slot w)
    (h' : r.Fits (1 - slot) w') (on : r.overlapEnabled = true) (mode : w.mode = .slot)
    (mode' : w'.mode = .slot) : w.bytes + w'.bytes ≤ r.fullCap := by
  have := h.slot on mode
  have := h'.slot on mode'
  have := slotCap_add (r := r) slot
  omega

end Selection

/-! ## The invariant -/

namespace Loop

variable {Image Snapshot : Type} {r : Selection} {s t : Loop Image Snapshot}

/-- The plan of a window, with the warnings that it came with. -/
def key (w : WindowState Image) : PlannedWindow × List Text := (w.plan, w.planWarnings)

/-- The snapshots are the reply to the request with the images of the window, one for each. -/
structure Recognized (s : Loop Image Snapshot) (w : WindowState Image) (snapshots : List Snapshot) :
    Prop where
  asked : (w.images, snapshots) ∈ s.replies
  length : snapshots.length = w.rendered.length

/-- The accounts of the loop: `pending` are the windows that the phase holds, `left` the pages that
phase B has left. -/
structure Accounts (r : Selection) (s : Loop Image Snapshot)
    (pending : List (PlannedWindow × List Text)) (left : List (StagedPage Image Snapshot)) :
    Prop where
  planned : Planned r.toDocument s.plans s.cursor
  windows : s.windows.map (fun entry => key entry.1) ++ pending = s.plans
  pages : s.stage.pages ++ left =
    s.windows.flatMap fun entry => merge entry.1.plan.indexes entry.1.rendered entry.2
  warned : s.warned = s.windows.flatMap fun entry => entry.1.warnings
  recognized : ∀ entry ∈ s.windows,
    tolerant entry.1.plan entry.1.rendered = true ∧ s.Recognized entry.1 entry.2
  increasing : (s.stage.pages.map (·.index)).IsChain (· < ·)
  previews : s.stage.previewPages = s.stage.pages.map (·.index)
  completed : s.completed = s.stage.pages.length

def nextKey : NextRender Image → PlannedWindow × List Text
  | .running plan warnings => (plan, warnings)
  | .done window => key window

/-- What phase A knows of the windows it holds. -/
structure PhaseAOk (r : Selection) (s : Loop Image Snapshot) (a : PhaseA Image Snapshot) :
    Prop where
  prefetch : s.prefetch = none
  nextSnapshots : s.nextSnapshots = none
  accounts : s.Accounts r
    (key a.current :: ((a.next.map nextKey).toList ++ a.pendingFallback.toList)) []
  current : tolerant a.current.plan a.current.rendered = true
  snapshots : ∀ snapshots ∈ a.snapshots, (a.current.images, snapshots) ∈ s.replies
  full : a.current.plan.bytes ≤ r.fullCap
  next : ∀ next ∈ a.next, r.overlapEnabled = true ∧ a.pendingFallback = none ∧
    a.current.plan.mode = .slot ∧ (nextKey next).1.mode = .slot ∧
    r.Fits s.nextSlot a.current.plan ∧ r.Fits (1 - s.nextSlot) (nextKey next).1
  done : ∀ window, a.next = some (.done window) → tolerant window.plan window.rendered = true
  fallback : ∀ planned ∈ a.pendingFallback,
    planned.1.mode = .fullCapFallback ∧ planned.1.bytes ≤ r.fullCap

/-- What phase B knows of the windows it holds. -/
structure PhaseBOk (r : Selection) (s : Loop Image Snapshot) (b : PhaseB Image Snapshot) :
    Prop where
  prefetch : s.prefetch = none
  nextSnapshots : s.nextSnapshots = none
  accounts : s.Accounts r
    ((b.next.map fun next => key next.1).toList ++ b.pendingFallback.toList)
    (merge b.indexes b.rendered b.snapshots)
  length : b.snapshots.length = b.rendered.length
  full : b.current.plan.bytes ≤ r.fullCap
  next : ∀ next ∈ b.next, r.overlapEnabled = true ∧ b.pendingFallback = none ∧
    b.current.plan.mode = .slot ∧ next.1.plan.mode = .slot ∧
    r.Fits (1 - s.nextSlot) b.current.plan ∧ r.Fits s.nextSlot next.1.plan ∧
    tolerant next.1.plan next.1.rendered = true ∧
    ∀ snapshots ∈ next.2, (next.1.images, snapshots) ∈ s.replies
  fallback : ∀ planned ∈ b.pendingFallback,
    planned.1.mode = .fullCapFallback ∧ planned.1.bytes ≤ r.fullCap

/-- A window that is held over the head of the loop. -/
def PrefetchOk (r : Selection) (s : Loop Image Snapshot) : Prop :=
  match s.prefetch with
  | none => s.nextSnapshots = none ∧ s.Accounts r [] []
  | some (.rendered window) =>
    (∃ snapshots, s.nextSnapshots = some snapshots ∧ s.Recognized window snapshots) ∧
      tolerant window.plan window.rendered = true ∧ r.Fits s.nextSlot window.plan ∧
      s.Accounts r [key window] []
  | some (.pendingFallback plan warnings) =>
    s.nextSnapshots = none ∧ plan.mode = .fullCapFallback ∧ plan.bytes ≤ r.fullCap ∧
      s.Accounts r [(plan, warnings)] []

def Inv (r : Selection) (s : Loop Image Snapshot) : Prop :=
  match s.phase with
  | .top => s.PrefetchOk r
  | .rendering plan warnings =>
    s.prefetch = none ∧ s.nextSnapshots = none ∧ r.Fits s.nextSlot plan ∧
      s.Accounts r [(plan, warnings)] []
  | .phaseA a => s.PhaseAOk r a
  | .phaseB b => s.PhaseBOk r b
  | .finished => s.cursor = r.indexes.length ∧ s.Accounts r [] []
  | .failed _ => Planned r.toDocument s.plans s.cursor
  | .panicked _ => False

theorem Inv.fail {pending : List (PlannedWindow × List Text)}
    {left : List (StagedPage Image Snapshot)} (h : s.Accounts r pending left) (error : VlmError) :
    (s.fail error).Inv r :=
  h.planned

/-- The accounts are not about the slots, the phase and what is held over the head of the loop. -/
theorem Accounts.keep {pending : List (PlannedWindow × List Text)}
    {left : List (StagedPage Image Snapshot)} (h : s.Accounts r pending left)
    (nextSlot : Fin 2) (prefetch : Option (PrefetchState Image))
    (nextSnapshots : Option (List Snapshot)) (phase : Phase Image Snapshot) :
    Accounts r { s with nextSlot, prefetch, nextSnapshots, phase } pending left :=
  ⟨h.planned, h.windows, h.pages, h.warned, fun entry mem => ⟨(h.recognized entry mem).1,
    (h.recognized entry mem).2.asked, (h.recognized entry mem).2.length⟩, h.increasing, h.previews,
    h.completed⟩

/-! ### Planning the next window -/

/-- A planned window and the cursor behind it. -/
def moved (s : Loop Image Snapshot) (planned : PlannedWindow × List Text) : Loop Image Snapshot :=
  { s with cursor := s.cursor + planned.1.consumed, plans := s.plans ++ [planned] }

section Planning

variable {planned : PlannedWindow × List Text} {size cap : Nat}

/-- A window that is planned with the slot's cap fits in the slot, so it is retained. -/
theorem retain_eq (h : r.planWindow s.cursor size cap = .ok planned) :
    s.retain planned = .ok (s.moved planned) := by
  have window := Document.planWindow_ok (w := planned.1) h
  unfold retain
  rw [window.retain]
  rfl

theorem Accounts.moved {pending : List (PlannedWindow × List Text)}
    {left : List (StagedPage Image Snapshot)} (h : s.Accounts r pending left)
    (call : r.planWindow s.cursor size cap = .ok planned) :
    (s.moved planned).Accounts r (pending ++ [planned]) left where
  planned := h.planned.snoc (Document.planWindow_ok call)
  windows := by
    show _ = s.plans ++ [_]
    rw [← h.windows, List.append_assoc]
    rfl
  pages := h.pages
  warned := h.warned
  recognized entry mem := ⟨(h.recognized entry mem).1, (h.recognized entry mem).2.asked,
    (h.recognized entry mem).2.length⟩
  increasing := h.increasing
  previews := h.previews
  completed := h.completed

/-- What `planNext` found: nothing, a window for the other slot, or a fallback. -/
inductive NextPlanned (r : Selection) (s : Loop Image Snapshot) (current : WindowState Image) :
    Loop Image Snapshot → Option (PlannedWindow × List Text) →
      Option (PlannedWindow × List Text) → Prop where
  | none : NextPlanned r s current s none none
  | window {planned : PlannedWindow × List Text} (on : r.overlapEnabled = true)
      (mode : current.plan.mode = .slot)
      (call : r.planRouteWindowInSlot s.cursor (1 - s.nextSlot) = .ok planned)
      (mode' : planned.1.mode = .slot) :
      NextPlanned r s current (s.moved planned) (some planned) none
  | fallback {planned : PlannedWindow × List Text}
      (call : r.planRouteWindowInSlot s.cursor (1 - s.nextSlot) = .ok planned)
      (mode : planned.1.mode = .fullCapFallback) :
      NextPlanned r s current { s.moved planned with nextSlot := 0 } none (some planned)

theorem planNext_ok {current : WindowState Image} {next fallback : Option (PlannedWindow × List Text)}
    (h : planNext r s current = .ok (t, next, fallback)) :
    NextPlanned r s current t next fallback := by
  unfold planNext at h
  split at h
  · rename_i cond
    split at h
    · cases h
    · rename_i planned call
      rw [retain_eq call] at h
      simp only at h
      split at h
      · rename_i mode
        cases h
        exact .window cond.1 cond.2.1 call mode
      · rename_i mode
        cases h
        apply NextPlanned.fallback call
        cases found : planned.1.mode with
        | slot => exact absurd found mode
        | fullCapFallback => rfl
  · cases h
    exact .none

/-- A window that was planned in a slot fits there. -/
theorem fits_of_call {cursor : Nat} {slot : Fin 2}
    (call : r.planRouteWindowInSlot cursor slot = .ok planned) : r.Fits slot planned.1 := by
  have window := Document.planWindow_ok (w := planned.1) call
  exact ⟨window.full, fun _ mode => window.slot mode⟩

end Planning

/-! ### What each step preserves -/

theorem asks {pendingSnapshots : Option (List Snapshot)} {images : List Image} :
    ¬ (pendingSnapshots.isNone = true ∧
      (if pendingSnapshots.isNone = true then some images else none).isNone = true) := by
  intro h
  simp [h.1] at h

/-- Phase A begins with the accounts in order. -/
theorem enter_inv {current : WindowState Image} {pendingSnapshots : Option (List Snapshot)}
    (prefetch : s.prefetch = none) (nextSnapshots : s.nextSnapshots = none)
    (accounts : s.Accounts r [key current] [])
    (rendered : tolerant current.plan current.rendered = true)
    (fits : r.Fits s.nextSlot current.plan)
    (asked : ∀ snapshots ∈ pendingSnapshots, (current.images, snapshots) ∈ s.replies) :
    (enter r s current pendingSnapshots).Inv r := by
  unfold enter
  simp only [if_neg asks]
  split
  · exact Inv.fail accounts _
  · rename_i t next fallback planned
    cases planNext_ok planned with
    | none =>
      rw [if_neg (by simp [exceeds])]
      exact ⟨prefetch, nextSnapshots, accounts.keep _ _ _ _, rendered, asked, fits.full, by simp,
        by simp, by simp⟩
    | @window planned on mode call mode' =>
      have fits' := fits_of_call call
      have together := fits.add fits' on mode mode'
      split
      · exact Inv.fail (accounts.moved call) _
      · refine ⟨prefetch, nextSnapshots, (accounts.moved call).keep _ _ _ _, rendered, asked,
          fits.full, ?_, by simp, by simp⟩
        intro next mem
        cases mem
        exact ⟨on, rfl, mode, mode', fits, fits'⟩
    | @fallback planned call mode =>
      rw [if_neg (by simp [exceeds])]
      refine ⟨prefetch, nextSnapshots, (accounts.moved call).keep _ _ _ _, rendered, asked,
        fits.full, by simp, by simp, ?_⟩
      intro found mem
      cases mem
      exact ⟨mode, (fits_of_call call).full⟩

/-- At its top the loop plans the next window, takes one that was prefetched, or ends. -/
theorem turn_inv (phase : s.phase = .top) (h : s.Inv r) : (turn r s).Inv r := by
  have ok : s.PrefetchOk r := by simpa [Inv, phase] using h
  unfold PrefetchOk at ok
  unfold turn
  split
  · cases held : s.prefetch with
    | some state =>
      cases state with
      | rendered window =>
        rw [held] at ok
        obtain ⟨⟨snapshots, carried, recognized⟩, rendered, fits, accounts⟩ := ok
        simp only [carried]
        apply enter_inv (s := { s with prefetch := none, nextSnapshots := none }) rfl rfl
          (accounts.keep _ _ _ _) rendered fits
        intro found mem
        cases mem
        exact recognized.asked
      | pendingFallback plan warnings =>
        rw [held] at ok
        obtain ⟨none, mode, full, accounts⟩ := ok
        refine ⟨rfl, none, ⟨full, fun _ slot => ?_⟩, accounts.keep _ _ _ _⟩
        rw [mode] at slot
        cases slot
    | none =>
      rw [held] at ok
      obtain ⟨none, accounts⟩ := ok
      simp only
      split
      · exact Inv.fail accounts _
      · rename_i planned call
        have moves : ∃ size cap, r.planWindow s.cursor size cap = .ok planned ∧
            r.Fits s.nextSlot planned.1 := by
          split at call
          · exact ⟨_, _, call, fits_of_call call⟩
          · rename_i off
            exact ⟨_, _, call, (Document.planWindow_ok (w := planned.1) call).full,
              fun on => absurd on off⟩
        obtain ⟨size, cap, planning, fits⟩ := moves
        rw [retain_eq planning]
        exact ⟨held, none, fits, (accounts.moved planning).keep _ _ _ _⟩
  · rename_i past
    have none : s.prefetch = none := by
      cases held : s.prefetch with
      | none => rfl
      | some _ => exact absurd (Or.inr (by simp [held])) past
    rw [none] at ok
    have le := ok.2.planned.cursor_le
    exact ⟨Nat.le_antisymm le (Nat.le_of_not_lt fun lt => past (.inl lt)), ok.2.keep _ _ _ _⟩

theorem beginB_inv {a : PhaseA Image Snapshot} {snapshots : List Snapshot}
    {t : Option (WindowState Image)}
    (prefetch : s.prefetch = t.map .rendered) (nextSnapshots : s.nextSnapshots = none)
    (accounts : s.Accounts r
      (key a.current :: ((t.map key).toList ++ a.pendingFallback.toList)) [])
    (current : tolerant a.current.plan a.current.rendered = true)
    (asked : (a.current.images, snapshots) ∈ s.replies)
    (full : a.current.plan.bytes ≤ r.fullCap)
    (ok : ∀ window ∈ t, r.overlapEnabled = true ∧ a.pendingFallback = none ∧
      a.current.plan.mode = .slot ∧ window.plan.mode = .slot ∧
      r.Fits (1 - s.nextSlot) a.current.plan ∧ r.Fits s.nextSlot window.plan ∧
      tolerant window.plan window.rendered = true)
    (fallback : ∀ planned ∈ a.pendingFallback,
      planned.1.mode = .fullCapFallback ∧ planned.1.bytes ≤ r.fullCap) :
    (beginB s a snapshots).Inv r := by
  unfold beginB
  split
  · rename_i length
    have pages := accounts.pages
    have windows := accounts.windows
    have warned := accounts.warned
    rw [List.append_nil] at pages
    have recognized : ∀ entry ∈ s.windows ++ [(a.current, snapshots)],
        tolerant entry.1.plan entry.1.rendered = true ∧ s.Recognized entry.1 entry.2 := by
      intro entry mem
      rcases List.mem_append.mp mem with before | last
      · exact accounts.recognized entry before
      · obtain rfl := List.mem_singleton.mp last
        exact ⟨current, asked, length⟩
    cases t with
    | none =>
      simp only [prefetch, Option.map_none]
      refine ⟨rfl, nextSnapshots, ⟨accounts.planned, by simp [← windows], by simp [pages],
        by simp [warned], fun entry mem => ⟨(recognized entry mem).1,
          (recognized entry mem).2.asked, (recognized entry mem).2.length⟩,
        accounts.increasing, accounts.previews, accounts.completed⟩, length, full, by simp, fallback⟩
    | some window =>
      obtain ⟨on, none, mode, mode', fits, fits', rendered⟩ := ok window rfl
      simp only [prefetch, Option.map_some]
      refine ⟨rfl, nextSnapshots, ⟨accounts.planned, by simp [← windows], by simp [pages],
        by simp [warned], fun entry mem => ⟨(recognized entry mem).1,
          (recognized entry mem).2.asked, (recognized entry mem).2.length⟩,
        accounts.increasing, accounts.previews, accounts.completed⟩, length, full, ?_, fallback⟩
      intro found mem
      cases mem
      exact ⟨on, none, mode, mode', fits, fits', rendered, by simp⟩
  · exact Inv.fail accounts _

/-- A phase is joined when its futures have ended, in whatever order they did. -/
theorem join_inv {a : PhaseA Image Snapshot} (h : s.PhaseAOk r a) (joined : join s a = some t) :
    t.Inv r := by
  unfold join at joined
  split at joined
  · rename_i snapshots window done rendering
    cases joined
    obtain ⟨on, none, mode, mode', fits, fits'⟩ := h.next _ (by rw [rendering]; rfl)
    have accounts := h.accounts
    rw [rendering] at accounts
    apply beginB_inv
      (s := { s with prefetch := some (.rendered window), nextSlot := 1 - s.nextSlot })
      (t := some window) rfl h.nextSnapshots (accounts.keep _ _ _ _) h.current
      (h.snapshots _ done) h.full _ h.fallback
    intro found mem
    cases mem
    refine ⟨on, none, mode, mode', ?_, fits', h.done window rendering⟩
    show r.Fits (1 - (1 - s.nextSlot)) _
    rwa [Selection.one_sub_one_sub]
  · rename_i snapshots done rendering
    cases joined
    have accounts := h.accounts
    rw [rendering] at accounts
    exact beginB_inv (t := none) h.prefetch h.nextSnapshots accounts h.current
      (h.snapshots _ done) h.full (by simp) h.fallback
  · cases joined

/-- A page goes into the stage only behind the pages that are there. -/
theorem write_ok {stage stage' : Stage Image Snapshot} {page : StagedPage Image Snapshot}
    (h : stage.write page = .ok stage') :
    stage' = ⟨stage.previewPages ++ [page.index], stage.pages ++ [page]⟩ ∧
      ∀ last ∈ stage.pages.getLast?, last.index < page.index := by
  unfold Stage.write at h
  split at h
  · cases h
  · split at h
    · cases h
    · rename_i behind
      cases h
      refine ⟨rfl, fun last mem => ?_⟩
      rw [Option.mem_def] at mem
      simpa [mem, Stage.behind] using behind

/-- The page that phase B stages next is the first one that is left. -/
theorem merge_cons (index : Nat) (rest : List Nat) {rendered : List (RenderedPage Image)}
    {snapshots : List Snapshot} (length : snapshots.length = rendered.length) :
    (∃ page rendered' snapshot snapshots', rendered = page :: rendered' ∧
      snapshots = snapshot :: snapshots' ∧ page.index = index ∧
      merge (index :: rest) rendered snapshots =
        .rendered page snapshot :: merge rest rendered' snapshots') ∨
    ((∀ page ∈ rendered.head?, page.index ≠ index) ∧
      merge (index :: rest) rendered snapshots =
        .placeholder index :: merge rest rendered snapshots) := by
  cases rendered with
  | nil => exact .inr ⟨by simp, by simp [merge]⟩
  | cons page rendered =>
    cases snapshots with
    | nil => simp at length
    | cons snapshot snapshots =>
      by_cases here : page.index = index
      · exact .inl ⟨page, rendered, snapshot, snapshots, rfl, rfl, here, by simp [merge, here]⟩
      · exact .inr ⟨by simpa using here, by simp [merge, here]⟩

/-- The first page that is left goes to the stage. -/
theorem Accounts.write {pending : List (PlannedWindow × List Text)}
    {page : StagedPage Image Snapshot} {left : List (StagedPage Image Snapshot)}
    {stage : Stage Image Snapshot} (h : s.Accounts r pending (page :: left))
    (written : s.stage.write page = .ok stage) (phase : Phase Image Snapshot) :
    Accounts r { s with stage, completed := s.completed + 1, phase } pending left := by
  obtain ⟨rfl, behind⟩ := write_ok written
  refine ⟨h.planned, h.windows, ?_, h.warned, fun entry mem => ⟨(h.recognized entry mem).1,
    (h.recognized entry mem).2.asked, (h.recognized entry mem).2.length⟩, ?_, ?_, ?_⟩
  · rw [← h.pages]
    simp
  · rw [List.map_append, List.isChain_append]
    refine ⟨h.increasing, by simp, ?_⟩
    intro last mem next mem'
    obtain ⟨page', found, rfl⟩ : ∃ page' ∈ s.stage.pages.getLast?, page'.index = last := by
      simpa using mem
    cases mem'
    exact behind page' found
  · simp [h.previews]
  · simp [h.completed]

/-- A page goes from what phase B has left to the stage. -/
theorem stagePage_inv {b : PhaseB Image Snapshot} {index : Nat} {rest : List Nat}
    (h : s.PhaseBOk r b) (indexes : b.indexes = index :: rest) :
    (stagePage s b index rest).Inv r := by
  have accounts := h.accounts
  rw [indexes] at accounts
  unfold stagePage
  rcases merge_cons index rest h.length with
    ⟨page, rendered, snapshot, snapshots, is, is', here, first⟩ | ⟨other, first⟩
  · rw [first] at accounts
    have length := h.length
    rw [is, is'] at length
    rw [is, is']
    simp only [if_pos here]
    unfold putPage
    split
    · exact Inv.fail accounts _
    · rename_i stage written
      exact ⟨h.prefetch, h.nextSnapshots, accounts.write written _, by simpa using length, h.full,
        h.next, h.fallback⟩
  · rw [first] at accounts
    have placed : (s.putPage b rest (.placeholder index) b.rendered b.snapshots).Inv r := by
      unfold putPage
      split
      · exact Inv.fail accounts _
      · rename_i stage written
        exact ⟨h.prefetch, h.nextSnapshots, accounts.write written _, h.length, h.full, h.next,
          h.fallback⟩
    split
    · rename_i page rendered is
      rw [if_neg (other page (by rw [is]; rfl))]
      exact placed
    · exact placed

/-- Phase B ends when no page is left, and its window's bytes are free again. -/
theorem endB_inv {b : PhaseB Image Snapshot} (h : s.PhaseBOk r b) (ended : endB s b = some t) :
    t.Inv r := by
  have accounts := h.accounts
  unfold endB at ended
  simp only at ended
  split at ended
  · rename_i done none
    cases ended
    rw [done, none] at accounts
    show PrefetchOk r _
    unfold PrefetchOk
    cases waits : b.pendingFallback with
    | none =>
      rw [waits] at accounts
      simp only [Option.map_none, Option.none_or, h.prefetch]
      exact ⟨h.nextSnapshots, accounts.keep _ _ _ _⟩
    | some planned =>
      rw [waits] at accounts
      have fallback := h.fallback planned waits
      exact ⟨h.nextSnapshots, fallback.1, fallback.2, accounts.keep _ _ _ _⟩
  · rename_i next snapshots done held
    obtain ⟨on, none, mode, mode', fits, fits', rendered, asked⟩ := h.next _ held
    rw [done, held, none] at accounts
    split at ended
    · rename_i length
      cases ended
      show PrefetchOk r _
      unfold PrefetchOk
      simp only [none, Option.map_none, Option.none_or]
      exact ⟨⟨snapshots, rfl, asked snapshots rfl, length⟩, rendered, fits',
        accounts.keep _ _ _ _⟩
    · cases ended
      exact Inv.fail accounts _
  · cases ended

theorem Inv.planned (h : s.Inv r) : Planned r.toDocument s.plans s.cursor := by
  unfold Inv at h
  split at h
  · unfold PrefetchOk at h
    split at h
    · exact h.2.planned
    · exact h.2.2.2.planned
    · exact h.2.2.2.planned
  · exact h.2.2.2.planned
  · exact h.accounts.planned
  · exact h.accounts.planned
  · exact h.2.planned
  · exact h
  · exact h.elim

theorem step_inv {a : Action Image Snapshot} (h : s.Inv r) (taken : step r s a = some t) :
    t.Inv r := by
  cases a with
  | advance =>
    simp only [step] at taken
    split at taken
    · rename_i phase
      cases taken
      exact turn_inv phase h
    · rename_i a phase
      exact join_inv (by simpa [Inv, phase] using h) taken
    · rename_i b phase
      have ok : s.PhaseBOk r b := by simpa [Inv, phase] using h
      split at taken
      · rename_i index rest indexes
        cases taken
        exact stagePage_inv ok indexes
      · exact endB_inv ok taken
    · cases taken
  | rendered pages warnings =>
    simp only [step] at taken
    split at taken
    · rename_i plan planWarnings phase
      split at taken
      · rename_i some
        cases taken
        have ok : s.prefetch = none ∧ s.nextSnapshots = none ∧ r.Fits s.nextSlot plan ∧
            s.Accounts r [(plan, planWarnings)] [] := by simpa [Inv, phase] using h
        exact enter_inv ok.1 ok.2.1 ok.2.2.2 some ok.2.2.1 (by simp)
      · cases taken
    · rename_i a phase
      have ok : s.PhaseAOk r a := by simpa [Inv, phase] using h
      split at taken
      · rename_i plan planWarnings running
        split at taken
        · rename_i tolerated
          cases taken
          have accounts := ok.accounts
          have next := ok.next _ running
          rw [running] at accounts
          refine ⟨ok.prefetch, ok.nextSnapshots, accounts.keep _ _ _ _, ok.current, ok.snapshots,
            ok.full, ?_, ?_, ok.fallback⟩
          · intro found mem
            cases mem
            exact next
          · intro window found
            cases found
            exact tolerated
        · cases taken
      · cases taken
    · cases taken
  | recognized snapshots =>
    simp only [step] at taken
    split at taken
    · rename_i a phase
      have ok : s.PhaseAOk r a := by simpa [Inv, phase] using h
      split at taken
      · cases taken
        have accounts := ok.accounts
        refine ⟨ok.prefetch, ok.nextSnapshots, ⟨accounts.planned, accounts.windows, accounts.pages,
          accounts.warned, fun entry mem => ⟨(accounts.recognized entry mem).1,
            List.mem_append_left _ (accounts.recognized entry mem).2.asked,
            (accounts.recognized entry mem).2.length⟩, accounts.increasing, accounts.previews,
          accounts.completed⟩,
          ok.current, ?_, ok.full, ok.next, ok.done, ok.fallback⟩
        intro found mem
        cases mem
        simp
      · cases taken
    · rename_i b phase
      have ok : s.PhaseBOk r b := by simpa [Inv, phase] using h
      split at taken
      · rename_i window held
        cases taken
        have accounts := ok.accounts
        obtain ⟨on, none, mode, mode', fits, fits', rendered, -⟩ := ok.next _ held
        rw [held] at accounts
        refine ⟨ok.prefetch, ok.nextSnapshots, ⟨accounts.planned, accounts.windows, accounts.pages,
          accounts.warned, fun entry mem => ⟨(accounts.recognized entry mem).1,
            List.mem_append_left _ (accounts.recognized entry mem).2.asked,
            (accounts.recognized entry mem).2.length⟩, accounts.increasing, accounts.previews,
          accounts.completed⟩,
          ok.length, ok.full, ?_, ok.fallback⟩
        intro found mem
        cases mem
        refine ⟨on, none, mode, mode', fits, fits', rendered, ?_⟩
        intro found mem
        cases mem
        simp
      · cases taken
    · cases taken
  | fails error =>
    simp only [step] at taken
    have planned := h.planned
    split at taken
    all_goals cases taken
    exact planned

/-- Unless it failed, the accounts of the loop are in order. -/
theorem Inv.accounts (h : s.Inv r) (fine : ∀ error, s.phase ≠ .failed error) :
    ∃ pending left, s.Accounts r pending left := by
  unfold Inv at h
  split at h
  · unfold PrefetchOk at h
    split at h
    · exact ⟨_, _, h.2⟩
    · exact ⟨_, _, h.2.2.2⟩
    · exact ⟨_, _, h.2.2.2⟩
  · exact ⟨_, _, h.2.2.2⟩
  · exact ⟨_, _, h.accounts⟩
  · exact ⟨_, _, h.accounts⟩
  · exact ⟨_, _, h.2⟩
  · rename_i error phase
    exact absurd phase (fine error)
  · exact h.elim

/-- The indexes of the windows that went to the stage are staged, or left for it. -/
theorem Accounts.indexes {pending : List (PlannedWindow × List Text)}
    {left : List (StagedPage Image Snapshot)} (h : s.Accounts r pending left) :
    s.stage.pages.map (·.index) ++ left.map (·.index) ++
      pending.flatMap (fun planned => planned.1.indexes) =
        s.plans.flatMap fun planned => planned.1.indexes := by
  rw [← List.map_append, h.pages, ← h.windows, List.flatMap_append, List.map_flatMap,
    List.flatMap_map]
  simp only [merge_index, key]

theorem Accounts.staged {pending : List (PlannedWindow × List Text)}
    {left : List (StagedPage Image Snapshot)} (h : s.Accounts r pending left) :
    s.stage.pages.map (·.index) <+: s.plans.flatMap fun planned => planned.1.indexes := by
  rw [← h.indexes, List.append_assoc]
  exact List.prefix_append _ _

theorem start_inv : (start : Loop Image Snapshot).Inv r :=
  ⟨rfl, .nil, rfl, rfl, rfl, by simp [start], by simp [start], rfl, rfl⟩

/-- The invariant in every reachable state. -/
theorem reachable_inv (h : (r.machine Image Snapshot).Reachable s) : s.Inv r := by
  apply Machine.Reachable.invariant (P := Inv r) start_inv _ h
  intro s a t reply _ inv taken
  obtain ⟨found, step, rfl, rfl⟩ : ∃ found, step r s a = some found ∧ found = t ∧ () = reply := by
    simpa [Selection.machine] using taken
  exact step_inv inv step

/-- The windows in flight are within the cap together, and a fallback is alone. -/
theorem Inv.inFlight (h : s.Inv r) :
    (s.inFlight.map (·.bytes)).sum ≤ r.fullCap ∧
      ∀ w ∈ s.inFlight, w.mode = .fullCapFallback → s.inFlight = [w] := by
  unfold Inv at h
  split at h
  · rename_i phase
    simp only [Loop.inFlight, phase]
    unfold PrefetchOk at h
    split at h
    · rename_i none
      simp [none]
    · rename_i window held
      simp [held, h.2.2.1.full]
    · rename_i plan warnings held
      simp [held]
  · rename_i phase
    simp [Loop.inFlight, phase, h.2.2.1.full]
  · rename_i a phase
    simp only [Loop.inFlight, phase]
    cases rendering : a.next with
    | none => simp [h.full]
    | some next =>
      obtain ⟨on, -, mode, mode', fits, fits'⟩ := h.next _ rendering
      have together := fits.add fits' on mode mode'
      cases next with
      | running plan warnings =>
        have slot : plan.mode = .slot := mode'
        have sum : a.current.plan.bytes + plan.bytes ≤ r.fullCap := together
        simpa [mode, slot] using sum
      | done window =>
        have slot : window.plan.mode = .slot := mode'
        have sum : a.current.plan.bytes + window.plan.bytes ≤ r.fullCap := together
        simpa [mode, slot] using sum
  · rename_i b phase
    simp only [Loop.inFlight, phase]
    cases held : b.next with
    | none => simp [h.full]
    | some next =>
      obtain ⟨on, -, mode, mode', fits, fits', -⟩ := h.next _ held
      rw [← Selection.one_sub_one_sub s.nextSlot] at fits'
      have together := fits.add fits' on mode mode'
      simpa [mode, mode'] using together
  · rename_i phase
    simp [Loop.inFlight, phase]
  · rename_i phase
    simp [Loop.inFlight, phase]
  · exact h.elim

end Loop

end Mineru.Route
