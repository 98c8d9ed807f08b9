import Mineru.Laws.Route.Loop

/-!
# The schedule of the windows

The loop ends, since every step costs a part of what the pages behind the cursor and the windows in
hand still allow. With the invariant this gives what the loop promises in every state, and what it
has staged when it finishes.

The futures of a phase end in any order here, and a renderer may drop pages of its window. That they
end at all is not proved: the loop is only never stuck but for them.
-/

set_option autoImplicit false

namespace Mineru.Route

open Logic

namespace Loop

variable {Image Snapshot : Type} {r : Selection} {s t : Loop Image Snapshot}

/-! ## The loop ends -/

/-- What is still to be done for a window, once it is rendered or waits to be. -/
def nextCost : NextRender Image → Nat
  | .running plan _ => 6 + plan.indexes.length
  | .done window => 5 + window.plan.indexes.length

def prefetchCost : PrefetchState Image → Nat
  | .rendered window => 3 + window.plan.indexes.length
  | .pendingFallback plan _ => 5 + plan.indexes.length

def fallbackCost (planned : PlannedWindow × List Text) : Nat := 5 + planned.1.indexes.length

/-- A bound for the steps that the phase may still take. -/
def phaseCost (s : Loop Image Snapshot) : Nat :=
  match s.phase with
  | .top => 1 + (s.prefetch.map prefetchCost).getD 0
  | .rendering plan _ => 5 + plan.indexes.length
  | .phaseA a => 3 + a.current.plan.indexes.length + (if a.snapshots.isNone then 1 else 0) +
      (a.next.map nextCost).getD 0 + (a.pendingFallback.map fallbackCost).getD 0
  | .phaseB b => 2 + b.indexes.length +
      (b.next.map fun next => (if next.2.isNone then 5 else 4) + next.1.plan.indexes.length).getD 0 +
      (b.pendingFallback.map fallbackCost).getD 0
  | .finished | .failed _ | .panicked _ => 0

/-- A bound for the steps that the loop may still take. -/
def rank (r : Selection) (s : Loop Image Snapshot) : Nat :=
  8 * (r.indexes.length - s.cursor) + s.phaseCost

@[simp] theorem rank_fail (error : VlmError) :
    (s.fail error).rank r = 8 * (r.indexes.length - s.cursor) := rfl

/-- A page of the document pays for the window that it goes to. -/
theorem planned_cost {planned : PlannedWindow × List Text} {size cap : Nat}
    (call : r.planWindow s.cursor size cap = .ok planned) :
    8 * (r.indexes.length - (s.moved planned).cursor) + 7 + planned.1.indexes.length ≤
      8 * (r.indexes.length - s.cursor) := by
  have window := Document.planWindow_ok (w := planned.1) call
  have pos := window.pos
  have within := window.within
  have length : planned.1.indexes.length ≤ planned.1.consumed := by
    rw [window.indexes]
    apply Nat.le_trans (List.length_filter_le _ _)
    rw [List.length_take]
    exact Nat.min_le_left _ _
  show 8 * (r.indexes.length - (s.cursor + planned.1.consumed)) + _ + _ ≤ _
  omega

theorem enter_rank (current : WindowState Image) (pendingSnapshots : Option (List Snapshot)) :
    (enter r s current pendingSnapshots).rank r ≤ 8 * (r.indexes.length - s.cursor) +
      (3 + current.plan.indexes.length + if pendingSnapshots.isNone then 1 else 0) := by
  unfold enter
  simp only [if_neg asks]
  split
  · simp
  · rename_i t next fallback planned
    cases planNext_ok planned with
    | none =>
      split
      · simp
      · simp [rank, phaseCost]
    | @window planned on mode call mode' =>
      have paid := planned_cost (s := s) call
      split
      · rw [rank_fail]
        omega
      · simp only [rank, phaseCost, Option.map_some, Option.map_none, Option.getD_some,
          Option.getD_none, nextCost]
        omega
    | @fallback planned call mode =>
      have paid := planned_cost (s := s) call
      split
      · rw [rank_fail]
        simp only
        omega
      · simp only [rank, phaseCost, Option.map_some, Option.map_none, Option.getD_some,
          Option.getD_none, fallbackCost]
        omega

theorem turn_rank (phase : s.phase = .top) : (turn r s).rank r < s.rank r := by
  have cost : s.rank r = 8 * (r.indexes.length - s.cursor) +
      (1 + (s.prefetch.map prefetchCost).getD 0) := by simp [rank, phaseCost, phase]
  rw [cost]
  unfold turn
  split
  · cases held : s.prefetch with
    | some state =>
      cases state with
      | rendered window =>
        cases carried : s.nextSnapshots with
        | some snapshots =>
          simp only
          have entered := enter_rank (r := r)
            (s := { s with prefetch := none, nextSnapshots := none }) window (some snapshots)
          simp only [Option.map_some, Option.getD_some, prefetchCost, Option.isNone_some,
            Bool.false_eq_true, if_false] at entered ⊢
          omega
        | none =>
          simp only [rank, panic, phaseCost, Option.map_some, Option.getD_some, prefetchCost]
          omega
      | pendingFallback plan warnings =>
        simp only [rank, phaseCost, Option.map_some, Option.getD_some, prefetchCost]
        omega
    | none =>
      simp only [Option.map_none, Option.getD_none]
      split
      · rw [rank_fail]
        omega
      · rename_i planned call
        have planning : ∃ size cap, r.planWindow s.cursor size cap = .ok planned := by
          split at call
          · exact ⟨_, _, call⟩
          · exact ⟨_, _, call⟩
        obtain ⟨size, cap, planning⟩ := planning
        have paid := planned_cost (s := s) planning
        rw [retain_eq planning]
        simp only [rank, phaseCost]
        omega
  · simp only [rank, phaseCost]
    omega

theorem beginB_rank {a : PhaseA Image Snapshot} (snapshots : List Snapshot) :
    (beginB s a snapshots).rank r ≤ 8 * (r.indexes.length - s.cursor) +
      (2 + a.current.plan.indexes.length + (match s.prefetch with
        | some (.rendered next) => 5 + next.plan.indexes.length
        | _ => 0) + (a.pendingFallback.map fallbackCost).getD 0) := by
  unfold beginB
  split
  · split
    · rename_i next held
      simp [rank, phaseCost, held]
    · rw [rank_fail]
      omega
    · rename_i none
      simp [rank, phaseCost, none]
  · rw [rank_fail]
    omega

theorem join_rank {a : PhaseA Image Snapshot} (phase : s.phase = .phaseA a) (h : s.PhaseAOk r a)
    (joined : join s a = some t) : t.rank r < s.rank r := by
  have cost : s.rank r = 8 * (r.indexes.length - s.cursor) + (3 + a.current.plan.indexes.length +
      (if a.snapshots.isNone then 1 else 0) + (a.next.map nextCost).getD 0 +
        (a.pendingFallback.map fallbackCost).getD 0) := by simp [rank, phaseCost, phase]
  unfold join at joined
  split at joined
  · rename_i snapshots window done rendering
    cases joined
    have begun := beginB_rank (r := r) (a := a) snapshots
      (s := { s with prefetch := some (.rendered window), nextSlot := 1 - s.nextSlot })
    simp only [rendering, Option.map_some, Option.getD_some, nextCost] at cost begun
    omega
  · rename_i snapshots done rendering
    cases joined
    have begun := beginB_rank (r := r) (s := s) (a := a) snapshots
    simp only [h.prefetch] at begun
    omega
  · cases joined

theorem putPage_rank {b : PhaseB Image Snapshot} {index : Nat} {rest : List Nat}
    (phase : s.phase = .phaseB b) (indexes : b.indexes = index :: rest)
    (page : StagedPage Image Snapshot) (rendered : List (RenderedPage Image))
    (snapshots : List Snapshot) :
    (s.putPage b rest page rendered snapshots).rank r < s.rank r := by
  have cost : s.rank r = 8 * (r.indexes.length - s.cursor) + s.phaseCost := rfl
  unfold putPage
  split
  · rw [rank_fail, cost]
    simp only [phaseCost, phase]
    omega
  · simp only [rank, phaseCost, phase, indexes, List.length_cons]
    omega

theorem stagePage_rank {b : PhaseB Image Snapshot} {index : Nat} {rest : List Nat}
    (phase : s.phase = .phaseB b) (indexes : b.indexes = index :: rest) :
    (stagePage s b index rest).rank r < s.rank r := by
  have put := putPage_rank (r := r) phase indexes
  unfold stagePage
  split
  · split
    · split
      · exact put _ _ _
      · simp only [rank, panic, phaseCost, phase]
        omega
    · exact put _ _ _
  · exact put _ _ _

theorem endB_rank {b : PhaseB Image Snapshot} (phase : s.phase = .phaseB b) (h : s.PhaseBOk r b)
    (ended : endB s b = some t) : t.rank r < s.rank r := by
  have cost : s.rank r = 8 * (r.indexes.length - s.cursor) + (2 + b.indexes.length +
      (b.next.map fun next => (if next.2.isNone then 5 else 4) + next.1.plan.indexes.length).getD 0 +
      (b.pendingFallback.map fallbackCost).getD 0) := by simp [rank, phaseCost, phase]
  unfold endB at ended
  simp only at ended
  split at ended
  · rename_i done none
    cases ended
    cases waits : b.pendingFallback with
    | none =>
      simp only [rank, phaseCost, h.prefetch, Option.map_none, Option.none_or, Option.getD_none]
        at cost ⊢
      omega
    | some planned =>
      simp only [rank, phaseCost, waits, Option.map_some, Option.some_or, Option.getD_some,
        fallbackCost, prefetchCost] at cost ⊢
      omega
  · rename_i next snapshots done held
    split at ended
    · cases ended
      rw [held] at cost
      obtain ⟨-, none, -⟩ := h.next _ held
      simp only [rank, phaseCost, none, Option.map_none, Option.none_or, Option.map_some,
        Option.getD_some, prefetchCost, Option.isNone_some, Bool.false_eq_true, if_false] at cost ⊢
      omega
    · cases ended
      rw [rank_fail]
      omega
  · cases ended

/-- Every step brings the loop closer to its end. -/
theorem step_rank {a : Action Image Snapshot} (h : s.Inv r) (taken : step r s a = some t) :
    t.rank r < s.rank r := by
  have cost : s.rank r = 8 * (r.indexes.length - s.cursor) + s.phaseCost := rfl
  cases a with
  | advance =>
    simp only [step] at taken
    split at taken
    · rename_i phase
      cases taken
      exact turn_rank phase
    · rename_i a phase
      exact join_rank phase (by simpa [Inv, phase] using h) taken
    · rename_i b phase
      split at taken
      · rename_i index rest indexes
        cases taken
        exact stagePage_rank phase indexes
      · exact endB_rank phase (by simpa [Inv, phase] using h) taken
    · cases taken
  | rendered pages warnings =>
    simp only [step] at taken
    split at taken
    · rename_i plan planWarnings phase
      split at taken
      · cases taken
        have entered := enter_rank (r := r) (s := s)
          ⟨plan, planWarnings, pages, warnings⟩ (none : Option (List Snapshot))
        simp only [phaseCost, phase, Option.isNone_none, if_true] at cost entered
        omega
      · cases taken
    · rename_i a phase
      split at taken
      · rename_i plan planWarnings running
        split at taken
        · cases taken
          simp only [rank, phaseCost, phase, running, Option.map_some, Option.getD_some, nextCost]
          omega
        · cases taken
      · cases taken
    · cases taken
  | recognized snapshots =>
    simp only [step] at taken
    split at taken
    · rename_i a phase
      split at taken
      · rename_i asked
        cases taken
        simp only [rank, phaseCost, phase, asked, if_true, Option.isNone_some, Bool.false_eq_true,
          if_false]
        omega
      · cases taken
    · rename_i b phase
      split at taken
      · rename_i window held
        cases taken
        simp only [rank, phaseCost, phase, held, Option.map_some, Option.getD_some,
          Option.isNone_none, if_true, Option.isNone_some, Bool.false_eq_true, if_false]
        omega
      · cases taken
    · cases taken
  | fails error =>
    simp only [step] at taken
    split at taken
    · cases taken
    · cases taken
    · cases taken
    · rename_i open₁ open₂ open₃
      cases taken
      rw [rank_fail, cost]
      have : 0 < s.phaseCost := by
        unfold phaseCost
        split
        all_goals first | omega | simp_all
      omega

/-- A run takes no more steps than the start has rank. -/
theorem run_length {h : List (Action Image Snapshot × Unit)}
    (run : (r.machine Image Snapshot).Run (r.machine Image Snapshot).start h s) :
    h.length + s.rank r ≤ 8 * r.indexes.length + 1 := by
  induction run with
  | refl => simp [Selection.machine, start, rank, phaseCost]
  | @snoc t u hist a reply run taken ih =>
    obtain ⟨found, step, rfl, rfl⟩ : ∃ found, step r t a = some found ∧ found = u ∧ () = reply := by
      simpa [Selection.machine] using taken
    have less := step_rank (reachable_inv ⟨_, run⟩) step
    rw [List.length_append, List.length_singleton]
    omega

/-- The loop is over: it finished, or gave an error back. -/
def isOver (s : Loop Image Snapshot) : Prop :=
  match s.phase with
  | .finished | .failed _ => True
  | _ => False

@[simp] theorem tolerant_nil (plan : PlannedWindow) :
    tolerant plan ([] : List (RenderedPage Image)) = true := by simp [tolerant]

/-- Until the loop is over, it goes on or waits for a future that can end. -/
theorem goes_on (h : s.Inv r) (going : ¬ s.isOver) :
    ∃ a, (∀ error, a ≠ Action.fails error) ∧ (step r s a).isSome := by
  unfold isOver at going
  cases phase : s.phase with
  | top => exact ⟨.advance, by simp, by simp [step, phase]⟩
  | rendering plan warnings => exact ⟨.rendered [] [], by simp, by simp [step, phase]⟩
  | phaseA a =>
    cases asked : a.snapshots with
    | none => exact ⟨.recognized [], by simp, by simp [step, phase, asked]⟩
    | some snapshots =>
      cases rendering : a.next with
      | none => exact ⟨.advance, by simp, by simp [step, phase, join, asked, rendering]⟩
      | some next =>
        cases next with
        | running plan warnings =>
          exact ⟨.rendered [] [], by simp, by simp [step, phase, rendering]⟩
        | done window => exact ⟨.advance, by simp, by simp [step, phase, join, asked, rendering]⟩
  | phaseB b =>
    cases left : b.indexes with
    | cons index rest => exact ⟨.advance, by simp, by simp [step, phase, left]⟩
    | nil =>
      cases held : b.next with
      | none => exact ⟨.advance, by simp, by simp [step, phase, left, endB, held]⟩
      | some next =>
        obtain ⟨window, asked⟩ := next
        cases asked with
        | none => exact ⟨.recognized [], by simp, by simp [step, phase, held]⟩
        | some snapshots =>
          refine ⟨.advance, by simp, ?_⟩
          by_cases length : snapshots.length = window.rendered.length
          · simp [step, phase, left, endB, held, length]
          · simp [step, phase, left, endB, held, length]
  | finished | failed => simp [phase] at going
  | panicked message => exact absurd h (by simp [Inv, phase])

end Loop

/-! ## What the loop promises -/

section Results

variable {Image Snapshot : Type} {r : Selection} {s : Loop Image Snapshot}

/-- The loop cuts the pages up to its cursor into consecutive windows, stages pages in increasing
order, keeps the windows in flight within the cap and a fallback alone, and never panics; its runs
are bounded, and it is never stuck. -/
theorem windows_scheduled (reachable : (r.machine Image Snapshot).Reachable s) :
    (∃ parts, parts.flatten = r.indexes.take s.cursor ∧
      List.Forall₂ (Planned.Takes r.toDocument) parts s.plans) ∧
    ((∀ error, s.phase ≠ .failed error) →
      (s.stage.pages.map (·.index)).Pairwise (· < ·) ∧
        s.stage.pages.map (·.index) <+: s.plans.flatMap fun planned => planned.1.indexes) ∧
    (s.inFlight.map (·.bytes)).sum ≤ r.fullCap ∧
    (∀ w ∈ s.inFlight, w.mode = .fullCapFallback → s.inFlight = [w]) ∧
    (∀ message, s.phase ≠ .panicked message) ∧
    (s.phase = .finished → s.cursor = r.indexes.length) ∧
    (∀ h, (r.machine Image Snapshot).Run (r.machine Image Snapshot).start h s →
      h.length ≤ 8 * r.indexes.length + 1) ∧
    (¬ s.isOver → ∃ a, (∀ error, a ≠ Loop.Action.fails error) ∧ (Loop.step r s a).isSome) := by
  have inv := Loop.reachable_inv reachable
  refine ⟨inv.planned.parts, ?_, inv.inFlight.1, inv.inFlight.2, ?_, ?_, ?_, Loop.goes_on inv⟩
  · intro fine
    obtain ⟨pending, left, accounts⟩ := inv.accounts fine
    refine ⟨List.isChain_iff_pairwise.mp accounts.increasing, accounts.staged⟩
  · intro message phase
    simp [Loop.Inv, phase] at inv
  · intro phase
    have finished : s.cursor = r.indexes.length ∧ s.Accounts r [] [] := by
      simpa [Loop.Inv, phase] using inv
    exact finished.1
  · intro h run
    have bound := Loop.run_length run
    omega

/-- The estimates of four pages: the second one has none, and the last one needs the whole cap. -/
def fourBytes : Nat → Except VlmError Nat
  | 1 => .error (.invalidInput "no media box")
  | 3 => .ok 4
  | _ => .ok 1

/-- Four pages in windows of one page. -/
def fourPages : Selection where
  indexes := [0, 1, 2, 3]
  pageBytes := fourBytes
  fullCap := 4
  fits := by decide
  fullCap_pos := by decide
  processingWindowSize := 1
  size_pos := by decide

/-- The first window is rendered, and the second one is planned beside it. -/
def overlapRun : List (Loop.Action Nat Nat) := [.advance, .rendered [⟨0, 10⟩] []]

/-- Both windows go to the stage, and the last page is planned as a fallback. -/
def fallbackRun : List (Loop.Action Nat Nat) :=
  overlapRun ++ [.recognized [20], .rendered [⟨2, 12⟩] [], .advance, .advance, .recognized [22],
    .advance, .advance, .advance, .advance, .advance, .advance]

/-- The fallback is rendered, recognized and staged. -/
def fourRun : List (Loop.Action Nat Nat) :=
  fallbackRun ++ [.rendered [⟨3, 13⟩] [], .recognized [23], .advance, .advance, .advance, .advance]

/-- Where a run of these pages ends. -/
def fourAfter (run : List (Loop.Action Nat Nat)) : Loop Nat Nat :=
  ((fourPages.machine Nat Nat).play .start run).getD .start

theorem fourAfter_reachable (run : List (Loop.Action Nat Nat))
    (plays : ((fourPages.machine Nat Nat).play .start run).isSome = true) :
    (fourPages.machine Nat Nat).Reachable (fourAfter run) := by
  obtain ⟨s, played⟩ := Option.isSome_iff_exists.mp plays
  have reached := Machine.Reachable.start.play (m := fourPages.machine Nat Nat) played
  rw [fourAfter, played]
  exact reached

/-- Two windows in flight, then the fallback alone, and then the end with three pages staged. -/
theorem fourPages_scheduled :
    ((fourAfter overlapRun).inFlight.map (·.indexes) = [[0], [2]] ∧
      ((fourAfter overlapRun).inFlight.map (·.bytes)).sum ≤ 4) ∧
    (fourAfter fallbackRun).inFlight = [⟨[3], 4, .fullCapFallback, 1⟩] ∧
    (fourAfter fourRun).phase = .finished ∧ (fourAfter fourRun).cursor = 4 ∧
    ∃ parts, parts.flatten = [0, 1, 2, 3] ∧
      List.Forall₂ (Planned.Takes fourPages.toDocument) parts (fourAfter fourRun).plans := by
  have overlapped := windows_scheduled (fourAfter_reachable overlapRun rfl)
  have alone := windows_scheduled (fourAfter_reachable fallbackRun rfl)
  have finished := windows_scheduled (fourAfter_reachable fourRun rfl)
  exact ⟨⟨rfl, overlapped.2.2.1⟩, alone.2.2.2.1 ⟨[3], 4, .fullCapFallback, 1⟩ List.mem_cons_self rfl,
    rfl, finished.2.2.2.2.2.1 rfl, finished.1⟩

/-- When the loop has finished, the stage holds each page that can be planned once, in order: the
rendered ones with the snapshots of their positions, and placeholders for the ones that the renderer
dropped. Every other page was skipped with a warning. -/
theorem finished_pages (reachable : (r.machine Image Snapshot).Reachable s)
    (finished : s.phase = .finished) :
    s.stage.pages.map (·.index) = r.indexes.filter r.plannable ∧
    s.stage.previewPages = r.indexes.filter r.plannable ∧
    (s.stage.pages.map (·.index)).Pairwise (· < ·) ∧
    s.completed = (r.indexes.filter r.plannable).length ∧
    ((∀ index ∈ r.indexes, r.plannable index = true) →
      s.stage.pages.map (·.index) = r.indexes ∧ s.completed = r.indexes.length) ∧
    s.stage.pages = (s.windows.flatMap fun entry =>
      merge entry.1.plan.indexes entry.1.rendered entry.2) ∧
    (∀ entry ∈ s.windows,
      (merge entry.1.plan.indexes entry.1.rendered entry.2).filterMap (·.asRendered) =
        entry.1.rendered.zip entry.2 ∧
      entry.2.length = entry.1.rendered.length ∧ (entry.1.images, entry.2) ∈ s.replies) ∧
    ∀ warning ∈ r.skipWarnings r.indexes, warning ∈ s.warned := by
  have inv : s.cursor = r.indexes.length ∧ s.Accounts r [] [] := by
    simpa [Loop.Inv, finished] using Loop.reachable_inv reachable
  obtain ⟨cursor, accounts⟩ := inv
  have whole : r.indexes.take s.cursor = r.indexes := by rw [cursor, List.take_length]
  have indexes : s.stage.pages.map (·.index) = r.indexes.filter r.plannable := by
    have staged := accounts.indexes
    rw [accounts.planned.pages, whole] at staged
    simpa using staged
  have completed : s.completed = (r.indexes.filter r.plannable).length := by
    rw [accounts.completed, ← indexes, List.length_map]
  have pages := accounts.pages
  rw [List.append_nil] at pages
  refine ⟨indexes, accounts.previews.trans indexes, List.isChain_iff_pairwise.mp
    accounts.increasing, completed, ?_, pages, ?_, ?_⟩
  · intro all
    have every := List.filter_eq_self.mpr all
    exact ⟨indexes.trans every, by rw [completed, every]⟩
  · intro entry mem
    obtain ⟨rendered, asked, length⟩ := accounts.recognized entry mem
    exact ⟨merge_rendered _ _ _ length (List.isSublist_iff_sublist.mp rendered), length, asked⟩
  · intro warning mem
    have warned := accounts.planned.warnings
    rw [whole] at warned
    rw [← warned, ← accounts.windows, List.append_nil] at mem
    obtain ⟨planned, entered, found⟩ := List.mem_flatMap.mp mem
    obtain ⟨entry, went, rfl⟩ := List.mem_map.mp entered
    rw [accounts.warned]
    exact List.mem_flatMap.mpr ⟨entry, went, List.mem_append_left _ found⟩

/-- Three pages, of which the second one has no estimate. -/
def badMiddle : Selection where
  indexes := [0, 1, 2]
  pageBytes := fun index => if index = 1 then .error (.invalidInput "no media box") else .ok 1
  fullCap := 5
  fits := by decide
  fullCap_pos := by decide
  processingWindowSize := 3
  size_pos := by decide

/-- The one window of these pages, rendered and recognized. -/
def badMiddleRun : List (Loop.Action Nat Nat) :=
  [.advance, .rendered [⟨0, 10⟩, ⟨2, 12⟩] [], .recognized [20, 22], .advance, .advance, .advance,
    .advance, .advance]

/-- Where that run ends. -/
def badMiddleEnd : Loop Nat Nat :=
  let warning := pageSkipped 1 (VlmError.invalidInput "no media box").display
  let window : WindowState Nat := ⟨⟨[0, 2], 2, .slot, 3⟩, [warning], [⟨0, 10⟩, ⟨2, 12⟩], []⟩
  ⟨3, ⟨0, Nat.two_pos⟩, none, none, ⟨[0, 2], [.rendered ⟨0, 10⟩ 20, .rendered ⟨2, 12⟩ 22]⟩, 2, [warning], .finished,
    [(window.plan, [warning])], [([10, 12], [20, 22])], [(window, [20, 22])]⟩

theorem badMiddle_reachable : (badMiddle.machine Nat Nat).Reachable badMiddleEnd :=
  Machine.Reachable.start.play (show (badMiddle.machine Nat Nat).play _ badMiddleRun = some _ from rfl)

/-- The page in the middle cannot be planned, and the others are staged. -/
theorem badMiddle_pages : badMiddleEnd.stage.pages.map (·.index) = [0, 2] :=
  (finished_pages badMiddle_reachable rfl).1

/-- A run that finishes without one of its pages. -/
theorem page_dropped :
    ∃ s : Loop Nat Nat, (badMiddle.machine Nat Nat).Reachable s ∧ s.phase = .finished ∧
      s.stage.pages.map (·.index) = [0, 2] ∧ s.completed = 2 ∧ badMiddle.indexes = [0, 1, 2] :=
  ⟨badMiddleEnd, badMiddle_reachable, rfl, rfl, rfl, rfl⟩

end Results

end Mineru.Route
