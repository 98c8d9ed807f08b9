import Mineru.Workers.Drain

/-!
# A drain is a barrier

The invariant follows the owners that have not finished: as long as a registry accepts, they are in
it, and from then on in the hands of every drain that has not returned. So the registry may change
hands a second time only when they all have finished, which the gate of the raster workers ensures.
The office workers have no gate.

Both registries are one machine with two step functions, and share the lemmas about their steps
(`Inv.reap`, `Inv.spawn`, `Inv.take`, `Inv.join`, `Inv.ret`). They differ in when a drain may take
the registry: `overlapping_drains` is a run that the office workers allow and the others do not.

An owner may finish at any time or never. A drain is a barrier in the sense that it does not return
before; that it returns is not claimed.
-/

set_option autoImplicit false

namespace Mineru.Workers

open Logic

/-- Every owner ever admitted has finished. -/
def Registry.AllFinished (s : Registry) : Prop := ∀ owner < s.admitted, owner ∈ s.finished

/-- When a drain has returned, every owner ever admitted has finished. -/
def Barrier (s : Registry) : Prop := .returned ∈ s.drains → s.AllFinished

/-- A drain has closed the admission. -/
def Registry.Closing (s : Registry) : Prop :=
  .returned ∈ s.drains ∨ ∃ left, .joining left ∈ s.drains

structure Inv (s : Registry) : Prop where
  accepts : s.accepting = true → ¬ s.Closing
  held : s.accepting = true → ∀ owner < s.admitted, owner ∈ s.finished ∨ owner ∈ s.owners
  closed : s.accepting = false → s.owners = [] ∧ s.Closing
  joining : ∀ left, .joining left ∈ s.drains → ∀ owner < s.admitted,
    owner ∈ s.finished ∨ owner ∈ left
  returned : Barrier s

section Steps

variable {s t : Registry} {reply : Reply} {d : Nat}

theorem mem_set_of {drains : List Drain} {d : Nat} {drain other : Drain}
    (h : other ∈ drains.set d drain) : other = drain ∨ other ∈ drains := by
  rcases List.mem_or_eq_of_mem_set h with mem | is
  · exact .inr mem
  · exact .inl is

theorem Inv.reap (h : Inv s) : Inv s.reap where
  accepts := h.accepts
  held open_ owner small := by
    rcases h.held open_ owner small with done | there
    · exact .inl done
    · by_cases done : owner ∈ s.finished
      · exact .inl done
      · exact .inr (List.mem_filter.mpr ⟨there, by simpa using done⟩)
  closed shut := by
    obtain ⟨none, closing⟩ := h.closed shut
    exact ⟨by simp [Registry.reap, none], closing⟩
  joining := h.joining
  returned := h.returned

theorem Inv.spawn (h : Inv s) (open_ : s.accepting = true) : Inv s.spawn where
  accepts := h.accepts
  held _ owner small := by
    rcases Nat.lt_succ_iff_lt_or_eq.mp small with before | rfl
    · rcases h.held open_ owner before with done | there
      · exact .inl done
      · exact .inr (List.mem_append_left _ there)
    · exact .inr (by simp [Registry.spawn])
  closed shut := by
    have same : s.accepting = false := shut
    rw [open_] at same
    cases same
  joining left mem := absurd (.inr ⟨left, mem⟩) (h.accepts open_)
  returned mem := absurd (.inl mem) (h.accepts open_)

/-- A drain may take the registry when it is still open, or when all owners have finished. -/
theorem Inv.take (h : Inv s) (called : s.drains[d]? = some .called)
    (free : s.accepting = false → s.AllFinished) : Inv (s.take d) := by
  have inside : d < s.drains.length := (List.getElem?_eq_some_iff.mp called).1
  have there : Drain.joining s.owners ∈ s.drains.set d (.joining s.owners) :=
    List.mem_set inside _
  have pending : ∀ owner < s.admitted, owner ∈ s.finished ∨ owner ∈ s.owners := by
    intro owner small
    cases accepting : s.accepting with
    | true => exact h.held accepting owner small
    | false => exact .inl (free accepting owner small)
  refine ⟨fun open_ => (by cases open_), fun open_ => (by cases open_),
    fun _ => ⟨rfl, .inr ⟨_, there⟩⟩, ?_, ?_⟩
  · intro left mem owner small
    rcases mem_set_of mem with is | before
    · cases is
      exact pending owner small
    · exact h.joining left before owner small
  · intro mem
    rcases mem_set_of mem with is | before
    · cases is
    · exact h.returned before

theorem Inv.join {left : List Nat} {owner : Nat} (h : Inv s)
    (joining : s.drains[d]? = some (.joining left)) (done : owner ∈ s.finished) :
    Inv { s with drains := s.drains.set d (.joining (left.erase owner)) } := by
  have mem : Drain.joining left ∈ s.drains := List.mem_of_getElem? joining
  have inside : d < s.drains.length := (List.getElem?_eq_some_iff.mp joining).1
  refine ⟨fun open_ => absurd (.inr ⟨left, mem⟩) (h.accepts open_), h.held, fun shut =>
    ⟨(h.closed shut).1, .inr ⟨_, List.mem_set inside _⟩⟩, ?_, ?_⟩
  · intro left' mem' other small
    rcases mem_set_of mem' with is | before
    · cases is
      by_cases same : other = owner
      · exact .inl (same ▸ done)
      · rcases h.joining left mem other small with finished | waits
        · exact .inl finished
        · exact .inr ((List.mem_erase_of_ne same).mpr waits)
    · exact h.joining left' before other small
  · intro returned
    rcases mem_set_of returned with is | before
    · cases is
    · exact h.returned before

theorem Inv.ret (h : Inv s) (joined : s.drains[d]? = some (.joining [])) :
    Inv { s with drains := s.drains.set d .returned } := by
  have mem : Drain.joining [] ∈ s.drains := List.mem_of_getElem? joined
  have inside : d < s.drains.length := (List.getElem?_eq_some_iff.mp joined).1
  refine ⟨fun open_ => absurd (.inr ⟨[], mem⟩) (h.accepts open_), h.held, fun shut =>
    ⟨(h.closed shut).1, .inl (List.mem_set inside _)⟩, ?_, ?_⟩
  · intro left mem' owner small
    rcases mem_set_of mem' with is | before
    · cases is
    · exact h.joining left before owner small
  · intro _ owner small
    rcases h.joining [] mem owner small with done | waits
    · exact done
    · cases waits

theorem Inv.common {a : Action} (h : Inv s) (taken : common s a = some (t, reply)) : Inv t := by
  cases a with
  | finish owner =>
    simp only [Workers.common] at taken
    split at taken
    · cases taken
      have more : ∀ other, other ∈ s.finished → other ∈ owner :: s.finished := fun _ =>
        List.mem_cons_of_mem _
      exact ⟨h.accepts, fun open_ other small => (h.held open_ other small).imp_left (more other),
        h.closed, fun left mem other small => (h.joining left mem other small).imp_left (more other),
        fun mem other small => more other (h.returned mem other small)⟩
    · cases taken
  | drain =>
    cases taken
    have old : ∀ {drain}, drain ∈ s.drains ++ [.called] → drain ≠ .called → drain ∈ s.drains := by
      intro drain mem other
      simpa [other] using mem
    have closing : s.Closing → Registry.Closing { s with drains := s.drains ++ [.called] } := by
      rintro (mem | ⟨left, mem⟩)
      · exact .inl (List.mem_append_left _ mem)
      · exact .inr ⟨left, List.mem_append_left _ mem⟩
    refine ⟨?_, h.held, fun shut => ⟨(h.closed shut).1, closing (h.closed shut).2⟩,
      fun left mem => h.joining left (old mem (by simp)), fun mem => h.returned (old mem (by simp))⟩
    rintro open_ (mem | ⟨left, mem⟩)
    · exact h.accepts open_ (.inl (old mem (by simp)))
    · exact h.accepts open_ (.inr ⟨left, old mem (by simp)⟩)
  | join d owner =>
    simp only [Workers.common] at taken
    split at taken
    · rename_i left joining
      split at taken
      · rename_i there
        cases taken
        exact h.join joining there.2
      · cases taken
    · cases taken
  | submit | reap | take | ret => cases taken

theorem start_inv : Inv .start where
  accepts _ closing := by simp [Registry.Closing, Registry.start] at closing
  held _ owner small := by simp [Registry.start] at small
  closed shut := by cases shut
  joining left mem := by simp [Registry.start] at mem
  returned mem := by simp [Registry.start] at mem

end Steps

/-! ## The raster workers -/

namespace RasterWorkers

/-- A drain that has not returned holds the gate. -/
def Gated (s : Registry) : Prop :=
  ∀ d left, s.drains[d]? = some (.joining left) → s.drainGate = some d

variable {s t : Registry} {a : Action} {reply : Reply}

theorem gated_common (h : Gated s) (taken : common s a = some (t, reply)) : Gated t := by
  cases a with
  | finish owner =>
    simp only [common] at taken
    split at taken
    · cases taken
      exact h
    · cases taken
  | drain =>
    cases taken
    intro d left found
    rw [List.getElem?_append] at found
    split at found
    · exact h d left found
    · have mem := List.mem_of_getElem? found
      simp at mem
  | join d owner =>
    simp only [common] at taken
    split at taken
    · rename_i left joining
      split at taken
      · cases taken
        intro d' left' found
        rw [List.getElem?_set] at found
        split at found
        · rename_i same
          subst same
          exact h d left joining
        · exact h d' left' found
      · cases taken
    · cases taken
  | submit | reap | take | ret => cases taken

/-- Behind an open gate, no drain is waiting. -/
theorem allFinished_of_free (h : Inv s) (gated : Gated s) (free : s.drainGate = none)
    (shut : s.accepting = false) : s.AllFinished := by
  rcases (h.closed shut).2 with returned | ⟨left, joining⟩
  · exact h.returned returned
  · obtain ⟨d, inside, is⟩ := List.mem_iff_getElem.mp joining
    have holds := gated d left (by rw [List.getElem?_eq_getElem inside, is])
    rw [free] at holds
    cases holds

theorem step_inv (h : Inv s) (gated : Gated s) (taken : step s a = some (t, reply)) :
    Inv t ∧ Gated t := by
  cases a with
  | submit =>
    simp only [step] at taken
    split at taken
    · rename_i accepting
      cases taken
      exact ⟨h.spawn accepting, gated⟩
    · cases taken
      exact ⟨h, gated⟩
  | reap =>
    cases taken
    exact ⟨h.reap, gated⟩
  | take d =>
    simp only [step] at taken
    split at taken
    · rename_i may
      cases taken
      have inv := h.take may.1 (allFinished_of_free h gated may.2)
      refine ⟨⟨inv.accepts, inv.held, inv.closed, inv.joining, inv.returned⟩, ?_⟩
      intro d' left found
      by_cases same : d = d'
      · rw [same]
      · have before : s.drains[d']? = some (.joining left) := by
          rw [← List.getElem?_set_ne same]
          exact found
        have holds := gated d' left before
        rw [may.2] at holds
        cases holds
    · cases taken
  | ret d =>
    simp only [step] at taken
    split at taken
    · rename_i joined
      cases taken
      have inv := h.ret joined
      refine ⟨⟨inv.accepts, inv.held, inv.closed, inv.joining, inv.returned⟩, ?_⟩
      intro d' left found
      have holds := gated d [] joined
      by_cases same : d = d'
      · subst same
        have mem : (s.drains.set d .returned)[d]? = some .returned :=
          List.getElem?_set_self (List.getElem?_eq_some_iff.mp joined).1
        rw [show (s.drains.set d .returned)[d]? = some (.joining left) from found] at mem
        cases mem
      · have before : s.drains[d']? = some (.joining left) := by
          rw [← List.getElem?_set_ne same]
          exact found
        have other := gated d' left before
        rw [holds] at other
        exact absurd (Option.some.inj other) same
    · cases taken
  | join d owner =>
    simp only [step] at taken
    split at taken
    · exact ⟨h.common taken, gated_common gated taken⟩
    · cases taken
  | finish owner =>
    exact ⟨h.common (a := .finish owner) taken, gated_common (a := .finish owner) gated taken⟩
  | drain => exact ⟨h.common (a := .drain) taken, gated_common (a := .drain) gated taken⟩

theorem reachable_inv (reachable : machine.Reachable s) : Inv s ∧ Gated s := by
  apply Machine.Reachable.invariant (P := fun s => Inv s ∧ Gated s) _ _ reachable
  · exact ⟨start_inv, fun d left found => by simp [machine, Registry.start] at found⟩
  · exact fun s a t reply _ inv taken => step_inv inv.1 inv.2 taken

end RasterWorkers

/-! ## The office workers -/

namespace OfficeWorkers

variable {s t : Registry} {a : Action} {reply : Reply}

theorem step_inv (h : Inv s) (allowed : ordered s a = true) (taken : step s a = some (t, reply)) :
    Inv t := by
  cases a with
  | submit =>
    simp only [step] at taken
    split at taken
    · rename_i accepting
      cases taken
      exact h.reap.spawn accepting
    · cases taken
      exact h.reap
  | reap => cases taken
  | take d =>
    simp only [step] at taken
    split at taken
    · rename_i called
      cases taken
      apply h.take called
      intro shut owner small
      rcases (h.closed shut).2 with returned | ⟨left, joining⟩
      · exact h.returned returned owner small
      · rcases h.joining left joining owner small with done | waits
        · exact done
        · have all := List.all_eq_true.mp allowed _ joining
          simpa using List.all_eq_true.mp all owner waits
    · cases taken
  | ret d =>
    simp only [step] at taken
    split at taken
    · rename_i joined
      cases taken
      exact h.ret joined
    · cases taken
  | join d owner => exact h.common (a := .join d owner) taken
  | finish owner => exact h.common (a := .finish owner) taken
  | drain => exact h.common (a := .drain) taken

theorem reachable_inv (reachable : (machine.restrict ordered).Reachable s) : Inv s := by
  apply Machine.Reachable.invariant (P := Inv) start_inv _ reachable
  intro s a t reply _ inv taken
  simp only [Machine.restrict] at taken
  split at taken
  · rename_i allowed
    exact step_inv inv allowed taken
  · cases taken

end OfficeWorkers

/-! ## Admission -/

/-- Behind a drain that has closed the admission, a submission is turned away without an owner. -/
def TurnsAway (step : Registry → Action → Option (Registry × Reply)) (s : Registry) : Prop :=
  s.Closing → ∀ t reply, step s .submit = some (t, reply) →
    reply = .draining ∧ t.admitted = s.admitted

section Admission

variable {s t : Registry} {a : Action} {reply : Reply}

/-- The steps of both registries open no closed admission. -/
theorem common_accepts (h : s.accepting = true → ¬ s.Closing)
    (taken : common s a = some (t, reply)) : t.accepting = true → ¬ t.Closing := by
  cases a with
  | finish owner =>
    simp only [common] at taken
    split at taken
    · cases taken
      exact h
    · cases taken
  | drain =>
    cases taken
    rintro open_ (mem | ⟨left, mem⟩)
    · exact h open_ (.inl (by simpa using mem))
    · exact h open_ (.inr ⟨left, by simpa using mem⟩)
  | join d owner =>
    simp only [common] at taken
    split at taken
    · rename_i left joining
      split at taken
      · cases taken
        exact fun open_ => absurd (.inr ⟨left, List.mem_of_getElem? joining⟩) (h open_)
      · cases taken
    · cases taken
  | submit | reap | take | ret => cases taken

theorem OfficeWorkers.accepts (reachable : OfficeWorkers.machine.Reachable s) :
    s.accepting = true → ¬ s.Closing := by
  apply Machine.Reachable.invariant (P := fun s => s.accepting = true → ¬ s.Closing)
    start_inv.accepts _ reachable
  intro s a t reply _ h taken
  cases a with
  | submit =>
    simp only [OfficeWorkers.machine, OfficeWorkers.step] at taken
    split at taken
    · cases taken
      exact h
    · cases taken
      exact h
  | reap => cases taken
  | take d =>
    simp only [OfficeWorkers.machine, OfficeWorkers.step] at taken
    split at taken
    · cases taken
      intro open_
      cases open_
    · cases taken
  | ret d =>
    simp only [OfficeWorkers.machine, OfficeWorkers.step] at taken
    split at taken
    · rename_i joined
      cases taken
      exact fun open_ => absurd (.inr ⟨[], List.mem_of_getElem? joined⟩) (h open_)
    · cases taken
  | join d owner => exact common_accepts (a := .join d owner) h taken
  | finish owner => exact common_accepts (a := .finish owner) h taken
  | drain => exact common_accepts (a := .drain) h taken

theorem raster_turnsAway (accepts : s.accepting = true → ¬ s.Closing) :
    TurnsAway RasterWorkers.step s := by
  intro closing t reply taken
  simp only [RasterWorkers.step] at taken
  split at taken
  · rename_i open_
    exact absurd closing (accepts open_)
  · cases taken
    exact ⟨rfl, rfl⟩

theorem office_turnsAway (accepts : s.accepting = true → ¬ s.Closing) :
    TurnsAway OfficeWorkers.step s := by
  intro closing t reply taken
  simp only [OfficeWorkers.step] at taken
  split at taken
  · rename_i open_
    exact absurd closing (accepts open_)
  · cases taken
    exact ⟨rfl, rfl⟩

end Admission

/-- **A drain is a barrier** of the raster workers in every run, and of the office workers in every
run in which a drain takes the registry only when the owners of earlier drains have finished. Behind a
drain both turn submissions away. -/
theorem drain_barrier (raster office orderedOffice : Registry)
    (reachable : RasterWorkers.machine.Reachable raster)
    (reachable' : OfficeWorkers.machine.Reachable office)
    (ordered : (OfficeWorkers.machine.restrict OfficeWorkers.ordered).Reachable orderedOffice) :
    Barrier raster ∧ TurnsAway RasterWorkers.step raster ∧ TurnsAway OfficeWorkers.step office ∧
      Barrier orderedOffice := by
  obtain ⟨inv, -⟩ := RasterWorkers.reachable_inv reachable
  exact ⟨inv.returned, raster_turnsAway inv.accepts,
    office_turnsAway (OfficeWorkers.accepts reachable'),
    (OfficeWorkers.reachable_inv ordered).returned⟩

/-- A job ends and is reaped, two others run while two drains are called, the second drain waits for
the gate of the first one, and a submission comes too late. -/
def gatedRun : List Action := [.submit, .finish 0, .reap, .submit, .submit, .drain, .drain, .take 0,
  .finish 2, .finish 1, .join 0 1, .join 0 2, .ret 0, .take 1, .ret 1, .submit]

/-- The second drain takes the registry when all owners have finished, and returns while the first
one still joins. -/
def orderedRun : List Action := [.submit, .finish 0, .submit, .submit, .drain, .drain, .take 0,
  .finish 2, .join 0 2, .finish 1, .take 1, .ret 1, .submit]

/-- Two drains overlap, and the second one returns while the owner is running. -/
def overlappingRun : List Action := [.submit, .drain, .drain, .take 0, .take 1, .ret 1]

/-- Two drains, one behind the other, of either registry. -/
theorem drained_barrier_two :
    ∃ raster office, RasterWorkers.machine.play .start gatedRun = some raster ∧
      (OfficeWorkers.machine.restrict OfficeWorkers.ordered).play .start orderedRun = some office ∧
      raster.drains = [.returned, .returned] ∧ raster.AllFinished ∧
      office.drains = [.joining [1], .returned] ∧ office.AllFinished := by
  have gated : RasterWorkers.machine.play .start gatedRun =
    some ⟨false, [], 3, [1, 2, 0], [.returned, .returned], none⟩ := rfl
  have free : OfficeWorkers.machine.play .start orderedRun =
    some ⟨false, [], 3, [1, 2, 0], [.joining [1], .returned], none⟩ := rfl
  have ordered : (OfficeWorkers.machine.restrict OfficeWorkers.ordered).play .start orderedRun =
    some ⟨false, [], 3, [1, 2, 0], [.joining [1], .returned], none⟩ := rfl
  obtain ⟨raster, -, -, office⟩ := drain_barrier _ _ _ (Machine.Reachable.start.play gated)
    (Machine.Reachable.start.play free) (Machine.Reachable.start.play ordered)
  exact ⟨_, _, gated, ordered, rfl, raster (by decide), rfl, office (by decide)⟩

/-- An office drain returns while an owner is still running. -/
theorem overlapping_drains :
    ∃ s, OfficeWorkers.machine.Reachable s ∧ ¬ Barrier s := by
  refine ⟨⟨false, [], 1, [], [.joining [0], .returned], none⟩,
    Machine.Reachable.start.play
      (show OfficeWorkers.machine.play _ overlappingRun = some _ from rfl), fun barrier => ?_⟩
  have done := barrier (by simp) 0 (by decide)
  cases done

end Mineru.Workers
