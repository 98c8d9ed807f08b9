import Mineru.Remote.Publication

/-!
# Programs and the gate

What a program does before the gate, inside of it and after it, and how that goes through `andThen`.
Inside, the flag is down once it was checked: it cannot be set while the gate is held.

`Outside` is a statement about all runs of a program that begins outside of the gate, and `Held` one
about a stretch inside of it, with the events that the stretch publishes. Programs are trees of
operations, so each rule is an induction over one step.

The rules know nothing of archives or previews; those are in the laws about jobs.
-/

set_option autoImplicit false

namespace Mineru.Remote

open Logic Archive

section Programs

variable {α β : Type}

/-- An operation that is neither at the gate nor public, whatever its reply. -/
def plainRule : ∀ op, (Reply op → Unit → Prop) → Unit → Prop
  | .check, P, _ => ∀ flag, P flag ()
  | .look, P, _ => ∀ look, P look ()
  | .own, P, _ => ∀ ok, P ok ()
  | .lock, _, _ => False
  | .unlock, _, _ => False
  | .publish _, _, _ => False
  | .reopen _, _, _ => False
  | .undo _, _, _ => False

/-- A program that never comes to the gate nor publishes, and ends with `Q`. -/
def Plain (Q : β → Prop) (p : Prog β) : Prop := p.Wp plainRule (fun b _ => Q b) ()

/-- An operation inside of the gate, with the flag down. -/
def heldRule : ∀ op, (Reply op → List Event → Prop) → List Event → Prop
  | .check, P, log => P false log
  | .look, P, log => ∀ look, P look log
  | .own, P, log => ∀ ok, P ok log
  | .lock, _, _ => False
  | .unlock, _, _ => False
  | .publish e, P, log => P false log ∧ P true (log ++ [e])
  | .reopen e, P, log => P false (log ++ [.stuck e]) ∧ P true log
  | .undo e, P, log => P false (log ++ [.stuck e]) ∧ P true (log ++ [e])

/-- Inside of the gate, with the flag down: the program ends there with `Q`. -/
def Held (Q : β → List Event → Prop) (p : Prog β) (log : List Event) : Prop := p.Wp heldRule Q log

/-- The program returns what is decided. -/
def Returns (b : β) (p : Prog β) : Prop := Plain (fun b' => b' = b) p

/-- Inside of the gate, with the flag down: when the program leaves the gate, what it returns is
decided and `S` holds of it. -/
def Inside (S : β → List Event → Prop) : Prog β → List Event → Prop
  | .ret _, _ => False
  | .step .check next, log => Inside S (next false) log
  | .step .look next, log => ∀ look, Inside S (next look) log
  | .step .own next, log => ∀ ok, Inside S (next ok) log
  | .step .lock _, _ => False
  | .step .unlock next, log => ∃ b, Returns b (next ()) ∧ S b log
  | .step (.publish e) next, log => Inside S (next false) log ∧ Inside S (next true) (log ++ [e])
  | .step (.reopen e) next, log =>
    Inside S (next false) (log ++ [.stuck e]) ∧ Inside S (next true) log
  | .step (.undo e) next, log =>
    Inside S (next false) (log ++ [.stuck e]) ∧ Inside S (next true) (log ++ [e])

/-- The program leaves the gate, and nothing was published. -/
def Refused (S : β → List Event → Prop) : Prog β → Prop
  | .step .unlock next => ∃ b, Returns b (next ()) ∧ S b []
  | _ => False

/-- The check after the gate was taken. -/
def Entering (S : β → List Event → Prop) : Prog β → Prop
  | .step .check next => Inside S (next false) [] ∧ Refused S (next true)
  | _ => False

/-- Before the gate. -/
def Outside (S : β → List Event → Prop) : Prog β → Prop
  | .ret b => S b []
  | .step .check next => ∀ flag, Outside S (next flag)
  | .step .look next => ∀ look, Outside S (next look)
  | .step .own next => ∀ ok, Outside S (next ok)
  | .step .lock next => Entering S (next ())
  | .step .unlock _ => False
  | .step (.publish _) _ => False
  | .step (.reopen _) _ => False
  | .step (.undo _) _ => False

variable {Q : α → Prop} {R : α → List Event → Prop} {S : β → List Event → Prop}

theorem plainRule_mono : Program.Monotone plainRule := by
  intro op P P' s imp h
  cases op with
  | check | look | own => exact fun reply => imp reply _ (h reply)
  | lock | unlock | publish | reopen | undo => exact h.elim

theorem heldRule_mono : Program.Monotone heldRule := by
  intro op P P' s imp h
  cases op with
  | check => exact imp _ _ h
  | look | own => exact fun reply => imp reply _ (h reply)
  | lock | unlock => exact h.elim
  | publish | reopen | undo => exact ⟨imp _ _ h.1, imp _ _ h.2⟩

theorem Plain.andThen {Q' : β → Prop} {p : Prog α} {f : α → Prog β} (h : Plain Q p)
    (next : ∀ a, Q a → Plain Q' (f a)) : Plain Q' (p.andThen f) :=
  Program.Wp.andThen plainRule_mono h fun a _ => next a

theorem Plain.weaken {Q' : α → Prop} {p : Prog α} (h : Plain Q p) (imp : ∀ a, Q a → Q' a) :
    Plain Q' p :=
  Program.Wp.weaken plainRule_mono h fun a _ => imp a

/-- A program before the gate, and then another one. -/
theorem Plain.outside {p : Prog α} {f : α → Prog β} (h : Plain Q p)
    (next : ∀ a, Q a → Outside S (f a)) : Outside S (p.andThen f) := by
  induction p with
  | ret a => exact next a h
  | step op k ih =>
    cases op with
    | check | look | own => exact fun reply => ih reply (h reply)
    | lock | unlock | publish | reopen | undo => exact h.elim

theorem Plain.ends {p : Prog β} (h : Plain (fun b => S b []) p) : Outside S p := by
  induction p with
  | ret b => exact h
  | step op k ih =>
    cases op with
    | check | look | own => exact fun reply => ih reply (h reply)
    | lock | unlock | publish | reopen | undo => exact h.elim

theorem Held.weaken {R' : α → List Event → Prop} {p : Prog α} {log : List Event} (h : Held R p log)
    (imp : ∀ a l, R a l → R' a l) : Held R' p log :=
  Program.Wp.weaken heldRule_mono h imp

theorem Held.andThen {S' : β → List Event → Prop} {p : Prog α} {f : α → Prog β} {log : List Event}
    (h : Held R p log) (next : ∀ a l, R a l → Held S' (f a) l) : Held S' (p.andThen f) log :=
  Program.Wp.andThen heldRule_mono h next

theorem Held.inside {p : Prog α} {f : α → Prog β} {log : List Event} (h : Held R p log)
    (next : ∀ a l, R a l → Inside S (f a) l) : Inside S (p.andThen f) log := by
  induction p generalizing log with
  | ret a => exact next a log h
  | step op k ih =>
    cases op with
    | check => exact ih _ h
    | look | own => exact fun reply => ih reply (h reply)
    | lock | unlock => exact h.elim
    | publish | reopen | undo => exact ⟨ih _ h.1, ih _ h.2⟩

section Tails

-- What comes after a job has no part in the gate and returns the same.
variable {T : α → List Event → Prop} {f : α → Prog α}

theorem Returns.andThen {a : α} {p : Prog α} (h : Returns a p) (same : ∀ a, Returns a (f a)) :
    Returns a (p.andThen f) :=
  Plain.andThen h fun a' is => is ▸ same a'

theorem Inside.andThen {p : Prog α} {log : List Event} (h : Inside T p log)
    (same : ∀ a, Returns a (f a)) : Inside T (p.andThen f) log := by
  induction p generalizing log with
  | ret a => exact h.elim
  | step op k ih =>
    cases op with
    | check => exact ih _ h
    | look | own => exact fun reply => ih reply (h reply)
    | lock => exact h.elim
    | unlock =>
      obtain ⟨a, returns, settled⟩ := h
      exact ⟨a, returns.andThen same, settled⟩
    | publish | reopen | undo => exact ⟨ih _ h.1, ih _ h.2⟩

theorem Refused.andThen {p : Prog α} (h : Refused T p) (same : ∀ a, Returns a (f a)) :
    Refused T (p.andThen f) := by
  cases p with
  | ret a => exact h.elim
  | step op k =>
    cases op with
    | unlock =>
      obtain ⟨a, returns, settled⟩ := h
      exact ⟨a, returns.andThen same, settled⟩
    | check | look | own | lock | publish | reopen | undo => exact h.elim

theorem Entering.andThen {p : Prog α} (h : Entering T p) (same : ∀ a, Returns a (f a)) :
    Entering T (p.andThen f) := by
  cases p with
  | ret a => exact h.elim
  | step op k =>
    cases op with
    | check => exact ⟨h.1.andThen same, h.2.andThen same⟩
    | unlock | look | own | lock | publish | reopen | undo => exact h.elim

theorem Outside.andThen {p : Prog α} (h : Outside T p) (same : ∀ a, Returns a (f a)) :
    Outside T (p.andThen f) := by
  induction p with
  | ret a => exact ((same a).weaken fun a' is => is ▸ h).ends
  | step op k ih =>
    cases op with
    | check | look | own => exact fun reply => ih reply (h reply)
    | lock => exact Entering.andThen h same
    | unlock | publish | reopen | undo => exact h.elim

end Tails

end Programs

end Mineru.Remote
