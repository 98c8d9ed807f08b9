import Mathlib

/-!
# Programs that return, fail or panic

A function of a checked language ends in one of three ways: it returns a value, it returns its own
error, or it panics (an index out of range, an overflow that the build checks). `Checked ε α` keeps
the three apart, and `Ensures x P` is the triple that the proofs compose: `x` does not panic, and if
it returns a value, the value satisfies `P`. An error is always allowed.

The rules follow the program: `Ensures.bind` for sequencing, `Ensures.reject` for an early return on
a condition, `Ensures.okOr` for `ok_or`, and `Ensures.weaken` for a weaker postcondition.
-/

set_option autoImplicit false

namespace Mineru.Logic

universe u v

/-- A sequence that returns has returned from both parts. -/
theorem bind_ok {ε α β : Type u} {x : Except ε α} {f : α → Except ε β} {b : β}
    (h : x >>= f = .ok b) : ∃ a, x = .ok a ∧ f a = .ok b := by
  cases x with
  | error e => cases h
  | ok a => exact ⟨a, rfl, h⟩

/-- How a run ends without a value. -/
inductive Halt (ε : Type u) where
  | err (e : ε)
  | panic
  deriving DecidableEq, Repr

/-- A run that may end without a value. -/
abbrev Checked (ε : Type u) (α : Type v) := Except (Halt ε) α

namespace Checked

variable {ε : Type u} {α β : Type v}

/-- `return Err(e)`. -/
def fail (e : ε) : Checked ε α := .error (.err e)

/-- A result that cannot panic. -/
def ofExcept : Except ε α → Checked ε α
  | .ok a => .ok a
  | .error e => .error (.err e)

/-- `if c { return Err(e) }`. -/
def reject (c : Prop) [Decidable c] (e : ε) : Checked ε PUnit.{v + 1} :=
  if c then fail e else .ok ⟨⟩

/-- `ok_or`. -/
def okOr (o : Option α) (e : ε) : Checked ε α :=
  match o with
  | some a => .ok a
  | none => fail e

theorem ofExcept_ok {x : Except ε α} {a : α} : ofExcept x = .ok a ↔ x = .ok a := by
  rcases x with e | b
  · exact ⟨fun h => (nomatch h), fun h => (nomatch h)⟩
  · exact ⟨fun h => congrArg _ (Except.ok.inj h), fun h => congrArg _ (Except.ok.inj h)⟩

/-- The run does not panic, and a value that it returns satisfies `P`. -/
def Ensures (x : Checked ε α) (P : α → Prop) : Prop :=
  match x with
  | .ok a => P a
  | .error (.err _) => True
  | .error .panic => False

theorem Ensures.ok {a : α} {P : α → Prop} (h : P a) : Ensures (.ok a : Checked ε α) P := h

theorem Ensures.fail {e : ε} {P : α → Prop} : Ensures (Checked.fail e) P := trivial

theorem Ensures.weaken {x : Checked ε α} {P Q : α → Prop} (h : Ensures x P)
    (imp : ∀ a, P a → Q a) : Ensures x Q := by
  rcases x with (_ | _) | a
  · trivial
  · exact h
  · exact imp a h

/-- Sequencing: the second part may use what the first one ensures. -/
theorem Ensures.bind {x : Checked ε α} {f : α → Checked ε β} {P : α → Prop} {Q : β → Prop}
    (h : Ensures x P) (rest : ∀ a, P a → Ensures (f a) Q) : Ensures (x >>= f) Q := by
  rcases x with (_ | _) | a
  · trivial
  · exact h
  · exact rest a h

/-- Past an early return its condition is false. -/
theorem Ensures.reject {c : Prop} [Decidable c] {e : ε} :
    Ensures (Checked.reject c e) (fun _ => ¬ c) := by
  unfold Checked.reject
  split
  · trivial
  · assumption

theorem Ensures.okOr {o : Option α} {e : ε} : Ensures (Checked.okOr o e) (fun a => o = some a) := by
  cases o with
  | none => trivial
  | some a => rfl

/-- A branch on a condition. -/
theorem Ensures.ite {c : Prop} [Decidable c] {x y : Checked ε α} {P : α → Prop}
    (pos : c → Ensures x P) (neg : ¬ c → Ensures y P) : Ensures (if c then x else y) P := by
  split
  · exact pos ‹_›
  · exact neg ‹_›

/-- What a returned value satisfies. -/
theorem Ensures.of_ok {x : Checked ε α} {P : α → Prop} (h : Ensures x P) {a : α} (run : x = .ok a) :
    P a := by
  rw [run] at h
  exact h

/-- The run does not panic, a value that it returns satisfies `P`, and its error satisfies `E`. -/
def EnsuresOr (E : ε → Prop) (x : Checked ε α) (P : α → Prop) : Prop :=
  match x with
  | .ok a => P a
  | .error (.err e) => E e
  | .error .panic => False

theorem EnsuresOr.weaken {E : ε → Prop} {x : Checked ε α} {P Q : α → Prop} (h : EnsuresOr E x P)
    (imp : ∀ a, P a → Q a) : EnsuresOr E x Q := by
  rcases x with (_ | _) | a
  · exact h
  · exact h
  · exact imp a h

theorem EnsuresOr.bind {E : ε → Prop} {x : Checked ε α} {f : α → Checked ε β} {P : α → Prop}
    {Q : β → Prop} (h : EnsuresOr E x P) (rest : ∀ a, P a → EnsuresOr E (f a) Q) :
    EnsuresOr E (x >>= f) Q := by
  rcases x with (_ | _) | a
  · exact h
  · exact h
  · exact rest a h

/-- A loop keeps its invariant if every turn does. -/
theorem EnsuresOr.foldlM {E : ε → Prop} {f : β → α → Checked ε β} {P : β → Prop} {as : List α}
    {b : β} (start : P b) (turn : ∀ b a, a ∈ as → P b → EnsuresOr E (f b a) P) :
    EnsuresOr E (as.foldlM f b) P := by
  induction as generalizing b with
  | nil => exact start
  | cons a as ih =>
    rw [List.foldlM_cons]
    refine (turn b a List.mem_cons_self start).bind fun b' next => ih next ?_
    intro b'' a' mem
    exact turn b'' a' (List.mem_cons_of_mem a mem)

/-- The run does not panic. -/
theorem Ensures.ne_panic {x : Checked ε α} {P : α → Prop} (h : Ensures x P) :
    x ≠ .error .panic := by
  rintro rfl
  exact h

end Checked

end Mineru.Logic
