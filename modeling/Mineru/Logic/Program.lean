import Mathlib

/-!
# Programs as trees

A `Program` is a tree of operations: it ends with a value, or it does one operation and goes on by
the reply. Its steps can be interleaved with those of other programs, and what it does is proved on
the tree.

`Wp` is the weakest precondition of a program, given the one of each operation; it goes through
`andThen`, and grows with what is asked for at the end.
-/

set_option autoImplicit false

namespace Mineru.Logic

universe u v w

inductive Program {ο : Type u} (ρ : ο → Type v) (α : Type w) where
  | ret (a : α)
  | step (op : ο) (next : ρ op → Program ρ α)

namespace Program

variable {ο : Type u} {ρ : ο → Type v} {α β : Type w}

/-- One program after another. -/
def andThen (p : Program ρ α) (f : α → Program ρ β) : Program ρ β :=
  match p with
  | .ret a => f a
  | .step op next => .step op fun reply => (next reply).andThen f

instance : Monad (Program ρ) where
  pure := .ret
  bind := andThen

/-- The program that does one operation. -/
def perform (op : ο) : Program ρ (ρ op) := .step op .ret

section Wp

variable {σ : Type w} {rule : ∀ op, (ρ op → σ → Prop) → σ → Prop}

/-- The weakest precondition for `Q`: `rule` is the one of an operation, for what has to hold of its
reply and the state after it. -/
def Wp (rule : ∀ op, (ρ op → σ → Prop) → σ → Prop) (Q : α → σ → Prop) :
    Program ρ α → σ → Prop
  | .ret a, s => Q a s
  | .step op next, s => rule op (fun reply t => Wp rule Q (next reply) t) s

/-- What is asked of an operation grows with what is asked for after it. -/
def Monotone (rule : ∀ op, (ρ op → σ → Prop) → σ → Prop) : Prop :=
  ∀ op (P P' : ρ op → σ → Prop) s, (∀ reply t, P reply t → P' reply t) → rule op P s → rule op P' s

theorem Wp.andThen (mono : Monotone rule) {Q : α → σ → Prop} {Q' : β → σ → Prop}
    {p : Program ρ α} {f : α → Program ρ β} {s : σ} (h : p.Wp rule Q s)
    (next : ∀ a t, Q a t → (f a).Wp rule Q' t) : (p.andThen f).Wp rule Q' s := by
  induction p generalizing s with
  | ret a => exact next a s h
  | step op k ih => exact mono op _ _ s (fun reply t => ih reply) h

theorem Wp.weaken (mono : Monotone rule) {Q Q' : α → σ → Prop} {p : Program ρ α} {s : σ}
    (h : p.Wp rule Q s) (imp : ∀ a t, Q a t → Q' a t) : p.Wp rule Q' s := by
  induction p generalizing s with
  | ret a => exact imp a s h
  | step op k ih => exact mono op _ _ s (fun reply t => ih reply) h

end Wp

end Program

end Mineru.Logic
