import Mineru.Logic.Checked

/-!
# Checked arithmetic beside exact numbers

A program that checks its additions does what the same program does with unbounded numbers, as long as
every sum stays within the bound, and it panics at the first one that does not. `Exactly x a p` says
this of a run `x`: it returns `a` if `p` holds, and it panics if not. The rules follow the program, so
that the condition `p` of a loop is what its turns ask for, each in the state that the exact loop has
reached (`Along`).
-/

set_option autoImplicit false

namespace Mineru.Logic

universe u

namespace Checked

variable {ε α β : Type}

/-- An addition of numbers up to a bound. -/
def add (bound a b : Nat) : Checked ε Nat := if a + b ≤ bound then .ok (a + b) else .error .panic

/-- The run returns `a` if `p` holds, and it panics if not. -/
structure Exactly (x : Checked ε α) (a : α) (p : Prop) : Prop where
  value : p → x = .ok a
  halt : ¬ p → x = .error .panic

theorem Exactly.ok (a : α) : Exactly (.ok a : Checked ε α) a True :=
  ⟨fun _ => rfl, fun no => absurd trivial no⟩

theorem Exactly.add (bound a b : Nat) :
    Exactly (Checked.add bound a b : Checked ε Nat) (a + b) (a + b ≤ bound) :=
  ⟨fun fits => if_pos fits, fun no => if_neg no⟩

/-- Sequencing: the second part asks for its condition at the value of the first. -/
theorem Exactly.bind {x : Checked ε α} {f : α → Checked ε β} {a : α} {b : β} {p q : Prop}
    (first : Exactly x a p) (second : Exactly (f a) b q) : Exactly (x >>= f) b (p ∧ q) where
  value := fun ⟨hp, hq⟩ => by
    rw [first.value hp]
    exact second.value hq
  halt := fun no => by
    by_cases hp : p
    · rw [first.value hp]
      exact second.halt fun hq => no ⟨hp, hq⟩
    · rw [first.halt hp]
      rfl

theorem Exactly.map {x : Checked ε α} {a : α} {p : Prop} (run : Exactly x a p) (f : α → β) :
    Exactly (x >>= fun a => .ok (f a)) (f a) p where
  value := fun hp => by
    rw [run.value hp]
    rfl
  halt := fun no => by
    rw [run.halt no]
    rfl

theorem Exactly.congr {x : Checked ε α} {a : α} {p q : Prop} (run : Exactly x a p)
    (same : p ↔ q) : Exactly x a q :=
  ⟨fun hq => run.value (same.mpr hq), fun no => run.halt (mt same.mp no)⟩

/-- Every turn of a loop meets its condition in the state that the exact loop has reached. -/
def Along (g : β → α → β) (P : β → α → Prop) : β → List α → Prop
  | _, [] => True
  | b, a :: as => P b a ∧ Along g P (g b a) as

/-- A condition on the turns alone. -/
theorem along_iff (g : β → α → β) (Q : α → Prop) (b : β) (as : List α) :
    Along g (fun _ a => Q a) b as ↔ ∀ a ∈ as, Q a := by
  induction as generalizing b with
  | nil => simp [Along]
  | cons a as ih => simp [Along, ih]

theorem Exactly.foldlM {f : β → α → Checked ε β} {g : β → α → β} {P : β → α → Prop}
    (turn : ∀ b a, Exactly (f b a) (g b a) (P b a)) (as : List α) (b : β) :
    Exactly (as.foldlM f b) (as.foldl g b) (Along g P b as) := by
  induction as generalizing b with
  | nil => exact Exactly.ok b
  | cons a as ih =>
    rw [List.foldlM_cons]
    exact (turn b a).bind (ih (g b a))

theorem Exactly.forM {f : α → Checked ε PUnit.{1}} {P : α → Prop}
    (turn : ∀ a, Exactly (f a) ⟨⟩ (P a)) (as : List α) :
    Exactly (as.forM f) ⟨⟩ (∀ a ∈ as, P a) := by
  induction as with
  | nil => exact (Exactly.ok PUnit.unit).congr (by simp)
  | cons a as ih =>
    exact ((turn a).bind ih).congr List.forall_mem_cons.symm

end Checked

end Mineru.Logic
