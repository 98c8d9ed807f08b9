import Mathlib

/-!
# Cutting a text at the matches of a pattern

A pattern says what it finds at the beginning of a text and how long that is. `cut` is the search from
left to right for matches that do not overlap: every match with the text before it, and the text
behind the last one. The laws read a text that is written as gaps and matches.
-/

set_option autoImplicit false

namespace Mineru.Logic.Matches

variable {α β : Type}

/-- What is found at the beginning of a text, and its length. -/
abbrev Pattern (α β : Type) := List α → Option (β × Nat)

/-- Every match with the text before it, and the text behind the last one. -/
abbrev Pieces (α β : Type) := List (List α × β) × List α

/-- A text before the pieces. -/
def before (gap : List α) : Pieces α β → Pieces α β
  | ([], tail) => ([], gap ++ tail)
  | ((first, b) :: found, tail) => ((gap ++ first, b) :: found, tail)

/-- The search; so many elements belong to the last match still. -/
def cut (m : Pattern α β) : Nat → List α → Pieces α β
  | _, [] => ([], [])
  | skip + 1, _ :: t => cut m skip t
  | 0, a :: t =>
    match m (a :: t) with
    | some (b, size) =>
      let rest := cut m (size - 1) t
      (([], b) :: rest.1, rest.2)
    | none => before [a] (cut m 0 t)

/-- No match begins in the gap, when the text follows. -/
def Free (m : Pattern α β) : List α → List α → Prop
  | [], _ => True
  | a :: gap, t => m (a :: (gap ++ t)) = none ∧ Free m gap t

theorem before_nil (p : Pieces α β) : before [] p = p := by
  obtain ⟨_ | ⟨⟨first, b⟩, found⟩, tail⟩ := p <;> rfl

theorem before_before (a b : List α) (p : Pieces α β) :
    before a (before b p) = before (a ++ b) p := by
  obtain ⟨_ | ⟨⟨first, c⟩, found⟩, tail⟩ := p <;> simp [before]

theorem cut_skip (m : Pattern α β) (a t : List α) : cut m a.length (a ++ t) = cut m 0 t := by
  induction a with
  | nil => rfl
  | cons c a ih => exact ih

/-- A match at the beginning. -/
theorem cut_match {m : Pattern α β} {a t : List α} {b : β} (found : m (a ++ t) = some (b, a.length))
    (nonempty : a ≠ []) : cut m 0 (a ++ t) = (([], b) :: (cut m 0 t).1, (cut m 0 t).2) := by
  obtain ⟨c, a, rfl⟩ := List.exists_cons_of_ne_nil nonempty
  rw [List.cons_append] at found ⊢
  rw [cut, found]
  dsimp only
  rw [List.length_cons, Nat.add_sub_cancel, cut_skip]

/-- A gap at the beginning. -/
theorem cut_gap {m : Pattern α β} {gap t : List α} (free : Free m gap t) :
    cut m 0 (gap ++ t) = before gap (cut m 0 t) := by
  induction gap with
  | nil => exact (before_nil _).symm
  | cons a gap ih =>
    rw [List.cons_append, cut, free.1]
    dsimp only
    rw [ih free.2, before_before]
    rfl

/-- A text without a match. -/
theorem cut_free {m : Pattern α β} {t : List α} (free : Free m t []) : cut m 0 t = ([], t) := by
  have whole := cut_gap free
  rw [List.append_nil] at whole
  rw [whole, cut, before, List.append_nil]

/-- What is found is found by the pattern. -/
theorem found_of_mem {m : Pattern α β} {t : List α} :
    ∀ skip gap b, (gap, b) ∈ (cut m skip t).1 → ∃ u size, m u = some (b, size) := by
  induction t with
  | nil =>
    intro skip gap b mem
    cases skip <;> exact absurd mem List.not_mem_nil
  | cons a t ih =>
    intro skip gap b mem
    cases skip with
    | succ skip => exact ih skip gap b mem
    | zero =>
      rw [cut] at mem
      cases found : m (a :: t) with
      | some hit =>
        obtain ⟨b', size⟩ := hit
        rw [found] at mem
        rcases List.mem_cons.mp mem with same | later
        · exact ⟨a :: t, size, by rw [found, (Prod.mk.inj same).2]⟩
        · exact ih _ gap b later
      | none =>
        rw [found] at mem
        rcases rest : cut m 0 t with ⟨_ | ⟨⟨first, b'⟩, more⟩, tail⟩
        · rw [rest] at mem
          exact absurd mem List.not_mem_nil
        · rw [rest] at mem
          rcases List.mem_cons.mp mem with same | later
          · refine ih 0 first b ?_
            rw [rest, (Prod.mk.inj same).2]
            exact List.mem_cons_self
          · refine ih 0 gap b ?_
            rw [rest]
            exact List.mem_cons_of_mem _ later

end Mineru.Logic.Matches
