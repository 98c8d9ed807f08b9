import Mineru.Text

/-!
# Trimmed texts

`trim` takes white space from both ends of a text (`trim_split`), so what is left begins and ends
with something visible, and trimming it again changes nothing. `visible` is a text without any white
space; trimming does not touch it.

White space is that of the standard library, beyond ASCII as well. No lemma but those on blanks
looks at which characters these are.
-/

set_option autoImplicit false

namespace Mineru

/-- A text without its white space. -/
def visible (t : Text) : Text := t.filter fun c => !isWhitespace c

@[simp] theorem visible_nil : visible [] = [] := rfl

@[simp] theorem visible_append (t u : Text) : visible (t ++ u) = visible t ++ visible u :=
  List.filter_append t u

theorem visible_eq_nil {t : Text} : visible t = [] ↔ ∀ c ∈ t, isWhitespace c = true := by
  unfold visible
  rw [List.filter_eq_nil_iff]
  refine forall₂_congr fun c _ => ?_
  rw [Bool.not_eq_true', Bool.not_eq_false]

theorem visible_cons {c : Char} (shown : isWhitespace c = false) (t : Text) :
    visible (c :: t) = c :: visible t := by
  unfold visible
  rw [List.filter_cons_of_pos (by rw [shown]; rfl)]

/-! ## What `trim` takes -/

theorem trim_eq (t : Text) : trim t = (t.dropWhile isWhitespace).rdropWhile isWhitespace := rfl

/-- Only white space is taken, from both ends. -/
theorem trim_split (t : Text) : ∃ front back, t = front ++ (trim t ++ back) ∧
    (∀ c ∈ front, isWhitespace c = true) ∧ ∀ c ∈ back, isWhitespace c = true := by
  obtain ⟨back, parts⟩ := List.rdropWhile_prefix isWhitespace (t.dropWhile isWhitespace)
  refine ⟨t.takeWhile isWhitespace, back, ?_, fun c mem => List.mem_takeWhile_imp mem, ?_⟩
  · rw [trim_eq, parts, List.takeWhile_append_dropWhile]
  · have ends : (t.dropWhile isWhitespace).rtakeWhile isWhitespace = back := by
      have whole : trim t ++ (t.dropWhile isWhitespace).rtakeWhile isWhitespace =
          t.dropWhile isWhitespace := List.rdropWhile_append_rtakeWhile
      exact List.append_cancel_left (whole.trans parts.symm)
    intro c mem
    exact List.mem_rtakeWhile_imp (ends ▸ mem)

/-- Trimming is not seen. -/
theorem visible_trim (t : Text) : visible (trim t) = visible t := by
  obtain ⟨front, back, parts, before, behind⟩ := trim_split t
  conv_rhs => rw [parts, visible_append, visible_append, visible_eq_nil.mpr before,
    visible_eq_nil.mpr behind, List.append_nil, List.nil_append]

/-- What a trimmed text begins with is visible, and so is what it ends with (`trim_last`). -/
theorem trim_head {t : Text} {c : Char} (first : c ∈ (trim t).head?) : isWhitespace c = false := by
  by_contra blank
  obtain ⟨rest, is⟩ := List.head?_eq_some_iff.mp first
  obtain ⟨back, parts⟩ := List.rdropWhile_prefix isWhitespace (t.dropWhile isWhitespace)
  rw [← trim_eq, is, List.cons_append] at parts
  have some : t.dropWhile isWhitespace ≠ [] := parts ▸ List.cons_ne_nil _ _
  have head := List.head_dropWhile_not isWhitespace some
  simp only [← parts, List.head_cons] at head
  exact blank head

theorem trim_last {t : Text} {c : Char} (last : c ∈ (trim t).getLast?) : isWhitespace c = false := by
  have some : trim t ≠ [] := fun empty => by
    rw [empty] at last
    exact nomatch last
  have ends : ¬ isWhitespace ((trim t).getLast some) = true :=
    List.rdropWhile_last_not isWhitespace (t.dropWhile isWhitespace) some
  have is : (trim t).getLast some = c := Option.some.inj ((List.getLast?_eq_some_getLast some).symm.trans last)
  rw [is] at ends
  exact Bool.not_eq_true _ ▸ ends

/-- A text that begins and ends with something visible is trimmed. -/
theorem trim_self {t : Text} (first : ∀ c ∈ t.head?, isWhitespace c = false)
    (last : ∀ c ∈ t.getLast?, isWhitespace c = false) : trim t = t := by
  have front : t.dropWhile isWhitespace = t := by
    cases t with
    | nil => rfl
    | cons c t => rw [List.dropWhile_cons_of_neg (by rw [first c rfl]; exact Bool.false_ne_true)]
  rw [trim_eq, front, List.rdropWhile_eq_self_iff]
  intro some
  rw [last _ (List.getLast?_eq_some_getLast some)]
  exact Bool.false_ne_true

/-- Nothing is left exactly when nothing was visible. -/
theorem trim_eq_nil {t : Text} : trim t = [] ↔ visible t = [] := by
  constructor
  · intro empty
    rw [← visible_trim, empty, visible_nil]
  · intro blank
    rw [← visible_trim] at blank
    rcases is : trim t with _ | ⟨c, rest⟩
    · rfl
    · have shown : isWhitespace c = false := trim_head (t := t) (by rw [is]; rfl)
      rw [is, visible_cons shown] at blank
      exact absurd blank (List.cons_ne_nil _ _)

/-- A map that keeps what is white space keeps a text trimmed. -/
theorem trim_map {f : Char → Char} (keeps : ∀ c, isWhitespace (f c) = isWhitespace c) (t : Text) :
    trim ((trim t).map f) = (trim t).map f := by
  refine trim_self (fun d first => ?_) fun d last => ?_
  · rw [List.head?_map] at first
    obtain ⟨c, head, rfl⟩ := Option.map_eq_some_iff.mp first
    rw [keeps, trim_head head]
  · rw [List.getLast?_map] at last
    obtain ⟨c, ends, rfl⟩ := Option.map_eq_some_iff.mp last
    rw [keeps, trim_last ends]

end Mineru
