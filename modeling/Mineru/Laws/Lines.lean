import Mineru.Text

/-!
# What stands in a line

A line is a part of its text (`line_within`), and what holds no line feed stands in the joined lines
exactly if it stands in one of them (`infix_joined`).

Lines are those of the standard library: they end at a line feed, with a carriage return before it
left out. The lemmas are used where a marker of one line is looked for in a text of several.
-/

set_option autoImplicit false

namespace Mineru

open List (intercalate)

theorem stripCr_begins (line : Text) : stripCr line <+: line := by
  unfold stripCr
  split
  · exact List.dropLast_prefix line
  · exact List.prefix_rfl

theorem part_infix {separator : Text} {parts : List Text} {part : Text} (mem : part ∈ parts) :
    part <:+: intercalate separator parts := by
  induction parts with
  | nil => exact absurd mem List.not_mem_nil
  | cons first rest ih =>
    cases rest with
    | nil =>
      obtain rfl := List.mem_singleton.mp mem
      rw [List.intercalate_singleton]
    | cons second rest =>
      rw [List.intercalate_cons_cons]
      rcases List.mem_cons.mp mem with rfl | later
      · exact (List.prefix_append _ _).isInfix.trans (List.prefix_append _ _).isInfix
      · exact (ih later).trans (List.suffix_append _ _).isInfix

/-- A line is a part of the text. -/
theorem line_within {t line : Text} (mem : line ∈ linesOf t) : line <:+: t := by
  have whole : intercalate ['\n'] (t.splitOn '\n') = t := List.intercalate_splitOn '\n'
  have inside {part : Text} (listed : part ∈ t.splitOn '\n') : part <:+: t := by
    have here : part <:+: intercalate ['\n'] (t.splitOn '\n') := part_infix listed
    rwa [whole] at here
  rcases List.mem_append.mp mem with ended | open'
  · obtain ⟨part, listed, rfl⟩ := List.mem_map.mp ended
    exact (stripCr_begins part).isInfix.trans (inside (List.mem_of_mem_dropLast listed))
  · obtain ⟨listed, -⟩ := List.mem_filter.mp open'
    exact inside (List.mem_of_getLast? (Option.mem_toList.mp listed))

/-- What does not hold the element between two parts stands in one of them. -/
theorem infix_append_cons {α : Type} {p a b : List α} {x : α} (apart : x ∉ p)
    (h : p <:+: a ++ x :: b) : p <:+: a ∨ p <:+: b := by
  obtain ⟨front, back, same⟩ := h
  rw [List.append_assoc, List.append_eq_append_iff] at same
  rcases same with ⟨c, rfl, rest⟩ | ⟨c, rfl, rest⟩
  · left
    rcases List.append_eq_append_iff.mp rest with ⟨d, rfl, -⟩ | ⟨d, rfl, ends⟩
    · exact ⟨front, d, by rw [List.append_assoc]⟩
    · rcases d with _ | ⟨y, d⟩
      · rw [List.append_nil]
        exact (List.suffix_append _ _).isInfix
      · obtain ⟨rfl, -⟩ := List.cons.inj ends
        exact absurd (List.mem_append_right _ List.mem_cons_self) apart
  · right
    rcases c with _ | ⟨y, c⟩
    · rcases p with _ | ⟨z, p⟩
      · exact List.nil_infix
      · obtain ⟨rfl, -⟩ := List.cons.inj rest
        exact absurd List.mem_cons_self apart
    · obtain ⟨rfl, rfl⟩ := List.cons.inj rest
      exact ⟨c, back, List.append_assoc _ _ _⟩

/-- A text without a line feed that stands in the joined lines stands in one of them, because it
cannot reach over the end of a line. -/
theorem infix_joined {p : Text} (some : p ≠ []) (lineless : '\n' ∉ p) {lines : List Text}
    (h : p <:+: intercalate ['\n'] lines) : ∃ line ∈ lines, p <:+: line := by
  induction lines with
  | nil => exact absurd (List.eq_nil_of_infix_nil h) some
  | cons first rest ih =>
    cases rest with
    | nil =>
      rw [List.intercalate_singleton] at h
      exact ⟨first, List.mem_cons_self, h⟩
    | cons second rest =>
      rw [List.intercalate_cons_cons, List.append_assoc, List.singleton_append] at h
      rcases infix_append_cons lineless h with here | later
      · exact ⟨first, List.mem_cons_self, here⟩
      · obtain ⟨line, mem, inside⟩ := ih later
        exact ⟨line, List.mem_cons_of_mem _ mem, inside⟩

end Mineru
