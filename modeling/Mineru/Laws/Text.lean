import Mineru.Text

/-!
# Bytes and characters

A byte offset is a character boundary exactly if some leading part of the text has that many bytes
(`splitAtByte_some`, `splitAtByte_none`). A slice at any other offset panics.

Texts are lists of characters, and offsets of the source count the bytes of their UTF-8 form. For
ASCII both are the same (`utf8Len_ascii`, `splitAtByte_ascii`), which is the case that most slices
of the source rely on.
-/

set_option autoImplicit false

namespace Mineru

theorem utf8Size_ascii {c : Char} : c.utf8Size = 1 ↔ c.toNat < 128 := by
  rw [Char.utf8Size_eq_one_iff, UInt32.le_iff_toNat_le]
  exact Nat.lt_succ_iff.symm

/-- An ASCII text has as many bytes as characters. -/
theorem utf8Len_ascii {t : Text} (h : ∀ c ∈ t, c.toNat < 128) : utf8Len t = t.length := by
  induction t with
  | nil => rfl
  | cons c rest ih =>
    have one := utf8Size_ascii.mpr (h c List.mem_cons_self)
    rw [utf8Len_cons, one, ih fun d mem => h d (List.mem_cons_of_mem c mem), List.length_cons,
      Nat.add_comm]

/-- No character has more than four bytes. -/
theorem utf8Len_le (t : Text) : utf8Len t ≤ 4 * t.length := by
  induction t with
  | nil => exact Nat.zero_le _
  | cons c rest ih =>
    have := c.utf8Size_le_four
    rw [utf8Len_cons, List.length_cons]
    omega

/-- A cut behind a whole text is a cut in what follows. -/
theorem splitAtByte_append (t u : Text) (n : Nat) :
    splitAtByte (utf8Len t + n) (t ++ u) =
      (splitAtByte n u).map fun parts => (t ++ parts.1, parts.2) := by
  induction t with
  | nil =>
    rw [utf8Len_nil, Nat.zero_add, List.nil_append]
    cases splitAtByte n u <;> rfl
  | cons c rest ih =>
    obtain ⟨size, hsize⟩ : ∃ k, c.utf8Size = k + 1 :=
      Nat.exists_eq_succ_of_ne_zero (Nat.pos_iff_ne_zero.mp c.utf8Size_pos)
    have shape : utf8Len (c :: rest) + n = (size + utf8Len rest + n) + 1 := by
      rw [utf8Len_cons, hsize]
      omega
    have left : size + utf8Len rest + n + 1 - c.utf8Size = utf8Len rest + n := by omega
    rw [shape, List.cons_append, splitAtByte, if_pos (by omega), left, ih]
    cases splitAtByte n u <;> rfl

theorem splitAtByte_ascii {u : Text} (h : ∀ c ∈ u, c.toNat < 128) {n : Nat} (le : n ≤ u.length) :
    splitAtByte n u = some (u.take n, u.drop n) := by
  have bytes : n = utf8Len (u.take n) + 0 := by
    rw [utf8Len_ascii fun c mem => h c (List.mem_of_mem_take mem), List.length_take]
    omega
  conv_lhs => rw [bytes, ← List.take_append_drop n u, List.take_append_drop n u]
  have := splitAtByte_append (u.take n) (u.drop n) 0
  rw [List.take_append_drop] at this
  rw [this]
  cases u.drop n <;> simp only [splitAtByte, Option.map_some, List.append_nil]

/-- A cut at a character boundary. -/
theorem splitAtByte_some {n : Nat} {t a b : Text} :
    splitAtByte n t = some (a, b) ↔ t = a ++ b ∧ utf8Len a = n := by
  constructor
  · intro h
    induction n, t using splitAtByte.induct generalizing a b with
    | case1 t =>
      rw [splitAtByte] at h
      cases h
      exact ⟨rfl, rfl⟩
    | case2 n =>
      rw [splitAtByte] at h
      cases h
    | case3 n c t fits ih =>
      rw [splitAtByte, if_pos fits] at h
      obtain ⟨⟨a', b'⟩, rest, same⟩ := Option.map_eq_some_iff.mp h
      cases same
      obtain ⟨rfl, len⟩ := ih rest
      refine ⟨rfl, ?_⟩
      rw [utf8Len_cons, len]
      omega
    | case4 n c t wide =>
      rw [splitAtByte, if_neg wide] at h
      cases h
  · intro h
    obtain ⟨rfl, rfl⟩ := h
    have := splitAtByte_append a b 0
    rw [Nat.add_zero] at this
    rw [this, splitAtByte, Option.map_some, List.append_nil]

/-- An offset inside a character, or past the end. -/
theorem splitAtByte_none {n : Nat} {t : Text} :
    splitAtByte n t = none ↔ ∀ cut, cut <+: t → utf8Len cut ≠ n := by
  constructor
  · intro h cut starts len
    obtain ⟨rest, rfl⟩ := starts
    rw [splitAtByte_some.mpr ⟨rfl, len⟩] at h
    cases h
  · intro h
    cases cut : splitAtByte n t with
    | none => rfl
    | some parts =>
      obtain ⟨whole, len⟩ := splitAtByte_some.mp cut
      exact absurd len (h parts.1 ⟨parts.2, whole.symm⟩)

end Mineru
