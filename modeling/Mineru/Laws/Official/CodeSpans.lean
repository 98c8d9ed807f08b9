import Mineru.Official.FencedCode

/-!
# Masking a line blanks its code spans

A line is the list of its backtick strings and of the characters between them. The inner loop of
`mask_inline_code` looks for the next string of the width (`closeSpan_segments`), and the outer loop
blanks what `blankSpans` blanks (`maskInlineCode_eq`).

`blankSpans` is CommonMark's rule for one line: a string of backticks opens a span if another one of
the same width follows, and is text if not. Spans that go over several lines are not spans for the
source, which reads line by line.
-/

set_option autoImplicit false

namespace Mineru.Official.Markup

theorem segments_nil : segments [] = [] := rfl

/-- A character that is no backtick stands for itself. -/
theorem segments_other {c : Char} (other : isTick c = false) (t : Text) :
    segments (c :: t) = [c] :: segments t := by
  have apart : ∀ x ∈ [c].getLast?, ∀ y ∈ t.head?, (isTick x && isTick y) = false := fun x mem y _ => by
    obtain rfl : c = x := Option.some.inj mem
    rw [other, Bool.false_and]
  exact List.splitBy_append (l := [c]) apart

/-- A run of backticks that is not followed by another one is a string. -/
theorem segments_run {run rest : Text} (some : run ≠ []) (ticks : ∀ c ∈ run, isTick c = true)
    (stops : ∀ c ∈ rest.head?, isTick c = false) :
    segments (run ++ rest) = run :: segments rest := by
  have apart : ∀ x ∈ run.getLast?, ∀ y ∈ rest.head?, (isTick x && isTick y) = false :=
    fun x _ y mem => by rw [stops y mem, Bool.and_false]
  have chain : run.IsChain fun x y => (isTick x && isTick y) = true := by
    refine List.Pairwise.isChain (List.pairwise_iff_forall_sublist.mpr fun {a b} sub => ?_)
    have both := sub.subset
    rw [ticks a (both List.mem_cons_self),
      ticks b (both (List.mem_cons_of_mem a List.mem_cons_self)), Bool.and_self]
  unfold segments
  rw [List.splitBy_append apart, List.splitBy_of_isChain some chain, List.singleton_append]

/-- The first run of a line that begins with a backtick. -/
theorem segments_tick {c : Char} (tick : isTick c = true) (t : Text) :
    segments (c :: t) = (c :: t).takeWhile isTick :: segments ((c :: t).dropWhile isTick) := by
  have some : (c :: t).takeWhile isTick ≠ [] := by
    rw [List.takeWhile_cons_of_pos tick]
    exact List.cons_ne_nil _ _
  have split : c :: t = (c :: t).takeWhile isTick ++ (c :: t).dropWhile isTick :=
    List.takeWhile_append_dropWhile.symm
  conv_lhs => rw [split]
  refine segments_run some (fun d mem => List.mem_takeWhile_imp mem) fun d mem => ?_
  have stops := List.head?_dropWhile_not isTick (c :: t)
  rw [Option.mem_def.mp mem] at stops
  simpa using stops

/-- A string of this many backticks. -/
def ticksOf (width : Nat) : Text := List.replicate width '\x60'

theorem eq_ticksOf {run : Text} (ticks : ∀ c ∈ run, isTick c = true) :
    run = ticksOf run.length :=
  List.eq_replicate_iff.mpr ⟨rfl, fun c mem => of_decide_eq_true (ticks c mem)⟩

/-! ## The inner loop -/

/-- What the inner loop finds: the first string of the width, if there is one. -/
def Finds (string : Text) (pieces : List Text) (found : Option (Text × Text)) : Prop :=
  match found with
  | none => string ∉ pieces
  | some (inside, after) => string ∈ pieces ∧
    inside = (pieces.takeWhile fun other => other ≠ string).flatten ++ string ∧
    segments after = (pieces.dropWhile fun other => other ≠ string).tail

/-- Another piece in front. -/
theorem Finds.later {string piece : Text} {pieces : List Text} {found : Option (Text × Text)}
    (h : Finds string pieces found) (other : piece ≠ string) :
    Finds string (piece :: pieces) (found.map fun (inside, after) => (piece ++ inside, after)) := by
  have differs : decide (piece ≠ string) = true := decide_eq_true other
  cases found with
  | none =>
    change string ∉ piece :: pieces
    rw [List.mem_cons, not_or]
    exact ⟨other.symm, h⟩
  | some found =>
    obtain ⟨mem, inside, after⟩ := h
    refine ⟨List.mem_cons_of_mem piece mem, ?_, ?_⟩
    · rw [inside, List.takeWhile_cons_of_pos (p := fun other => decide (other ≠ string)) differs,
        List.flatten_cons, List.append_assoc]
    · rw [after, List.dropWhile_cons_of_pos (p := fun other => decide (other ≠ string)) differs]

theorem closeSpan_segments (width : Nat) (t : Text) :
    Finds (ticksOf width) (segments t) (closeSpan width t) := by
  fun_induction closeSpan width t with
  | case1 => exact List.not_mem_nil
  | case2 c t tick run rest same =>
    have is : run = ticksOf width := by
      rw [← same]
      exact eq_ticksOf fun d mem => List.mem_takeWhile_imp mem
    have equal : ¬ decide (run ≠ ticksOf width) = true := by simp [is]
    rw [segments_tick tick t]
    refine ⟨is ▸ List.mem_cons_self, ?_, ?_⟩
    · rw [List.takeWhile_cons_of_neg (p := fun other => decide (other ≠ ticksOf width)) equal,
        List.flatten_nil, List.nil_append, is]
    · rw [List.dropWhile_cons_of_neg (p := fun other => decide (other ≠ ticksOf width)) equal,
        List.tail_cons]
  | case3 c t tick run rest differs ih =>
    rw [segments_tick tick t]
    refine ih.later fun same => differs ?_
    rw [show run = ticksOf width from same]
    exact List.length_replicate
  | case4 c t other ih =>
    rw [segments_other (Bool.not_eq_true _ ▸ other) t]
    refine ih.later fun same => other ?_
    have first : c ∈ ticksOf width := same ▸ List.mem_cons_self
    rw [List.eq_of_mem_replicate first]
    rfl

/-! ## The line -/

/-- `mask_inline_code` blanks the code spans of a line and nothing else. -/
theorem maskInlineCode_eq (body : Text) : maskInlineCode body = blankSpans (segments body) := by
  fun_induction maskInlineCode body with
  | case1 =>
    rw [segments_nil, blankSpans]
  | case2 c t tick run rest inside after found ih =>
    have ticks : ∀ d ∈ run, isTick d = true := fun d mem => List.mem_takeWhile_imp mem
    have first : run.head?.any isTick = true := by
      change ((c :: t).takeWhile isTick).head?.any isTick = true
      rw [List.takeWhile_cons_of_pos tick]
      exact tick
    have finds := closeSpan_segments run.length rest
    rw [found, ← eq_ticksOf ticks] at finds
    obtain ⟨mem, whole, later⟩ := finds
    rw [segments_tick tick t]
    change _ = blankSpans (run :: segments rest)
    rw [blankSpans, if_pos ⟨first, mem⟩, ih, later, whole, List.append_assoc]
  | case3 c t tick run rest found ih =>
    have ticks : ∀ d ∈ run, isTick d = true := fun d mem => List.mem_takeWhile_imp mem
    have finds := closeSpan_segments run.length rest
    rw [found, ← eq_ticksOf ticks] at finds
    have lone : ¬ (run.head?.any isTick = true ∧ run ∈ segments rest) := fun both => finds both.2
    rw [segments_tick tick t]
    change _ = blankSpans (run :: segments rest)
    rw [blankSpans, if_neg lone, ih]
  | case4 c t other ih =>
    rw [segments_other (Bool.not_eq_true _ ▸ other) t, blankSpans, if_neg, ih, List.singleton_append]
    rintro ⟨tick, -⟩
    exact other tick

end Mineru.Official.Markup
