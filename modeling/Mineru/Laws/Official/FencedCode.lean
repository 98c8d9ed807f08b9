import Mineru.Laws.Builders.Entities
import Mineru.Laws.Official.CodeSpans
import Mineru.Laws.Trim
import Mineru.Logic.Reads

/-!
# Masking a text blanks its fenced code

The fence that a line opens, and whether a line closes one, is read as CommonMark has it unless the
line is one of three kinds (`openedFence_eq`, `closes_iff`). Line by line, the readings stay in step
exactly if the masked lines are those of CommonMark (`maskLines_eq_iff`).

A line that is misread does not always show: inside of a fence nothing is opened, and two fences
that differ may blank the same lines. `InStep` and `Unnoticed` follow both readings at once, and the
inductions are on the lines, with the two open fences as the state.

The texts have no deeper indents and no elements of code (`Shallow`, `Untagged`). For a text with
block quotes, lists or tabs the reading line by line is not CommonMark's own any more (`Plain` is a
text without them).
-/

set_option autoImplicit false

namespace Mineru.Official.Markup

variable {body : Text} {marker : Char}

/-! ## The beginning of a line -/

theorem indentOf_eq (body : Text) : indentOf body = leading body := by
  have blanks : ∀ c ∈ body.takeWhile (fun c => decide (c = ' ')), c.toNat < 128 := fun c mem => by
    have blank := List.mem_takeWhile_imp mem
    rw [of_decide_eq_true blank]
    decide
  have split : utf8Len body =
      utf8Len (body.takeWhile fun c => c = ' ') + utf8Len (body.dropWhile fun c => c = ' ') := by
    rw [← utf8Len_append, List.takeWhile_append_dropWhile]
  unfold indentOf leading trimmedOf
  rw [split, Nat.add_sub_cancel, utf8Len_ascii blanks]

theorem isFenceChar_iff {c : Char} : isFenceChar c = true ↔ c = '\x60' ∨ c = '~' := by
  unfold isFenceChar isTick
  rw [Bool.or_eq_true, decide_eq_true_eq, decide_eq_true_eq]

theorem otherMarker_ne (marker : Char) : otherMarker marker ≠ marker := by
  unfold otherMarker
  split
  · rename_i tick
    rw [tick]
    decide
  · rename_i other
    exact Ne.symm other

theorem isFenceChar_other (marker : Char) : isFenceChar (otherMarker marker) = true := by
  unfold otherMarker
  split <;> rfl

theorem marker_or_other (is : isFenceChar marker = true) {c : Char} (fence : isFenceChar c = true) :
    c = marker ∨ c = otherMarker marker := by
  rcases isFenceChar_iff.mp is with rfl | rfl
  · exact isFenceChar_iff.mp fence
  · exact (isFenceChar_iff.mp fence).symm

theorem stringOf_append (marker : Char) (body : Text) :
    stringOf marker body ++ behind marker body = trimmedOf body := List.takeWhile_append_dropWhile

theorem mem_stringOf {c : Char} (mem : c ∈ stringOf marker body) : c = marker := by
  have same := List.mem_takeWhile_imp mem
  exact of_decide_eq_true same

theorem behind_head (marker : Char) (body : Text) : ∀ c ∈ (behind marker body).head?, c ≠ marker := by
  intro c mem same
  have stops := List.head?_dropWhile_not (fun c => decide (c = marker)) (trimmedOf body)
  rw [show ((trimmedOf body).dropWhile fun c => decide (c = marker)).head? = some c from mem] at stops
  simp [same] at stops

/-- The run of a line: its first string, and what follows of the other character and so on. -/
theorem runOf_eq (is : isFenceChar marker = true) (body : Text) :
    runOf body = stringOf marker body ++ (behind marker body).takeWhile isFenceChar := by
  have all : ∀ c ∈ stringOf marker body, isFenceChar c = true := fun c mem => by
    rw [mem_stringOf mem]
    exact is
  unfold runOf
  rw [← stringOf_append marker body, List.takeWhile_append_of_pos all]

/-- The run ends with the string unless the other character follows directly. -/
theorem runOf_pure (is : isFenceChar marker = true)
    (apart : (behind marker body).head? ≠ some (otherMarker marker)) :
    runOf body = stringOf marker body := by
  rw [runOf_eq is, List.append_right_eq_self]
  rcases shape : behind marker body with _ | ⟨c, rest⟩
  · rfl
  · have first : c ∈ (behind marker body).head? := by
      rw [shape]
      rfl
    refine List.takeWhile_cons_of_neg fun fence => ?_
    rcases marker_or_other is fence with same | other
    · exact behind_head marker body c first same
    · rw [Option.mem_def.mp first, other] at apart
      exact apart rfl

/-- The other character directly behind the string belongs to the run. -/
theorem other_mem_runOf (is : isFenceChar marker = true)
    (next : (behind marker body).head? = some (otherMarker marker)) :
    otherMarker marker ∈ runOf body := by
  obtain ⟨rest, shape⟩ := List.head?_eq_some_iff.mp next
  rw [runOf_eq is, shape, List.takeWhile_cons_of_pos (isFenceChar_other marker)]
  exact List.mem_append_right _ List.mem_cons_self

/-! ## Opening a fence -/

theorem stringOf_replicate (marker : Char) (body : Text) :
    stringOf marker body = List.replicate (stringOf marker body).length marker :=
  List.eq_replicate_iff.mpr ⟨rfl, fun _ mem => mem_stringOf mem⟩

/-- A fence is open that a line can open. -/
structure Fence.Valid (fence : Fence) : Prop where
  marker : isFenceChar fence.marker = true
  wide : 3 ≤ fence.width

/-- A fence has at least three markers, by the source as by CommonMark (`openingFence_valid`). -/
theorem openedFence_valid {fence : Fence} (opened : openedFence body = some fence) : fence.Valid := by
  unfold openedFence at opened
  split at opened
  · cases opened
  · rename_i first more shape
    split at opened
    · rename_i within
      cases opened
      have mem : first ∈ runOf body := shape ▸ List.mem_cons_self
      exact ⟨List.mem_takeWhile_imp mem, within.2.1⟩
    · cases opened

theorem openingFence_valid {fence : Fence} (opened : openingFence body = some fence) :
    fence.Valid := by
  unfold openingFence at opened
  split at opened
  · rename_i within
    cases opened
    exact ⟨rfl, within.1.2⟩
  · split at opened
    · rename_i within
      cases opened
      exact ⟨rfl, within.2⟩
    · cases opened

/-- A string of three is a fence for the code, if the run goes no further. -/
theorem openedFence_string (is : isFenceChar marker = true) (string : HasString marker body)
    (apart : (behind marker body).head? ≠ some (otherMarker marker)) :
    openedFence body = some ⟨marker, (stringOf marker body).length⟩ := by
  obtain ⟨shallow, long⟩ := string
  have run : runOf body = stringOf marker body := runOf_pure is apart
  unfold openedFence
  rw [run]
  rcases shape : stringOf marker body with _ | ⟨first, more⟩
  · rw [shape] at long
    exact absurd long (by decide)
  · have all : ∀ c ∈ first :: more, c = marker := fun c mem => mem_stringOf (shape ▸ mem)
    have same : first = marker := all first List.mem_cons_self
    rw [shape] at long
    dsimp only
    rw [if_pos ⟨indentOf_eq body ▸ shallow, long, fun c mem => (all c mem).trans same.symm⟩, same]

/-- A string with the other character behind it is none. -/
theorem openedFence_mixed (is : isFenceChar marker = true) (some' : stringOf marker body ≠ [])
    (next : (behind marker body).head? = some (otherMarker marker)) : openedFence body = none := by
  obtain ⟨first, more, shape⟩ := List.exists_cons_of_ne_nil some'
  have here : first = marker := mem_stringOf (shape ▸ List.mem_cons_self)
  have other := other_mem_runOf is next
  unfold openedFence
  rcases run : runOf body with _ | ⟨head, tail⟩
  · rfl
  · have same : head = marker := by
      rw [runOf_eq is, shape, List.cons_append] at run
      rw [← (List.cons.inj run).1, here]
    dsimp only
    rw [if_neg]
    rintro ⟨-, -, all⟩
    rw [run] at other
    exact otherMarker_ne marker ((all _ other).trans same)

/-- Without a string of three there is no fence for the code. -/
theorem openedFence_none (neither : ∀ marker, isFenceChar marker = true → ¬ HasString marker body) :
    openedFence body = none := by
  unfold openedFence
  rcases run : runOf body with _ | ⟨first, more⟩
  · rfl
  · have is : isFenceChar first = true :=
      List.mem_takeWhile_imp (show first ∈ runOf body from run ▸ List.mem_cons_self)
    dsimp only
    rw [if_neg]
    rintro ⟨shallow, long, all⟩
    refine neither first is ⟨indentOf_eq body ▸ shallow, ?_⟩
    have string : stringOf first body = first :: more := by
      by_cases next : (behind first body).head? = some (otherMarker first)
      · have other := other_mem_runOf is next
        rw [run] at other
        exact absurd (all _ other) (otherMarker_ne first)
      · rw [← runOf_pure is next, run]
    rw [string]
    exact long

/-- A line does not begin with strings of both characters. -/
theorem hasString_unique {other : Char} (string : HasString marker body)
    (string' : HasString other body) : marker = other := by
  have first (marker : Char) (string : HasString marker body) :
      (trimmedOf body).head? = some marker := by
    rcases shape : stringOf marker body with _ | ⟨c, more⟩
    · have long := string.2
      rw [shape] at long
      exact absurd long (by decide)
    · have here : c = marker := mem_stringOf (shape ▸ List.mem_cons_self)
      rw [← stringOf_append marker body, shape, List.cons_append, List.head?_cons, here]
  exact Option.some.inj ((first marker string).symm.trans (first other string'))

/-- The fence is read as CommonMark has it on a line of neither kind. -/
theorem openedFence_eq (right : ¬ OpenedWrongly body) (seen : ¬ Missed body) :
    openedFence body = openingFence body := by
  by_cases ticks : HasString '\x60' body
  · have tildes : ¬ HasString '~' body := fun both =>
      absurd (hasString_unique ticks both) (by decide)
    by_cases next : (behind '\x60' body).head? = some '~'
    · have later : '\x60' ∈ behind '\x60' body := by
        by_contra none'
        exact seen (.inl ⟨ticks, next, none'⟩)
      have some' : stringOf '\x60' body ≠ [] := List.length_pos_iff.mp (by have := ticks.2; omega)
      rw [openedFence_mixed rfl some' next, openingFence, if_neg fun both => both.2 later,
        if_neg tildes]
    · have none' : '\x60' ∉ behind '\x60' body := fun later => right ⟨ticks, next, later⟩
      rw [openedFence_string rfl ticks next, openingFence, if_pos ⟨ticks, none'⟩]
  · rw [openingFence, if_neg fun both => ticks both.1]
    by_cases tildes : HasString '~' body
    · have next : (behind '~' body).head? ≠ some '\x60' := fun next => seen (.inr ⟨tildes, next⟩)
      rw [openedFence_string rfl tildes next, if_pos tildes]
    · rw [if_neg tildes, openedFence_none]
      intro marker is string
      rcases isFenceChar_iff.mp is with rfl | rfl
      · exact ticks string
      · exact tildes string

/-- Such a line opens a fence for the source and none for CommonMark. -/
theorem OpenedWrongly.opened (h : OpenedWrongly body) :
    openedFence body ≠ none ∧ openingFence body = none := by
  obtain ⟨ticks, next, later⟩ := h
  have tildes : ¬ HasString '~' body := fun both => absurd (hasString_unique ticks both) (by decide)
  constructor
  · rw [openedFence_string rfl ticks next]
    exact Option.some_ne_none _
  · rw [openingFence, if_neg fun both => both.2 later, if_neg tildes]

/-- Such a line opens a fence for CommonMark and none for the source. -/
theorem Missed.opening (h : Missed body) : openedFence body = none ∧ openingFence body ≠ none := by
  rcases h with ⟨ticks, next, none'⟩ | ⟨tildes, next⟩
  · have some' : stringOf '\x60' body ≠ [] := List.length_pos_iff.mp (by have := ticks.2; omega)
    refine ⟨openedFence_mixed rfl some' next, ?_⟩
    rw [openingFence, if_pos ⟨ticks, none'⟩]
    exact Option.some_ne_none _
  · have some' : stringOf '~' body ≠ [] := List.length_pos_iff.mp (by have := tildes.2; omega)
    have ticks : ¬ HasString '\x60' body := fun both => absurd (hasString_unique both tildes) (by decide)
    refine ⟨openedFence_mixed rfl some' next, ?_⟩
    rw [openingFence, if_neg fun both => ticks both.1, if_pos tildes]
    exact Option.some_ne_none _

/-! ## Closing a fence -/

theorem blank_iff (t : Text) : trim t = [] ↔ t.all isWhitespace = true := by
  rw [trim_eq_nil, visible_eq_nil, List.all_eq_true]

theorem isFenceChar_visible {c : Char} (is : isFenceChar c = true) : isWhitespace c = false := by
  rcases isFenceChar_iff.mp is with rfl | rfl <;> decide

theorem drop_runOf (pure : runOf body = stringOf marker body) :
    (trimmedOf body).drop (runOf body).length = behind marker body := by
  rw [pure, ← stringOf_append marker body, List.drop_left]

/-- Behind the string of a closing fence the run does not go on. -/
theorem ClosesFence.run {fence : Fence} (valid : fence.Valid) (h : ClosesFence fence body) :
    runOf body = stringOf fence.marker body := by
  refine runOf_pure valid.marker fun next => ?_
  have blank := List.all_eq_true.mp h.2.2 _ (List.mem_of_mem_head? next)
  rw [isFenceChar_visible (isFenceChar_other fence.marker)] at blank
  exact absurd blank Bool.false_ne_true

/-- A fence is closed as CommonMark has it, or by a run of both characters. -/
theorem closes_iff {fence : Fence} (valid : fence.Valid) (shallow : leading body ≤ 3) :
    closes fence body ↔ ClosesFence fence body ∨ ClosedWrongly fence body := by
  constructor
  · rintro ⟨-, wide, first, blank⟩
    rw [blank_iff] at blank
    by_cases other : otherMarker fence.marker ∈ runOf body
    · exact .inr ⟨first, wide, other, blank⟩
    · have pure : runOf body = stringOf fence.marker body :=
        runOf_pure valid.marker fun next => other (other_mem_runOf valid.marker next)
      rw [drop_runOf pure] at blank
      exact .inl ⟨shallow, pure ▸ wide, blank⟩
  · rintro (ends | ⟨first, wide, -, blank⟩)
    · have pure := ends.run valid
      refine ⟨indentOf_eq body ▸ shallow, pure ▸ ends.2.1, ?_, ?_⟩
      · have some' : (stringOf fence.marker body).length ≠ 0 := by
          have := valid.wide.trans ends.2.1
          omega
        rw [pure, stringOf_replicate, List.head?_replicate, if_neg some']
      · rw [blank_iff, drop_runOf pure]
        exact ends.2.2
    · exact ⟨indentOf_eq body ▸ shallow, wide, first, (blank_iff _).mpr blank⟩

/-- Such a line does not close the fence for CommonMark. -/
theorem ClosedWrongly.not_closes {fence : Fence} (valid : fence.Valid)
    (h : ClosedWrongly fence body) : ¬ ClosesFence fence body := by
  intro ends
  have other := h.2.2.1
  rw [ends.run valid] at other
  exact otherMarker_ne fence.marker (mem_stringOf other)

/-! ## Line by line -/

/-- The line is blanked as a whole by the code. -/
def isBlanked (fence : Option Fence) (body : Text) : Bool :=
  fence.isSome || (openedFence body).isSome

/-- Such a line is blanked at once, so it shows in the masked text. -/
theorem OpenedWrongly.blanked (h : OpenedWrongly body) : isBlanked none body = true := by
  unfold isBlanked
  rw [Option.isSome_none, Bool.false_or]
  exact Option.isSome_iff_ne_none.mpr h.opened.1

/-- A line of the masked text, if the code is what is told. -/
def rowOf (whole : Bool) (line : Text) : MaskedLine :=
  if whole then blanked line
  else ⟨false, blankSpans (segments (bodyOf line)) ++ endOf line⟩

/-- Every line tells whether it was blanked, because no line is empty. -/
theorem rowOf_inj {a b : Bool} {line : Text} : rowOf a line = rowOf b line ↔ a = b := by
  constructor
  · intro same
    have flags := congrArg MaskedLine.whole same
    cases a with
    | false =>
      cases b with
      | false => rfl
      | true => exact absurd flags Bool.false_ne_true
    | true =>
      cases b with
      | false => exact absurd flags.symm Bool.false_ne_true
      | true => rfl
  · intro same
    rw [same]

/-- One turn of the mask on a line: the fence that is open behind it, and whether the line is
blanked. -/
theorem maskLine_eq {line : Text} (shallow : leading (bodyOf line) ≤ 3) (fence : Option Fence) :
    maskLine fence line =
      (codeFenceBehind fence (bodyOf line), rowOf (isBlanked fence (bodyOf line)) line) := by
  have indent : ¬ 4 ≤ indentOf (bodyOf line) := by
    rw [indentOf_eq]
    omega
  cases fence with
  | some fence => rfl
  | none =>
    unfold maskLine isBlanked codeFenceBehind
    cases opened : openedFence (bodyOf line) with
    | some fence => rfl
    | none =>
      dsimp only
      rw [if_neg indent, maskInlineCode_eq]
      rfl

/-- The mask is a fold over the lines, with the open fence as its state. -/
theorem maskLines_cons {line : Text} (shallow : leading (bodyOf line) ≤ 3) (fence : Option Fence)
    (lines : List Text) : maskLines fence (line :: lines) =
      rowOf (isBlanked fence (bodyOf line)) line ::
        maskLines (codeFenceBehind fence (bodyOf line)) lines := by
  rw [maskLines, maskLine_eq shallow]

theorem hiddenLines_cons (line : Text) (fence : Option Fence) (lines : List Text) :
    hiddenLines fence (line :: lines) =
      rowOf (isFenced fence (bodyOf line)) line ::
        hiddenLines (fenceBehind fence (bodyOf line)) lines := rfl

/-- One line: it is blanked by both readings or by none, and the rest agrees. -/
theorem rows_cons_iff {line : Text} (shallow : leading (bodyOf line) ≤ 3) (code mark : Option Fence)
    (lines : List Text) :
    maskLines code (line :: lines) = hiddenLines mark (line :: lines) ↔
      isBlanked code (bodyOf line) = isFenced mark (bodyOf line) ∧
        maskLines (codeFenceBehind code (bodyOf line)) lines =
          hiddenLines (fenceBehind mark (bodyOf line)) lines := by
  rw [maskLines_cons shallow, hiddenLines_cons, List.cons_eq_cons, rowOf_inj]

/-- Every fence that is open is one that a line can open. -/
def Sound (fence : Option Fence) : Prop := ∀ open' ∈ fence, open'.Valid

/-- The fence that is open always has a marker and a length that a fence can have. -/
theorem Sound.code {fence : Option Fence} (sound : Sound fence) (body : Text) :
    Sound (codeFenceBehind fence body) := by
  intro open' mem
  cases fence with
  | none => exact openedFence_valid mem
  | some fence =>
    unfold codeFenceBehind at mem
    dsimp only at mem
    split at mem
    · cases mem
    · exact sound open' mem

theorem Sound.mark {fence : Option Fence} (sound : Sound fence) (body : Text) :
    Sound (fenceBehind fence body) := by
  intro open' mem
  cases fence with
  | none => exact openingFence_valid mem
  | some fence =>
    unfold fenceBehind at mem
    dsimp only at mem
    split at mem
    · cases mem
    · exact sound open' mem

/-- Readings that are apart both blank the line if each of them that is outside of a fence opens one. -/
theorem blanked_iff {code mark : Option Fence} (body : Text) (differ : code ≠ mark) :
    isBlanked code body = isFenced mark body ↔
      (code = none → openedFence body ≠ none) ∧ (mark = none → openingFence body ≠ none) := by
  unfold isBlanked isFenced
  cases code with
  | none =>
    cases mark with
    | none => exact absurd rfl differ
    | some fence => simp [Option.isSome_iff_ne_none]
  | some fence =>
    cases mark with
    | none => simp [Option.isSome_iff_ne_none]
    | some fence => simp

/-- From one fence the masked lines are those of CommonMark exactly if the readings stay in step, and
from two fences exactly if the difference goes unnoticed. -/
theorem maskLines_eq_iff {lines : List Text}
    (shallow : ∀ line ∈ lines, leading (bodyOf line) ≤ 3) :
    (∀ fence, Sound fence →
      (maskLines fence lines = hiddenLines fence lines ↔ InStep fence (lines.map bodyOf))) ∧
    (∀ code mark, Sound code → Sound mark → code ≠ mark →
      (maskLines code lines = hiddenLines mark lines ↔ Unnoticed code mark (lines.map bodyOf))) := by
  induction lines with
  | nil =>
    refine ⟨fun fence _ => ?_, fun code mark _ _ _ => ?_⟩
    · rw [List.map_nil, InStep]
      exact iff_of_true rfl trivial
    · rw [List.map_nil, Unnoticed]
      exact iff_of_true rfl trivial
  | cons line lines ih =>
    have here := shallow line List.mem_cons_self
    obtain ⟨same, apart⟩ := ih fun other mem => shallow other (List.mem_cons_of_mem line mem)
    constructor
    · intro fence sound
      rw [rows_cons_iff here, List.map_cons]
      cases fence with
      | none =>
        rw [InStep]
        dsimp only [codeFenceBehind, fenceBehind, isBlanked, isFenced, Option.isSome_none]
        rw [Bool.false_or, Bool.false_or]
        by_cases wrong : OpenedWrongly (bodyOf line)
        · obtain ⟨opened, none'⟩ := wrong.opened
          rw [none']
          refine iff_of_false (fun both => opened ?_) fun all => all.1 wrong
          exact Option.isSome_eq_false_iff.mp both.1 |> Option.isNone_iff_eq_none.mp
        · by_cases missed : Missed (bodyOf line)
          · obtain ⟨none', opening⟩ := missed.opening
            rw [none']
            refine iff_of_false (fun both => opening ?_) fun all => all.2.1 missed
            exact Option.isSome_eq_false_iff.mp both.1.symm |> Option.isNone_iff_eq_none.mp
          · rw [openedFence_eq wrong missed,
              same _ fun open' mem => openingFence_valid mem]
            exact ⟨fun both => ⟨wrong, missed, both.2⟩, fun all => ⟨rfl, all.2.2⟩⟩
      | some fence =>
        have valid := sound fence rfl
        have closing := closes_iff valid here
        rw [InStep]
        split
        · rename_i wrong
          have code : codeFenceBehind (some fence) (bodyOf line) = none :=
            if_pos (closing.mpr (.inr wrong))
          have mark : fenceBehind (some fence) (bodyOf line) = some fence :=
            if_neg (wrong.not_closes valid)
          rw [code, mark, apart none (some fence) (fun _ mem => by cases mem) sound (by simp)]
          exact and_iff_right rfl
        · rename_i right
          have agree : codeFenceBehind (some fence) (bodyOf line) =
              fenceBehind (some fence) (bodyOf line) := by
            unfold codeFenceBehind fenceBehind
            dsimp only
            exact if_congr (closing.trans (or_iff_left right)) rfl rfl
          rw [agree, same _ (sound.mark _)]
          exact and_iff_right rfl
    · intro code mark soundCode soundMark differ
      rw [rows_cons_iff here, List.map_cons, Unnoticed, ← and_assoc,
        ← blanked_iff (bodyOf line) differ]
      refine and_congr_right fun _ => ?_
      split
      · rename_i met
        rw [met]
        exact same _ (soundMark.mark _)
      · rename_i still
        exact apart _ _ (soundCode.code _) (soundMark.mark _) still

/-! ## The text -/

/-- A text without tags has no elements to be left out. -/
theorem withoutElements_eq {isWord : Char → Bool} {t : Text} (untagged : Untagged isWord t) :
    withoutElements isWord t = t := by
  unfold withoutElements
  dsimp only
  rw [Logic.Regex.replaceAll_free fun u suffix => (untagged u suffix).1,
    Logic.Regex.replaceAll_free fun u suffix => (untagged u suffix).2]

/-- The masked lines are those of CommonMark exactly when the two readings stay in step. The
elements of code are looked for first, and there are none. -/
theorem maskedLines_eq_iff {isWord : Char → Bool} {t : Text} (shallow : Shallow t)
    (untagged : Untagged isWord t) :
    maskedLines isWord t = hiddenLines none (splitInclusive t) ↔ InStep none (bodies t) := by
  have each : ∀ line ∈ splitInclusive t, leading (bodyOf line) ≤ 3 := fun line mem =>
    shallow (bodyOf line) (List.mem_map_of_mem mem)
  unfold maskedLines bodies
  rw [withoutElements_eq untagged]
  exact (maskLines_eq_iff each).1 none fun _ mem => by cases mem

/-- A text is accepted exactly when each reference that is found in its masked form is provided.
What the mask hides is not checked. -/
theorem validateMarkupAssets_ok {isWord : Char → Bool} {t : Text} {assets : List Text} :
    validateMarkupAssets isWord t assets = .ok () ↔
      ∀ reference ∈ imageReferences isWord (maskMarkdownCode isWord t), isProvided assets reference := by
  unfold validateMarkupAssets
  split
  · rename_i missing
    obtain ⟨reference, mem, not⟩ := List.any_eq_true.mp missing
    refine iff_of_false (fun same => by cases same) fun all => ?_
    rw [all reference mem] at not
    exact absurd not (by decide)
  · rename_i provided
    refine iff_of_true rfl fun reference mem => ?_
    by_contra not
    refine provided (List.any_eq_true.mpr ⟨reference, mem, ?_⟩)
    rw [Bool.not_eq_true] at not
    rw [not]
    rfl

/-- **Masking hides exactly the code of a text if and only if no line is misread**, but for a fence
that is closed wrongly where the rest of the text does not show it. Then exactly the references
outside of code have to be provided. -/
theorem maskMarkdownCode_hides_iff {isWord : Char → Bool} {t : Text} (shallow : Shallow t)
    (untagged : Untagged isWord t) : Hides isWord t ↔ InStep none (bodies t) := by
  rw [← maskedLines_eq_iff shallow untagged]
  constructor
  · exact Hides.lines
  · intro lines
    have same : maskMarkdownCode isWord t = hideCode t := congrArg (List.flatMap MaskedLine.text) lines
    refine ⟨lines, fun assets => ?_⟩
    rw [validateMarkupAssets_ok, same]

/-- A text without a `<` has no elements. -/
theorem untagged_of_not_mem {isWord : Char → Bool} {t : Text} (none' : '<' ∉ t) :
    Untagged isWord t := by
  intro u suffix
  have fails : Logic.Regex.Fails (Logic.Regex.literal ['<']) u := .literal fun h =>
    none' (suffix.subset (h.subset List.mem_cons_self))
  exact ⟨(Logic.Regex.Fails.seq fails).matchAt, (Logic.Regex.Fails.seq fails).matchAt⟩

/-- A text with neither a `!` nor a `<` shows no image. -/
theorem imageReferences_nil {isWord : Char → Bool} {t : Text} (marks : '!' ∉ t ∧ '<' ∉ t) :
    imageReferences isWord t = [] := by
  have nothing (e : Logic.Regex.Expr) (fails : ∀ u, u <:+ t → Logic.Regex.Fails e u) :
      capturesOf e t = [] := by
    have whole := Logic.Regex.cut_matchAt_free (fun _ found => found)
      fun u suffix => (fails u suffix).matchAt
    simp only [Option.map_id_fun', id_eq] at whole
    unfold capturesOf
    rw [whole]
    rfl
  have word (c : Char) (word : Text) (none' : c ∉ t) (u : Text) (suffix : u <:+ t) :
      Logic.Regex.Fails (Logic.Regex.literal (c :: word)) u := .literal fun h =>
    none' (suffix.subset (h.subset List.mem_cons_self))
  unfold imageReferences
  rw [nothing markdownImage fun u suffix => .seq (word '!' ['['] marks.1 u suffix),
    nothing (htmlImage isWord) fun u suffix => .seq (word '<' [] marks.2 u suffix), List.append_nil]

/-- A word character, among those of ASCII. -/
def isAsciiWord (c : Char) : Bool := c.isAlphanum || c = '_'

/-- A text with a fenced block and a code span. -/
def fencedSample : Text := text "\x60\x60\x60rust\n![x](images/code.png)\n\x60\x60\x60\nSee \x60![y](z)\x60.\n"

/-- A text with an image in a fenced block and another one in a code span. -/
theorem fencedSample_hides : Hides isAsciiWord fencedSample := by
  refine (maskMarkdownCode_hides_iff (by decide) (untagged_of_not_mem (by decide))).mpr ?_
  have lines : bodies fencedSample = [text "\x60\x60\x60rust", text "![x](images/code.png)",
      text "\x60\x60\x60", text "See \x60![y](z)\x60."] := by decide
  have opens : openingFence (text "\x60\x60\x60rust") = some ⟨'\x60', 3⟩ := by decide
  have stays : fenceBehind (some ⟨'\x60', 3⟩) (text "![x](images/code.png)") = some ⟨'\x60', 3⟩ := by
    decide
  have closes : fenceBehind (some ⟨'\x60', 3⟩) (text "\x60\x60\x60") = none := by decide
  rw [lines, InStep, opens, InStep, if_neg (by decide), stays, InStep, if_neg (by decide), closes,
    InStep, InStep]
  exact ⟨by decide, by decide, by decide, by decide, trivial⟩

/-- A line that begins with a code span between three backticks, and shows a missing image. -/
def spanSample : Text := text "\x60\x60\x60x\x60\x60\x60 ![a](images/missing.png)"

/-- The code span is taken for a fence, so the missing image is accepted. -/
theorem spanSample_accepted : Plain isAsciiWord spanSample ∧
    validateMarkupAssets isAsciiWord spanSample [] = .ok () ∧ ¬ Hides isAsciiWord spanSample := by
  have untagged : Untagged isAsciiWord spanSample := untagged_of_not_mem (by decide)
  have wrong : OpenedWrongly spanSample := by decide
  have lines : bodies spanSample = [spanSample] := by decide
  have first : (trimmedOf spanSample).head? = some '\x60' := by decide
  have unlisted : ∀ body ∈ bodies spanSample, ∀ c ∈ (trimmedOf body).head?,
      c ∉ ['-', '+', '*'] ∧ ¬ c.isDigit := by
    intro body mem c head
    rw [lines, List.mem_singleton] at mem
    rw [mem, first] at head
    cases head
    decide
  refine ⟨⟨by decide, by decide, untagged, by decide, unlisted⟩, ?_, fun hides => ?_⟩
  · have line : splitInclusive spanSample = [spanSample] := by decide
    have body : bodyOf spanSample = spanSample := by decide
    have blank : isBlanked none spanSample = true := wrong.blanked
    have stops : endOf spanSample = [] := by decide
    have masked : maskMarkdownCode isAsciiWord spanSample = spaces (utf8Len spanSample) := by
      rw [maskMarkdownCode, maskedLines, withoutElements_eq untagged, line,
        maskLines_cons (by decide), body, blank, maskLines, List.flatMap_singleton]
      change spaces (utf8Len (bodyOf spanSample)) ++ endOf spanSample = _
      rw [body, stops, List.append_nil]
    have bare : '!' ∉ spaces (utf8Len spanSample) ∧ '<' ∉ spaces (utf8Len spanSample) :=
      ⟨fun mem => absurd (List.eq_of_mem_replicate mem) (by decide),
        fun mem => absurd (List.eq_of_mem_replicate mem) (by decide)⟩
    rw [validateMarkupAssets_ok, masked, imageReferences_nil bare]
    exact fun reference mem => absurd mem List.not_mem_nil
  · have step := (maskedLines_eq_iff (by decide) untagged).mp hides.lines
    rw [lines, InStep] at step
    exact step.1 wrong

end Mineru.Official.Markup
