import Mineru.Vlm.Equation

/-!
# Repaired equations are balanced

The braces: an escaped brace is no mark, and to take a mark out leaves the parity of the backslashes
around it as it was. The commands: an insertion begins with a backslash and ends with a point, so
that no other match begins, ends or breaks at it.

For both the text is taken apart once. `braces` gives the mark of each character, and the scan is
the general matching of marks; `findCommands` cuts the text into gaps and commands, and the repair
only writes to the gaps. That a repair is repeated without a change then follows from what it
leaves: the result has marks that match already.

What makes a character of a word is a parameter (`WordChars`), of which only the point and the
backslash matter. Whether the repaired formula renders, or means what was meant, is not said.
-/

set_option autoImplicit false

namespace Mineru.Vlm

open Logic
open Brackets (Mark Matching Balanced Pair without depth)

/-! ## Braces -/

/-- The brace that a character is. -/
def braceOf (c : Char) : Mark :=
  if c = '\x7b' then some .U else if c = '\x7d' then some .D else none

/-- The unescaped braces of a text, behind an odd number of backslashes or not. -/
def braces : Bool → Text → List Mark
  | _, [] => []
  | odd, c :: t =>
    if c = '\\' then none :: braces (!odd) t
    else (if odd then none else braceOf c) :: braces false t

theorem braces_backslash (odd : Bool) (t : Text) :
    braces odd ('\\' :: t) = none :: braces (!odd) t := by
  rw [braces, if_pos rfl]

/-- A character behind an odd number of backslashes is no mark. Any other one is, if it is a
brace. -/
theorem braces_other {c : Char} (odd : Bool) (t : Text) (other : c ≠ '\\') :
    braces odd (c :: t) = (if odd then none else braceOf c) :: braces false t := by
  rw [braces, if_neg other]

/-- One turn of the scan is one step of the matching, on the mark of the character. -/
theorem next_eq (i : Nat) (s : BraceScan) (c : Char) (other : c ≠ '\\') :
    (s.next i c).slashes = 0 ∧ (⟨(s.next i c).opens, (s.next i c).remove⟩ : Matching) =
      Matching.step ⟨s.opens, s.remove⟩ i
        (if decide (s.slashes % 2 = 1) then none else braceOf c) := by
  unfold BraceScan.next
  rw [if_neg other]
  dsimp only
  by_cases escaped : s.slashes % 2 = 1
  · simp [escaped, Matching.step]
  · by_cases opening : c = '\x7b'
    · simp [escaped, opening, braceOf, Matching.step]
    · by_cases closing : c = '\x7d'
      · rcases stack : s.opens with _ | ⟨o, rest⟩ <;>
          simp [escaped, closing, braceOf, Matching.step]
      · simp [opening, closing, braceOf, Matching.step]

/-- The loop matches the unescaped braces. -/
theorem scanBraces_eq (i : Nat) (s : BraceScan) (t : Text) :
    (⟨(scanBraces i s t).opens, (scanBraces i s t).remove⟩ : Matching) =
      Brackets.run i ⟨s.opens, s.remove⟩ (braces (decide (s.slashes % 2 = 1)) t) := by
  induction t generalizing i s with
  | nil => rfl
  | cons c t ih =>
    rw [scanBraces, ih]
    by_cases slash : c = '\\'
    · subst slash
      have parity : decide ((s.slashes + 1) % 2 = 1) = !decide (s.slashes % 2 = 1) := by
        rw [← decide_not, decide_eq_decide]
        omega
      rw [braces_backslash, Brackets.run, ← parity]
      rfl
    · obtain ⟨none, step⟩ := next_eq i s c slash
      rw [braces_other _ _ slash, Brackets.run, ← step, none]
      rfl

/-- What is removed are the marks without a partner, and nothing else. -/
theorem removeUnmatchedBraces_eq (t : Text) :
    removeUnmatchedBraces t = without (Brackets.matched (braces false t)).gone 0 t := by
  have same := scanBraces_eq 0 ⟨0, [], []⟩ t
  change _ = Brackets.matched (braces false t) at same
  rw [← same]
  rfl

/-- Taking braces out leaves the others as they are. -/
theorem braces_without {gone : List Nat} (odd : Bool) (i : Nat) (t : Text)
    (marked : ∀ k ∈ gone, i ≤ k → (braces odd t)[k - i]? ≠ some none) :
    braces odd (without gone i t) = without gone i (braces odd t) := by
  induction t generalizing odd i with
  | nil => rfl
  | cons c t ih =>
    have later : ∀ mark odd', braces odd (c :: t) = mark :: braces odd' t →
        braces odd' (without gone (i + 1) t) = without gone (i + 1) (braces odd' t) := by
      intro mark odd' is
      refine ih odd' (i + 1) fun k among late => ?_
      have := marked k among (by omega)
      rwa [is, show k - i = k - (i + 1) + 1 by omega, List.getElem?_cons_succ] at this
    by_cases slash : c = '\\'
    · subst slash
      have stays : i ∉ gone := fun among => by
        have := marked i among le_rfl
        rw [braces_backslash, Nat.sub_self] at this
        exact this rfl
      rw [without, if_neg stays, braces_backslash, braces_backslash, without, if_neg stays,
        later _ _ (braces_backslash odd t)]
    · have rest := later _ _ (braces_other odd t slash)
      by_cases among : i ∈ gone
      · have even : odd = false := by
          have := marked i among le_rfl
          rw [braces_other odd t slash, Nat.sub_self] at this
          cases odd with
          | true => exact absurd rfl this
          | false => rfl
        subst even
        rw [without, if_pos among, braces_other _ _ slash, without, if_pos among, rest]
      · rw [without, if_neg among, braces_other _ _ slash, braces_other _ _ slash, without,
          if_neg among, rest]

theorem braces_repaired (t : Text) :
    braces false (removeUnmatchedBraces t) =
      without (Brackets.matched (braces false t)).gone 0 (braces false t) := by
  rw [removeUnmatchedBraces_eq]
  refine braces_without false 0 t fun k among _ => ?_
  obtain ⟨bracket, there⟩ := Brackets.marked_of_gone among
  rw [Nat.sub_zero, there]
  simp

/-- A text with matching braces stays as it is. -/
theorem removeUnmatchedBraces_of_balanced {t : Text} (balanced : Balanced (braces false t)) :
    removeUnmatchedBraces t = t := by
  rw [removeUnmatchedBraces_eq, Brackets.gone_of_balanced balanced, Brackets.without_nil]

/-- What the repair of the braces promises. -/
structure BracesRepaired (t u : Text) : Prop where
  /-- The unescaped braces nest. -/
  balanced : ∃ p : DyckWord, p.toList = (braces false u).reduceOption
  /-- Only unescaped braces without a partner are gone. -/
  deleted : ∃ gone, u = without gone 0 t ∧ ∀ k ∈ gone,
    (∃ brace, (braces false t)[k]? = some (some brace)) ∧
      ∀ j, ¬ Pair (braces false t) k j ∧ ¬ Pair (braces false t) j k
  unchanged : (∃ p : DyckWord, p.toList = (braces false t).reduceOption) → u = t

/-- The result has matching braces, and only unmatched ones are missing from it. -/
theorem removeUnmatchedBraces_repairs (t : Text) : BracesRepaired t (removeUnmatchedBraces t) where
  balanced := by
    rw [← Brackets.balanced_iff_dyck, braces_repaired]
    exact Brackets.balanced_without _
  deleted := ⟨_, removeUnmatchedBraces_eq t, fun _ among =>
    ⟨Brackets.marked_of_gone among, fun _ =>
      ⟨fun pair => pair.not_gone.1 among, fun pair => pair.not_gone.2 among⟩⟩⟩
  unchanged nests := removeUnmatchedBraces_of_balanced (Brackets.balanced_iff_dyck.mpr nests)

theorem removeUnmatchedBraces_idem (t : Text) :
    removeUnmatchedBraces (removeUnmatchedBraces t) = removeUnmatchedBraces t :=
  (removeUnmatchedBraces_repairs _).unchanged (removeUnmatchedBraces_repairs t).balanced

/-! ## Places of the commands -/

section Scan

variable (w : WordChars)

/-- A text that may follow a command. -/
def Bounded (x : Text) : Prop := x.head?.all (fun c => !w.isWord c) = true

theorem bounded_nil : Bounded w [] := rfl

theorem bounded_backslash (x : Text) : Bounded w ('\\' :: x) := by
  have := w.ascii '\\' (by decide)
  simp [Bounded, this]

theorem Command.word_eq (command : Command) : ∃ letters, command.word = '\\' :: letters ∧
    ∀ c ∈ letters, c ≠ '\\' := by
  cases command
  · exact ⟨['l', 'e', 'f', 't'], rfl, by simp⟩
  · exact ⟨['r', 'i', 'g', 'h', 't'], rfl, by simp⟩

/-- A command is found where its letters stand and no word goes on behind them. -/
theorem startsWord_iff {word t : Text} :
    startsWord w word t = true ↔ ∃ x, t = word ++ x ∧ Bounded w x := by
  unfold startsWord Bounded
  rw [Bool.and_eq_true, List.isPrefixOf_iff_prefix]
  constructor
  · rintro ⟨⟨x, rfl⟩, bounded⟩
    rw [List.drop_left] at bounded
    exact ⟨x, rfl, bounded⟩
  · rintro ⟨x, rfl, bounded⟩
    rw [List.drop_left]
    exact ⟨⟨x, rfl⟩, bounded⟩

/-- Of the two commands at most one stands at a place, because they differ before either of them
ends. -/
theorem commandAt_iff {t : Text} {command : Command} :
    commandAt w t = some command ↔ ∃ x, t = command.word ++ x ∧ Bounded w x := by
  rw [← startsWord_iff]
  have apart : startsWord w Command.left.word t = true →
      startsWord w Command.right.word t = true → False := by
    intro left right
    obtain ⟨x, rfl, _⟩ := (startsWord_iff w).mp left
    obtain ⟨y, is, _⟩ := (startsWord_iff w).mp right
    have second : some 'l' = some 'r' := congrArg (fun t : Text => t[1]?) is
    exact absurd second (by decide)
  unfold commandAt
  cases command <;> split_ifs with left right <;> simp_all

theorem commandAt_word (command : Command) {x : Text} (bounded : Bounded w x) :
    commandAt w (command.word ++ x) = some command :=
  (commandAt_iff w).mpr ⟨x, rfl, bounded⟩

/-- A match that begins before a backslash ends before it. -/
theorem cut_backslash {a y u x : Text} (plain : ∀ c ∈ a.tail, c ≠ '\\') (nonempty : u ≠ [])
    (is : u ++ '\\' :: x = a ++ y) : ∃ rest, u = a ++ rest ∧ y = rest ++ '\\' :: x := by
  rcases List.append_eq_append_iff.mp is with ⟨rest, longer, tail⟩ | ⟨rest, shorter, tail⟩
  · rcases rest with _ | ⟨c, rest⟩
    · exact ⟨[], by simpa using longer.symm, tail.symm⟩
    · obtain ⟨rfl, _⟩ := List.cons.inj tail
      obtain ⟨first, u, rfl⟩ := List.exists_cons_of_ne_nil nonempty
      exact absurd rfl (plain '\\' (by simp [longer]))
  · exact ⟨rest, shorter, tail⟩

/-- What lies behind a backslash does not matter to the places before it. -/
theorem commandAt_behind {u : Text} (nonempty : u ≠ []) (x : Text) :
    commandAt w (u ++ '\\' :: x) = commandAt w u := by
  refine Option.ext fun command => ?_
  rw [commandAt_iff, commandAt_iff]
  constructor
  · rintro ⟨y, is, bounded⟩
    obtain ⟨letters, word, plain⟩ := command.word_eq
    obtain ⟨rest, cut, rfl⟩ := cut_backslash (by rw [word]; exact plain) nonempty is
    refine ⟨rest, cut, ?_⟩
    rcases rest with _ | ⟨c, rest⟩
    · exact bounded_nil w
    · exact bounded
  · rintro ⟨y, rfl, bounded⟩
    refine ⟨y ++ '\\' :: x, by rw [List.append_assoc], ?_⟩
    cases y with
    | nil => exact bounded_backslash w x
    | cons c y => exact bounded

/-- No command begins in the text. -/
def Plain : Text → Prop
  | [] => True
  | c :: u => commandAt w (c :: u) = none ∧ Plain u

/-- The text of the pieces. -/
def assemble (p : Pieces) : Text := (p.1.flatMap fun (gap, command) => gap ++ command.word) ++ p.2

theorem assemble_cons (gap : Text) (command : Command) (found : List (Text × Command))
    (tail : Text) : assemble ((gap, command) :: found, tail) =
      gap ++ (command.word ++ assemble (found, tail)) := by
  simp [assemble]

theorem assemble_ahead (c : Char) (p : Pieces) : assemble (p.ahead c) = c :: assemble p := by
  obtain ⟨_ | ⟨⟨gap, command⟩, found⟩, tail⟩ := p <;> simp [Pieces.ahead, assemble]

/-- The pieces of a text: no command begins in the gaps, and each command ends where it should. -/
def Clean : List (Text × Command) → Text → Prop
  | [], tail => Plain w tail
  | (gap, _) :: found, tail =>
    Plain w gap ∧ Bounded w (assemble (found, tail)) ∧ Clean found tail

theorem findCommands_skip (a x : Text) : findCommands w a.length (a ++ x) = findCommands w 0 x := by
  induction a with
  | nil => rfl
  | cons c a ih => exact ih

/-- A command at the start of the text comes with an empty gap. -/
theorem findCommands_word (command : Command) {x : Text} (bounded : Bounded w x) :
    findCommands w 0 (command.word ++ x) =
      (([], command) :: (findCommands w 0 x).1, (findCommands w 0 x).2) := by
  have here := commandAt_word w command bounded
  obtain ⟨letters, word, _⟩ := command.word_eq
  rw [word, List.cons_append] at here ⊢
  rw [findCommands, here]
  dsimp only
  rw [word, List.length_cons, Nat.add_sub_cancel, findCommands_skip]

/-- The search finds the pieces it is given. -/
theorem findCommands_assemble {found : List (Text × Command)} {tail : Text}
    (clean : Clean w found tail) : findCommands w 0 (assemble (found, tail)) = (found, tail) := by
  induction found with
  | nil =>
    change findCommands w 0 tail = ([], tail)
    replace clean : Plain w tail := clean
    induction tail with
    | nil => rfl
    | cons c tail ih =>
      rw [findCommands, clean.1]
      dsimp only
      rw [ih clean.2]
      rfl
  | cons piece found ih =>
    obtain ⟨gap, command⟩ := piece
    obtain ⟨plain, bounded, clean⟩ := clean
    rw [assemble_cons]
    induction gap with
    | nil =>
      rw [List.nil_append, findCommands_word w command bounded, ih clean]
    | cons c gap inner =>
      have none : commandAt w (c :: (gap ++ (command.word ++ assemble (found, tail)))) = none := by
        obtain ⟨letters, word, _⟩ := command.word_eq
        rw [word, List.cons_append, ← List.cons_append, commandAt_behind w (by simp)]
        exact plain.1
      rw [List.cons_append, findCommands, none]
      dsimp only
      rw [inner plain.2]
      rfl

/-- The search cuts the text into pieces. -/
theorem findCommands_spec (t : Text) :
    assemble (findCommands w 0 t) = t ∧ Clean w (findCommands w 0 t).1 (findCommands w 0 t).2 := by
  induction size : t.length using Nat.strong_induction_on generalizing t with
  | _ n ih =>
    cases t with
    | nil => exact ⟨rfl, trivial⟩
    | cons c t =>
      cases here : commandAt w (c :: t) with
      | some command =>
        obtain ⟨x, is, bounded⟩ := (commandAt_iff w).mp here
        have shorter : x.length < n := by
          obtain ⟨letters, word, _⟩ := command.word_eq
          have sizes := congrArg List.length is
          rw [size, word, List.length_append, List.length_cons] at sizes
          omega
        obtain ⟨whole, clean⟩ := ih _ shorter x rfl
        rw [is, findCommands_word w command bounded]
        refine ⟨?_, trivial, ?_, clean⟩
        · rw [assemble_cons, whole]
          rfl
        · rwa [whole]
      | none =>
        obtain ⟨whole, clean⟩ := ih t.length (by rw [← size]; simp) t rfl
        rw [findCommands, here]
        dsimp only
        refine ⟨by rw [assemble_ahead, whole], ?_⟩
        rcases pieces : findCommands w 0 t with ⟨_ | ⟨⟨gap, command⟩, found⟩, tail⟩
        · rw [pieces] at whole clean
          refine ⟨?_, clean⟩
          rw [← whole] at here
          exact here
        · rw [pieces] at whole clean
          obtain ⟨plain, bounded, clean⟩ := clean
          refine ⟨⟨?_, plain⟩, bounded, clean⟩
          rw [← whole, assemble_cons] at here
          obtain ⟨letters, word, _⟩ := command.word_eq
          rwa [word, List.cons_append, ← List.cons_append, commandAt_behind w (by simp)] at here

/-! ## The insertions -/

/-- The pieces with the commands that the loop adds behind the last one. -/
def closing : Nat → Text → Pieces
  | 0, tail => ([], tail)
  | opened + 1, tail =>
    let rest := closing opened ['.']
    ((tail, .right) :: rest.1, rest.2)

/-- The pieces of the result. -/
def repair : Nat → List (Text × Command) → Text → Pieces
  | opened, [], tail => closing opened tail
  | opened, (gap, .left) :: found, tail =>
    let rest := repair (opened + 1) found tail
    ((gap, .left) :: rest.1, rest.2)
  | 0, (gap, .right) :: found, tail =>
    let rest := repair 0 found tail
    ((gap, .left) :: (['.'], .right) :: rest.1, rest.2)
  | opened + 1, (gap, .right) :: found, tail =>
    let rest := repair opened found tail
    ((gap, .right) :: rest.1, rest.2)

theorem assemble_closing (opened : Nat) (tail : Text) :
    assemble (closing opened tail) =
      tail ++ (List.replicate opened (text "\\right.")).flatten := by
  induction opened generalizing tail with
  | zero => simp [closing, assemble]
  | succ opened ih =>
    rw [closing, assemble_cons, ih, List.replicate_succ, List.flatten_cons]
    rfl

/-- The loop of the source writes what `repair` says, with the commands that are still open closed
at the end. -/
theorem loop_eq (found : List (Text × Command)) (tail : Text) (s : Commands) :
    (found.foldl Commands.next s).output ++ tail ++
        (List.replicate (found.foldl Commands.next s).opened (text "\\right.")).flatten =
      s.output ++ assemble (repair s.opened found tail) := by
  induction found generalizing s with
  | nil => rw [List.foldl_nil, repair, assemble_closing, List.append_assoc]
  | cons piece found ih =>
    obtain ⟨gap, command⟩ := piece
    rw [List.foldl_cons, ih]
    obtain ⟨output, opened⟩ := s
    cases command with
    | left => simp [Commands.next, repair, assemble_cons]
    | right =>
      cases opened with
      | zero =>
        have point : text "\\left." = Command.left.word ++ ['.'] := rfl
        simp [Commands.next, repair, assemble_cons, point]
      | succ opened => simp [Commands.next, repair, assemble_cons]

/-- The numbers of environments agree. -/
def Paired (t : Text) : Prop := countEnvironments beginWord t = countEnvironments endWord t

/-- The repair on the pieces that the search has found. Where the environments are not paired, the
source leaves the text as it is. -/
theorem normalizeLeftRight_eq {t : Text} (paired : Paired t) :
    normalizeLeftRight w t =
      assemble (repair 0 (findCommands w 0 t).1 (findCommands w 0 t).2) := by
  have agree : ¬ countEnvironments beginWord t ≠ countEnvironments endWord t := not_not.mpr paired
  unfold normalizeLeftRight
  rw [if_neg agree]
  exact loop_eq _ _ _

theorem plain_point : Plain w ['.'] := by
  refine ⟨?_, trivial⟩
  cases here : commandAt w ['.'] with
  | none => rfl
  | some command =>
    obtain ⟨x, is, _⟩ := (commandAt_iff w).mp here
    obtain ⟨letters, word, _⟩ := command.word_eq
    rw [word] at is
    cases is

theorem bounded_word (command : Command) (x : Text) : Bounded w (command.word ++ x) := by
  obtain ⟨letters, word, _⟩ := command.word_eq
  rw [word]
  exact bounded_backslash w _

theorem bounded_point (x : Text) : Bounded w ('.' :: x) := by
  have := w.ascii '.' (by decide)
  simp [Bounded, this]

/-- The first character stays, or is a backslash now. -/
theorem bounded_closing {tail : Text} (opened : Nat) (bounded : Bounded w tail) :
    Bounded w (assemble (closing opened tail)) := by
  cases opened with
  | zero => exact bounded
  | succ opened =>
    rw [closing, assemble_cons]
    cases tail with
    | nil => exact bounded_word w _ _
    | cons c tail => exact bounded

/-- An insertion does not run into the boundary of a command before it. -/
theorem bounded_repair {found : List (Text × Command)} {tail : Text} (opened : Nat)
    (bounded : Bounded w (assemble (found, tail))) :
    Bounded w (assemble (repair opened found tail)) := by
  rcases found with _ | ⟨⟨gap, command⟩, found⟩
  · exact bounded_closing w opened bounded
  · have gapped : ∀ (command' : Command) (x : Text), Bounded w (gap ++ (command'.word ++ x)) := by
      intro command' x
      cases gap with
      | nil => exact bounded_word w command' x
      | cons c gap =>
        rw [assemble_cons] at bounded
        exact bounded
    cases command with
    | left =>
      rw [repair, assemble_cons]
      exact gapped _ _
    | right =>
      cases opened with
      | zero | succ =>
        rw [repair, assemble_cons]
        exact gapped _ _

/-- What is appended at the end holds no command in its gaps. -/
theorem clean_closing {tail : Text} (opened : Nat) (plain : Plain w tail) :
    Clean w (closing opened tail).1 (closing opened tail).2 := by
  induction opened generalizing tail with
  | zero => exact plain
  | succ opened ih =>
    exact ⟨plain, bounded_closing w opened (bounded_point w []), ih (plain_point w)⟩

/-- The gaps of the repaired text hold no command, so that the next search finds no more than was
written. -/
theorem clean_repair {found : List (Text × Command)} {tail : Text} (opened : Nat)
    (clean : Clean w found tail) :
    Clean w (repair opened found tail).1 (repair opened found tail).2 := by
  induction found generalizing opened with
  | nil => exact clean_closing w opened clean
  | cons piece found ih =>
    obtain ⟨gap, command⟩ := piece
    obtain ⟨plain, bounded, rest⟩ := clean
    cases command with
    | left => exact ⟨plain, bounded_repair w _ bounded, ih _ rest⟩
    | right =>
      cases opened with
      | zero =>
        refine ⟨plain, ?_, plain_point w, bounded_repair w _ bounded, ih _ rest⟩
        rw [assemble_cons]
        exact bounded_point w _
      | succ opened => exact ⟨plain, bounded_repair w _ bounded, ih _ rest⟩

/-- The commands of the result are the ones the loop wrote. -/
theorem findCommands_repaired {t : Text} (paired : Paired t) :
    findCommands w 0 (normalizeLeftRight w t) =
      repair 0 (findCommands w 0 t).1 (findCommands w 0 t).2 := by
  rw [normalizeLeftRight_eq w paired]
  exact findCommands_assemble w (clean_repair w 0 (findCommands_spec w t).2)

end Scan

/-! ## Balance -/

/-- A command as a bracket. -/
def Command.step : Command → DyckStep
  | left => .U
  | right => .D

def Command.mark (command : Command) : Mark := some command.step

theorem step_injective : Function.Injective Command.step := by
  intro a b
  cases a <;> cases b <;> simp [Command.step]

theorem reduceOption_marks (found : List (Text × Command)) :
    (found.map fun piece => piece.2.mark).reduceOption = (found.map Prod.snd).map Command.step := by
  induction found with
  | nil => rfl
  | cons piece found ih =>
    rw [List.map_cons, Command.mark, List.reduceOption_cons_of_some, ih]
    rfl

theorem depth_closing (opened : Nat) (tail : Text) :
    depth opened ((closing opened tail).1.map fun piece => piece.2.mark) = some 0 := by
  induction opened generalizing tail with
  | zero => rfl
  | succ opened ih => exact ih ['.']

/-- The commands of the repaired text match: each `\right` has got its `\left` and each `\left` is
closed. -/
theorem depth_repair (opened : Nat) (found : List (Text × Command)) (tail : Text) :
    depth opened ((repair opened found tail).1.map fun piece => piece.2.mark) = some 0 := by
  induction found generalizing opened with
  | nil => exact depth_closing opened tail
  | cons piece found ih =>
    obtain ⟨gap, command⟩ := piece
    cases command with
    | left => exact ih _
    | right =>
      cases opened with
      | zero | succ => exact ih _

/-- Balanced commands stay as they are. -/
theorem repair_of_depth {opened : Nat} {found : List (Text × Command)} {tail : Text}
    (balanced : depth opened (found.map fun piece => piece.2.mark) = some 0) :
    repair opened found tail = (found, tail) := by
  induction found generalizing opened with
  | nil =>
    obtain rfl := Option.some.inj balanced
    rfl
  | cons piece found ih =>
    obtain ⟨gap, command⟩ := piece
    cases command with
    | left => rw [repair, ih balanced]
    | right =>
      cases opened with
      | zero => cases balanced
      | succ opened => rw [repair, ih balanced]

/-! ## Environments -/

/-- The words that begin an environment pattern: a backslash and letters. -/
structure EnvironmentWord (word : Text) : Prop where
  letters : ∃ letters, word = '\\' :: letters ∧ ∀ c ∈ letters, c ≠ '\\'
  other : ∀ (command : Command) (x : Text), environmentAt word (command.word ++ x) = false

theorem beginWord_environment : EnvironmentWord beginWord where
  letters := ⟨['b', 'e', 'g', 'i', 'n'], rfl, by simp⟩
  other command x := by cases command <;> rfl

theorem endWord_environment : EnvironmentWord endWord where
  letters := ⟨['e', 'n', 'd'], rfl, by simp⟩
  other command x := by cases command <;> rfl

/-- An environment begins with its word and an opening brace, with blanks between the two. -/
theorem environmentAt_iff {word t : Text} :
    environmentAt word t = true ↔
      ∃ blank y, (∀ c ∈ blank, isWhitespace c = true) ∧ t = (word ++ blank ++ ['\x7b']) ++ y := by
  unfold environmentAt
  rw [Bool.and_eq_true, List.isPrefixOf_iff_prefix, beq_iff_eq]
  constructor
  · rintro ⟨⟨rest, rfl⟩, brace⟩
    rw [List.drop_left] at brace
    obtain ⟨y, is⟩ := List.head?_eq_some_iff.mp brace
    refine ⟨rest.takeWhile isWhitespace, y, fun c => List.mem_takeWhile_imp, ?_⟩
    rw [List.append_assoc, List.append_assoc, List.singleton_append, ← is,
      List.takeWhile_append_dropWhile]
  · rintro ⟨blank, y, white, rfl⟩
    refine ⟨⟨blank ++ '\x7b' :: y, by simp⟩, ?_⟩
    rw [List.append_assoc, List.append_assoc, List.drop_left, List.dropWhile_append_of_pos white]
    rfl

section Environments

variable {word : Text} (environment : EnvironmentWord word)

include environment

/-- A pattern does not reach over a backslash. -/
theorem environmentAt_behind {u : Text} (nonempty : u ≠ []) (x : Text) :
    environmentAt word (u ++ '\\' :: x) = environmentAt word u := by
  rw [Bool.eq_iff_iff, environmentAt_iff, environmentAt_iff]
  constructor
  · rintro ⟨blank, y, white, is⟩
    obtain ⟨letters, rfl, plain⟩ := environment.letters
    have inside : ∀ c ∈ ('\\' :: letters ++ blank ++ ['\x7b']).tail, c ≠ '\\' := by
      intro c among
      simp only [List.cons_append, List.tail_cons, List.mem_append, List.mem_singleton] at among
      rcases among with (letter | space) | rfl
      · exact plain c letter
      · rintro rfl
        exact absurd (white _ space) (by decide)
      · decide
    obtain ⟨rest, cut, _⟩ := cut_backslash inside nonempty is
    exact ⟨blank, rest, white, cut⟩
  · rintro ⟨blank, y, white, rfl⟩
    exact ⟨blank, y ++ '\\' :: x, white, List.append_assoc _ _ _⟩

/-- The count can be taken on both sides of a backslash, because no pattern reaches over one. -/
theorem countEnvironments_behind (u x : Text) :
    countEnvironments word (u ++ '\\' :: x) =
      countEnvironments word u + countEnvironments word ('\\' :: x) := by
  induction u with
  | nil => exact (Nat.zero_add _).symm
  | cons c u ih =>
    have here := environmentAt_behind environment (List.cons_ne_nil c u) x
    rw [List.cons_append] at here ⊢
    rw [countEnvironments, here, ih, ← Nat.add_assoc]
    rfl

theorem countEnvironments_plain {a : Text} (plain : ∀ c ∈ a, c ≠ '\\') (x : Text) :
    countEnvironments word (a ++ x) = countEnvironments word x := by
  obtain ⟨letters, rfl, _⟩ := environment.letters
  induction a with
  | nil => rfl
  | cons c a ih =>
    have no : environmentAt ('\\' :: letters) (c :: (a ++ x)) = false := by
      have other : ¬ '\\' = c := fun same => plain c List.mem_cons_self same.symm
      simp [environmentAt, List.isPrefixOf, other]
    rw [List.cons_append, countEnvironments, no,
      ih fun d among => plain d (List.mem_cons_of_mem c among)]
    simp

/-- The environments lie in the gaps. -/
theorem countEnvironments_cons (gap : Text) (command : Command) (p : Pieces) :
    countEnvironments word (assemble ((gap, command) :: p.1, p.2)) =
      countEnvironments word gap + countEnvironments word (assemble p) := by
  have no := environment.other command (assemble p)
  obtain ⟨letters, is, plain⟩ := command.word_eq
  rw [assemble_cons, is, List.cons_append, countEnvironments_behind environment]
  rw [is, List.cons_append] at no
  rw [countEnvironments, no, countEnvironments_plain environment plain]
  simp

theorem countEnvironments_point : countEnvironments word ['.'] = 0 :=
  countEnvironments_plain environment (a := ['.']) (by simp) []

theorem countEnvironments_closing (opened : Nat) (tail : Text) :
    countEnvironments word (assemble (closing opened tail)) = countEnvironments word tail := by
  induction opened generalizing tail with
  | zero => rfl
  | succ opened ih =>
    rw [closing, countEnvironments_cons environment, ih, countEnvironments_point environment,
      Nat.add_zero]

/-- The repair inserts no environment and breaks none. -/
theorem countEnvironments_repair (opened : Nat) (found : List (Text × Command)) (tail : Text) :
    countEnvironments word (assemble (repair opened found tail)) =
      countEnvironments word (assemble (found, tail)) := by
  induction found generalizing opened with
  | nil => exact countEnvironments_closing environment opened tail
  | cons piece found ih =>
    obtain ⟨gap, command⟩ := piece
    have original := countEnvironments_cons environment gap command (found, tail)
    cases command with
    | left => rw [repair, countEnvironments_cons environment, ih, original]
    | right =>
      cases opened with
      | zero =>
        have inner := countEnvironments_cons environment ['.'] .right (repair 0 found tail)
        have outer := countEnvironments_cons environment gap .left
          ((['.'], .right) :: (repair 0 found tail).1, (repair 0 found tail).2)
        rw [repair, outer, inner, ih, original, countEnvironments_point environment, Nat.zero_add]
      | succ opened => rw [repair, countEnvironments_cons environment, ih, original]

end Environments

/-! ## The whole repair -/

/-- The second text is the first with `\left.` and `\right.` inserted. -/
inductive Inserted : Text → Text → Prop where
  | nil : Inserted [] []
  | keep (c : Char) {t u : Text} (rest : Inserted t u) : Inserted (c :: t) (c :: u)
  | left {t u : Text} (rest : Inserted t u) : Inserted t (text "\\left." ++ u)
  | right {t u : Text} (rest : Inserted t u) : Inserted t (text "\\right." ++ u)

theorem Inserted.behind (a : Text) {t u : Text} (rest : Inserted t u) :
    Inserted (a ++ t) (a ++ u) := by
  induction a with
  | nil => exact rest
  | cons c a ih => exact ih.keep c

theorem inserted_closing (opened : Nat) (tail : Text) :
    Inserted tail (assemble (closing opened tail)) := by
  have ends : Inserted [] (List.replicate opened (text "\\right.")).flatten := by
    induction opened with
    | zero => exact .nil
    | succ opened ih => exact ih.right
  rw [assemble_closing]
  simpa using ends.behind tail

/-- The repaired text is the old one with insertions. -/
theorem inserted_repair (opened : Nat) (found : List (Text × Command)) (tail : Text) :
    Inserted (assemble (found, tail)) (assemble (repair opened found tail)) := by
  induction found generalizing opened with
  | nil => exact inserted_closing opened tail
  | cons piece found ih =>
    obtain ⟨gap, command⟩ := piece
    cases command with
    | left =>
      rw [repair, assemble_cons, assemble_cons]
      exact ((ih _).behind _).behind _
    | right =>
      cases opened with
      | zero =>
        rw [repair, assemble_cons, assemble_cons, assemble_cons]
        exact (Inserted.left ((ih 0).behind Command.right.word)).behind gap
      | succ opened =>
        rw [repair, assemble_cons, assemble_cons]
        exact ((ih _).behind _).behind _

/-- The commands that end within the first characters of a text. -/
def within : Nat → List (Text × Command) → List Command
  | _, [] => []
  | n, (gap, command) :: found =>
    let size := gap.length + command.word.length
    if size ≤ n then command :: within (n - size) found else []

/-- The commands that end within the first `n` characters. -/
def commandsWithin (w : WordChars) (n : Nat) (t : Text) : List Command :=
  within n (findCommands w 0 t).1

/-- The commands of a text. -/
def commands (w : WordChars) (t : Text) : List Command := (findCommands w 0 t).1.map Prod.snd

theorem within_take (n : Nat) (found : List (Text × Command)) :
    ∃ k, within n found = (found.map Prod.snd).take k := by
  induction found generalizing n with
  | nil => exact ⟨0, rfl⟩
  | cons piece found ih =>
    obtain ⟨gap, command⟩ := piece
    unfold within
    dsimp only
    by_cases fits : gap.length + command.word.length ≤ n
    · obtain ⟨k, is⟩ := ih (n - (gap.length + command.word.length))
      exact ⟨k + 1, by rw [if_pos fits, is]; rfl⟩
    · exact ⟨0, by rw [if_neg fits]; rfl⟩

/-- Matching commands are as many on the left as on the right, and no prefix has more on the
right. -/
theorem counts_of_depth {found : List (Text × Command)}
    (balanced : depth 0 (found.map fun piece => piece.2.mark) = some 0) :
    (found.map Prod.snd).count .left = (found.map Prod.snd).count .right ∧
      ∀ k, ((found.map Prod.snd).take k).count .right ≤
        ((found.map Prod.snd).take k).count .left := by
  have count : ∀ (cs : List Command) (c : Command),
      (cs.map Command.step).count c.step = cs.count c :=
    fun cs c => List.count_map_of_injective cs Command.step step_injective c
  obtain ⟨total, below⟩ := Brackets.depth_eq_zero_iff.mp balanced
  rw [reduceOption_marks] at total below
  constructor
  · rw [← count, ← count]
    exact (Nat.zero_add _).symm.trans total
  · intro k
    have part := below k
    rw [Nat.zero_add, ← List.map_take] at part
    rw [← count, ← count]
    exact part

/-- What the repair of the commands promises. -/
structure CommandsRepaired (w : WordChars) (t u : Text) : Prop where
  /-- The commands that end in a part from the beginning. -/
  nested : ∀ n, (commandsWithin w n u).count .right ≤ (commandsWithin w n u).count .left
  total : (commands w u).count .left = (commands w u).count .right
  inserted : Inserted t u

/-- The commands are repaired when the environments are paired. Otherwise nothing is changed. -/
theorem normalizeLeftRight_repairs (w : WordChars) {t : Text} (paired : Paired t) :
    CommandsRepaired w t (normalizeLeftRight w t) := by
  have counts := counts_of_depth
    (depth_repair 0 (findCommands w 0 t).1 (findCommands w 0 t).2)
  have whole := (findCommands_spec w t).1
  refine ⟨fun n => ?_, ?_, ?_⟩
  · rw [commandsWithin, findCommands_repaired w paired]
    obtain ⟨k, is⟩ := within_take n (repair 0 (findCommands w 0 t).1 (findCommands w 0 t).2).1
    rw [is]
    exact counts.2 k
  · rw [commands, findCommands_repaired w paired]
    exact counts.1
  · rw [normalizeLeftRight_eq w paired]
    have := inserted_repair 0 (findCommands w 0 t).1 (findCommands w 0 t).2
    rwa [Prod.eta, whole] at this

/-- A second repair finds matching commands and the same environments, and changes nothing. -/
theorem normalizeLeftRight_idem (w : WordChars) (t : Text) :
    normalizeLeftRight w (normalizeLeftRight w t) = normalizeLeftRight w t := by
  by_cases paired : Paired t
  · have whole := (findCommands_spec w t).1
    have counted : ∀ {word : Text}, EnvironmentWord word →
        countEnvironments word (normalizeLeftRight w t) = countEnvironments word t := by
      intro word environment
      rw [normalizeLeftRight_eq w paired, countEnvironments_repair environment, Prod.eta, whole]
    have again : Paired (normalizeLeftRight w t) := by
      rw [Paired, counted beginWord_environment, counted endWord_environment]
      exact paired
    rw [normalizeLeftRight_eq w again, findCommands_repaired w paired,
      repair_of_depth (depth_repair 0 _ _), normalizeLeftRight_eq w paired]
  · have left : normalizeLeftRight w t = t := if_pos paired
    rw [left, left]

/-- **The braces and the commands of every text are repaired, and once is enough.** Only unmatched
braces are taken out, and only closing and opening commands are put in; where the environments of a
text are not paired its commands are left alone. -/
theorem equation_repaired (w : WordChars) (t : Text) :
    (BracesRepaired t (removeUnmatchedBraces t) ∧
      removeUnmatchedBraces (removeUnmatchedBraces t) = removeUnmatchedBraces t) ∧
    (countEnvironments beginWord t = countEnvironments endWord t →
      CommandsRepaired w t (normalizeLeftRight w t)) ∧
    normalizeLeftRight w (normalizeLeftRight w t) = normalizeLeftRight w t :=
  ⟨⟨removeUnmatchedBraces_repairs t, removeUnmatchedBraces_idem t⟩,
    normalizeLeftRight_repairs w, normalizeLeftRight_idem w t⟩

/-- A formula is given out with nested braces. -/
theorem normalizeEquation_nested (w : WordChars) (t : Text) :
    ∃ p : DyckWord, p.toList = (braces false (normalizeEquation w t)).reduceOption :=
  (removeUnmatchedBraces_repairs _).balanced

/-- The word characters of ASCII alone. -/
def asciiWords : WordChars := ⟨fun c => c.isAlphanum || c == '_', fun _ _ => rfl⟩

/-- A command that closes nothing gets one that opens before it. -/
theorem equation_repaired_right :
    CommandsRepaired asciiWords (text "\\right") (normalizeLeftRight asciiWords (text "\\right")) :=
  (equation_repaired asciiWords (text "\\right")).2.1 (by decide)

end Mineru.Vlm
