import Mineru.Logic.Nesting
import Mineru.Vlm.Containers

/-!
# Formulas in containers

The containers of several formulas are nested groups: one takes in the formulas it covers and the
containers before it that have become formulas themselves. `Resolved` follows the loop, with what
the contents are made of, and every formula appears once for each chain of containers that leads up
from it (`occurrences_eq_chains`).

The nesting is known before the loop runs: which blocks a container takes in depends on boxes and
kinds of the input only (`mem_members`), because a container that is filled keeps its box. So the
condition counts chains in the input, and the induction over the containers is only about their
contents.

Coverage is the source's own test on two boxes. Whether a formula belongs into the box that covers
it is not asked.
-/

set_option autoImplicit false

namespace Mineru.Vlm

open Logic (Nesting)

/-! ## The groups of a page -/

section Groups

variable (blocks : List ContentBlock)

def isFormula (i : Nat) : Bool := (blocks[i]?).any isFilledEquation

def isContainer (i : Nat) : Bool := (blocks[i]?).any fun b => b.kind = "equation_block"

def overlies (c i : Nat) : Bool :=
  (blocks[c]?).any fun b => (blocks[i]?).any fun d => covers b.bbox d.bbox

/-- What a container covers, when some containers are formulas already. -/
def members (merged : List Nat) (c : Nat) : List Nat :=
  (List.range blocks.length).filter fun i =>
    i ≠ c && ((isFormula blocks i || merged.contains i) && overlies blocks c i)

/-- The containers before a position that become formulas. -/
def mergingBelow : Nat → List Nat
  | 0 => []
  | c + 1 =>
    if isContainer blocks c && decide (2 ≤ (members blocks (mergingBelow c) c).length) then
      mergingBelow c ++ [c]
    else mergingBelow c

def membersOf (c : Nat) : List Nat := members blocks (mergingBelow blocks c) c

def isMarked (i : Nat) : Bool :=
  (blocks[i]?).any fun b => b.metadata.containsKey "_absorbed_by_table"

def nesting : Nesting Nat where
  groups := (mergingBelow blocks blocks.length).toFinset
  held c := (membersOf blocks c).toFinset
  stays i := !isMarked blocks i

end Groups

/-! ## Where a content comes from -/

/-- The content of a block of the page, or an array of contents. -/
inductive Source where
  | own (index : Nat)
  | array (parts : List Source)

namespace Source

mutual

def spell (own : Nat → Text) : Source → Text
  | .own index => own index
  | .array parts => arrayContent (spellAll own parts)

def spellAll (own : Nat → Text) : List Source → List Text
  | [] => []
  | part :: parts => spell own part :: spellAll own parts

end

mutual

def count (f : Nat) : Source → Nat
  | .own index => if index = f then 1 else 0
  | .array parts => countAll f parts

def countAll (f : Nat) : List Source → Nat
  | [] => 0
  | part :: parts => count f part + countAll f parts

end

/-- What a list of parts spells, part by part; `countAll_eq_sum` counts a formula in the same
way. -/
theorem spellAll_eq_map (own : Nat → Text) (parts : List Source) :
    spellAll own parts = parts.map (spell own) := by
  induction parts with
  | nil => rfl
  | cons part parts ih => rw [spellAll, ih, List.map_cons]

theorem countAll_eq_sum (f : Nat) (parts : List Source) :
    countAll f parts = (parts.map (count f)).sum := by
  induction parts with
  | nil => rfl
  | cons part parts ih => rw [countAll, ih, List.map_cons, List.sum_cons]

end Source

/-- What a turn of the loop does to the sources of the contents. -/
def sourcesAt (s : Resolution) (sources : Nat → Source) (index : Nat) : Nat → Source :=
  match s.blocks[index]? with
  | none => sources
  | some block =>
    let children := coveredIndexes s.blocks index block isFilledEquation
    if block.kind = "equation_block" ∧ 2 ≤ children.length then
      Function.update sources index (.array (children.map sources))
    else sources

/-- The loop with the sources of the contents. -/
structure Traced where
  resolution : Resolution
  sources : Nat → Source

def tracedAt (t : Traced) (index : Nat) : Traced where
  resolution := resolveAt t.resolution index
  sources := sourcesAt t.resolution t.sources index

def tracedTo (blocks : List ContentBlock) (k : Nat) : Traced :=
  (List.range k).foldl tracedAt ⟨⟨blocks, List.replicate blocks.length false⟩, Source.own⟩

theorem tracedTo_succ (blocks : List ContentBlock) (k : Nat) :
    tracedTo blocks (k + 1) = tracedAt (tracedTo blocks k) k := by
  rw [tracedTo, List.range_succ, List.foldl_append, List.foldl_cons, List.foldl_nil, ← tracedTo]

/-- The trace only watches: the blocks and flags are those of the source's loop. -/
theorem resolution_traced (blocks : List ContentBlock) :
    (tracedTo blocks blocks.length).resolution = resolveContainers blocks :=
  (List.foldl_hom Traced.resolution fun _ _ => rfl).symm

def sourceOf (blocks : List ContentBlock) : Nat → Source := (tracedTo blocks blocks.length).sources

def ownContent (blocks : List ContentBlock) (i : Nat) : Text :=
  ((blocks[i]?).bind ContentBlock.content).getD []

/-! ## The remaining blocks -/

/-- The indexes of the blocks that remain. -/
def keptIndexes (s : Resolution) : List Nat :=
  (List.range s.blocks.length).filter fun i =>
    (s.blocks[i]?).any fun block => (s.remove[i]?).any (survives block)

def remainingEquations (s : Resolution) : List Nat :=
  (keptIndexes s).filter fun i => (s.blocks[i]?).any fun block => block.kind = "equation"

/-- How often a formula appears in the contents of the remaining equations. -/
def occurrences (blocks : List ContentBlock) (f : Nat) : Nat :=
  ((remainingEquations (resolveContainers blocks)).map fun i => (sourceOf blocks i).count f).sum

/-- Every formula of the page appears once. -/
def KeptOnce (blocks : List ContentBlock) : Prop :=
  ∀ f, isFormula blocks f → occurrences blocks f = 1

/-- What no turn of the loop changes. -/
def ContentBlock.frame (block : ContentBlock) :=
  (block.bbox, block.angle, block.mergePrevious, block.metadata)

/-- The remaining blocks are blocks of the page in their order. -/
def InOrder (blocks : List ContentBlock) : Prop :=
  let s := resolveContainers blocks
  retained s = (keptIndexes s).filterMap (fun i => s.blocks[i]?) ∧
    (keptIndexes s).Sublist (List.range blocks.length) ∧
    s.blocks.map ContentBlock.frame = blocks.map ContentBlock.frame

/-- The contents of equations are spelled out from their sources. -/
def Spelled (blocks : List ContentBlock) : Prop :=
  ∀ (i : Nat) (block : ContentBlock), (resolveContainers blocks).blocks[i]? = some block →
    isFilledEquation block → block.content = some ((sourceOf blocks i).spell (ownContent blocks))

theorem zip_filter_indexes {α β : Type} (p : α → β → Bool) (xs : List α) (ys : List β) :
    ((xs.zip ys).filter fun x => p x.1 x.2).map Prod.fst =
      ((List.range xs.length).filter fun i =>
        (xs[i]?).any fun x => (ys[i]?).any (p x)).filterMap fun i => xs[i]? := by
  induction xs generalizing ys with
  | nil => rfl
  | cons x xs ih =>
    rw [List.length_cons, List.range_succ_eq_map, List.filter_cons, List.filter_map]
    cases ys with
    | nil => simp
    | cons y ys =>
      have rest := ih ys
      simp only [List.zip_cons_cons, List.filter_cons, List.getElem?_cons_zero, Option.any_some]
      by_cases holds : p x y = true
      · rw [if_pos holds, if_pos holds, List.map_cons, List.filterMap_cons, List.filterMap_map, rest]
        rfl
      · rw [if_neg holds, if_neg holds, List.filterMap_map, rest]
        rfl

theorem retained_eq (s : Resolution) :
    retained s = (keptIndexes s).filterMap fun i => s.blocks[i]? :=
  zip_filter_indexes survives s.blocks s.remove

/-! ## Contents -/

theorem trim_ne_nil {t : Text} {c : Char} (mem : c ∈ t) (visible : isWhitespace c = false) :
    trim t ≠ [] := by
  intro empty
  have inner : ((t.dropWhile isWhitespace).reverse.dropWhile isWhitespace) = [] :=
    List.reverse_eq_nil_iff.mp empty
  have blank : ∀ d ∈ t.dropWhile isWhitespace, isWhitespace d = true := fun d out =>
    List.dropWhile_eq_nil_iff.mp inner d (List.mem_reverse.mpr out)
  have gone : t.dropWhile isWhitespace = [] := by
    by_contra some
    have head := List.head_dropWhile_not isWhitespace some
    rw [blank _ (List.head_mem some)] at head
    exact nomatch head
  have space := List.dropWhile_eq_nil_iff.mp gone c mem
  rw [visible] at space
  exact nomatch space

/-- A container that has taken formulas in counts as a formula. -/
theorem merged_filled (block : ContentBlock) (contents : List Text) :
    isFilledEquation
      { block with kind := "equation", content := some (arrayContent contents) } = true := by
  have first : '\\' ∈ arrayContent contents := List.mem_cons_self
  have shown : (trim (arrayContent contents)).isEmpty = false :=
    List.isEmpty_eq_false_iff.mpr (trim_ne_nil first (by decide))
  rw [isFilledEquation, ContentBlock.hasContent, Option.any_some, shown]
  rfl

/-! ## The groups -/

section Groups

variable {blocks : List ContentBlock}

/-- Which blocks a container takes in, by the boxes and kinds of the input and the containers filled
before. -/
theorem mem_members {merged : List Nat} {c i : Nat} : i ∈ members blocks merged c ↔
    i < blocks.length ∧ i ≠ c ∧ (isFormula blocks i = true ∨ i ∈ merged) ∧
      overlies blocks c i = true := by
  simp only [members, List.mem_filter, List.mem_range, Bool.and_eq_true, Bool.or_eq_true,
    decide_eq_true_eq, List.contains_iff_mem]

theorem mem_mergingBelow {k c : Nat} : c ∈ mergingBelow blocks k ↔
    c < k ∧ isContainer blocks c = true ∧ 2 ≤ (membersOf blocks c).length := by
  induction k with
  | zero => exact ⟨fun mem => absurd mem List.not_mem_nil, fun h => absurd h.1 (Nat.not_lt_zero _)⟩
  | succ k ih =>
    have here : (isContainer blocks k && decide (2 ≤ (members blocks (mergingBelow blocks k) k).length))
        = true ↔ isContainer blocks k = true ∧ 2 ≤ (membersOf blocks k).length := by
      rw [Bool.and_eq_true, decide_eq_true_eq, membersOf]
    rw [mergingBelow]
    by_cases merges : isContainer blocks k = true ∧ 2 ≤ (membersOf blocks k).length
    · rw [if_pos (here.mpr merges), List.mem_append, ih, List.mem_singleton]
      constructor
      · rintro (⟨lt, rest⟩ | rfl)
        · exact ⟨Nat.lt_succ_of_lt lt, rest⟩
        · exact ⟨Nat.lt_succ_self _, merges⟩
      · rintro ⟨lt, rest⟩
        rcases Nat.lt_succ_iff_lt_or_eq.mp lt with below | same
        · exact .inl ⟨below, rest⟩
        · exact .inr same
    · rw [if_neg fun h => merges (here.mp h), ih]
      constructor
      · exact fun ⟨lt, rest⟩ => ⟨Nat.lt_succ_of_lt lt, rest⟩
      · rintro ⟨lt, rest⟩
        rcases Nat.lt_succ_iff_lt_or_eq.mp lt with below | rfl
        · exact ⟨below, rest⟩
        · exact absurd rest merges

theorem isFormula_not_container {i : Nat} (formula : isFormula blocks i = true) :
    isContainer blocks i = false := by
  unfold isFormula at formula
  unfold isContainer
  cases is : blocks[i]? with
  | none => rfl
  | some block =>
    rw [is, Option.any_some, isFilledEquation, Bool.and_eq_true, decide_eq_true_eq] at formula
    rw [Option.any_some, formula.1]
    decide

/-- What a container takes in is a formula or has been a container before it. -/
theorem member_cases {c x : Nat} (mem : x ∈ membersOf blocks c) :
    isFormula blocks x = true ∨ x ∈ mergingBelow blocks c := (mem_members.mp mem).2.2.1

theorem not_mem_of_formula {k f : Nat} (formula : isFormula blocks f = true) :
    f ∉ mergingBelow blocks k := by
  intro mem
  have container := (mem_mergingBelow.mp mem).2.1
  rw [isFormula_not_container formula] at container
  exact nomatch container

/-- A container takes in containers before it only, so the nesting has no cycle. -/
theorem nesting_ranked : (nesting blocks).Ranked id blocks.length where
  below _ mem := (mem_mergingBelow.mp (List.mem_toFinset.mp mem)).1
  grows _ _ h mem holds := by
    rcases member_cases (List.mem_toFinset.mp holds) with formula | before
    · exact absurd (List.mem_toFinset.mp mem) (not_mem_of_formula formula)
    · exact (mem_mergingBelow.mp before).1

theorem mem_above {x c : Nat} : c ∈ (nesting blocks).above x ↔
    c ∈ mergingBelow blocks blocks.length ∧ x ∈ membersOf blocks c := by
  rw [Nesting.mem_above, nesting, List.mem_toFinset, List.mem_toFinset]

end Groups

/-! ## The loop -/

/-- The state after some turns of the loop. -/
structure Resolved (blocks : List ContentBlock) (k : Nat) (t : Traced) : Prop where
  frames : t.resolution.blocks.map ContentBlock.frame = blocks.map ContentBlock.frame
  size : t.resolution.remove.length = blocks.length
  later : ∀ i, k ≤ i → t.resolution.blocks[i]? = blocks[i]?
  filled : ∀ i, (t.resolution.blocks[i]?).any isFilledEquation =
    (isFormula blocks i || (mergingBelow blocks k).contains i)
  contents : ∀ (i : Nat) (block : ContentBlock), t.resolution.blocks[i]? = some block →
    isFilledEquation block → block.content = some ((t.sources i).spell (ownContent blocks))
  sources : ∀ i, t.sources i =
    if i ∈ mergingBelow blocks k then .array ((membersOf blocks i).map t.sources) else .own i
  removed : ∀ i, isFormula blocks i = true ∨ i ∈ mergingBelow blocks k →
    (t.resolution.remove[i]? = some true ↔ ∃ c ∈ mergingBelow blocks k, i ∈ membersOf blocks c)
  waiting : ∀ i, k ≤ i → isFormula blocks i = false → t.resolution.remove[i]? ≠ some true

/-- A formula with content is spelled by something that is seen. -/
theorem hasContent_spelled {blocks : List ContentBlock} {i : Nat} {block : ContentBlock}
    (is : blocks[i]? = some block) (filled : isFilledEquation block = true) :
    block.content = some (ownContent blocks i) := by
  rw [ownContent, is, Option.bind_some]
  cases content : block.content with
  | none =>
    rw [isFilledEquation, Bool.and_eq_true, ContentBlock.hasContent, content] at filled
    exact absurd filled.2 (by decide)
  | some value => rfl

theorem resolved_start (blocks : List ContentBlock) : Resolved blocks 0 (tracedTo blocks 0) where
  frames := rfl
  size := List.length_replicate
  later _ _ := rfl
  filled i := by
    rw [mergingBelow, List.contains_nil, Bool.or_false]
    rfl
  contents i block is filled := hasContent_spelled is filled
  sources i := (if_neg List.not_mem_nil).symm
  removed i _ := by
    constructor
    · intro marked
      have isFalse := List.eq_of_mem_replicate (List.mem_of_getElem? marked)
      exact nomatch isFalse
    · rintro ⟨c, mem, -⟩
      exact absurd mem List.not_mem_nil
  waiting i _ _ marked := by
    have isFalse := List.eq_of_mem_replicate (List.mem_of_getElem? marked)
    exact nomatch isFalse

/-- The marks of the members of a container. -/
theorem getElem?_marks (ids : List Nat) (remove : List Bool) (i : Nat) :
    (ids.foldl (fun remove child => remove.set child true) remove)[i]? = some true ↔
      remove[i]? = some true ∨ i ∈ ids ∧ i < remove.length := by
  induction ids generalizing remove with
  | nil => simp
  | cons child ids ih =>
    rw [List.foldl_cons, ih, List.length_set, List.mem_cons, List.getElem?_set]
    by_cases here : child = i
    · subst here
      by_cases inside : child < remove.length <;> simp [inside]
    · simp [here, Ne.symm here]

namespace Resolved

variable {blocks : List ContentBlock} {k : Nat} {t : Traced} (inv : Resolved blocks k t)

include inv

theorem length : t.resolution.blocks.length = blocks.length := by
  have same := congrArg List.length inv.frames
  rwa [List.length_map, List.length_map] at same

/-- The loop leaves every box as it is. -/
theorem bbox (i : Nat) :
    (t.resolution.blocks[i]?).map ContentBlock.bbox = (blocks[i]?).map ContentBlock.bbox := by
  have same : (t.resolution.blocks[i]?).map ContentBlock.frame = (blocks[i]?).map ContentBlock.frame := by
    rw [← List.getElem?_map, inv.frames, List.getElem?_map]
  have first := congrArg (Option.map Prod.fst) same
  rwa [Option.map_map, Option.map_map] at first

/-- The formulas that a turn of the loop finds under a container. -/
theorem children_eq {block : ContentBlock} (is : blocks[k]? = some block) :
    coveredIndexes t.resolution.blocks k block isFilledEquation = membersOf blocks k := by
  unfold coveredIndexes membersOf members
  rw [inv.length]
  apply List.filter_congr
  intro i _
  congr 1
  have filled := inv.filled i
  have box := inv.bbox i
  unfold overlies
  rw [is, Option.any_some, ← filled]
  cases here : t.resolution.blocks[i]? with
  | none =>
    rw [Option.any_none, Option.any_none, Bool.false_and]
  | some child =>
    cases there : blocks[i]? with
    | none =>
      rw [here, there] at box
      exact nomatch box
    | some original =>
      rw [here, there, Option.map_some, Option.map_some] at box
      rw [Option.any_some, Option.any_some, Option.any_some, Option.some.inj box]

/-- A block is replaced by one with the same frame. -/
theorem frames_set {block block' : ContentBlock} (here : t.resolution.blocks[k]? = some block)
    (frame : block'.frame = block.frame) :
    (t.resolution.blocks.set k block').map ContentBlock.frame = blocks.map ContentBlock.frame := by
  have same : (t.resolution.blocks.map ContentBlock.frame)[k]? = some block'.frame := by
    rw [List.getElem?_map, here, frame, Option.map_some]
  obtain ⟨inside', is⟩ := List.getElem?_eq_some_iff.mp same
  rw [List.map_set, ← inv.frames, ← is]
  exact List.set_getElem_self inside'

/-- A turn that makes no formula out of a container. -/
theorem quiet {block block' : ContentBlock} {remove : List Bool} (is : blocks[k]? = some block)
    (same : mergingBelow blocks (k + 1) = mergingBelow blocks k)
    (frame : block'.frame = block.frame)
    (kept : block' = block ∨ isFilledEquation block = false ∧ isFilledEquation block' = false)
    (marks : remove = t.resolution.remove ∨
      remove = t.resolution.remove.set k true ∧ isFilledEquation block = false) :
    Resolved blocks (k + 1) ⟨⟨t.resolution.blocks.set k block', remove⟩, t.sources⟩ := by
  have inside : k < t.resolution.blocks.length := by
    rw [inv.length]
    exact (List.getElem?_eq_some_iff.mp is).1
  have here : t.resolution.blocks[k]? = some block := (inv.later k (Nat.le_refl k)).trans is
  have formula : isFormula blocks k = isFilledEquation block := by rw [isFormula, is, Option.any_some]
  have out : k ∉ mergingBelow blocks k := fun mem => Nat.lt_irrefl k (mem_mergingBelow.mp mem).1
  have unmarked : ∀ i, i ≠ k ∨ isFormula blocks i = true →
      remove[i]? = t.resolution.remove[i]? := by
    rintro i eligible
    rcases marks with rfl | ⟨rfl, empty⟩
    · rfl
    · apply List.getElem?_set_ne
      rintro rfl
      rcases eligible with other | filled
      · exact other rfl
      · rw [formula, empty] at filled
        exact nomatch filled
  refine ⟨?_, ?_, fun i after => ?_, fun i => ?_, fun i b at' filled => ?_, fun i => ?_,
    fun i eligible => ?_, fun i after plain => ?_⟩
  · exact inv.frames_set here frame
  · rcases marks with rfl | ⟨rfl, -⟩
    · exact inv.size
    · exact (List.length_set).trans inv.size
  · rw [List.getElem?_set_ne (Nat.ne_of_lt after)]
    exact inv.later i (Nat.le_of_succ_le after)
  · rw [same, ← inv.filled]
    rcases eq_or_ne k i with rfl | other
    · rw [List.getElem?_set_self inside, here, Option.any_some, Option.any_some]
      rcases kept with rfl | ⟨before, after⟩
      · rfl
      · rw [before, after]
    · rw [List.getElem?_set_ne other]
  · rcases eq_or_ne k i with rfl | other
    · rw [List.getElem?_set_self inside] at at'
      obtain rfl := Option.some.inj at'
      rcases kept with rfl | ⟨-, empty⟩
      · exact inv.contents k block' here filled
      · rw [empty] at filled
        exact nomatch filled
    · rw [List.getElem?_set_ne other] at at'
      exact inv.contents i b at' filled
  · rw [same]
    exact inv.sources i
  · rw [same] at eligible ⊢
    rw [unmarked i (eligible.elim .inr fun mem => .inl (ne_of_mem_of_not_mem mem out))]
    exact inv.removed i eligible
  · rw [unmarked i (.inl (Nat.ne_of_gt after))]
    exact inv.waiting i (Nat.le_of_succ_le after) plain

/-- A turn that merges the formulas under a container. -/
theorem merge {block : ContentBlock} (is : blocks[k]? = some block)
    (container : isContainer blocks k = true) (several : 2 ≤ (membersOf blocks k).length) :
    let children := membersOf blocks k
    Resolved blocks (k + 1)
      ⟨⟨t.resolution.blocks.set k
          { block with
            kind := "equation"
            content := some (arrayContent (children.filterMap fun child =>
              (t.resolution.blocks[child]?).bind ContentBlock.content)) },
        children.foldl (fun remove child => remove.set child true) t.resolution.remove⟩,
      Function.update t.sources k (.array (children.map t.sources))⟩ := by
  intro children
  have inside : k < t.resolution.blocks.length := by
    rw [inv.length]
    exact (List.getElem?_eq_some_iff.mp is).1
  have here : t.resolution.blocks[k]? = some block := (inv.later k (Nat.le_refl k)).trans is
  have out : k ∉ mergingBelow blocks k := fun mem => Nat.lt_irrefl k (mem_mergingBelow.mp mem).1
  have grows : mergingBelow blocks (k + 1) = mergingBelow blocks k ++ [k] := by
    rw [mergingBelow, if_pos]
    rw [Bool.and_eq_true, decide_eq_true_eq]
    exact ⟨container, several⟩
  have plain : isFormula blocks k = false := by
    cases formula : isFormula blocks k with
    | false => rfl
    | true =>
      rw [isFormula_not_container formula] at container
      exact nomatch container
  -- No member of a container up to this one is this one.
  have elsewhere : ∀ c ∈ mergingBelow blocks (k + 1), k ∉ membersOf blocks c := by
    intro c mem member
    rcases member_cases member with formula | before
    · rw [plain] at formula
      exact nomatch formula
    · have above := (mem_mergingBelow.mp before).1
      have below := (mem_mergingBelow.mp mem).1
      omega
  have update : ∀ c ∈ mergingBelow blocks (k + 1), ∀ source : Source,
      (membersOf blocks c).map (Function.update t.sources k source) =
        (membersOf blocks c).map t.sources := by
    intro c mem source
    apply List.map_congr_left
    intro x member
    exact Function.update_of_ne (ne_of_mem_of_not_mem member (elsewhere c mem)) _ _
  have last : k ∈ mergingBelow blocks (k + 1) := by
    rw [grows]
    exact List.mem_append_right _ List.mem_cons_self
  refine ⟨?_, ?_, fun i after => ?_, fun i => ?_, fun i b at' filled => ?_, fun i => ?_,
    fun i eligible => ?_, fun i after other => ?_⟩
  · exact inv.frames_set here rfl
  · have size : ∀ (ids : List Nat) (remove : List Bool),
        (ids.foldl (fun remove child => remove.set child true) remove).length = remove.length := by
      intro ids
      induction ids with
      | nil => exact fun _ => rfl
      | cons child ids ih => exact fun remove => (ih _).trans List.length_set
    exact (size _ _).trans inv.size
  · rw [List.getElem?_set_ne (Nat.ne_of_lt after)]
    exact inv.later i (Nat.le_of_succ_le after)
  · rw [grows]
    rcases eq_or_ne k i with rfl | other
    · rw [List.getElem?_set_self inside, Option.any_some, merged_filled]
      simp
    · rw [List.getElem?_set_ne other, inv.filled]
      simp [Ne.symm other]
  · rcases eq_or_ne k i with rfl | other
    · rw [List.getElem?_set_self inside] at at'
      obtain rfl := Option.some.inj at'
      dsimp only
      rw [Function.update_self, Source.spell, Source.spellAll_eq_map, List.map_map]
      have spelled : children.filterMap (fun child =>
          (t.resolution.blocks[child]?).bind ContentBlock.content) =
            children.map (Source.spell (ownContent blocks) ∘ t.sources) := by
        rw [← List.filterMap_eq_map]
        apply List.filterMap_congr
        intro child member
        have filled := inv.filled child
        have formed : (isFormula blocks child || (mergingBelow blocks k).contains child) = true := by
          rw [Bool.or_eq_true, List.contains_iff_mem]
          exact member_cases member
        rw [formed] at filled
        cases found : t.resolution.blocks[child]? with
        | none =>
          rw [found] at filled
          exact nomatch filled
        | some b =>
          rw [found, Option.any_some] at filled
          rw [Option.bind_some, inv.contents child b found filled]
          rfl
      exact congrArg (fun contents => some (arrayContent contents)) spelled
    · rw [List.getElem?_set_ne other] at at'
      dsimp only
      rw [Function.update_of_ne (Ne.symm other)]
      exact inv.contents i b at' filled
  · dsimp only
    rcases eq_or_ne k i with rfl | other
    · rw [Function.update_self, if_pos last, update _ last]
    · rw [Function.update_of_ne (Ne.symm other), inv.sources]
      by_cases mem : i ∈ mergingBelow blocks k
      · have mem' : i ∈ mergingBelow blocks (k + 1) := by
          rw [grows]
          exact List.mem_append_left _ mem
        rw [if_pos mem, if_pos mem', update i mem']
      · have mem' : i ∉ mergingBelow blocks (k + 1) := by
          rw [grows, List.mem_append, List.mem_singleton]
          exact not_or.mpr ⟨mem, Ne.symm other⟩
        rw [if_neg mem, if_neg mem']
  · rw [getElem?_marks, inv.size]
    by_cases same : i = k
    · subst same
      constructor
      · rintro (marked | ⟨member, -⟩)
        · exact absurd marked (inv.waiting i (Nat.le_refl i) plain)
        · exact absurd member (elsewhere i last)
      · rintro ⟨c, mem, member⟩
        exact absurd member (elsewhere c mem)
    · have before : isFormula blocks i = true ∨ i ∈ mergingBelow blocks k := by
        rw [grows, List.mem_append, List.mem_singleton] at eligible
        rcases eligible with formula | below | here
        · exact .inl formula
        · exact .inr below
        · exact absurd here same
      rw [inv.removed i before, grows]
      constructor
      · rintro (⟨c, mem, member⟩ | ⟨member, -⟩)
        · exact ⟨c, List.mem_append_left _ mem, member⟩
        · exact ⟨k, List.mem_append_right _ List.mem_cons_self, member⟩
      · rintro ⟨c, mem, member⟩
        rcases List.mem_append.mp mem with below | here
        · exact .inl ⟨c, below, member⟩
        · rw [List.mem_singleton.mp here] at member
          exact .inr ⟨member, (mem_members.mp member).1⟩
  · intro set
    rcases (getElem?_marks _ _ _).mp set with marked | ⟨member, -⟩
    · exact inv.waiting i (Nat.le_of_succ_le after) other marked
    · rcases member_cases member with formula | before
      · rw [other] at formula
        exact nomatch formula
      · have low := (mem_mergingBelow.mp before).1
        omega

/-- A turn that changes no block. -/
theorem still {block : ContentBlock} {remove : List Bool} (is : blocks[k]? = some block)
    (same : mergingBelow blocks (k + 1) = mergingBelow blocks k)
    (marks : remove = t.resolution.remove ∨
      remove = t.resolution.remove.set k true ∧ isFilledEquation block = false) :
    Resolved blocks (k + 1) ⟨⟨t.resolution.blocks, remove⟩, t.sources⟩ := by
  have here : t.resolution.blocks[k]? = some block := (inv.later k (Nat.le_refl k)).trans is
  have turn := inv.quiet is same rfl (.inl rfl) marks
  have unchanged : t.resolution.blocks.set k block = t.resolution.blocks := by
    obtain ⟨inside, rfl⟩ := List.getElem?_eq_some_iff.mp here
    exact List.set_getElem_self inside
  rwa [unchanged] at turn

/-- A container: it becomes a formula of what it covers, or it stays. -/
theorem step_container {block : ContentBlock} (is : blocks[k]? = some block)
    (kind : block.kind = "equation_block") : Resolved blocks (k + 1) (tracedAt t k) := by
  have here : t.resolution.blocks[k]? = some block := (inv.later k (Nat.le_refl k)).trans is
  have container : isContainer blocks k = true := by
    rw [isContainer, is, Option.any_some, kind]
    rfl
  have plain : isFilledEquation block = false := by
    rw [isFilledEquation, kind]
    rfl
  have few (short : (membersOf blocks k).length < 2) :
      mergingBelow blocks (k + 1) = mergingBelow blocks k := by
    rw [mergingBelow, if_neg]
    rw [Bool.and_eq_true, decide_eq_true_eq]
    exact fun h => absurd h.2 (Nat.not_le.mpr short)
  unfold tracedAt resolveAt sourcesAt
  rw [here]
  dsimp only
  rw [if_pos kind, resolveEquationBlock, inv.children_eq is]
  cases children : membersOf blocks k with
  | nil =>
    rw [if_neg fun h => absurd h.2 (Nat.not_succ_le_zero 1)]
    exact inv.still is (few (children ▸ Nat.two_pos)) (.inl rfl)
  | cons first rest =>
    cases rest with
    | nil =>
      rw [if_neg fun h => absurd h.2 (Nat.not_succ_le_self 1)]
      exact inv.still is (few (children ▸ Nat.one_lt_two)) (.inr ⟨rfl, plain⟩)
    | cons second rest =>
      have several : 2 ≤ (first :: second :: rest).length := by
        rw [List.length_cons, List.length_cons]
        omega
      have merged := inv.merge is container (children ▸ several)
      dsimp only at merged
      rw [children] at merged
      rw [if_pos ⟨kind, several⟩]
      exact merged

/-- Any block. The loop changes containers and leaves everything else. -/
theorem step (lt : k < blocks.length) : Resolved blocks (k + 1) (tracedAt t k) := by
  have is : blocks[k]? = some blocks[k] := List.getElem?_eq_getElem lt
  generalize blocks[k] = block at is
  by_cases kind : block.kind = "equation_block"
  · exact inv.step_container is kind
  have here : t.resolution.blocks[k]? = some block := (inv.later k (Nat.le_refl k)).trans is
  have same : mergingBelow blocks (k + 1) = mergingBelow blocks k := by
    rw [mergingBelow, if_neg]
    rw [isContainer, is, Option.any_some, decide_eq_false kind, Bool.false_and]
    exact Bool.false_ne_true
  unfold tracedAt resolveAt sourcesAt
  rw [here]
  dsimp only
  rw [if_neg kind, if_neg fun h : _ ∧ _ => kind h.1]
  by_cases image : block.kind = "image_block"
  · have plain : isFilledEquation block = false := by
      rw [isFilledEquation, image]
      rfl
    rw [if_pos image, resolveImageBlock]
    split
    · exact inv.still is same (.inr ⟨rfl, plain⟩)
    · split
      · exact inv.quiet is same rfl (.inr ⟨plain, rfl⟩) (.inl rfl)
      · exact inv.still is same (.inl rfl)
  · rw [if_neg image]
    by_cases list : block.kind = "list"
    · have plain : isFilledEquation block = false := by
        rw [isFilledEquation, list]
        rfl
      rw [if_pos list, resolveList]
      split
      · exact inv.still is same (.inr ⟨rfl, plain⟩)
      · exact inv.still is same (.inl rfl)
    · rw [if_neg list]
      exact inv.still is same (.inl rfl)

end Resolved

/-- The loop over all blocks, by induction on how far it has got. -/
theorem resolved_run (blocks : List ContentBlock) (k : Nat) (le : k ≤ blocks.length) :
    Resolved blocks k (tracedTo blocks k) := by
  induction k with
  | zero => exact resolved_start blocks
  | succ k ih =>
    rw [tracedTo_succ]
    exact (ih (Nat.le_of_succ_le le)).step le

/-! ## Chains of containers -/

section Chains

variable (blocks : List ContentBlock)

/-- The formulas and the containers that become formulas. -/
def equations : Finset Nat := (Finset.range blocks.length).filter fun i =>
  isFormula blocks i = true ∨ i ∈ mergingBelow blocks blocks.length

theorem lt_of_formula {f : Nat} (formula : isFormula blocks f = true) : f < blocks.length := by
  by_contra out
  rw [isFormula, List.getElem?_eq_none (Nat.not_lt.mp out)] at formula
  exact nomatch formula

/-- A formula appears in a source as often as in what the source is made of. -/
theorem count_written (f : Nat) :
    (nesting blocks).Written f fun i => (sourceOf blocks i).count f := by
  have run := resolved_run blocks blocks.length (Nat.le_refl _)
  constructor
  · intro c mem
    have merged := List.mem_toFinset.mp mem
    have source : sourceOf blocks c = .array ((membersOf blocks c).map (sourceOf blocks)) :=
      (run.sources c).trans (if_pos merged)
    have nodup : (membersOf blocks c).Nodup := List.nodup_range.filter _
    rw [source, Source.count, Source.countAll_eq_sum, List.map_map]
    exact (List.sum_toFinset _ nodup).symm
  · intro i out
    have source : sourceOf blocks i = .own i :=
      (run.sources i).trans (if_neg fun merged => out (List.mem_toFinset.mpr merged))
    rw [source, Source.count]

/-- The equations that remain are those that no container has taken in. -/
theorem mem_remaining {i : Nat} (mem : i ∈ equations blocks) :
    i ∈ remainingEquations (resolveContainers blocks) ↔ (nesting blocks).atTop i = true := by
  have run := resolved_run blocks blocks.length (Nat.le_refl _)
  have ⟨inside, eligible⟩ := Finset.mem_filter.mp mem
  have filled := run.filled i
  rw [show (isFormula blocks i || (mergingBelow blocks blocks.length).contains i) = true by
    rw [Bool.or_eq_true, List.contains_iff_mem]
    exact eligible] at filled
  have removed := run.removed i eligible
  have frames := congrArg (fun l => l[i]?) run.frames
  have size := run.size
  have length := run.length
  rw [resolution_traced] at filled removed frames size length
  have lt : i < (resolveContainers blocks).remove.length := by
    rw [size]
    exact Finset.mem_range.mp inside
  cases is : (resolveContainers blocks).blocks[i]? with
  | none =>
    rw [is] at filled
    exact nomatch filled
  | some block =>
    rw [is, Option.any_some, isFilledEquation, Bool.and_eq_true, decide_eq_true_eq] at filled
    simp only [List.getElem?_map, is, Option.map_some] at frames
    obtain ⟨original, found, same⟩ := Option.map_eq_some_iff.mp frames.symm
    have metadata : original.metadata = block.metadata := congrArg (fun f => f.2.2.2) same
    have above : (nesting blocks).above i = ∅ ↔ (resolveContainers blocks).remove[i] = false := by
      rw [List.getElem?_eq_getElem lt, Option.some_inj] at removed
      rw [← Bool.not_eq_true, removed, Finset.eq_empty_iff_forall_notMem]
      constructor
      · exact fun none ⟨c, merged, member⟩ => none c (mem_above.mpr ⟨merged, member⟩)
      · exact fun none c mem => none ⟨c, mem_above.mp mem⟩
    have marked : isMarked blocks i = block.metadata.containsKey "_absorbed_by_table" := by
      rw [isMarked, found, Option.any_some, metadata]
    rw [remainingEquations, List.mem_filter, keptIndexes, List.mem_filter, is,
      List.getElem?_eq_getElem lt, Option.any_some, Option.any_some, Option.any_some, survives,
      filled.1, Nesting.atTop, Bool.and_eq_true, decide_eq_true_eq (p := _ = ∅), above, List.mem_range,
      length, show (nesting blocks).stays i = !isMarked blocks i from rfl, marked]
    have range := Finset.mem_range.mp inside
    cases (resolveContainers blocks).remove[i] <;>
      cases block.metadata.containsKey "_absorbed_by_table" <;> simp [range]

/-- A formula appears once for each chain of containers that leads up from it to an equation that
remains. -/
theorem occurrences_eq_chains {f : Nat} (formula : isFormula blocks f = true) :
    occurrences blocks f = (nesting blocks).chains blocks.length f := by
  have run := resolved_run blocks blocks.length (Nat.le_refl _)
  have mem : f ∈ equations blocks :=
    Finset.mem_filter.mpr ⟨Finset.mem_range.mpr (lt_of_formula blocks formula), .inl formula⟩
  have groups : (nesting blocks).groups ⊆ equations blocks := by
    intro c isGroup
    have merged := List.mem_toFinset.mp isGroup
    exact Finset.mem_filter.mpr
      ⟨Finset.mem_range.mpr (mem_mergingBelow.mp merged).1, .inr merged⟩
  have held : ∀ c ∈ (nesting blocks).groups, (nesting blocks).held c ⊆ equations blocks := by
    intro c isGroup x holds
    have merged := List.mem_toFinset.mp isGroup
    have member := List.mem_toFinset.mp holds
    have low := (mem_mergingBelow.mp merged).1
    refine Finset.mem_filter.mpr ⟨Finset.mem_range.mpr (mem_members.mp member).1, ?_⟩
    refine (member_cases member).imp_right fun before => ?_
    have ⟨below, rest⟩ := mem_mergingBelow.mp before
    exact mem_mergingBelow.mpr ⟨below.trans low, rest⟩
  have single : f ∉ (nesting blocks).groups := fun isGroup =>
    not_mem_of_formula formula (List.mem_toFinset.mp isGroup)
  rw [← Nesting.written_eq_chains nesting_ranked groups held (count_written blocks f) mem single]
  have nodup : (remainingEquations (resolveContainers blocks)).Nodup :=
    (List.nodup_range.filter _).filter _
  rw [occurrences, ← List.sum_toFinset _ nodup]
  symm
  apply Finset.sum_subset
  · intro x top
    have ⟨isEquation, atTop⟩ := Finset.mem_filter.mp top
    exact List.mem_toFinset.mpr ((mem_remaining blocks isEquation).mpr atTop)
  · intro x remains out
    have other : x ∉ equations blocks := fun isEquation => out (Finset.mem_filter.mpr
      ⟨isEquation, (mem_remaining blocks isEquation).mp (List.mem_toFinset.mp remains)⟩)
    have unmerged : x ∉ (nesting blocks).groups := fun isGroup => other (groups isGroup)
    rw [(count_written blocks f).rest x unmerged, if_neg]
    rintro rfl
    exact other mem

end Chains

/-! ## Formulas that appear once -/

theorem inOrder (blocks : List ContentBlock) : InOrder blocks := by
  have run := resolved_run blocks blocks.length (Nat.le_refl _)
  have frames := run.frames
  have length := run.length
  rw [resolution_traced] at frames length
  refine ⟨retained_eq _, ?_, frames⟩
  rw [keptIndexes, length]
  exact List.filter_sublist

/-- At the end every block spells what its members spell. -/
theorem spelled (blocks : List ContentBlock) : Spelled blocks := by
  intro i block is filled
  rw [← resolution_traced] at is
  exact (resolved_run blocks blocks.length (Nat.le_refl _)).contents i block is filled

/-- The remaining blocks keep their order, and every formula of the page appears once in the contents
of the remaining equations exactly when one chain of containers leads up from each of them to an
equation that no container takes in. -/
theorem formulas_kept_once_iff (blocks : List ContentBlock) :
    (InOrder blocks ∧ KeptOnce blocks ↔
      ∀ f, isFormula blocks f → (nesting blocks).chains blocks.length f = 1) ∧ Spelled blocks := by
  refine ⟨?_, spelled blocks⟩
  constructor
  · rintro ⟨-, once⟩ f formula
    rw [← occurrences_eq_chains blocks formula]
    exact once f formula
  · refine fun chains => ⟨inOrder blocks, fun f formula => ?_⟩
    rw [occurrences_eq_chains blocks formula]
    exact chains f formula

/-- Two formulas in two containers of the same box. -/
def doubledPage : List ContentBlock :=
  let block (kind : String) (upper lower : Rat) (content : Option Text) : ContentBlock :=
    ⟨kind, ⟨0, upper, 1, lower⟩, none, content, false, []⟩
  [block "equation" 0 (1 / 2) (some (text "a")), block "equation" (1 / 2) 1 (some (text "b")),
    block "equation_block" 0 1 none, block "equation_block" 0 1 none]

/-- The second container takes in what the first one has made of the formulas, and the formulas. -/
theorem doubled_twice :
    (retained (resolveContainers doubledPage)).map ContentBlock.content = [some (arrayContent
      [text "a", text "b", arrayContent [text "a", text "b"]])] ∧
      ¬ (InOrder doubledPage ∧ KeptOnce doubledPage) := by
  have once : isFormula doubledPage 0 = true ∧ occurrences doubledPage 0 = 2 := by decide +kernel
  refine ⟨by decide +kernel, fun claim => ?_⟩
  have one := claim.2 0 once.1
  rw [once.2] at one
  exact absurd one (by decide)

end Mineru.Vlm
