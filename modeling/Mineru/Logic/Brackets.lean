import Mathlib

/-!
# Matching brackets with a stack

A text is a list of marks: an opening bracket (`U`), a closing one (`D`), or neither. The matching
keeps the places of the open brackets on a stack and notes the closing brackets that find the stack
empty. The brackets that are left on the stack or noted have no partner, and a text without them is
balanced.
-/

set_option autoImplicit false

namespace Mineru.Logic.Brackets

open DyckStep

abbrev Mark := Option DyckStep

/-- The open brackets, the last one first, and the closing brackets without a partner. -/
structure Matching where
  opens : List Nat
  removed : List Nat

def Matching.step (m : Matching) (i : Nat) : Mark → Matching
  | none => m
  | some .U => { m with opens := i :: m.opens }
  | some .D =>
    match m.opens with
    | [] => { m with removed := i :: m.removed }
    | _ :: rest => { m with opens := rest }

/-- The matching of the marks, of which the first has the place `i`. -/
def run : Nat → Matching → List Mark → Matching
  | _, m, [] => m
  | i, m, mark :: marks => run (i + 1) (m.step i mark) marks

/-- The matching of a whole text. -/
def matched (marks : List Mark) : Matching := run 0 ⟨[], []⟩ marks

def Matching.gone (m : Matching) : List Nat := m.opens ++ m.removed

/-- The elements whose places are not in a list. The first has the place `i`. -/
def without {α : Type} (gone : List Nat) : Nat → List α → List α
  | _, [] => []
  | i, a :: rest => if i ∈ gone then without gone (i + 1) rest else a :: without gone (i + 1) rest

/-- How many brackets are open behind the marks, if no closing bracket is one too many. -/
def depth : Nat → List Mark → Option Nat
  | d, [] => some d
  | d, none :: marks => depth d marks
  | d, some .U :: marks => depth (d + 1) marks
  | 0, some .D :: _ => none
  | d + 1, some .D :: marks => depth d marks

def Balanced (marks : List Mark) : Prop := depth 0 marks = some 0

/-- Brackets that open and close what is balanced between them. -/
structure Pair (marks : List Mark) (i j : Nat) : Prop where
  order : i < j
  opening : marks[i]? = some (some U)
  closing : marks[j]? = some (some D)
  between : Balanced ((marks.drop (i + 1)).take (j - (i + 1)))

/-! ## Balance -/

theorem depth_eq_zero_iff {d : Nat} {marks : List Mark} :
    depth d marks = some 0 ↔
      d + marks.reduceOption.count U = marks.reduceOption.count D ∧
      ∀ k, (marks.reduceOption.take k).count D ≤ d + (marks.reduceOption.take k).count U := by
  induction marks generalizing d with
  | nil => simp [depth]
  | cons mark marks ih =>
    rcases mark with _ | mark
    · rw [depth, ih, List.reduceOption_cons_of_none]
    rw [List.reduceOption_cons_of_some]
    cases mark with
    | U =>
      rw [depth, ih]
      simp only [List.count_cons_self, List.count_cons_of_ne (by decide : U ≠ D)]
      refine and_congr (by omega) ⟨fun below k => ?_, fun below k => ?_⟩
      · cases k with
        | zero => simp
        | succ k =>
          have := below k
          simp only [List.take_succ_cons, List.count_cons_self,
            List.count_cons_of_ne (by decide : U ≠ D)]
          omega
      · have := below (k + 1)
        simp only [List.take_succ_cons, List.count_cons_self,
          List.count_cons_of_ne (by decide : U ≠ D)] at this
        omega
    | D =>
      cases d with
      | zero =>
        simp only [depth, reduceCtorEq, false_iff, not_and]
        intro _ below
        have := below 1
        simp at this
      | succ d =>
        rw [depth, ih]
        simp only [List.count_cons_self, List.count_cons_of_ne (by decide : D ≠ U)]
        refine and_congr (by omega) ⟨fun below k => ?_, fun below k => ?_⟩
        · cases k with
          | zero => simp
          | succ k =>
            have := below k
            simp only [List.take_succ_cons, List.count_cons_self,
              List.count_cons_of_ne (by decide : D ≠ U)]
            omega
        · have := below (k + 1)
          simp only [List.take_succ_cons, List.count_cons_self,
            List.count_cons_of_ne (by decide : D ≠ U)] at this
          omega

/-- Balanced marks are a Dyck word. -/
theorem balanced_iff_dyck {marks : List Mark} :
    Balanced marks ↔ ∃ p : DyckWord, p.toList = marks.reduceOption := by
  unfold Balanced
  rw [depth_eq_zero_iff]
  constructor
  · rintro ⟨total, below⟩
    exact ⟨⟨marks.reduceOption, by simpa using total, fun k => by simpa using below k⟩, rfl⟩
  · rintro ⟨p, is⟩
    rw [← is]
    exact ⟨by have := p.count_U_eq_count_D; omega, fun k => by
      have := p.count_D_le_count_U k; omega⟩

/-! ## The run -/

theorem run_append (i : Nat) (m : Matching) (a b : List Mark) :
    run i m (a ++ b) = run (i + a.length) (run i m a) b := by
  induction a generalizing i m with
  | nil => rfl
  | cons mark a ih =>
    rw [List.cons_append, run, run, ih, List.length_cons]
    congr 1
    omega

/-- What the run puts on the stack, and what it notes, lies at places from `i` on. -/
theorem run_new {i k : Nat} {m : Matching} {marks : List Mark} :
    (k ∈ (run i m marks).opens → k ∈ m.opens ∨ i ≤ k) ∧
      (k ∈ (run i m marks).removed → k ∈ m.removed ∨ i ≤ k) := by
  induction marks generalizing i m with
  | nil => exact ⟨Or.inl, Or.inl⟩
  | cons mark marks ih =>
    obtain ⟨opens, removed⟩ := ih (i := i + 1) (m := m.step i mark)
    have step : (k ∈ (m.step i mark).opens → k ∈ m.opens ∨ i ≤ k) ∧
        (k ∈ (m.step i mark).removed → k ∈ m.removed ∨ i ≤ k) := by
      unfold Matching.step
      rcases mark with _ | _ | _ <;> rcases stack : m.opens with _ | ⟨o, rest⟩ <;> grind
    rw [run]
    constructor
    · intro new
      rcases opens new with old | later
      · exact step.1 old
      · exact Or.inr (by omega)
    · intro new
      rcases removed new with old | later
      · exact step.2 old
      · exact Or.inr (by omega)

/-- What the run adds to the brackets without a partner are brackets of its marks. -/
theorem run_gone {i k : Nat} {m : Matching} {marks : List Mark} (gone : k ∈ (run i m marks).gone) :
    k ∈ m.gone ∨ i ≤ k ∧ ∃ bracket, marks[k - i]? = some (some bracket) := by
  induction marks generalizing i m with
  | nil => exact Or.inl gone
  | cons mark marks ih =>
    rcases ih gone with old | ⟨later, bracket, there⟩
    · by_cases here : k = i
      · refine or_iff_not_imp_left.mpr fun new => ⟨here.ge, ?_⟩
        rcases mark with _ | bracket
        · exact absurd old new
        · exact ⟨bracket, by simp [here]⟩
      · refine Or.inl ?_
        unfold Matching.step Matching.gone at old
        unfold Matching.gone
        rcases mark with _ | _ | _ <;> rcases stack : m.opens with _ | ⟨o, rest⟩ <;> grind
    · refine Or.inr ⟨by omega, bracket, ?_⟩
      rw [← there, show k - i = k - (i + 1) + 1 by omega, List.getElem?_cons_succ]

theorem run_removed_mono {i k : Nat} {m : Matching} {marks : List Mark} (old : k ∈ m.removed) :
    k ∈ (run i m marks).removed := by
  induction marks generalizing i m with
  | nil => exact old
  | cons mark marks ih =>
    refine ih ?_
    unfold Matching.step
    rcases mark with _ | _ | _ <;> rcases m.opens with _ | ⟨o, rest⟩ <;> grind

/-- Marks that do not close a bracket of the stack below leave it as it is. -/
theorem run_of_depth {i d e : Nat} {m : Matching} {marks : List Mark} {above below : List Nat}
    (stack : m.opens = above ++ below) (high : above.length = d)
    (ends : depth d marks = some e) :
    ∃ above', (run i m marks).opens = above' ++ below ∧ above'.length = e ∧
      (run i m marks).removed = m.removed := by
  induction marks generalizing i m d above with
  | nil =>
    obtain rfl := Option.some.inj ends
    exact ⟨above, stack, high, rfl⟩
  | cons mark marks ih =>
    rw [run]
    rcases mark with _ | mark
    · exact ih stack high ends
    cases mark with
    | U =>
      have pushed : (m.step i (some U)).opens = (i :: above) ++ below := by
        simp [Matching.step, stack]
      exact ih pushed (by simpa using high) ends
    | D =>
      cases d with
      | zero => cases ends
      | succ d =>
        obtain _ | ⟨o, above⟩ := above
        · cases high
        have step : m.step i (some D) = { m with opens := above ++ below } := by
          unfold Matching.step
          rw [stack]
          rfl
        rw [step]
        exact ih rfl (by simpa using high) ends

theorem run_of_balanced {i : Nat} {m : Matching} {marks : List Mark} (balanced : Balanced marks) :
    run i m marks = m := by
  have bottom : m.opens = [] ++ m.opens := rfl
  have ends : depth 0 marks = some 0 := balanced
  obtain ⟨above, opens, none, removed⟩ := run_of_depth (i := i) bottom rfl ends
  obtain rfl := List.length_eq_zero_iff.mp none
  cases m
  cases h : run i _ marks
  simp_all

/-- Balanced marks lose nothing. -/
theorem gone_of_balanced {marks : List Mark} (balanced : Balanced marks) :
    (matched marks).gone = [] := by
  rw [matched, run_of_balanced balanced]
  rfl

/-! ## What the matching removes -/

/-- Only brackets are removed. -/
theorem marked_of_gone {marks : List Mark} {k : Nat} (gone : k ∈ (matched marks).gone) :
    ∃ bracket, marks[k]? = some (some bracket) := by
  rcases run_gone gone with old | ⟨_, there⟩
  · cases old
  · exact there

/-- The text around a pair. -/
theorem Pair.cut {marks : List Mark} {i j : Nat} (pair : Pair marks i j) :
    ∃ between, Balanced between ∧ j = i + 1 + between.length ∧
      marks = marks.take i ++ some U :: (between ++ some D :: marks.drop (j + 1)) := by
  obtain ⟨order, opening, closing, balanced⟩ := pair
  obtain ⟨short, closes⟩ := List.getElem?_eq_some_iff.mp closing
  obtain ⟨_, opens⟩ := List.getElem?_eq_some_iff.mp opening
  refine ⟨_, balanced, ?_, ?_⟩
  · rw [List.length_take, List.length_drop]
    omega
  · have inner : marks.drop (i + 1) =
        (marks.drop (i + 1)).take (j - (i + 1)) ++ some D :: marks.drop (j + 1) := by
      conv_lhs => rw [← List.take_append_drop (j - (i + 1)) (marks.drop (i + 1))]
      rw [List.drop_drop, show i + 1 + (j - (i + 1)) = j by omega, List.drop_eq_getElem_cons short,
        closes]
    rw [← inner, ← opens, ← List.drop_eq_getElem_cons, List.take_append_drop]

/-- The brackets of a pair stay: the stack behind a pair is the one before it. -/
theorem Pair.not_gone {marks : List Mark} {i j : Nat} (pair : Pair marks i j) :
    i ∉ (matched marks).gone ∧ j ∉ (matched marks).gone := by
  have order := pair.order
  obtain ⟨between, balanced, length, cut⟩ := pair.cut
  have early : i ≤ marks.length := (List.getElem?_eq_some_iff.mp pair.opening).1.le
  have skipped : matched marks =
      run (j + 1) (run 0 ⟨[], []⟩ (marks.take i)) (marks.drop (j + 1)) := by
    rw [matched]
    conv_lhs => rw [cut]
    rw [run_append, run, run_append, run_of_balanced balanced, run, List.length_take,
      Nat.min_eq_left early, Nat.zero_add, length]
    rfl
  have outside : ∀ k, k ∈ (matched marks).gone → k < i ∨ j < k := by
    intro k gone
    rw [skipped] at gone
    rcases run_gone gone with before | ⟨behind, _⟩
    · rcases run_gone before with old | ⟨_, bracket, there⟩
      · cases old
      · have := (List.getElem?_eq_some_iff.mp there).1
        rw [List.length_take] at this
        exact Or.inl (by omega)
    · exact Or.inr behind
  exact ⟨fun gone => by have := outside i gone; omega, fun gone => by have := outside j gone; omega⟩

/-! ## What is left -/

/-- The stack of the run, without the brackets that are never closed, counts the open brackets of
what is left. -/
theorem depth_without {i : Nat} {m : Matching} {marks : List Mark}
    (old : ∀ k ∈ m.gone, k < i) (distinct : m.opens.Nodup) :
    depth (m.opens.filter fun k => k ∉ (run i m marks).opens).length
      (without (run i m marks).gone i marks) = some 0 := by
  induction marks generalizing i m with
  | nil =>
    have : m.opens.filter (fun k => k ∉ m.opens) = [] := by simp
    rw [run, this]
    rfl
  | cons mark marks ih =>
    rw [run]
    -- A bracket that is neither on the stack nor noted behind its place stays.
    have stays : i ∉ (m.step i mark).gone → i ∉ (run (i + 1) (m.step i mark) marks).gone := by
      intro new gone
      rcases run_gone gone with before | ⟨late, _⟩
      · exact new before
      · omega
    have fresh : i ∉ m.gone := fun there => Nat.lt_irrefl i (old i there)
    have older : ∀ k ∈ m.gone, k < i + 1 := fun k there => Nat.lt_succ_of_lt (old k there)
    rcases mark with _ | mark
    · rw [without, if_neg (stays fresh)]
      exact ih older distinct
    cases mark with
    | U =>
      have opened : m.step i (some U) = { m with opens := i :: m.opens } := rfl
      have above : i ∉ m.opens := fun there => fresh (List.mem_append_left _ there)
      have next := ih (i := i + 1) (m := m.step i (some U))
        (by simpa [opened, Matching.gone] using older) (List.nodup_cons.mpr ⟨above, distinct⟩)
      rw [without]
      by_cases gone : i ∈ (run (i + 1) (m.step i (some U)) marks).gone
      · rw [if_pos gone]
        have left : i ∈ (run (i + 1) (m.step i (some U)) marks).opens := by
          refine (List.mem_append.mp gone).resolve_right fun noted => ?_
          rcases run_new.2 noted with before | late
          · exact fresh (List.mem_append_right _ before)
          · omega
        rwa [opened, List.filter_cons_of_neg (by simpa [opened] using left)] at next
      · rw [if_neg gone, depth]
        have closed : i ∉ (run (i + 1) (m.step i (some U)) marks).opens :=
          fun there => gone (List.mem_append_left _ there)
        rwa [opened, List.filter_cons_of_pos (by simpa [opened] using closed),
          List.length_cons] at next
    | D =>
      rcases stack : m.opens with _ | ⟨o, rest⟩
      · have noted : m.step i (some D) = { m with removed := i :: m.removed } := by
          simp [Matching.step, stack]
        have gone : i ∈ (run (i + 1) (m.step i (some D)) marks).gone := by
          refine List.mem_append_right _ (run_removed_mono ?_)
          simp [noted]
        have next := ih (i := i + 1) (m := m.step i (some D))
          (by simpa [noted, Matching.gone, or_imp, forall_and] using older)
          (by simpa [noted] using distinct)
        rw [without, if_pos gone]
        simpa [noted, stack] using next
      · have popped : m.step i (some D) = { m with opens := rest } := by
          simp [Matching.step, stack]
        obtain ⟨onTop, restDistinct⟩ := List.nodup_cons.mp (stack ▸ distinct)
        have among : o ∈ m.gone := List.mem_append_left _ (stack ▸ List.mem_cons_self)
        have below : ∀ k ∈ ({ m with opens := rest } : Matching).gone, k ∈ m.gone := by
          intro k there
          rcases List.mem_append.mp there with on | noted
          · exact List.mem_append_left _ (stack ▸ List.mem_cons_of_mem o on)
          · exact List.mem_append_right _ noted
        have next := ih (i := i + 1) (m := m.step i (some D))
          (by rw [popped]; exact fun k there => older k (below k there))
          (by rw [popped]; exact restDistinct)
        have closed : o ∉ (run (i + 1) (m.step i (some D)) marks).opens := by
          intro there
          rcases run_new.1 there with before | late
          · rw [popped] at before
            exact onTop before
          · exact absurd (old o among) (by omega)
        rw [without, if_neg (stays (by rw [popped]; exact fun there => fresh (below i there))),
          List.filter_cons_of_pos (by simpa using closed), List.length_cons, depth]
        rwa [popped] at next ⊢

/-- What is left is balanced. -/
theorem balanced_without (marks : List Mark) : Balanced (without (matched marks).gone 0 marks) :=
  depth_without (m := ⟨[], []⟩) (by simp [Matching.gone]) List.nodup_nil

theorem without_nil {α : Type} (i : Nat) (l : List α) : without [] i l = l := by
  induction l generalizing i with
  | nil => rfl
  | cons a l ih => rw [without, if_neg List.not_mem_nil, ih]

end Mineru.Logic.Brackets
