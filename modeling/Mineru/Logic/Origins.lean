import Mathlib

/-!
# Where the elements of a list come from

`List.SublistForall₂ R ys xs` says that the elements of `ys` come from elements of `xs` in their
order. These are its rules for the steps of a pipeline: a step on every element, a filter, two steps
after each other, and elements that carry the index they come from.
-/

set_option autoImplicit false

namespace Mineru.Logic.Origins

variable {α β γ : Type} {R S : β → α → Prop} {xs : List α} {ys : List β}

theorem weaken (h : List.SublistForall₂ R ys xs) (imp : ∀ b a, R b a → S b a) :
    List.SublistForall₂ S ys xs := by
  induction h with
  | nil => exact .nil
  | cons related _ ih => exact .cons (imp _ _ related) ih
  | cons_right _ ih => exact .cons_right ih

theorem map (h : List.SublistForall₂ R ys xs) {f : β → γ} {T : γ → α → Prop}
    (imp : ∀ b a, R b a → T (f b) a) : List.SublistForall₂ T (ys.map f) xs :=
  List.sublistForall₂_map_left_iff.mpr (weaken h imp)

theorem filter (h : List.SublistForall₂ R ys xs) (p : β → Bool) :
    List.SublistForall₂ (fun b a => R b a ∧ p b = true) (ys.filter p) xs := by
  induction h with
  | nil => exact .nil
  | @cons b a _ _ related _ ih =>
    rw [List.filter_cons]
    by_cases holds : p b = true
    · rw [if_pos holds]
      exact .cons ⟨related, holds⟩ ih
    · rw [if_neg holds]
      exact .cons_right ih
  | cons_right _ ih => exact .cons_right ih

theorem of_map (f : α → β) (xs : List α) :
    List.SublistForall₂ (fun b a => b = f a) (xs.map f) xs := by
  induction xs with
  | nil => exact .nil
  | cons a xs ih => exact .cons rfl ih

theorem comp {zs : List γ} {T : γ → β → Prop} {U : γ → α → Prop}
    (second : List.SublistForall₂ T zs ys) (first : List.SublistForall₂ R ys xs)
    (imp : ∀ c b a, T c b → R b a → U c a) : List.SublistForall₂ U zs xs := by
  induction first generalizing zs with
  | nil =>
    cases second
    exact .nil
  | cons related _ ih =>
    cases second with
    | nil => exact .nil
    | cons related' rest => exact .cons (imp _ _ _ related' related) (ih rest)
    | cons_right rest => exact .cons_right (ih rest)
  | cons_right _ ih => exact .cons_right (ih second)

theorem of_sublist {zs : List β} (part : zs.Sublist ys) (h : List.SublistForall₂ R ys xs) :
    List.SublistForall₂ R zs xs :=
  comp (T := (· = ·)) part.sublistForall₂ h fun _ _ _ eq related => eq ▸ related

theorem of_map_eq {f : α → γ} {g : β → γ} (eq : ys.map g = xs.map f) :
    List.SublistForall₂ (fun b a => g b = f a) ys xs := by
  have pointwise : List.Forall₂ (fun b a => g b = f a) ys xs := by
    rw [← List.forall₂_map_left_iff (R := fun c a => c = f a), eq, List.forall₂_map_left_iff]
    exact List.forall₂_same.mpr fun _ _ => rfl
  exact List.sublistForall₂_iff.mpr ⟨xs, pointwise, List.Sublist.refl xs⟩

theorem exists_origin (h : List.SublistForall₂ R ys xs) {b : β} (mem : b ∈ ys) :
    ∃ a ∈ xs, R b a := by
  induction h with
  | nil => exact absurd mem List.not_mem_nil
  | cons related _ ih =>
    rcases List.mem_cons.mp mem with rfl | among
    · exact ⟨_, List.mem_cons_self, related⟩
    · obtain ⟨a, among', is⟩ := ih among
      exact ⟨a, List.mem_cons_of_mem _ among', is⟩
  | cons_right _ ih =>
    obtain ⟨a, among', is⟩ := ih mem
    exact ⟨a, List.mem_cons_of_mem _ among', is⟩

theorem with_mem (h : List.SublistForall₂ R ys xs) :
    List.SublistForall₂ (fun b a => R b a ∧ a ∈ xs) ys xs := by
  induction h with
  | nil => exact .nil
  | cons related _ ih =>
    exact .cons ⟨related, List.mem_cons_self⟩
      (weaken ih fun _ _ h => ⟨h.1, List.mem_cons_of_mem _ h.2⟩)
  | cons_right _ ih => exact .cons_right (weaken ih fun _ _ h => ⟨h.1, List.mem_cons_of_mem _ h.2⟩)

/-- Keys that are kept come in the order of the keys they come from. -/
theorem keys_sublist {f : α → γ} {g : β → γ} (h : List.SublistForall₂ R ys xs)
    (same : ∀ b a, R b a → g b = f a) : (ys.map g).Sublist (xs.map f) := by
  induction h with
  | nil => exact List.nil_sublist _
  | cons related _ ih =>
    rw [List.map_cons, List.map_cons, same _ _ related]
    exact ih.cons_cons _
  | cons_right _ ih => exact ih.cons _

/-- Elements in the order of the indexes that they come from. -/
theorem of_indexes {es : List (Nat × β)} (offset : Nat)
    (increasing : es.Pairwise fun d e => d.1 < e.1)
    (found : ∀ e ∈ es, ∃ i a, e.1 = offset + i ∧ xs[i]? = some a ∧ R e.2 a) :
    List.SublistForall₂ R (es.map Prod.snd) xs := by
  induction xs generalizing es offset with
  | nil =>
    cases es with
    | nil => exact .nil
    | cons e es =>
      obtain ⟨i, a, -, is, -⟩ := found e List.mem_cons_self
      exact nomatch is
  | cons x xs ih =>
    -- What comes from later elements.
    have later (es' : List (Nat × β)) (pairs : es'.Pairwise fun d e => d.1 < e.1)
        (sub : ∀ e ∈ es', e ∈ es ∧ offset < e.1) :
        List.SublistForall₂ R (es'.map Prod.snd) xs := by
      refine ih (offset + 1) pairs fun e mem => ?_
      have ⟨among, after⟩ := sub e mem
      obtain ⟨i, a, index, is, related⟩ := found e among
      obtain ⟨i, rfl⟩ : ∃ j, i = j + 1 := ⟨i - 1, by omega⟩
      exact ⟨i, a, by omega, is, related⟩
    cases es with
    | nil => exact .nil
    | cons e es =>
      have ⟨first, rest⟩ := List.pairwise_cons.mp increasing
      obtain ⟨i, a, index, is, related⟩ := found e List.mem_cons_self
      cases i with
      | zero =>
        obtain rfl : x = a := Option.some.inj is
        refine .cons related (later es rest fun d mem => ⟨List.mem_cons_of_mem _ mem, ?_⟩)
        have := first d mem
        omega
      | succ i =>
        refine .cons_right (later (e :: es) increasing fun d mem => ⟨mem, ?_⟩)
        rcases List.mem_cons.mp mem with rfl | among
        · omega
        · have := first d among
          omega

end Mineru.Logic.Origins
