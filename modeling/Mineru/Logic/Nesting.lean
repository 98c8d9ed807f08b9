import Mathlib

/-!
# Nested groups

Groups take parts in, and a group can be part of another one. `chains` counts the ways up from a part
to one that stays at the top. When what is at the top is written out, a part appears once for each of
these ways (`written_eq_chains`).
-/

set_option autoImplicit false

namespace Mineru.Logic

structure Nesting (ι : Type) where
  groups : Finset ι
  held : ι → Finset ι
  /-- The parts that stay when no group takes them in. -/
  stays : ι → Bool

namespace Nesting

variable {ι : Type} [DecidableEq ι] (w : Nesting ι)

/-- The groups that take a part in. -/
def above (x : ι) : Finset ι := w.groups.filter fun g => x ∈ w.held g

theorem mem_above (x g : ι) : g ∈ w.above x ↔ g ∈ w.groups ∧ x ∈ w.held g := Finset.mem_filter

def atTop (x : ι) : Bool := w.stays x && w.above x = ∅

/-- The chains of at most so many groups, each within the next one, from a part up to one that is at
the top. -/
def chains : Nat → ι → Nat
  | 0, x => (w.atTop x).toNat
  | k + 1, x => (w.atTop x).toNat + ∑ g ∈ w.above x, chains k g

/-- A rank that grows from group to group bounds the chains. -/
structure Ranked (rank : ι → Nat) (bound : Nat) : Prop where
  below : ∀ g ∈ w.groups, rank g < bound
  grows : ∀ g ∈ w.groups, ∀ h ∈ w.groups, h ∈ w.held g → rank h < rank g

variable {w} {rank : ι → Nat} {bound : Nat}

/-- Above a group of some rank no more groups fit than there are ranks left. -/
theorem chains_group (ranked : w.Ranked rank bound) (k : Nat) (x : ι) (group : x ∈ w.groups)
    (enough : bound ≤ k + rank x + 1) : w.chains (k + 1) x = w.chains k x := by
  induction k generalizing x with
  | zero =>
    have none : w.above x = ∅ := by
      apply Finset.eq_empty_of_forall_notMem
      intro g mem
      have ⟨isGroup, holds⟩ := (w.mem_above x g).mp mem
      have low := ranked.below g isGroup
      have less := ranked.grows g isGroup x group holds
      omega
    rw [chains, chains, none, Finset.sum_empty, Nat.add_zero]
  | succ k ih =>
    rw [chains, chains]
    congr 1
    apply Finset.sum_congr rfl
    intro g mem
    have ⟨isGroup, holds⟩ := (w.mem_above x g).mp mem
    have less := ranked.grows g isGroup x group holds
    exact ih g isGroup (by omega)

/-- Chains of one group for each rank are all there are. -/
theorem chains_bound (ranked : w.Ranked rank bound) (x : ι) :
    w.chains bound x = (w.atTop x).toNat + ∑ g ∈ w.above x, w.chains bound g := by
  have full : w.chains (bound + 1) x = w.chains bound x := by
    cases bound with
    | zero =>
      have none : w.above x = ∅ := by
        apply Finset.eq_empty_of_forall_notMem
        intro g mem
        exact absurd (ranked.below g ((w.mem_above x g).mp mem).1) (Nat.not_lt_zero _)
      rw [chains, chains, none, Finset.sum_empty, Nat.add_zero]
    | succ bound =>
      rw [chains, chains]
      congr 1
      apply Finset.sum_congr rfl
      intro g mem
      exact chains_group ranked bound g ((w.mem_above x g).mp mem).1 (by omega)
  rw [← full, chains]

/-- How often a part appears in each part, when a group is written out as what it holds. -/
structure Written (w : Nesting ι) (f : ι) (uses : ι → Nat) : Prop where
  groups : ∀ g ∈ w.groups, uses g = ∑ x ∈ w.held g, uses x
  rest : ∀ x, x ∉ w.groups → uses x = if x = f then 1 else 0

/-- Every part appears in what is at the top once for each chain that leads up from it. -/
theorem written_eq_chains (ranked : w.Ranked rank bound) {parts : Finset ι}
    (groups : w.groups ⊆ parts) (held : ∀ g ∈ w.groups, w.held g ⊆ parts) {f : ι} {uses : ι → Nat}
    (written : w.Written f uses) (mem : f ∈ parts) (single : f ∉ w.groups) :
    ∑ x ∈ parts.filter fun x => w.atTop x, uses x = w.chains bound f := by
  let n := w.chains bound
  -- What is counted at each group is counted once more at the parts it holds.
  have exchange : ∑ x ∈ parts, (∑ g ∈ w.above x, n g) * uses x = ∑ g ∈ w.groups, n g * uses g := by
    calc ∑ x ∈ parts, (∑ g ∈ w.above x, n g) * uses x
        = ∑ x ∈ parts, ∑ g ∈ w.groups, if x ∈ w.held g then n g * uses x else 0 := by
          apply Finset.sum_congr rfl
          intro x _
          rw [above, Finset.sum_mul, Finset.sum_filter]
      _ = ∑ g ∈ w.groups, ∑ x ∈ parts, if x ∈ w.held g then n g * uses x else 0 := Finset.sum_comm
      _ = ∑ g ∈ w.groups, n g * uses g := by
          apply Finset.sum_congr rfl
          intro g isGroup
          rw [← Finset.sum_filter, written.groups g isGroup, Finset.mul_sum]
          apply Finset.sum_congr _ fun _ _ => rfl
          ext x
          rw [Finset.mem_filter]
          exact ⟨And.right, fun holds => ⟨held g isGroup holds, holds⟩⟩
  have split : ∑ x ∈ parts, n x * uses x = n f + ∑ g ∈ w.groups, n g * uses g := by
    rw [← Finset.sum_sdiff groups]
    congr 1
    rw [Finset.sum_eq_single_of_mem f (Finset.mem_sdiff.mpr ⟨mem, single⟩)]
    · rw [written.rest f single, if_pos rfl, Nat.mul_one]
    · intro x out ne
      rw [written.rest x (Finset.mem_sdiff.mp out).2, if_neg ne, Nat.mul_zero]
  have counted : ∑ x ∈ parts, n x * uses x =
      ∑ x ∈ parts, (w.atTop x).toNat * uses x + ∑ g ∈ w.groups, n g * uses g := by
    rw [← exchange, ← Finset.sum_add_distrib]
    apply Finset.sum_congr rfl
    intro x _
    rw [show n x = (w.atTop x).toNat + ∑ g ∈ w.above x, n g from chains_bound ranked x, Nat.add_mul]
  have top : ∑ x ∈ parts.filter (fun x => w.atTop x), uses x =
      ∑ x ∈ parts, (w.atTop x).toNat * uses x := by
    rw [Finset.sum_filter]
    apply Finset.sum_congr rfl
    intro x _
    cases w.atTop x <;> simp
  rw [top]
  exact Nat.add_right_cancel (counted.symm.trans split)

end Nesting

end Mineru.Logic
