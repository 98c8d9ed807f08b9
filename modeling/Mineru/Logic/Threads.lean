import Mineru.Logic.Table
import Mineru.Logic.Transition

/-!
# Threads over a shared state

Any number of threads share a state, and each has a state of its own. A thread begins at any time
and takes one step at a time, in any order with the others; it stays in the table when it has ended,
so that a name is used once.

`Invariant` lists what is to be shown, about one step and at most two threads, for a property of the
shared state, one of each thread and one of each two threads to hold in every reachable state: that
a thread keeps its own property, and that it does not interfere with the property of another.
-/

set_option autoImplicit false

namespace Mineru.Logic

structure Threads (κ σ τ : Type) where
  shared : σ
  own : Table κ τ

/-- What one thread does. -/
structure Code (σ τ α ρ : Type) where
  begins : τ → Bool
  step : σ → τ → α → Option (σ × τ × ρ)

inductive Move (κ τ α : Type) where
  | fork (k : κ) (t : τ)
  | run (k : κ) (a : α)

namespace Code

variable {κ σ τ α ρ : Type} [DecidableEq κ] {c : Code σ τ α ρ}

def machine (c : Code σ τ α ρ) (s : σ) : Machine (Threads κ σ τ) (Move κ τ α) (Option ρ) where
  start := { shared := s, own := ∅ }
  step st
    | .fork k t =>
      if c.begins t && (st.own.get k).isNone then
        some ({ st with own := st.own.set k t }, none)
      else none
    | .run k a => (st.own.get k).bind fun t => (c.step st.shared t a).map fun (s, t, r) =>
        ({ shared := s, own := st.own.set k t }, some r)

theorem step_fork {s : σ} {st st' : Threads κ σ τ} {k : κ} {t : τ} {r : Option ρ}
    (taken : (c.machine s).step st (.fork k t) = some (st', r)) :
    c.begins t = true ∧ st.own.get k = none ∧
      st' = { st with own := st.own.set k t } ∧ r = none := by
  simp only [machine, Option.ite_none_right_eq_some, Bool.and_eq_true,
    Option.isNone_iff_eq_none, Option.some.injEq, Prod.mk.injEq] at taken
  obtain ⟨⟨begins, vacant⟩, rfl, rfl⟩ := taken
  exact ⟨begins, vacant, rfl, rfl⟩

theorem step_run {s : σ} {st st' : Threads κ σ τ} {k : κ} {a : α} {r : Option ρ}
    (taken : (c.machine s).step st (.run k a) = some (st', r)) :
    ∃ t s' t' reply, st.own.get k = some t ∧ c.step st.shared t a = some (s', t', reply) ∧
      st' = { shared := s', own := st.own.set k t' } ∧ r = some reply := by
  obtain ⟨t, found, taken⟩ := Option.bind_eq_some_iff.mp taken
  obtain ⟨⟨s', t', reply⟩, step, same⟩ := Option.map_eq_some_iff.mp taken
  obtain ⟨rfl, rfl⟩ := Prod.mk.inj same
  exact ⟨t, s', t', reply, found, step, rfl, rfl⟩

/-- A property of the shared state, of each thread and of each two threads, and what is to be shown
about a step. -/
structure Invariant (c : Code σ τ α ρ) where
  shared : σ → Prop
  own : σ → τ → Prop
  apart : τ → τ → Prop
  symm : ∀ {t u}, apart t u → apart u t
  begins : ∀ {s t}, shared s → c.begins t = true →
    own s t ∧ ∀ u, own s u → apart t u
  step : ∀ {s t a s' t' r}, shared s → own s t → c.step s t a = some (s', t', r) →
    shared s' ∧ own s' t'
  other : ∀ {s t u a s' t' r}, shared s → own s t → own s u → apart t u →
    c.step s t a = some (s', t', r) → own s' u ∧ apart t' u

namespace Invariant

variable {s : σ}

structure Holds (inv : Invariant c) (st : Threads κ σ τ) : Prop where
  shared : inv.shared st.shared
  own : ∀ k t, st.own.get k = some t → inv.own st.shared t
  apart : ∀ k j t u, k ≠ j → st.own.get k = some t → st.own.get j = some u → inv.apart t u

theorem holds_start (inv : Invariant c) (start : inv.shared s) :
    inv.Holds (c.machine (κ := κ) s).start where
  shared := start
  own _ _ found := nomatch found
  apart _ _ _ _ _ found := nomatch found

theorem holds_fork (inv : Invariant c) {st : Threads κ σ τ} (now : inv.Holds st) {k : κ} {t : τ}
    (begins : c.begins t = true) (vacant : st.own.get k = none) :
    inv.Holds { st with own := st.own.set k t } := by
  obtain ⟨own, apart⟩ := inv.begins now.shared begins
  have others : ∀ j u, j ≠ k → (st.own.set k t).get j = some u → st.own.get j = some u := by
    intro j u ne found
    rwa [Table.get_set, if_neg ne] at found
  have self : ∀ u, (st.own.set k t).get k = some u → u = t := by
    intro u found
    rw [Table.get_set, if_pos rfl] at found
    exact (Option.some.inj found).symm
  refine ⟨now.shared, fun j u found => ?_, fun i j u v ne first second => ?_⟩
  · by_cases same : j = k
    · subst same
      rw [self u found]
      exact own
    · exact now.own j u (others j u same found)
  · by_cases left : i = k
    · subst left
      rw [self u first]
      exact apart v (now.own j v (others j v (Ne.symm ne) second))
    · have there := others i u left first
      by_cases right : j = k
      · subst right
        rw [self v second]
        exact inv.symm (apart u (now.own i u there))
      · exact now.apart i j u v ne there (others j v right second)

theorem holds_run (inv : Invariant c) {st : Threads κ σ τ} (now : inv.Holds st) {k : κ} {t t' : τ}
    {s' : σ} {a : α} {r : ρ} (found : st.own.get k = some t)
    (taken : c.step st.shared t a = some (s', t', r)) :
    inv.Holds { shared := s', own := st.own.set k t' } := by
  obtain ⟨shared, own⟩ := inv.step now.shared (now.own k t found) taken
  have others : ∀ j u, j ≠ k → (st.own.set k t').get j = some u →
      st.own.get j = some u ∧ inv.own s' u ∧ inv.apart t' u := by
    intro j u ne there
    rw [Table.get_set, if_neg ne] at there
    exact ⟨there, inv.other now.shared (now.own k t found) (now.own j u there)
      (now.apart k j t u (Ne.symm ne) found there) taken⟩
  have self : ∀ u, (st.own.set k t').get k = some u → u = t' := by
    intro u there
    rw [Table.get_set, if_pos rfl] at there
    exact (Option.some.inj there).symm
  refine ⟨shared, fun j u there => ?_, fun i j u v ne first second => ?_⟩
  · by_cases same : j = k
    · subst same
      rw [self u there]
      exact own
    · exact (others j u same there).2.1
  · by_cases left : i = k
    · subst left
      rw [self u first]
      exact (others j v (Ne.symm ne) second).2.2
    · by_cases right : j = k
      · subst right
        rw [self v second]
        exact inv.symm (others i u left first).2.2
      · exact now.apart i j u v ne (others i u left first).1 (others j v right second).1

theorem holds_step (inv : Invariant c) {st st' : Threads κ σ τ} {move : Move κ τ α}
    {r : Option ρ} (now : inv.Holds st) (taken : (c.machine s).step st move = some (st', r)) :
    inv.Holds st' := by
  cases move with
  | fork k t =>
    obtain ⟨begins, vacant, rfl, -⟩ := step_fork taken
    exact inv.holds_fork now begins vacant
  | run k a =>
    obtain ⟨t, s', t', reply, found, step, rfl, -⟩ := step_run taken
    exact inv.holds_run now found step

/-- The properties hold in every reachable state. -/
theorem holds (inv : Invariant c) (start : inv.shared s) {st : Threads κ σ τ}
    (reach : (c.machine s).Reachable st) : inv.Holds st :=
  reach.invariant (inv.holds_start start) fun _ _ _ _ _ now taken => inv.holds_step now taken

end Invariant

/-! ## What the replies of one thread add up to -/

/-- The part of a history that one thread replied. -/
def repliesOf (k : κ) (history : List (Move κ τ α × Option ρ)) : List ρ :=
  history.filterMap fun
    | (.run j _, reply) => if j = k then reply else none
    | (.fork _ _, _) => none

theorem repliesOf_append (k : κ) (h h' : List (Move κ τ α × Option ρ)) :
    repliesOf k (h ++ h') = repliesOf k h ++ repliesOf k h' :=
  List.filterMap_append

/-- A thread that is not in the table has replied nothing. -/
theorem repliesOf_unused {s : σ} {k : κ} {history : List (Move κ τ α × Option ρ)}
    {st : Threads κ σ τ} (run : (c.machine s).Run (c.machine s).start history st)
    (vacant : st.own.get k = none) : repliesOf k history = [] := by
  generalize (c.machine (κ := κ) s).start = s₀ at run
  induction run with
  | refl => rfl
  | @snoc st st' history move r run taken ih =>
    cases move with
    | fork j t =>
      obtain ⟨-, -, rfl, -⟩ := step_fork taken
      rw [Table.get_set] at vacant
      split at vacant
      · cases vacant
      · rw [repliesOf_append, ih vacant]
        rfl
    | run j a =>
      obtain ⟨t, s', t', reply, found, -, rfl, rfl⟩ := step_run taken
      rw [Table.get_set] at vacant
      split at vacant
      · cases vacant
      · rename_i other
        rw [repliesOf_append, ih vacant]
        simp [repliesOf, Ne.symm other]

/-- A budget that pays for every reply of a thread: the replies cost no more than what the thread has
in total. -/
theorem cost_le {s : σ} (inv : Invariant c) (start : inv.shared s) (cost : ρ → Nat)
    (budget total : τ → Nat) (begins : ∀ t, c.begins t = true → budget t ≤ total t)
    (pays : ∀ s t a s' t' r, inv.shared s → inv.own s t → c.step s t a = some (s', t', r) →
      cost r + budget t' ≤ budget t ∧ total t' = total t)
    {history : List (Move κ τ α × Option ρ)} {st : Threads κ σ τ}
    (run : (c.machine s).Run (c.machine s).start history st) {k : κ} {t : τ}
    (found : st.own.get k = some t) :
    ((repliesOf k history).map cost).sum + budget t ≤ total t := by
  generalize first : (c.machine (κ := κ) s).start = s₀ at run
  induction run generalizing t with
  | refl =>
    subst first
    cases found
  | @snoc st st' history move r run taken ih =>
    subst first
    have now := inv.holds start ⟨_, run⟩
    rw [repliesOf_append, List.map_append, List.sum_append]
    cases move with
    | fork j u =>
      obtain ⟨begun, vacant, rfl, -⟩ := step_fork taken
      rw [Table.get_set] at found
      split at found
      · rename_i same
        cases found
        rw [repliesOf_unused run (same ▸ vacant)]
        exact (Nat.zero_add _).trans_le (begins t begun)
      · exact ih found
    | run j a =>
      obtain ⟨u, s', u', reply, there, step, rfl, rfl⟩ := step_run taken
      rw [Table.get_set] at found
      split at found
      · rename_i same
        subst same
        cases found
        obtain ⟨pays, total_eq⟩ := pays _ _ _ _ _ _ now.shared (now.own k u there) step
        have ih := ih there
        simp only [repliesOf, List.filterMap_cons, List.filterMap_nil, if_true, List.map_cons,
          List.map_nil, List.sum_cons, List.sum_nil] at ih ⊢
        omega
      · rename_i other
        have ih := ih found
        simp only [repliesOf, List.filterMap_cons, List.filterMap_nil, if_neg (Ne.symm other),
          List.map_nil, List.sum_nil, Nat.add_zero] at ih ⊢
        exact ih

end Code

end Mineru.Logic
