import Mathlib

/-!
# Transition systems

A `Machine` has executable steps: an action in a state either cannot be taken or leads to one state
with one reply. `Run` is a finite run with its history, `Reachable` its end, and `Execution` an
infinite run that may pause.

The rules are the invariant rule (`Reachable.invariant`), for safety, and the rank rule
(`eventually_of_rank`), for what has to happen at last. `eventually_of_helpful` is the rank rule
where only some of the steps help, which are taken again and again.
-/

set_option autoImplicit false

namespace Mineru.Logic

structure Machine (σ α ρ : Type) where
  start : σ
  step : σ → α → Option (σ × ρ)

namespace Machine

variable {σ α ρ : Type} {m : Machine σ α ρ}

/-- A run from one state to another, with the actions taken and their replies. -/
inductive Run (m : Machine σ α ρ) : σ → List (α × ρ) → σ → Prop where
  | refl (s : σ) : Run m s [] s
  | snoc {s t u : σ} {h : List (α × ρ)} {a : α} {r : ρ} (run : Run m s h t)
      (step : m.step t a = some (u, r)) : Run m s (h ++ [(a, r)]) u

/-- The machine that only takes the steps that `allowed` lets pass. -/
def restrict (m : Machine σ α ρ) (allowed : σ → α → Bool) : Machine σ α ρ where
  start := m.start
  step s a := if allowed s a then m.step s a else none

/-- The end of the run that takes the actions one by one, if it can take them all. -/
def play (m : Machine σ α ρ) : σ → List α → Option σ
  | s, [] => some s
  | s, a :: rest => (m.step s a).bind fun next => m.play next.1 rest

theorem play_append (m : Machine σ α ρ) (s : σ) (first second : List α) :
    m.play s (first ++ second) = (m.play s first).bind fun t => m.play t second := by
  induction first generalizing s with
  | nil => rfl
  | cons a rest ih =>
    simp only [List.cons_append, play, ih, Option.bind_assoc]

def Reachable (m : Machine σ α ρ) (s : σ) : Prop := ∃ h, m.Run m.start h s

theorem Run.append {s t u : σ} {h h' : List (α × ρ)} (first : m.Run s h t) (second : m.Run t h' u) :
    m.Run s (h ++ h') u := by
  induction second with
  | refl => rwa [List.append_nil]
  | snoc _ step ih =>
    rw [← List.append_assoc]
    exact .snoc ih step

/-- A run is cut wherever its history is. -/
theorem Run.split {s u : σ} {h h' : List (α × ρ)} (run : m.Run s (h ++ h') u) :
    ∃ t, m.Run s h t ∧ m.Run t h' u := by
  generalize whole : h ++ h' = hist at run
  induction run generalizing h' with
  | refl =>
    obtain ⟨rfl, rfl⟩ := List.append_eq_nil_iff.mp whole
    exact ⟨_, .refl _, .refl _⟩
  | @snoc t u hist a r run step ih =>
    rcases List.eq_nil_or_concat h' with rfl | ⟨front, last, rfl⟩
    · rw [List.append_nil] at whole
      subst whole
      exact ⟨_, .snoc run step, .refl _⟩
    · rw [List.concat_eq_append, ← List.append_assoc] at whole
      obtain ⟨front_eq, last_eq⟩ := List.append_inj' whole rfl
      obtain ⟨mid, first, second⟩ := ih front_eq
      rw [List.concat_eq_append, List.cons.inj last_eq |>.1]
      exact ⟨mid, first, .snoc second step⟩

theorem Run.of_nil {s t : σ} (run : m.Run s [] t) : s = t := by
  generalize whole : [] = hist at run
  cases run with
  | refl => rfl
  | snoc first step => simp at whole

/-- A run of one step. -/
theorem Run.last {s u : σ} {a : α} {r : ρ} (run : m.Run s [(a, r)] u) :
    m.step s a = some (u, r) := by
  generalize whole : [(a, r)] = hist at run
  cases run with
  | refl => cases whole
  | @snoc t _ front a' r' first step =>
    cases front with
    | nil =>
      obtain ⟨rfl, rfl⟩ := Prod.mk.inj (List.cons.inj whole).1
      rwa [first.of_nil]
    | cons x xs =>
      have := congrArg List.length whole
      simp at this

/-- Every entry of a history is a step of the run. -/
theorem Run.exists_step {s t : σ} {h : List (α × ρ)} {a : α} {r : ρ} (run : m.Run s h t)
    (mem : (a, r) ∈ h) :
    ∃ u v before after, h = before ++ (a, r) :: after ∧ m.Run s before u ∧
      m.step u a = some (v, r) ∧ m.Run v after t := by
  obtain ⟨before, after, rfl⟩ := List.append_of_mem mem
  obtain ⟨u, first, rest⟩ := run.split
  rw [← List.singleton_append] at rest
  obtain ⟨v, one, rest⟩ := rest.split
  exact ⟨u, v, before, after, rfl, first, one.last, rest⟩

/-- The run that `play` takes. -/
theorem Run.of_play {s t : σ} {actions : List α} (played : m.play s actions = some t) :
    ∃ h, m.Run s h t ∧ h.map Prod.fst = actions := by
  induction actions generalizing s with
  | nil =>
    cases played
    exact ⟨[], .refl _, rfl⟩
  | cons a rest ih =>
    obtain ⟨next, taken, played⟩ := Option.bind_eq_some_iff.mp played
    obtain ⟨h, run, acts⟩ := ih played
    refine ⟨(a, next.2) :: h, ?_, by rw [List.map_cons, acts]⟩
    exact (Run.snoc (.refl _) taken).append run

theorem Run.keeps {P : σ → Prop} (step : ∀ s a t r, P s → m.step s a = some (t, r) → P t)
    {s t : σ} {h : List (α × ρ)} (run : m.Run s h t) (start : P s) : P t := by
  induction run with
  | refl => exact start
  | snoc _ taken ih => exact step _ _ _ _ ih taken

namespace Reachable

theorem start : m.Reachable m.start := ⟨[], .refl _⟩

theorem step {s t : σ} {a : α} {r : ρ} (h : m.Reachable s) (taken : m.step s a = some (t, r)) :
    m.Reachable t := by
  obtain ⟨hist, run⟩ := h
  exact ⟨_, run.snoc taken⟩

theorem run {s t : σ} {h : List (α × ρ)} (reach : m.Reachable s) (run : m.Run s h t) :
    m.Reachable t := by
  obtain ⟨hist, first⟩ := reach
  exact ⟨_, first.append run⟩

theorem play {s t : σ} {actions : List α} (reach : m.Reachable s)
    (played : m.play s actions = some t) : m.Reachable t := by
  induction actions generalizing s with
  | nil =>
    cases played
    exact reach
  | cons a rest ih =>
    obtain ⟨next, taken, played⟩ := Option.bind_eq_some_iff.mp played
    exact ih (reach.step taken) played

/-- What holds at the start and is kept by every step holds in every reachable state. -/
theorem invariant {P : σ → Prop} (start : P m.start)
    (step : ∀ s a t r, m.Reachable s → P s → m.step s a = some (t, r) → P t) {s : σ}
    (h : m.Reachable s) : P s := by
  obtain ⟨hist, run⟩ := h
  generalize first : m.start = s₀ at run
  induction run with
  | refl => exact first ▸ start
  | snoc run taken ih => exact step _ _ _ _ ⟨_, first ▸ run⟩ ih taken

end Reachable

/-- An infinite run; `none` is a moment in which nothing happens. -/
structure Execution (m : Machine σ α ρ) where
  state : Nat → σ
  action : Nat → Option α
  starts : state 0 = m.start
  steps : ∀ n, match action n with
    | some a => ∃ r, m.step (state n) a = some (state (n + 1), r)
    | none => state (n + 1) = state n

namespace Execution

theorem reachable (x : m.Execution) (n : Nat) : m.Reachable (x.state n) := by
  induction n with
  | zero => exact x.starts ▸ Reachable.start
  | succ n ih =>
    have step := x.steps n
    cases act : x.action n with
    | none =>
      rw [act] at step
      exact step ▸ ih
    | some a =>
      rw [act] at step
      obtain ⟨r, step⟩ := step
      exact ih.step step

/-- The execution that takes the actions of a list, and pauses after them. -/
def ofList (m : Machine σ α ρ) (actions : List α)
    (plays : (m.play m.start actions).isSome = true) : m.Execution where
  state n := (m.play m.start (actions.take n)).getD m.start
  action n := actions[n]?
  starts := rfl
  steps n := by
    obtain ⟨last, plays⟩ := Option.isSome_iff_exists.mp plays
    have cut := m.play_append m.start (actions.take n) (actions.drop n)
    rw [List.take_append_drop, plays] at cut
    obtain ⟨s, front, rest⟩ := Option.bind_eq_some_iff.mp cut.symm
    cases act : actions[n]? with
    | none =>
      have short := List.getElem?_eq_none_iff.mp act
      dsimp only
      rw [List.take_of_length_le short, List.take_of_length_le (Nat.le_succ_of_le short)]
    | some a =>
      obtain ⟨inside, is⟩ := List.getElem?_eq_some_iff.mp act
      rw [← List.cons_getElem_drop_succ (h := inside), is] at rest
      obtain ⟨⟨t, r⟩, taken, -⟩ := Option.bind_eq_some_iff.mp rest
      refine ⟨r, ?_⟩
      have next : m.play m.start (actions.take (n + 1)) = some t := by
        rw [List.take_succ_eq_append_getElem inside, is, play_append, front]
        exact congrArg (·.bind fun next => m.play next.1 []) taken
      rw [front, next]
      exact taken

theorem ofList_state {m : Machine σ α ρ} {actions : List α}
    (plays : (m.play m.start actions).isSome = true) {n : Nat} {s : σ}
    (played : m.play m.start (actions.take n) = some s) : (ofList m actions plays).state n = s := by
  change (m.play m.start (actions.take n)).getD m.start = s
  rw [played]
  rfl

/-- After its last action the execution stays where it is. -/
theorem ofList_ends {m : Machine σ α ρ} {actions : List α}
    (plays : (m.play m.start actions).isSome = true) {s : σ}
    (played : m.play m.start actions = some s) {k : Nat} (later : actions.length ≤ k) :
    (ofList m actions plays).state k = s := by
  apply ofList_state
  rwa [List.take_of_length_le later]

theorem takes (x : m.Execution) {n : Nat} {a : α} (act : x.action n = some a) :
    ∃ r, m.step (x.state n) a = some (x.state (n + 1), r) := by
  have taken := x.steps n
  rwa [act] at taken

/-- What holds at one moment and is kept by every step holds from then on. -/
theorem stays {P : σ → Prop} (x : m.Execution)
    (step : ∀ s a t r, m.Reachable s → P s → m.step s a = some (t, r) → P t) {n : Nat}
    (now : P (x.state n)) {k : Nat} (later : n ≤ k) : P (x.state k) := by
  induction later with
  | refl => exact now
  | @step k _ ih =>
    have taken := x.steps k
    cases act : x.action k with
    | none =>
      rw [act] at taken
      exact taken ▸ ih
    | some a =>
      rw [act] at taken
      obtain ⟨r, taken⟩ := taken
      exact step _ _ _ _ (x.reachable k) ih taken

end Execution

/-- The rank rule: if every pending moment is followed by the goal or by a pending moment of smaller
rank, the goal is reached. -/
theorem eventually_of_rank {β : Type} {less : β → β → Prop} (wf : WellFounded less)
    (pending goal : Nat → Prop) (rank : Nat → β)
    (progress : ∀ n, pending n → ∃ k, n ≤ k ∧ (goal k ∨ pending k ∧ less (rank k) (rank n)))
    (n : Nat) (h : pending n) : ∃ k, n ≤ k ∧ goal k := by
  generalize eq : rank n = b
  induction b using wf.induction generalizing n with
  | _ b ih =>
    obtain ⟨k, later, done | ⟨still, smaller⟩⟩ := progress n h
    · exact ⟨k, later, done⟩
    · obtain ⟨k', later', done⟩ := ih (rank k) (eq ▸ smaller) k still rfl
      exact ⟨k', Nat.le_trans later later', done⟩

/-- The rank rule for moments that follow each other: every pending moment reaches the goal, or leads
to a pending moment of no greater rank, which is smaller if the moment helps. If there is help again
and again while the goal is pending, it is reached. -/
theorem eventually_of_helpful {β : Type} [Preorder β] [WellFoundedLT β]
    (pending goal helps : Nat → Prop) (rank : Nat → β) {n : Nat}
    (step : ∀ k, n ≤ k → pending k →
      goal k ∨ (pending (k + 1) ∧ rank (k + 1) ≤ rank k ∧ (helps k → rank (k + 1) < rank k)))
    (fair : ∀ k, n ≤ k → pending k → ∃ j, k ≤ j ∧ (pending j → helps j)) (now : pending n) :
    ∃ k, n ≤ k ∧ goal k := by
  -- until the goal, the moments stay pending and their rank does not grow
  have waits : ∀ k, n ≤ k → pending k → ∀ j, k ≤ j →
      (∃ i, k ≤ i ∧ goal i) ∨ (pending j ∧ rank j ≤ rank k) := by
    intro k from_ now j later
    induction later with
    | refl => exact .inr ⟨now, le_refl _⟩
    | @step j later ih =>
      rcases ih with done | ⟨still, small⟩
      · exact .inl done
      · rcases step j (from_.trans later) still with done | ⟨next, le, -⟩
        · exact .inl ⟨j, later, done⟩
        · exact .inr ⟨next, le.trans small⟩
  obtain ⟨k, -, later, done⟩ : ∃ k, n ≤ k ∧ n ≤ k ∧ goal k := by
    refine eventually_of_rank wellFounded_lt (fun k => n ≤ k ∧ pending k)
      (fun k => n ≤ k ∧ goal k) rank (fun k is => ?_) n ⟨Nat.le_refl n, now⟩
    obtain ⟨from_, now⟩ := is
    obtain ⟨j, later, helped⟩ := fair k from_ now
    rcases waits k from_ now j later with ⟨i, after, done⟩ | ⟨still, small⟩
    · exact ⟨i, after, .inl ⟨from_.trans after, done⟩⟩
    · rcases step j (from_.trans later) still with done | ⟨next, -, less⟩
      · exact ⟨j, later, .inl ⟨from_.trans later, done⟩⟩
      · exact ⟨j + 1, Nat.le_succ_of_le later,
          .inr ⟨⟨Nat.le_succ_of_le (from_.trans later), next⟩, (less (helped still)).trans_le small⟩⟩
  exact ⟨k, later, done⟩

end Machine

end Mineru.Logic
