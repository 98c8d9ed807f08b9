import Mathlib

/-!
# Programs that keep their state when they fail

`EStateM ε σ` runs on a state and may fail, and a failure keeps the state reached so far. The triple
`After x s Q E` says how a run of `x` from `s` ends: a value with a state in `Q`, or an error with a
state in `E`. The state is explicit, so that `Q` and `E` may relate the end of the run to its start.
-/

set_option autoImplicit false

namespace Mineru.Logic

variable {ε σ α β : Type}

/-- A run of `x` from `s` ends in `Q` with a value, or in `E` with an error. -/
def After (x : EStateM ε σ α) (s : σ) (Q : α → σ → Prop) (E : ε → σ → Prop) : Prop :=
  match x s with
  | .ok a s' => Q a s'
  | .error e s' => E e s'

/-- The same run with another error. -/
def mapErr (x : EStateM ε σ α) (f : ε → ε) : EStateM ε σ α := fun s =>
  match x s with
  | .ok a s' => .ok a s'
  | .error e s' => .error (f e) s'

/-- A run on a part of the state. -/
def zoom {τ : Type} (view : σ → τ) (put : σ → τ → σ) (x : EStateM ε τ α) : EStateM ε σ α := fun s =>
  match x (view s) with
  | .ok a t => .ok a (put s t)
  | .error e t => .error e (put s t)

namespace After

variable {x : EStateM ε σ α} {s : σ} {Q Q' : α → σ → Prop} {E E' : ε → σ → Prop}

theorem pure {a : α} (h : Q a s) : After (Pure.pure a) s Q E := h

theorem throw {e : ε} (h : E e s) : After (throw e : EStateM ε σ α) s Q E := h

/-- A run ends as it ends. -/
theorem self : After x s (fun a s' => x s = .ok a s') fun e s' => x s = .error e s' := by
  unfold After
  cases x s <;> rfl

theorem modify {f : σ → σ} {Q : PUnit → σ → Prop} (h : Q ⟨⟩ (f s)) :
    After (modify f : EStateM ε σ PUnit) s Q E := h

/-- The state is read and handed on. -/
theorem get {f : σ → EStateM ε σ α} (h : After (f s) s Q E) : After (get >>= f) s Q E := h

theorem weaken (h : After x s Q' E') (ok : ∀ a s', Q' a s' → Q a s')
    (error : ∀ e s', E' e s' → E e s') : After x s Q E := by
  unfold After at *
  split at h
  · exact ok _ _ h
  · exact error _ _ h

/-- A weaker claim about errors alone. -/
theorem errors (h : After x s Q E') (error : ∀ e s', E' e s' → E e s') : After x s Q E :=
  h.weaken (fun _ _ q => q) error

/-- Sequencing: an error of the first part is an error of the whole. -/
theorem bind {f : α → EStateM ε σ β} {Q : β → σ → Prop} (h : After x s Q' E)
    (rest : ∀ a s', Q' a s' → After (f a) s' Q E) : After (x >>= f) s Q E := by
  unfold After at h
  change match EStateM.bind x f s with | .ok a s' => Q a s' | .error e s' => E e s'
  unfold EStateM.bind
  split at h
  · rename_i a s' run
    rw [run]
    exact rest a s' h
  · rename_i e s' run
    rw [run]
    exact h

theorem mapErr {f : ε → ε} (h : After x s Q fun e => E (f e)) : After (mapErr x f) s Q E := by
  unfold After Logic.mapErr at *
  cases run : x s with
  | ok | error =>
    rw [run] at h
    exact h

/-- A run on a part leaves the rest of the state as it is. -/
theorem zoom {τ : Type} {view : σ → τ} {put : σ → τ → σ} {x : EStateM ε τ α}
    (h : After x (view s) (fun a t => Q a (put s t)) fun e t => E e (put s t)) :
    After (zoom view put x) s Q E := by
  unfold After Logic.zoom at *
  cases run : x (view s) with
  | ok | error =>
    rw [run] at h
    exact h

/-- A loop over a list: `I` is kept by every pass, and holds of the passes made so far. -/
theorem foldlM {γ : Type} {step : β → γ → EStateM ε σ β} (I : List γ → β → σ → Prop) (l : List γ)
    {b : β} (start : I [] b s)
    (keep : ∀ front c back, l = front ++ c :: back → ∀ b s, I front b s →
      After (step b c) s (I (front ++ [c])) E) :
    After (l.foldlM step b) s (I l) E := by
  have from' (front back : List γ) (split : l = front ++ back) :
      ∀ b s, I front b s → After (back.foldlM step b) s (I l) E := by
    induction back generalizing front with
    | nil =>
      intro b s here
      rw [List.append_nil] at split
      subst split
      exact pure here
    | cons c back ih =>
      intro b s here
      rw [List.foldlM_cons]
      refine bind (keep front c back split b s here) fun b s here => ?_
      exact ih (front ++ [c]) (by rw [split, List.append_assoc, List.singleton_append]) b s here
  exact from' [] l rfl b s start

/-- Two facts about one run. -/
theorem and (h : After x s Q E) (h' : After x s Q' E') :
    After x s (fun a s' => Q a s' ∧ Q' a s') (fun e s' => E e s' ∧ E' e s') := by
  unfold After at *
  cases run : x s with
  | ok | error =>
    rw [run] at h h'
    exact ⟨h, h'⟩

end After

end Mineru.Logic
