import Mineru.Route.Plan

/-!
# Laws of the window planner

A window takes the next pages up to some point: the ones that can be planned are its pages, and the
others are skipped with a warning each. From this it follows what all windows of a document plan
together, whatever their sizes and caps are.

Whether the windows go through the whole list does depend on where they are cut. It is proved here
that they fail exactly when a window starts in front of a rest of pages that are all skipped, or when
the sum that a window forms goes over a `usize`.
-/

set_option autoImplicit false

namespace Mineru.Route

open Logic

/-- The estimate of the page is there and within the cap of the whole route. -/
def plannable (fullCap : Nat) (pageBytes : PageBytes) (index : Nat) : Bool :=
  match pageBytes index with
  | .ok bytes => bytes ≤ fullCap
  | .error _ => false

/-- The warning of a page that cannot be planned. -/
def skipWarning (pageBytes : PageBytes) (index : Nat) : Text :=
  match pageBytes index with
  | .ok bytes => pageSkipped index (overBudget bytes)
  | .error error => pageSkipped index error.display

section Window

variable {size slotCap fullCap : Nat} {pageBytes : PageBytes}

/-- The estimate of a page, where there is one. -/
def bytesOf (pageBytes : PageBytes) (index : Nat) : Nat :=
  match pageBytes index with
  | .ok bytes => bytes
  | .error _ => 0

/-- The estimates of the pages of a list together. -/
def totalBytes (pageBytes : PageBytes) (indexes : List Nat) : Nat :=
  (indexes.map (bytesOf pageBytes)).sum

@[simp] theorem totalBytes_nil : totalBytes pageBytes [] = 0 := rfl

@[simp] theorem totalBytes_cons (index : Nat) (rest : List Nat) :
    totalBytes pageBytes (index :: rest) = bytesOf pageBytes index + totalBytes pageBytes rest := by
  simp [totalBytes]

/-- The warnings of the pages of a list that are skipped. -/
def skipWarnings (fullCap : Nat) (pageBytes : PageBytes) (indexes : List Nat) : List Text :=
  (indexes.filter fun index => !plannable fullCap pageBytes index).map (skipWarning pageBytes)

@[simp] theorem skipWarnings_append (first second : List Nat) :
    skipWarnings fullCap pageBytes (first ++ second) =
      skipWarnings fullCap pageBytes first ++ skipWarnings fullCap pageBytes second := by
  simp [skipWarnings]

/-- What a window takes of the pages `l` when the loop is at `s`: the first `k` of them, of which it
plans the ones that can be planned and skips the others. Its bytes are what the loop had before, with
the estimates of the pages that it plans of `l`. -/
structure Takes (slotCap fullCap : Nat) (pageBytes : PageBytes) (l : List Nat) (s : Planning)
    (w : PlannedWindow) (warnings : List Text) (k : Nat) : Prop where
  within : k ≤ l.length
  consumed : w.consumed = s.consumed + k
  indexes : w.indexes = s.planned ++ (l.take k).filter (plannable fullCap pageBytes)
  warned : warnings = s.warnings ++ skipWarnings fullCap pageBytes (l.take k)
  bytes : w.bytes =
    s.total + totalBytes pageBytes ((l.take k).filter (plannable fullCap pageBytes))
  some : w.indexes ≠ []
  slot : w.mode = .slot → w.bytes ≤ slotCap
  full : w.bytes ≤ fullCap

theorem Takes.skip {index : Nat} {rest : List Nat} {s : Planning} {w : PlannedWindow}
    {warnings : List Text} {k : Nat} {error : VlmError}
    (not : plannable fullCap pageBytes index = false)
    (h : Takes slotCap fullCap pageBytes rest (s.skip (skipWarning pageBytes index) error) w
      warnings k) :
    Takes slotCap fullCap pageBytes (index :: rest) s w warnings (k + 1) where
  within := by simpa using h.within
  consumed := by
    rw [h.consumed]
    show s.consumed + 1 + k = _
    omega
  indexes := by simp [h.indexes, Planning.skip, not]
  warned := by simp [h.warned, Planning.skip, skipWarnings, not]
  bytes := by simp [h.bytes, Planning.skip, not]
  some := h.some
  slot := h.slot
  full := h.full

theorem Takes.take {index bytes : Nat} {rest : List Nat} {s : Planning} {w : PlannedWindow}
    {warnings : List Text} {k : Nat} (can : plannable fullCap pageBytes index = true)
    (estimate : bytesOf pageBytes index = bytes)
    (h : Takes slotCap fullCap pageBytes rest (s.take index bytes) w warnings k) :
    Takes slotCap fullCap pageBytes (index :: rest) s w warnings (k + 1) where
  within := by simpa using h.within
  consumed := by
    rw [h.consumed]
    show s.consumed + 1 + k = _
    omega
  indexes := by simp [h.indexes, Planning.take, can]
  warned := by simp [h.warned, Planning.take, skipWarnings, can]
  bytes := by
    simp only [h.bytes, Planning.take, List.take_succ_cons, List.filter_cons_of_pos can,
      totalBytes_cons, estimate]
    omega
  some := h.some
  slot := h.slot
  full := h.full

theorem finish_takes {l : List Nat} {s : Planning} {w : PlannedWindow} {warnings : List Text}
    (total : s.total ≤ slotCap) (caps : slotCap ≤ fullCap)
    (h : s.finish fullCap = .ok (w, warnings)) :
    Takes slotCap fullCap pageBytes l s w warnings 0 := by
  unfold Planning.finish at h
  split at h
  · cases h
  · rename_i some
    cases h
    exact ⟨Nat.zero_le _, rfl, by simp, by simp [skipWarnings], by simp, some, fun _ => total,
      Nat.le_trans total caps⟩

theorem planLoop_takes (caps : slotCap ≤ fullCap) (l : List Nat) :
    ∀ (s : Planning) (w : PlannedWindow) (warnings : List Text), s.total ≤ slotCap →
      (s.planned = [] → s.total = 0) →
      planLoop size slotCap fullCap pageBytes l s = .ok (w, warnings) →
      ∃ k, Takes slotCap fullCap pageBytes l s w warnings k := by
  induction l with
  | nil => exact fun s w warnings total _ h => ⟨0, finish_takes total caps h⟩
  | cons index rest ih =>
    intro s w warnings total zero h
    unfold planLoop at h
    split at h
    · exact ⟨0, finish_takes total caps h⟩
    · split at h
      · rename_i error estimate
        have not : plannable fullCap pageBytes index = false := by simp [plannable, estimate]
        rw [show pageSkipped index error.display = skipWarning pageBytes index by
          simp [skipWarning, estimate]] at h
        obtain ⟨k, takes⟩ := ih (s.skip _ _) w warnings total zero h
        exact ⟨k + 1, takes.skip not⟩
      · rename_i bytes estimate
        split at h
        · rename_i large
          have not : plannable fullCap pageBytes index = false := by simp [plannable, estimate, large]
          rw [show pageSkipped index (overBudget bytes) = skipWarning pageBytes index by
            simp [skipWarning, estimate]] at h
          obtain ⟨k, takes⟩ := ih (s.skip _ _) w warnings total zero h
          exact ⟨k + 1, takes.skip not⟩
        · rename_i fits
          have can : plannable fullCap pageBytes index = true := by
            simp only [plannable, estimate, decide_eq_true_eq]
            omega
          split at h
          · rename_i alone
            cases h
            refine ⟨1, ⟨by simp, rfl, by simp [alone.1, can], ?_, ?_, by simp, by simp, ?_⟩⟩
            · simp [skipWarnings, can]
            · simp [can, zero alone.1, bytesOf, estimate]
            · show bytes ≤ fullCap
              omega
          · split at h
            · cases h
            · split at h
              · exact ⟨0, finish_takes total caps h⟩
              · rename_i room
                obtain ⟨k, takes⟩ := ih (s.take index bytes) w warnings (by
                  simpa [Planning.take] using room) (by simp [Planning.take]) h
                exact ⟨k + 1, takes.take can (by simp [bytesOf, estimate])⟩

/-- The sum that the loop forms at the page `index` goes over a `usize`, when it was at `s` and has the
pages `front` behind it: the page has an estimate within the cap of the route, the window has room for
it, the sum in front of it is within the slot cap, and it is no page that becomes a window of its
own. -/
structure OverflowsAt (size slotCap fullCap : Nat) (pageBytes : PageBytes) (s : Planning)
    (front : List Nat) (index bytes : Nat) : Prop where
  estimate : pageBytes index = .ok bytes
  full : bytes ≤ fullCap
  room : s.planned.length + (front.filter (plannable fullCap pageBytes)).length < size
  within : s.total + totalBytes pageBytes (front.filter (plannable fullCap pageBytes)) ≤ slotCap
  joined : s.planned ≠ [] ∨ front.filter (plannable fullCap pageBytes) ≠ [] ∨ bytes ≤ slotCap
  beyond : word ≤
    s.total + totalBytes pageBytes (front.filter (plannable fullCap pageBytes)) + bytes

/-- The sum goes over a `usize` at some page of the list. -/
def Overflows (size slotCap fullCap : Nat) (pageBytes : PageBytes) (l : List Nat) (s : Planning) :
    Prop :=
  ∃ front index back bytes, l = front ++ index :: back ∧
    OverflowsAt size slotCap fullCap pageBytes s front index bytes

/-- A page that is skipped has no part in the sum. -/
theorem overflows_skip {index : Nat} {rest : List Nat} {s : Planning} {warning : Text}
    {error : VlmError} (not : plannable fullCap pageBytes index = false) :
    Overflows size slotCap fullCap pageBytes (index :: rest) s ↔
      Overflows size slotCap fullCap pageBytes rest (s.skip warning error) := by
  constructor
  · rintro ⟨front, index', back, bytes, split, at'⟩
    cases front with
    | nil =>
      cases split
      simp [plannable, at'.estimate, at'.full] at not
    | cons first front =>
      cases split
      have same : (index :: front).filter (plannable fullCap pageBytes) =
        front.filter (plannable fullCap pageBytes) := by simp [not]
      exact ⟨front, index', back, bytes, rfl, at'.estimate, at'.full, same ▸ at'.room,
        same ▸ at'.within, same ▸ at'.joined, same ▸ at'.beyond⟩
  · rintro ⟨front, index', back, bytes, rfl, at'⟩
    have same : (index :: front).filter (plannable fullCap pageBytes) =
      front.filter (plannable fullCap pageBytes) := by simp [not]
    refine ⟨index :: front, index', back, bytes, rfl, at'.estimate, at'.full, ?_, ?_, ?_, ?_⟩
    all_goals rw [same]
    exacts [at'.room, at'.within, at'.joined, at'.beyond]

/-- A page that is taken goes into the sum, which then is `s.total + bytes`. -/
theorem overflows_take {index bytes : Nat} {rest : List Nat} {s : Planning}
    (can : plannable fullCap pageBytes index = true) (estimate : bytesOf pageBytes index = bytes)
    (fits : pageBytes index = .ok bytes) (small : s.total + bytes < word) :
    Overflows size slotCap fullCap pageBytes (index :: rest) s ↔
      Overflows size slotCap fullCap pageBytes rest (s.take index bytes) := by
  constructor
  · rintro ⟨front, index', back, bytes', split, at'⟩
    cases front with
    | nil =>
      cases split
      have beyond := at'.beyond
      cases fits.symm.trans at'.estimate
      simp at beyond
      omega
    | cons first front =>
      cases split
      obtain ⟨found, full, room, within, -, beyond⟩ := at'
      simp only [List.filter_cons_of_pos can, List.length_cons, totalBytes_cons, estimate]
        at room within beyond
      refine ⟨front, index', back, bytes', rfl, found, full, ?_, ?_, .inl (by simp [Planning.take]),
        ?_⟩
      all_goals simp only [Planning.take, List.length_append, List.length_singleton]
      all_goals omega
  · rintro ⟨front, index', back, bytes', rfl, found, full, room, within, -, beyond⟩
    simp only [Planning.take, List.length_append, List.length_singleton] at room within beyond
    refine ⟨index :: front, index', back, bytes', rfl, found, full, ?_, ?_, .inr (.inl (by simp [can])),
      ?_⟩
    all_goals simp only [List.filter_cons_of_pos can, List.length_cons, totalBytes_cons, estimate]
    all_goals omega

theorem finish_fails (s : Planning) :
    (∃ error, s.finish fullCap = .error error) ↔ s.planned = [] := by
  unfold Planning.finish
  split <;> simp [*]

/-- A window fails exactly when it has no page and only pages to skip are left, or when its sum goes
over a `usize`. -/
theorem planLoop_fails (pos : 0 < size) (l : List Nat) :
    ∀ s : Planning, s.total ≤ slotCap → (s.planned = [] → s.total = 0) →
      ((∃ error, planLoop size slotCap fullCap pageBytes l s = .error error) ↔
        (s.planned = [] ∧ ∀ index ∈ l, plannable fullCap pageBytes index = false) ∨
          Overflows size slotCap fullCap pageBytes l s) := by
  induction l with
  | nil =>
    intro s _ _
    have none : ¬ Overflows size slotCap fullCap pageBytes [] s := by
      rintro ⟨front, index, back, bytes, split, -⟩
      simp at split
    simpa [none, planLoop] using finish_fails s
  | cons index rest ih =>
    intro s total zero
    unfold planLoop
    by_cases full : size ≤ s.planned.length
    · -- the window has all its pages, so there is one
      have some : s.planned ≠ [] := by
        intro none
        simp [none] at full
        omega
      have none : ¬ Overflows size slotCap fullCap pageBytes (index :: rest) s := by
        rintro ⟨front, index', back, bytes, -, at'⟩
        have := at'.room
        omega
      rw [if_pos full, finish_fails]
      simp [some, none]
    · rw [if_neg full]
      have skipped (warning : Text) (error : VlmError)
          (not : plannable fullCap pageBytes index = false) :
          (∃ error', planLoop size slotCap fullCap pageBytes rest (s.skip warning error) =
            .error error') ↔
            (s.planned = [] ∧ ∀ i ∈ index :: rest, plannable fullCap pageBytes i = false) ∨
              Overflows size slotCap fullCap pageBytes (index :: rest) s := by
        rw [ih (s.skip warning error) total zero, ← overflows_skip not]
        simp [Planning.skip, not]
      cases estimate : pageBytes index with
      | error error => exact skipped _ _ (by simp [plannable, estimate])
      | ok bytes =>
        by_cases large : fullCap < bytes
        · simp only [if_pos large]
          exact skipped _ _ (by simp [plannable, estimate, large])
        · have can : plannable fullCap pageBytes index = true := by
            simp only [plannable, estimate, decide_eq_true_eq]
            omega
          have known : bytesOf pageBytes index = bytes := by simp [bytesOf, estimate]
          have left : ¬ (s.planned = [] ∧ ∀ i ∈ index :: rest, plannable fullCap pageBytes i = false) :=
            fun h => by simp [h.2 index List.mem_cons_self] at can
          simp only [if_neg large]
          by_cases alone : s.planned = [] ∧ slotCap < bytes
          · -- a window of its own: no sum is formed
            have none : ¬ Overflows size slotCap fullCap pageBytes (index :: rest) s := by
              rintro ⟨front, index', back, bytes', split, at'⟩
              cases front with
              | nil =>
                cases split
                cases estimate.symm.trans at'.estimate
                rcases at'.joined with some | some | within
                · exact some alone.1
                · exact some rfl
                · omega
              | cons first front =>
                cases split
                have within := at'.within
                simp only [List.filter_cons_of_pos can, totalBytes_cons, known] at within
                omega
            rw [if_pos alone]
            exact ⟨fun failed => by simp at failed, fun h => (h.elim left none).elim⟩
          · rw [if_neg alone]
            by_cases beyond : word ≤ s.total + bytes
            · have here : Overflows size slotCap fullCap pageBytes (index :: rest) s := by
                refine ⟨[], index, rest, bytes, rfl, estimate, by omega, by simp; omega,
                  by simpa using total, ?_, by simpa using beyond⟩
                by_cases none : s.planned = []
                · exact .inr (.inr (by
                    by_contra above
                    exact alone ⟨none, by omega⟩))
                · exact .inl none
              simp [if_pos beyond, here]
            · rw [if_neg beyond, overflows_take can known estimate (by omega)]
              by_cases above : slotCap < s.total + bytes
              · -- a first page within the slot cap never ends its window
                have some : s.planned ≠ [] := by
                  intro none
                  have := zero none
                  exact alone ⟨none, by omega⟩
                have none : ¬ Overflows size slotCap fullCap pageBytes rest (s.take index bytes) := by
                  rintro ⟨front, index', back, bytes', -, at'⟩
                  have within := at'.within
                  simp only [Planning.take] at within
                  omega
                rw [if_pos above, finish_fails]
                simp [some, none]
              · rw [if_neg above, ih (s.take index bytes) (by simp [Planning.take]; omega)
                  (by simp [Planning.take])]
                simp [Planning.take, can]

end Window

/-! ## All windows of a document -/

namespace Document

variable (d : Document)

def plannable (index : Nat) : Bool := Route.plannable d.fullCap d.pageBytes index

def skipWarnings (indexes : List Nat) : List Text := Route.skipWarnings d.fullCap d.pageBytes indexes

/-- What a window takes from the cursor on: consecutive pages, of which it plans the ones that can be
planned, with the sum of their estimates as its bytes. -/
structure Window (slotCap cursor : Nat) (w : PlannedWindow) (warnings : List Text) : Prop where
  pos : 0 < w.consumed
  within : cursor + w.consumed ≤ d.indexes.length
  indexes : w.indexes = ((d.indexes.drop cursor).take w.consumed).filter d.plannable
  warned : warnings = d.skipWarnings ((d.indexes.drop cursor).take w.consumed)
  bytes : w.bytes = totalBytes d.pageBytes w.indexes
  some : w.indexes ≠ []
  slot : w.mode = .slot → w.bytes ≤ slotCap
  full : w.bytes ≤ d.fullCap

variable {d} {cursor size slotCap : Nat} {w : PlannedWindow} {warnings : List Text}

theorem planWindow_ok (h : d.planWindow cursor size slotCap = .ok (w, warnings)) :
    d.Window slotCap cursor w warnings := by
  unfold planWindow Route.planWindow at h
  split at h
  · cases h
  · rename_i valid
    split at h
    · cases h
    · rename_i inside
      obtain ⟨k, takes⟩ := planLoop_takes (by omega) _ _ w warnings (Nat.zero_le _)
        (fun _ => rfl) h
      have consumed : w.consumed = k := by simp [takes.consumed, Planning.start]
      have indexes := takes.indexes
      rw [← consumed] at indexes
      have within := takes.within
      rw [List.length_drop] at within
      refine ⟨?_, by omega, indexes, ?_, ?_, takes.some, takes.slot, takes.full⟩
      · apply Nat.pos_of_ne_zero
        intro zero
        rw [zero] at indexes
        exact takes.some indexes
      · rw [takes.warned, consumed]
        rfl
      · rw [takes.bytes, indexes, consumed]
        exact Nat.zero_add _

theorem Window.retain (h : d.Window slotCap cursor w warnings) :
    retainWindow cursor w = .ok (cursor + w.consumed) := by
  have fits := d.fits
  have within := h.within
  unfold retainWindow
  rw [if_pos (by omega)]

theorem retainWindow_ok {cursor' : Nat} (h : retainWindow cursor w = .ok cursor') :
    cursor' = cursor + w.consumed := by
  unfold retainWindow at h
  split at h
  · cases h
    rfl
  · cases h

variable (d) in
/-- The windows that successive calls plan, from a cursor to the end, with their warnings; the caps of
the slots are `caps`, from the `k`-th call on. -/
def planFrom (size : Nat) (caps : Nat → Nat) (k cursor : Nat) :
    Except VlmError (List (PlannedWindow × List Text)) :=
  if cursor < d.indexes.length then
    match _call : d.planWindow cursor size (caps k) with
    | .error error => .error error
    | .ok (w, warnings) => match next : retainWindow cursor w with
      | .error error => .error error
      | .ok cursor' => (planFrom size caps (k + 1) cursor').map ((w, warnings) :: ·)
  else .ok []
termination_by d.indexes.length - cursor
decreasing_by
  have pos := (planWindow_ok _call).pos
  have := retainWindow_ok next
  omega

/-- A choice of the windows: the window size and the slot cap of each call. -/
structure Windowing (fullCap : Nat) where
  size : Nat
  caps : Nat → Nat
  size_pos : 0 < size
  caps_pos : ∀ k, 0 < caps k
  caps_le : ∀ k, caps k ≤ fullCap

namespace Windowing

/-- All windows of the document under this choice. -/
def windows {d : Document} (c : Windowing d.fullCap) :
    Except VlmError (List (PlannedWindow × List Text)) :=
  d.planFrom c.size c.caps 0 0

end Windowing

/-- The pages that windows plan, in their order. -/
def pagesOf (windows : List (PlannedWindow × List Text)) : List Nat :=
  windows.flatMap fun window => window.1.indexes

/-- The warnings that come with the windows. -/
def warningsOf (windows : List (PlannedWindow × List Text)) : List Text :=
  windows.flatMap fun window => window.2

/-- A window fails exactly when the pages from the cursor on are all skipped, or when its sum goes over
a `usize`. -/
theorem planWindow_fails (c : Windowing d.fullCap) (k : Nat) (inside : cursor < d.indexes.length) :
    (∃ error, d.planWindow cursor c.size (c.caps k) = .error error) ↔
      (∀ index ∈ d.indexes.drop cursor, d.plannable index = false) ∨
        Overflows c.size (c.caps k) d.fullCap d.pageBytes (d.indexes.drop cursor) .start := by
  have pos := c.size_pos
  have capPos := c.caps_pos k
  have capLe := c.caps_le k
  have full := d.fullCap_pos
  unfold planWindow Route.planWindow
  rw [if_neg (by omega), if_neg (by omega), planLoop_fails pos _ _ (Nat.zero_le _) fun _ => rfl]
  simp [Planning.start, plannable]

variable (d) in
/-- Windows that go from a cursor to the end plan the pages from there on that can be planned. -/
theorem planFrom_ok (size : Nat) (caps : Nat → Nat) (k cursor : Nat) :
    ∀ windows, d.planFrom size caps k cursor = .ok windows →
      pagesOf windows = (d.indexes.drop cursor).filter d.plannable ∧
        warningsOf windows = d.skipWarnings (d.indexes.drop cursor) := by
  fun_induction d.planFrom size caps k cursor with
  | case1 => exact fun windows h => by cases h
  | case2 => exact fun windows h => by cases h
  | case3 k cursor inside w warnings call cursor' next ih =>
    intro windows h
    cases later : d.planFrom size caps (k + 1) cursor' with
    | error error => simp [later, Except.map] at h
    | ok tail =>
      simp only [later, Except.map, Except.ok.injEq] at h
      subst h
      obtain ⟨pages, warned⟩ := ih tail later
      have window := planWindow_ok call
      have split : d.indexes.drop cursor =
          (d.indexes.drop cursor).take w.consumed ++ d.indexes.drop cursor' := by
        rw [retainWindow_ok next, ← List.drop_drop, List.take_append_drop]
      constructor
      · rw [split, List.filter_append, ← pages, ← window.indexes]
        rfl
      · rw [split]
        show warnings ++ warningsOf tail = _
        rw [warned, window.warned]
        exact (skipWarnings_append _ _).symm
  | case4 k cursor outside =>
    intro windows h
    cases h
    rw [List.drop_eq_nil_of_le (by omega)]
    exact ⟨rfl, rfl⟩

/-- One turn of the loop over the windows: a window that is planned, with the windows behind it. -/
theorem planFrom_step {k : Nat} (inside : cursor < d.indexes.length)
    (h : d.planWindow cursor size slotCap = .ok (w, warnings)) {caps : Nat → Nat}
    (cap : caps k = slotCap) :
    d.planFrom size caps k cursor =
      (d.planFrom size caps (k + 1) (cursor + w.consumed)).map ((w, warnings) :: ·) := by
  rw [planFrom, if_pos inside]
  subst cap
  split
  · rename_i call
    rw [h] at call
    cases call
  · rename_i call
    rw [h] at call
    cases call
    rw [(planWindow_ok h).retain]

theorem planFrom_end {caps : Nat → Nat} {k : Nat} (outside : d.indexes.length ≤ cursor) :
    d.planFrom size caps k cursor = .ok [] := by
  rw [planFrom, if_neg (by omega)]

theorem planFrom_stuck {caps : Nat → Nat} {k : Nat} {error : VlmError}
    (inside : cursor < d.indexes.length)
    (h : d.planWindow cursor size (caps k) = .error error) :
    d.planFrom size caps k cursor = .error error := by
  rw [planFrom, if_pos inside]
  split
  · rename_i call
    rw [h] at call
    cases call
    rfl
  · rename_i call
    rw [h] at call
    cases call

namespace Windowing

/-- The `k`-th call plans from this cursor: each window before it was planned, and the cursor was moved
over it. -/
inductive Reached {d : Document} (c : Windowing d.fullCap) : Nat → Nat → Prop where
  | start : c.Reached 0 0
  | next {k cursor : Nat} {w : PlannedWindow} {warnings : List Text} (before : c.Reached k cursor)
      (inside : cursor < d.indexes.length)
      (call : d.planWindow cursor c.size (c.caps k) = .ok (w, warnings)) :
      c.Reached (k + 1) (cursor + w.consumed)

/-- The sum that the `k`-th window forms from its cursor on goes over a `usize`. -/
def SumOverflows {d : Document} (c : Windowing d.fullCap) (k cursor : Nat) : Prop :=
  Overflows c.size (c.caps k) d.fullCap d.pageBytes (d.indexes.drop cursor) .start

end Windowing

/-- From a cursor that is reached on, the windows go on as from the start. -/
theorem planFrom_reached {c : Windowing d.fullCap} {k : Nat} (h : c.Reached k cursor) :
    (∃ error, d.planFrom c.size c.caps k cursor = .error error) →
      ∃ error, c.windows = .error error := by
  induction h with
  | start => exact id
  | @next k cursor w warnings before inside call ih =>
    rintro ⟨error, fails⟩
    apply ih
    rw [planFrom_step inside call rfl, fails]
    exact ⟨error, rfl⟩

theorem planFrom_error (c : Windowing d.fullCap) (k cursor : Nat) (h : c.Reached k cursor) :
    ∀ error, d.planFrom c.size c.caps k cursor = .error error →
      ∃ k cursor, c.Reached k cursor ∧ cursor < d.indexes.length ∧
        ∃ error, d.planWindow cursor c.size (c.caps k) = .error error := by
  fun_induction d.planFrom c.size c.caps k cursor with
  | case1 k cursor inside error call => exact fun _ _ => ⟨k, cursor, h, inside, error, call⟩
  | case2 k cursor inside w warnings call error next =>
    rw [(planWindow_ok call).retain] at next
    cases next
  | case3 k cursor inside w warnings call cursor' next ih =>
    intro error failed
    obtain rfl := retainWindow_ok next
    cases later : d.planFrom c.size c.caps (k + 1) (cursor + w.consumed) with
    | error error' => exact ih (h.next inside call) error' later
    | ok tail => simp [later, Except.map] at failed
  | case4 => exact fun error failed => by cases failed

/-- The windows fail exactly when one of them starts in front of pages that are all skipped, or forms
a sum that goes over a `usize`. -/
theorem windows_fail (c : Windowing d.fullCap) :
    (∃ error, c.windows = .error error) ↔
      ∃ k cursor, c.Reached k cursor ∧ cursor < d.indexes.length ∧
        ((∀ index ∈ d.indexes.drop cursor, d.plannable index = false) ∨ c.SumOverflows k cursor) := by
  constructor
  · rintro ⟨error, failed⟩
    obtain ⟨k, cursor, reached, inside, stuck⟩ := planFrom_error c 0 0 .start error failed
    exact ⟨k, cursor, reached, inside, (planWindow_fails c k inside).mp stuck⟩
  · rintro ⟨k, cursor, reached, inside, why⟩
    obtain ⟨error, stuck⟩ := (planWindow_fails c k inside).mpr why
    exact planFrom_reached reached ⟨error, planFrom_stuck inside stuck⟩

theorem windows_of_last (c : Windowing d.fullCap) {last : Nat} (h : d.indexes.getLast? = some last)
    (can : d.plannable last = true)
    (sums : ∀ k cursor, c.Reached k cursor → ¬ c.SumOverflows k cursor) :
    ∃ windows, c.windows = .ok windows := by
  cases call : c.windows with
  | ok windows => exact ⟨windows, rfl⟩
  | error error =>
    obtain ⟨k, cursor, reached, inside, none | overflow⟩ := (windows_fail c).mp ⟨error, call⟩
    · have mem : last ∈ d.indexes.drop cursor := by
        apply List.mem_of_getLast?
        rw [List.getLast?_drop, if_neg (by omega), h]
      simp [none last mem] at can
    · exact absurd overflow (sums k cursor reached)

theorem windows_none (c : Windowing d.fullCap) (some : d.indexes ≠ [])
    (none : ∀ index ∈ d.indexes, d.plannable index = false) :
    ∃ error, c.windows = .error error :=
  (windows_fail c).mpr
    ⟨0, 0, .start, List.length_pos_iff.mpr some, .inl fun index mem => none index mem⟩

/-- Two choices of the windows plan the same pages and skip the same pages with the same warnings,
where both succeed. A choice fails exactly when one of its windows starts in front of a rest of pages
that are all skipped, or forms a sum that goes over a `usize`. So both succeed when the last page can
be planned and no sum goes over, and both fail when there are pages and none can be planned. -/
theorem windows_agree (d : Document) (c c' : Windowing d.fullCap) :
    (∀ windows windows', c.windows = .ok windows → c'.windows = .ok windows' →
      pagesOf windows = pagesOf windows' ∧ warningsOf windows = warningsOf windows' ∧
        pagesOf windows = d.indexes.filter d.plannable ∧
        warningsOf windows = d.skipWarnings d.indexes) ∧
    ((∃ error, c.windows = .error error) ↔
      ∃ k cursor, c.Reached k cursor ∧ cursor < d.indexes.length ∧
        ((∀ index ∈ d.indexes.drop cursor, d.plannable index = false) ∨ c.SumOverflows k cursor)) ∧
    (∀ last, d.indexes.getLast? = some last → d.plannable last = true →
      (∀ k cursor, c.Reached k cursor → ¬ c.SumOverflows k cursor) →
      (∀ k cursor, c'.Reached k cursor → ¬ c'.SumOverflows k cursor) →
      (∃ windows, c.windows = .ok windows) ∧ ∃ windows, c'.windows = .ok windows) ∧
    (d.indexes ≠ [] → (∀ index ∈ d.indexes, d.plannable index = false) →
      (∃ error, c.windows = .error error) ∧ ∃ error, c'.windows = .error error) := by
  refine ⟨?_, windows_fail c, ?_, fun some none => ⟨windows_none c some none,
    windows_none c' some none⟩⟩
  · intro windows windows' h h'
    obtain ⟨pages, warned⟩ := d.planFrom_ok _ _ _ _ windows h
    obtain ⟨pages', warned'⟩ := d.planFrom_ok _ _ _ _ windows' h'
    exact ⟨by rw [pages, pages'], by rw [warned, warned'], pages, warned⟩
  · intro last h can sums sums'
    exact ⟨windows_of_last c h can sums, windows_of_last c' h can sums'⟩

/-- Two pages, the second without an estimate. -/
def badTail : Document where
  indexes := [0, 1]
  pageBytes := fun index => if index = 0 then .ok 1 else .error (.invalidInput "no media box")
  fullCap := 6
  fits := by decide
  fullCap_pos := by decide

def badTailBy (size : Nat) (pos : 0 < size) : Windowing badTail.fullCap :=
  ⟨size, fun _ => 2, pos, fun _ => by decide, fun _ => by decide⟩

/-- Windows of one page fail on the second page, which a window of two pages skips. -/
theorem windows_differ :
    (∃ error, (badTailBy 1 (by decide)).windows = .error error) ∧
      ∃ windows, (badTailBy 2 (by decide)).windows = .ok windows := by
  constructor
  · have first : badTail.planWindow 0 1 2 = .ok (⟨[0], 1, .slot, 1⟩, []) := rfl
    have second : badTail.planWindow 1 1 2 = .error (.invalidInput "no media box") := rfl
    refine ⟨.invalidInput "no media box", ?_⟩
    show badTail.planFrom 1 (fun _ => 2) 0 0 = _
    rw [planFrom_step (by decide) first rfl, planFrom_stuck (by decide) second]
    rfl
  · have both : badTail.planWindow 0 2 2 = .ok (⟨[0], 1, .slot, 2⟩,
        [pageSkipped 1 (VlmError.invalidInput "no media box").display]) := rfl
    refine ⟨[(⟨[0], 1, .slot, 2⟩, [pageSkipped 1 (VlmError.invalidInput "no media box").display])], ?_⟩
    show badTail.planFrom 2 (fun _ => 2) 0 0 = _
    rw [planFrom_step (by decide) both rfl, planFrom_end (by decide)]
    rfl

end Document

end Mineru.Route
