import Mineru.Logic.Table

/-!
# Reservations against counters

A `Ledger` keeps one counter for each kind of resource and the reservations charged to it. A
reservation is a cell that its owners share: it is charged against the counter of its kind, split
into cells of the same kind, shrunk, and released when its last owner goes away. The counters are
machine words, so subtracting more than there is wraps around.

`Balanced` says that every counter is the sum of its cells and within its cap. Every operation keeps
it; shrinking does so only downwards. `backing` is what a cell can answer for. `Covered` says that no
cell is held for more than that, and `Covered.sum_le` adds up what is held.
-/

set_option autoImplicit false

namespace Mineru.Logic

/-- The values of a counter. -/
def word : Nat := 2 ^ 64

/-- `fetch_sub`, which wraps around. -/
def fetchSub (a b : Nat) : Nat := (a + word - b) % word

theorem fetchSub_of_le {a b : Nat} (le : b ≤ a) (fits : a < word) : fetchSub a b = a - b := by
  unfold fetchSub
  rw [show a + word - b = a - b + word by omega, Nat.add_mod_right]
  exact Nat.mod_eq_of_lt (by omega)

structure Cell (κ : Type) where
  kind : κ
  size : Nat
  deriving DecidableEq, Repr

structure Ledger (κ : Type) where
  used : κ → Nat
  cells : Table Nat (Cell κ)
  next : Nat

namespace Ledger

variable {κ : Type} [DecidableEq κ]

def empty : Ledger κ where
  used _ := 0
  cells := ∅
  next := 0

/-- A new cell of `n` units, if the counter stays within the cap (the sum stands in this order so that
a large `n` is never unfolded). -/
def charge (l : Ledger κ) (cap : κ → Nat) (k : κ) (n : Nat) : Option (Nat × Ledger κ) :=
  if n + l.used k < word ∧ n + l.used k ≤ cap k then
    some (l.next,
      { used := Function.update l.used k (n + l.used k)
        cells := l.cells.set l.next ⟨k, n⟩
        next := l.next + 1 })
  else none

/-- `n` units of a cell become a cell of their own, if it has that many. -/
def split (l : Ledger κ) (c n : Nat) : Option (Nat × Ledger κ) :=
  match l.cells.get c with
  | none => none
  | some cell =>
    if n ≤ cell.size then
      some (l.next,
        { l with
          cells := (l.cells.set c { cell with size := cell.size - n }).set l.next ⟨cell.kind, n⟩
          next := l.next + 1 })
    else none

/-- The size of a cell is set; a smaller size is given back to the counter. -/
def shrinkTo (l : Ledger κ) (c n : Nat) : Ledger κ :=
  match l.cells.get c with
  | none => l
  | some cell =>
    { l with
      cells := l.cells.set c { cell with size := n }
      used :=
        if n < cell.size then
          Function.update l.used cell.kind (fetchSub (l.used cell.kind) (cell.size - n))
        else l.used }

/-- The last owner of a cell goes away. -/
def release (l : Ledger κ) (c : Nat) : Ledger κ :=
  match l.cells.get c with
  | none => l
  | some cell =>
    { l with
      cells := l.cells.remove c
      used := Function.update l.used cell.kind (fetchSub (l.used cell.kind) cell.size) }

/-- Every cell without an owner is released. -/
def collect (l : Ledger κ) (owned : Nat → Bool) : Ledger κ :=
  ((l.cells.rows.map Prod.fst).filter fun c => !owned c).foldl release l

/-! ## Balance -/

/-- The units of one kind in all cells. -/
def sum (l : Ledger κ) (k : κ) : Nat :=
  l.cells.total fun _ cell => if cell.kind = k then cell.size else 0

structure Balanced (cap : κ → Nat) (l : Ledger κ) : Prop where
  sums : ∀ k, l.used k = l.sum k
  capped : ∀ k, l.used k ≤ cap k
  fresh : ∀ c cell, l.cells.get c = some cell → c < l.next

variable {cap : κ → Nat} {l l' : Ledger κ} {c d n : Nat} {k : κ}

theorem empty_balanced : Balanced cap (empty : Ledger κ) where
  sums _ := rfl
  capped _ := Nat.zero_le _
  fresh _ _ h := by cases h

theorem Balanced.get_next (h : Balanced cap l) : l.cells.get l.next = none := by
  cases found : l.cells.get l.next with
  | none => rfl
  | some cell => exact absurd (h.fresh _ _ found) (Nat.lt_irrefl _)

theorem Balanced.size_le (h : Balanced cap l) {cell : Cell κ} (found : l.cells.get c = some cell) :
    cell.size ≤ l.used cell.kind := by
  rw [h.sums]
  have le := Table.le_total found fun _ d => if d.kind = cell.kind then d.size else 0
  rwa [if_pos rfl] at le

theorem charge_some (h : l.charge cap k n = some (c, l')) :
    c = l.next ∧ n + l.used k ≤ cap k ∧
      l' = { used := Function.update l.used k (n + l.used k)
             cells := l.cells.set l.next ⟨k, n⟩, next := l.next + 1 } := by
  unfold charge at h
  split at h
  · rename_i fits
    obtain ⟨rfl, rfl⟩ := Prod.mk.inj (Option.some.inj h)
    exact ⟨rfl, fits.2, rfl⟩
  · cases h

omit [DecidableEq κ] in
theorem split_some (h : l.split c n = some (d, l')) :
    ∃ cell, l.cells.get c = some cell ∧ n ≤ cell.size ∧ d = l.next ∧
      l' = { l with
        cells := (l.cells.set c { cell with size := cell.size - n }).set l.next ⟨cell.kind, n⟩
        next := l.next + 1 } := by
  unfold split at h
  split at h
  · cases h
  · rename_i cell found
    split at h
    · rename_i fits
      obtain ⟨rfl, rfl⟩ := Prod.mk.inj (Option.some.inj h)
      exact ⟨cell, found, fits, rfl, rfl⟩
    · cases h

/-! ### Every operation keeps the balance -/

theorem charge_balanced (h : Balanced cap l) (run : l.charge cap k n = some (c, l')) :
    Balanced cap l' := by
  obtain ⟨rfl, fits, rfl⟩ := charge_some run
  refine ⟨fun j => ?_, fun j => ?_, fun d cell found => ?_⟩
  · simp only [sum, Table.total_set_new h.get_next, Function.update_apply]
    by_cases same : j = k
    · rw [if_pos same, if_pos same.symm, same, h.sums, sum, Nat.add_comm]
    · rw [if_neg same, if_neg (Ne.symm same), h.sums, sum, Nat.zero_add]
  · simp only [Function.update_apply]
    split
    · rename_i same
      exact same ▸ fits
    · exact h.capped j
  · rw [Table.get_set] at found
    dsimp only
    split at found
    · omega
    · exact Nat.lt_succ_of_lt (h.fresh _ _ found)

theorem split_balanced (h : Balanced cap l) (run : l.split c n = some (d, l')) :
    Balanced cap l' := by
  obtain ⟨cell, found, fits, rfl, rfl⟩ := split_some run
  have below : c < l.next := h.fresh _ _ found
  have unused : (l.cells.set c { cell with size := cell.size - n }).get l.next = none := by
    rw [Table.get_set, if_neg (by omega), h.get_next]
  refine ⟨fun j => ?_, h.capped, fun e cell' there => ?_⟩
  · have parent := Table.total_set found { cell with size := cell.size - n }
      fun _ d => if d.kind = j then d.size else 0
    have whole := h.sums j
    simp only [sum, Table.total_set_new unused] at whole ⊢
    dsimp only at parent
    split at parent <;> split <;> first | omega | contradiction
  · rw [Table.get_set, Table.get_set] at there
    dsimp only
    split at there
    · omega
    · split at there
      · omega
      · exact Nat.lt_succ_of_lt (h.fresh _ _ there)

/-- Shrinking downwards. -/
theorem shrinkTo_balanced (h : Balanced cap l) (fits : ∀ k, cap k < word)
    (down : ∀ cell, l.cells.get c = some cell → n ≤ cell.size) :
    Balanced cap (l.shrinkTo c n) := by
  unfold shrinkTo
  split
  · exact h
  · rename_i cell found
    have le := down cell found
    have room := h.size_le found
    have small : l.used cell.kind < word := Nat.lt_of_le_of_lt (h.capped _) (fits _)
    refine ⟨fun j => ?_, fun j => ?_, fun d cell' there => ?_⟩
    · have swap := Table.total_set found { cell with size := n }
        fun _ d => if d.kind = j then d.size else 0
      have whole := h.sums j
      simp only [sum] at whole ⊢
      by_cases same : cell.kind = j
      · subst same
        simp only [if_true] at swap
        split
        · rw [Function.update_self, fetchSub_of_le (by omega) small]
          omega
        · omega
      · simp only [if_neg same, Nat.add_zero] at swap
        split
        · rw [Function.update_of_ne (Ne.symm same)]
          omega
        · omega
    · dsimp only
      split
      · rw [Function.update_apply]
        split
        · rename_i same
          rw [fetchSub_of_le (by omega) small, same]
          exact Nat.le_trans (Nat.sub_le _ _) (h.capped _)
        · exact h.capped j
      · exact h.capped j
    · rw [Table.get_set] at there
      split at there
      · rename_i same
        rw [same]
        exact h.fresh _ _ found
      · exact h.fresh _ _ there

theorem release_balanced (h : Balanced cap l) (fits : ∀ k, cap k < word) :
    Balanced cap (l.release c) := by
  unfold release
  split
  · exact h
  · rename_i cell found
    have room := h.size_le found
    have small : l.used cell.kind < word := Nat.lt_of_le_of_lt (h.capped _) (fits _)
    refine ⟨fun j => ?_, fun j => ?_, fun d cell' there => ?_⟩
    · have cut := Table.total_remove found fun _ d => if d.kind = j then d.size else 0
      have whole := h.sums j
      simp only [sum] at whole ⊢
      by_cases same : cell.kind = j
      · subst same
        simp only [if_true] at cut
        rw [Function.update_self, fetchSub_of_le room small]
        omega
      · simp only [if_neg same, Nat.zero_add] at cut
        rw [Function.update_of_ne (Ne.symm same)]
        omega
    · dsimp only
      rw [Function.update_apply]
      split
      · rename_i same
        rw [fetchSub_of_le room small, same]
        exact Nat.le_trans (Nat.sub_le _ _) (h.capped _)
      · exact h.capped j
    · rw [Table.get_remove] at there
      split at there
      · cases there
      · exact h.fresh _ _ there

theorem releaseAll_balanced (fits : ∀ k, cap k < word) (cs : List Nat) :
    ∀ {l : Ledger κ}, Balanced cap l → Balanced cap (cs.foldl release l) := by
  induction cs with
  | nil => exact id
  | cons c cs ih => exact fun h => ih (release_balanced h fits)

theorem collect_balanced (h : Balanced cap l) (fits : ∀ k, cap k < word) (owned : Nat → Bool) :
    Balanced cap (l.collect owned) :=
  releaseAll_balanced fits _ h

/-! ### What happens to the cells -/

theorem release_get (l : Ledger κ) (c d : Nat) :
    (l.release c).cells.get d = if d = c then none else l.cells.get d := by
  unfold release
  split
  · rename_i missing
    split
    · rename_i same
      rw [same, missing]
    · rfl
  · exact Table.get_remove _ _ _

theorem releaseAll_get (cs : List Nat) :
    ∀ (l : Ledger κ) (d : Nat),
      (cs.foldl release l).cells.get d = if d ∈ cs then none else l.cells.get d := by
  induction cs with
  | nil => exact fun _ _ => rfl
  | cons c cs ih =>
    intro l d
    rw [List.foldl_cons, ih, release_get]
    by_cases rest : d ∈ cs
    · rw [if_pos rest, if_pos (List.mem_cons_of_mem _ rest)]
    · by_cases same : d = c
      · rw [if_neg rest, if_pos same, if_pos (same ▸ List.mem_cons_self)]
      · rw [if_neg rest, if_neg same, if_neg (List.not_mem_cons_of_ne_of_not_mem same rest)]

/-- Collecting drops exactly the cells without an owner. -/
theorem collect_get (l : Ledger κ) (owned : Nat → Bool) (c : Nat) :
    (l.collect owned).cells.get c = if owned c = true then l.cells.get c else none := by
  unfold collect
  rw [releaseAll_get]
  cases found : l.cells.get c with
  | none => simp
  | some cell =>
    have there : c ∈ l.cells.rows.map Prod.fst :=
      List.mem_map.mpr ⟨(c, cell), Table.mem_rows.mpr found, rfl⟩
    cases own : owned c <;> simp [List.mem_filter, there, own]

theorem collect_next (l : Ledger κ) (owned : Nat → Bool) : (l.collect owned).next = l.next := by
  unfold collect
  generalize (l.cells.rows.map Prod.fst).filter _ = cs
  induction cs generalizing l with
  | nil => rfl
  | cons c cs ih =>
    rw [List.foldl_cons, ih]
    unfold release
    split <;> rfl

theorem charge_get (run : l.charge cap k n = some (c, l')) (d : Nat) :
    l'.cells.get d = if d = c then some ⟨k, n⟩ else l.cells.get d := by
  obtain ⟨rfl, _, rfl⟩ := charge_some run
  exact Table.get_set _ _ _ _

theorem shrinkTo_get (l : Ledger κ) (c n d : Nat) :
    (l.shrinkTo c n).cells.get d =
      if d = c then (l.cells.get c).map fun cell => { cell with size := n }
      else l.cells.get d := by
  unfold shrinkTo
  split
  · rename_i missing
    split
    · rename_i same
      rw [same, missing]
      rfl
    · rfl
  · rename_i cell found
    rw [Table.get_set, found]
    rfl

/-! ## Backing -/

/-- The units of one kind that a cell stands for. -/
def backing (l : Ledger κ) (k : κ) (c : Nat) : Nat :=
  match l.cells.get c with
  | none => 0
  | some cell => if cell.kind = k then cell.size else 0

theorem backing_fresh (fresh : l.cells.get l.next = none) (k : κ) : l.backing k l.next = 0 := by
  unfold backing
  rw [fresh]

theorem sum_eq_backing (l : Ledger κ) (k : κ) :
    l.sum k = l.cells.total fun c _ => l.backing k c := by
  refine Table.total_congr fun c cell found => ?_
  unfold backing
  rw [found]

theorem charge_backing (run : l.charge cap k n = some (c, l')) (j : κ) (d : Nat) :
    l'.backing j d = if d = c then (if k = j then n else 0) else l.backing j d := by
  have got := charge_get run d
  unfold backing
  rw [got]
  by_cases same : d = c
  · rw [if_pos same, if_pos same]
  · rw [if_neg same, if_neg same]

theorem shrinkTo_backing (found : l.backing k c ≠ 0) (d : Nat) :
    (l.shrinkTo c n).backing k d = if d = c then n else l.backing k d := by
  unfold backing at *
  rw [shrinkTo_get]
  by_cases same : d = c
  · rw [if_pos same, if_pos same]
    cases there : l.cells.get c with
    | none =>
      rw [there] at found
      exact absurd rfl found
    | some cell =>
      rw [there] at found
      by_cases kind : cell.kind = k
      · simp only [Option.map_some, if_pos kind]
      · simp only [if_neg kind] at found
        exact absurd rfl found
  · rw [if_neg same, if_neg same]

theorem collect_backing (l : Ledger κ) (owned : Nat → Bool) (k : κ) (c : Nat) :
    (l.collect owned).backing k c = if owned c = true then l.backing k c else 0 := by
  unfold backing
  rw [collect_get]
  cases owned c with
  | true | false => rfl

omit [DecidableEq κ] in
theorem split_get (run : l.split c n = some (d, l')) (fresh : l.cells.get l.next = none) (e : Nat) :
    ∃ cell, l.cells.get c = some cell ∧ n ≤ cell.size ∧ d ≠ c ∧ d = l.next ∧
      l'.cells.get e = if e = d then some ⟨cell.kind, n⟩
        else if e = c then some { cell with size := cell.size - n } else l.cells.get e := by
  obtain ⟨cell, found, fits, rfl, rfl⟩ := split_some run
  refine ⟨cell, found, fits, fun same => ?_, rfl, ?_⟩
  · rw [same, found] at fresh
    cases fresh
  · rw [Table.get_set, Table.get_set]

theorem split_backing (run : l.split c n = some (d, l')) (fresh : l.cells.get l.next = none) (j : κ)
    (e : Nat) :
    (e = d → l'.backing j e ≤ n ∧ (l.backing j c ≠ 0 → l'.backing j e = n)) ∧
      (e ≠ d → e = c → l'.backing j e = l.backing j c - n) ∧
      (e ≠ d → e ≠ c → l'.backing j e = l.backing j e) := by
  obtain ⟨cell, found, fits, other, rfl, got⟩ := split_get run fresh e
  unfold backing
  rw [got, found]
  refine ⟨fun same => ?_, fun differ same => ?_, fun differ differ' => ?_⟩
  · rw [if_pos same]
    dsimp only
    split
    · exact ⟨Nat.le_refl _, fun _ => rfl⟩
    · exact ⟨Nat.zero_le _, fun some => absurd rfl some⟩
  · rw [if_neg differ, if_pos same]
    dsimp only
    split
    · rfl
    · exact (Nat.zero_sub n).symm
  · rw [if_neg differ, if_neg differ']

/-! ## Kinds -/

/-- A cell that was given out and is of another kind. -/
def Apart (l : Ledger κ) (k : κ) (c : Nat) : Prop :=
  c < l.next ∧ ∀ cell, l.cells.get c = some cell → cell.kind ≠ k

namespace Apart

variable {j : κ} {e : Nat}

theorem of_charge (run : l.charge cap j n = some (c, l')) (other : j ≠ k) : l'.Apart k c := by
  refine ⟨?_, fun cell found => ?_⟩
  · obtain ⟨rfl, -, rfl⟩ := charge_some run
    exact Nat.lt_succ_self _
  · rw [charge_get run, if_pos rfl] at found
    cases found
    exact other

theorem charge (h : l.Apart k e) (run : l.charge cap j n = some (c, l')) : l'.Apart k e := by
  have got := charge_get run e
  obtain ⟨rfl, -, rfl⟩ := charge_some run
  refine ⟨Nat.lt_succ_of_lt h.1, fun cell found => ?_⟩
  rw [got, if_neg (Nat.ne_of_lt h.1)] at found
  exact h.2 cell found

omit [DecidableEq κ] in
theorem split (h : l.Apart k e) (run : l.split c n = some (d, l'))
    (fresh : l.cells.get l.next = none) : l'.Apart k e := by
  obtain ⟨cell, found, -, -, isNext, got⟩ := split_get run fresh e
  have next : l'.next = l.next + 1 := by
    obtain ⟨_, _, _, _, rfl⟩ := split_some run
    rfl
  refine ⟨next ▸ Nat.lt_succ_of_lt h.1, fun cell' there => ?_⟩
  rw [got, if_neg (isNext ▸ Nat.ne_of_lt h.1)] at there
  by_cases parent : e = c
  · rw [if_pos parent] at there
    cases there
    exact h.2 cell (parent ▸ found)
  · rw [if_neg parent] at there
    exact h.2 cell' there

theorem shrinkTo (h : l.Apart k e) : (l.shrinkTo c n).Apart k e := by
  refine ⟨?_, fun cell found => ?_⟩
  · unfold Ledger.shrinkTo
    split <;> exact h.1
  · rw [shrinkTo_get] at found
    by_cases same : e = c
    · rw [if_pos same] at found
      obtain ⟨cell', there, rfl⟩ := Option.map_eq_some_iff.mp found
      exact h.2 cell' (same ▸ there)
    · rw [if_neg same] at found
      exact h.2 cell found

theorem collect (h : l.Apart k e) (owned : Nat → Bool) : (l.collect owned).Apart k e := by
  refine ⟨(collect_next l owned).symm ▸ h.1, fun cell found => ?_⟩
  rw [collect_get] at found
  split at found
  · exact h.2 cell found
  · cases found

/-- Shrinking a cell of another kind takes no units of this one. -/
theorem shrinkTo_backing (other : l.Apart k c) (e : Nat) :
    (l.shrinkTo c n).backing k e = l.backing k e := by
  unfold backing
  rw [shrinkTo_get]
  by_cases same : e = c
  · rw [if_pos same, same]
    cases found : l.cells.get c with
    | none => rfl
    | some cell =>
      have differs := other.2 cell found
      dsimp only [Option.map_some]
      rw [if_neg differs, if_neg differs]
  · rw [if_neg same]

theorem split_backing (other : l.Apart k c) (run : l.split c n = some (d, l'))
    (fresh : l.cells.get l.next = none) (e : Nat) : l'.backing k e = l.backing k e := by
  obtain ⟨cell, found, -, -, isNext, got⟩ := split_get run fresh e
  have differs := other.2 cell found
  unfold backing
  rw [got]
  by_cases same : e = d
  · rw [if_pos same, same, isNext, fresh]
    dsimp only
    rw [if_neg differs]
  · rw [if_neg same]
    by_cases parent : e = c
    · rw [if_pos parent, parent, found]
      dsimp only
      rw [if_neg differs, if_neg differs]
    · rw [if_neg parent]

end Apart

/-! ## Holders

The holders of the cells of one kind either share a cell, each with a part of its units, or have one
for themselves. `shares` and `soles` count them by cell. -/

/-- The parts fit into their cells, and what is held alone has one holder, and a unit for it. -/
def Covered (l : Ledger κ) (k : κ) (shares soles : Nat → Nat) : Prop :=
  ∀ c, shares c ≤ l.backing k c ∧
    (soles c = 0 ∨ (soles c = 1 ∧ shares c = 0 ∧ 1 ≤ l.backing k c))

namespace Covered

variable {shares soles shares' soles' : Nat → Nat}

theorem congr (h : Covered l k shares soles) (same : ∀ c, l'.backing k c = l.backing k c) :
    Covered l' k shares soles := fun c => by
  rw [same]
  exact h c

/-- Holders go away. -/
theorem mono (h : Covered l k shares soles) (fewer : ∀ c, shares' c ≤ shares c)
    (less : ∀ c, soles' c ≤ soles c) : Covered l k shares' soles' := by
  intro c
  obtain ⟨fits, alone⟩ := h c
  have := fewer c
  have := less c
  refine ⟨by omega, ?_⟩
  rcases alone with none | ⟨one, empty, unit⟩
  · exact .inl (by omega)
  · by_cases zero : soles' c = 0
    · exact .inl zero
    · exact .inr ⟨by omega, by omega, unit⟩

/-- Nothing holds a cell that has no units. -/
theorem none (h : Covered l k shares soles) (empty : l.backing k c = 0) :
    shares c = 0 ∧ soles c = 0 := by
  obtain ⟨fits, alone⟩ := h c
  rw [empty] at fits alone
  refine ⟨Nat.le_zero.mp fits, alone.resolve_right fun is => ?_⟩
  exact Nat.not_succ_le_zero 0 is.2.2

/-- The parts of a new cell are shared out, or it is held alone. -/
theorem charge (h : Covered l k shares soles) (fresh : l.cells.get l.next = Option.none)
    (run : l.charge cap k n = some (c, l')) {parts holders : Nat}
    (fits : parts ≤ n ∧ holders = 0 ∨ parts = 0 ∧ holders ≤ 1 ∧ 1 ≤ n)
    (fewer : ∀ e, shares' e ≤ shares e + if e = c then parts else 0)
    (less : ∀ e, soles' e ≤ soles e + if e = c then holders else 0) :
    Covered l' k shares' soles' := by
  intro e
  have more := fewer e
  have more' := less e
  rw [charge_backing run]
  by_cases same : e = c
  · have zero : l.backing k e = 0 := by
      rw [same, (charge_some run).1, backing_fresh fresh]
    obtain ⟨free, free'⟩ := h.none zero
    rw [if_pos same] at more more' ⊢
    rw [if_pos rfl]
    omega
  · rw [if_neg same] at more more' ⊢
    have kept : Covered l k (fun e' => if e' = e then shares' e else 0)
        fun e' => if e' = e then soles' e else 0 :=
      h.mono (fun e' => by split <;> simp_all) fun e' => by split <;> simp_all
    simpa using kept e

/-- A new cell of another kind. -/
theorem charge_other {j : κ} (h : Covered l k shares soles)
    (fresh : l.cells.get l.next = Option.none) (run : l.charge cap j n = some (c, l'))
    (other : j ≠ k) : Covered l' k shares soles := by
  refine h.congr fun e => ?_
  rw [charge_backing run, if_neg other]
  split
  · rename_i same
    rw [same, (charge_some run).1, backing_fresh fresh]
  · rfl

/-- A cell that is held alone gives units away, and keeps one; the new cell is shared out. -/
theorem split (h : Covered l k shares soles) (fresh : l.cells.get l.next = Option.none)
    (run : l.split c n = some (d, l')) (alone : soles c = 1) (keeps : n < l.backing k c)
    {parts : Nat} (fits : parts ≤ n)
    (fewer : ∀ e, shares' e ≤ shares e + if e = d then parts else 0)
    (less : ∀ e, soles' e ≤ soles e) : Covered l' k shares' soles' := by
  obtain ⟨-, -, -, other, isNext, -⟩ := split_get run fresh d
  intro e
  have more := fewer e
  have more' := less e
  obtain ⟨new, old, rest⟩ := split_backing run fresh k e
  obtain ⟨held, sole⟩ := h e
  by_cases same : e = d
  · have zero : l.backing k e = 0 := by
      rw [same, isNext, backing_fresh fresh]
    obtain ⟨free, free'⟩ := h.none zero
    rw [if_pos same] at more
    rw [(new same).2 (by omega)]
    omega
  · rw [if_neg same] at more
    by_cases parent : e = c
    · subst parent
      rw [old same rfl]
      omega
    · rw [rest same parent]
      omega

/-- A cell that is held alone is cut down, and keeps a unit. -/
theorem shrinkTo (h : Covered l k shares soles) (alone : soles c = 1) (keeps : 1 ≤ n) :
    Covered (l.shrinkTo c n) k shares soles := by
  intro e
  obtain ⟨held, sole⟩ := h c
  have there : l.backing k c ≠ 0 := by omega
  rw [shrinkTo_backing there]
  by_cases same : e = c
  · rw [if_pos same, same]
    omega
  · rw [if_neg same]
    exact h e

/-- A cell of another kind changes. -/
theorem shrinkTo_other (h : Covered l k shares soles) (other : l.Apart k c) :
    Covered (l.shrinkTo c n) k shares soles := h.congr other.shrinkTo_backing

theorem split_other (h : Covered l k shares soles) (fresh : l.cells.get l.next = Option.none)
    (run : l.split c n = some (d, l')) (other : l.Apart k c) : Covered l' k shares soles :=
  h.congr (other.split_backing run fresh)

/-- What is held is not collected. -/
theorem collect (h : Covered l k shares soles) {owned : Nat → Bool}
    (held : ∀ c, shares c ≠ 0 ∨ soles c ≠ 0 → owned c = true) :
    Covered (l.collect owned) k shares soles := by
  intro c
  rw [collect_backing]
  by_cases own : owned c = true
  · rw [if_pos own]
    exact h c
  · have : shares c = 0 := by
      by_contra some
      exact own (held c (.inl some))
    have : soles c = 0 := by
      by_contra some
      exact own (held c (.inr some))
    omega

/-- All parts and all holders together take no more units than were charged. -/
theorem sum_le (h : Covered l k shares soles) :
    (l.cells.total fun c _ => shares c + soles c) ≤ l.sum k := by
  rw [sum_eq_backing]
  refine Table.total_le fun c cell _ => ?_
  obtain ⟨fits, alone⟩ := h c
  omega

end Covered

/-! ## Giving units away

Two cells are split one after the other, as far as they reach. -/

/-- The cells `c` and `d` were split, and `ms` are the cells with one unit that came off `d`. -/
inductive Parted (c d : Nat) : Ledger κ → List Nat → Ledger κ → Prop where
  | stop (l : Ledger κ) : Parted c d l [] l
  | other {l l₁ l₂ : Ledger κ} {n b : Nat} {ms : List Nat} (run : l.split c n = some (b, l₁))
    (rest : Parted c d l₁ ms l₂) : Parted c d l ms l₂
  | unit {l l₁ l₂ : Ledger κ} {m : Nat} {ms : List Nat} (run : l.split d 1 = some (m, l₁))
    (rest : Parted c d l₁ ms l₂) : Parted c d l (m :: ms) l₂

/-- The cell `d` is held alone and keeps `n` units; each cell that came off it is shared out. -/
theorem Parted.keeps {ms : List Nat} (parted : Parted c d l ms l') (balanced : Balanced cap l)
    (apart : l.Apart k c) {shares soles : Nat → Nat} (covered : Covered l k shares soles)
    (alone : soles d = 1) (units : ms.length + n ≤ l.backing k d) (keeps : 1 ≤ n) :
    Balanced cap l' ∧ Covered l' k (fun e => shares e + ms.count e) soles ∧
      n ≤ l'.backing k d ∧ (∀ e, e ≠ d → l.backing k e ≤ l'.backing k e) ∧
      ∀ e, l.Apart k e → l'.Apart k e := by
  induction parted generalizing shares with
  | stop l =>
    rw [List.length_nil, Nat.zero_add] at units
    exact ⟨balanced, covered, units, fun _ _ => Nat.le_refl _, fun _ => id⟩
  | other run rest ih =>
    have fresh := balanced.get_next
    obtain ⟨balanced', covered', units', others, apart'⟩ := ih (split_balanced balanced run)
      (apart.split run fresh) (covered.split_other fresh run apart)
      (by rwa [apart.split_backing run fresh])
    refine ⟨balanced', covered', units', fun e differs => ?_, fun e is =>
      apart' e (is.split run fresh)⟩
    rw [← apart.split_backing run fresh]
    exact others e differs
  | @unit l l₁ l₂ m ms run rest ih =>
    have fresh := balanced.get_next
    obtain ⟨-, -, -, other, isNext, -⟩ := split_get run fresh d
    obtain ⟨-, parent, -⟩ := split_backing run fresh k d
    rw [List.length_cons] at units
    have covered₁ : Covered l₁ k (fun e => shares e + if e = m then 1 else 0) soles :=
      covered.split fresh run alone (by omega) (Nat.le_refl 1) (fun e => Nat.le_refl _)
        fun e => Nat.le_refl _
    obtain ⟨balanced', covered', units', others, apart'⟩ := ih (split_balanced balanced run)
      (apart.split run fresh) covered₁ (by rw [parent (Ne.symm other) rfl]; omega)
    refine ⟨balanced', fun e => ?_, units', fun e differs => ?_, fun e is =>
      apart' e (is.split run fresh)⟩
    · have counted : shares e + (m :: ms).count e =
          (shares e + if e = m then 1 else 0) + ms.count e := by
        rw [List.count_cons]
        by_cases same : e = m
        · simp only [same, beq_self_eq_true, if_true]
          omega
        · simp only [beq_eq_false_iff_ne.mpr (Ne.symm same), if_neg same, Bool.false_eq_true,
            if_false]
          omega
      beta_reduce
      rw [counted]
      exact covered' e
    · refine Nat.le_trans ?_ (others e differs)
      by_cases same : e = m
      · have zero : l.backing k e = 0 := by
          rw [same, isNext, backing_fresh fresh]
        rw [zero]
        exact Nat.zero_le _
      · exact Nat.le_of_eq ((split_backing run fresh k e).2.2 same differs).symm

omit [DecidableEq κ] in
/-- The rows of a table that hold cells, counted by cell. -/
theorem total_by_cell {ι α : Type} [DecidableEq ι] (t : Table ι α) (cell : α → Nat) (w : α → Nat)
    (held : ∀ i a, t.get i = some a → w a ≠ 0 → (l.cells.get (cell a)).isSome = true) :
    (t.total fun _ a => w a) =
      l.cells.total fun c _ => t.total fun _ a => if cell a = c then w a else 0 := by
  rw [Table.total_comm]
  refine Table.total_congr fun i a found => ?_
  by_cases zero : w a = 0
  · rw [zero]
    simp [Table.total]
  · obtain ⟨c, there⟩ := Option.isSome_iff_exists.mp (held i a found zero)
    have single := Table.total_single there fun _ _ => w a
    refine single.symm.trans (Table.total_congr fun c' _ _ => ?_)
    by_cases same : c' = cell a
    · rw [if_pos same, if_pos same.symm]
    · rw [if_neg same, if_neg (Ne.symm same)]

end Ledger

end Mineru.Logic
