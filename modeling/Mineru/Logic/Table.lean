import Mathlib

/-!
# Tables

A `Table` maps finitely many keys to rows. Rows are set, removed and kept by a condition, and
`total` adds up a weight over all of them. The laws say what each operation does to `get` and to
`total`, so that proofs about a program's tables never look at the rows as a list.
-/

set_option autoImplicit false

namespace Mineru.Logic

/-- A finite map. -/
abbrev Table (κ α : Type) := AList fun _ : κ => α

namespace Table

variable {κ ι α β : Type} [DecidableEq κ]

def get (t : Table κ α) (k : κ) : Option α := t.lookup k

def set (t : Table κ α) (k : κ) (a : α) : Table κ α := t.insert k a

def remove (t : Table κ α) (k : κ) : Table κ α := t.erase k

/-- The rows that satisfy a condition. -/
def keep (t : Table κ α) (p : κ → α → Bool) : Table κ α where
  entries := t.entries.filter fun e => p e.1 e.2
  nodupKeys := t.nodupKeys.sublist List.filter_sublist

/-- Every row is changed by a function. -/
def map (t : Table κ α) (f : α → β) : Table κ β where
  entries := List.map (Sigma.map id fun _ => f) t.entries
  nodupKeys := t.nodupKeys.map₂ fun _ => f

/-- The sum of a weight over the rows. -/
def total (t : Table κ α) (w : κ → α → Nat) : Nat := (t.entries.map fun e => w e.1 e.2).sum

/-- The number of rows. -/
def size (t : Table κ α) : Nat := t.entries.length

/-- The rows, with their keys. -/
def rows (t : Table κ α) : List (κ × α) := t.entries.map fun e => (e.1, e.2)

/-! ## Reading -/

@[simp] theorem get_empty (k : κ) : get (∅ : Table κ α) k = none := rfl

theorem get_set (t : Table κ α) (k j : κ) (a : α) :
    (t.set k a).get j = if j = k then some a else t.get j := by
  unfold get set
  split
  · rename_i same
    rw [same, AList.lookup_insert]
  · rename_i other
    rw [AList.lookup_insert_ne other]

theorem get_remove (t : Table κ α) (k j : κ) :
    (t.remove k).get j = if j = k then none else t.get j := by
  unfold get remove
  split
  · rename_i same
    rw [same, AList.lookup_erase]
  · rename_i other
    rw [AList.lookup_erase_ne other]

theorem mem_entries {t : Table κ α} {k : κ} {a : α} : ⟨k, a⟩ ∈ t.entries ↔ t.get k = some a :=
  (AList.mem_lookup_iff (s := t)).symm

theorem mem_rows {t : Table κ α} {k : κ} {a : α} : (k, a) ∈ t.rows ↔ t.get k = some a := by
  rw [← mem_entries]
  constructor
  · intro h
    obtain ⟨e, mem, same⟩ := List.mem_map.mp h
    obtain ⟨rfl, rfl⟩ := Prod.mk.inj same
    exact mem
  · intro h
    exact List.mem_map.mpr ⟨_, h, rfl⟩

theorem get_keep (t : Table κ α) (p : κ → α → Bool) (k : κ) :
    (t.keep p).get k = (t.get k).filter (p k) := by
  ext a
  rw [← mem_entries, Option.filter_eq_some_iff, ← mem_entries]
  exact List.mem_filter

theorem get_keep_some {t : Table κ α} {p : κ → α → Bool} {k : κ} {a : α} :
    (t.keep p).get k = some a ↔ t.get k = some a ∧ p k a = true := by
  rw [get_keep, Option.filter_eq_some_iff]

theorem get_map (t : Table κ α) (f : α → β) (k : κ) : (t.map f).get k = (t.get k).map f :=
  List.dlookup_map₂ k

/-! ## Totals -/

omit [DecidableEq κ] in
@[simp] theorem total_empty (w : κ → α → Nat) : total (∅ : Table κ α) w = 0 := rfl

omit [DecidableEq κ] in
theorem size_eq_total (t : Table κ α) : t.size = t.total fun _ _ => 1 := by
  simp [size, total]

theorem total_congr {t : Table κ α} {w v : κ → α → Nat}
    (h : ∀ k a, t.get k = some a → w k a = v k a) : t.total w = t.total v := by
  unfold total
  congr 1
  exact List.map_congr_left fun e mem => h e.1 e.2 (mem_entries.mp mem)

theorem total_le {t : Table κ α} {w v : κ → α → Nat}
    (h : ∀ k a, t.get k = some a → w k a ≤ v k a) : t.total w ≤ t.total v := by
  unfold total
  exact List.sum_le_sum fun e mem => h e.1 e.2 (mem_entries.mp mem)

/-- Fewer rows count less. -/
theorem total_mono {t u : Table κ α} (h : ∀ k a, t.get k = some a → u.get k = some a)
    (w : κ → α → Nat) : t.total w ≤ u.total w := by
  have sub : t.entries ⊆ u.entries := fun e mem =>
    mem_entries.mpr (h e.1 e.2 (mem_entries.mp mem))
  obtain ⟨front, perm, part⟩ := List.subperm_of_subset t.nodupKeys.nodup sub
  unfold total
  rw [← (perm.map fun e => w e.1 e.2).sum_eq]
  exact (part.map fun e => w e.1 e.2).sum_le_sum fun n _ => Nat.zero_le n

omit [DecidableEq κ] in
theorem total_add (t : Table κ α) (w v : κ → α → Nat) :
    (t.total fun k a => w k a + v k a) = t.total w + t.total v := by
  unfold total
  exact List.sum_map_add

theorem total_set_new {t : Table κ α} {k : κ} (fresh : t.get k = none) (a : α)
    (w : κ → α → Nat) : (t.set k a).total w = w k a + t.total w := by
  unfold total set
  rw [AList.entries_insert_of_notMem (AList.lookup_eq_none.mp fresh), List.map_cons, List.sum_cons]

theorem total_remove {t : Table κ α} {k : κ} {a : α} (found : t.get k = some a)
    (w : κ → α → Nat) : t.total w = w k a + (t.remove k).total w := by
  obtain ⟨entries, nodup⟩ := t
  change List.dlookup k entries = some a at found
  change (entries.map _).sum = _ + ((List.kerase k entries).map _).sum
  induction entries with
  | nil => cases found
  | cons e rest ih =>
    by_cases same : k = e.1
    · rw [List.kerase_cons_eq same]
      obtain ⟨j, b⟩ := e
      subst same
      rw [List.dlookup_cons_eq] at found
      rw [List.map_cons, List.sum_cons, Option.some.inj found]
    · rw [List.dlookup_cons_ne _ _ same] at found
      rw [List.kerase_cons_ne same, List.map_cons, List.map_cons, List.sum_cons, List.sum_cons,
        ih (List.nodupKeys_of_nodupKeys_cons nodup) found]
      omega

theorem total_set {t : Table κ α} {k : κ} {a : α} (found : t.get k = some a) (b : α)
    (w : κ → α → Nat) : (t.set k b).total w + w k a = t.total w + w k b := by
  have cut : (t.set k b).total w = w k b + (t.remove k).total w := rfl
  rw [cut, total_remove found w]
  omega

/-- What is not nothing in total has a row that counts. -/
theorem exists_of_total {t : Table κ α} {w : κ → α → Nat} (counts : t.total w ≠ 0) :
    ∃ k a, t.get k = some a ∧ w k a ≠ 0 := by
  by_contra none
  refine counts ((total_congr (v := fun _ _ => 0) fun k a found => ?_).trans (by simp [total]))
  by_contra some
  exact none ⟨k, a, found, some⟩

/-- A row counts at most as much as all of them. -/
theorem le_total {t : Table κ α} {k : κ} {a : α} (found : t.get k = some a)
    (w : κ → α → Nat) : w k a ≤ t.total w := by
  rw [total_remove found w]
  exact Nat.le_add_right _ _

/-- Two rows count at most as much as all of them. -/
theorem add_le_total {t : Table κ α} {k j : κ} {a b : α} (first : t.get k = some a)
    (second : t.get j = some b) (other : k ≠ j) (w : κ → α → Nat) :
    w k a + w j b ≤ t.total w := by
  rw [total_remove first w]
  refine Nat.add_le_add_left (le_total ?_ w) _
  rw [get_remove, if_neg (Ne.symm other)]
  exact second

/-- A row that is set counts instead of the one before. -/
theorem total_set_le (t : Table κ α) (k : κ) (a : α) (w : κ → α → Nat) :
    (t.set k a).total w + ((t.get k).map (w k)).getD 0 ≤ t.total w + w k a := by
  cases found : t.get k with
  | none =>
    rw [total_set_new found]
    change w k a + t.total w + 0 ≤ _
    omega
  | some b => exact Nat.le_of_eq (total_set found a w)

theorem total_remove_le (t : Table κ α) (k : κ) (w : κ → α → Nat) :
    (t.remove k).total w + ((t.get k).map (w k)).getD 0 ≤ t.total w := by
  cases found : t.get k with
  | none =>
    have same : (t.remove k).entries = t.entries :=
      List.kerase_of_notMem_keys (AList.lookup_eq_none.mp found)
    unfold total
    rw [same]
    exact Nat.le_refl _
  | some b =>
    rw [total_remove found, Nat.add_comm]
    exact Nat.le_refl _

omit [DecidableEq κ] in
theorem total_keep (t : Table κ α) (p : κ → α → Bool) (w : κ → α → Nat) :
    (t.keep p).total w = t.total fun k a => if p k a then w k a else 0 := by
  obtain ⟨entries, nodup⟩ := t
  change ((entries.filter _).map _).sum = (entries.map _).sum
  clear nodup
  induction entries with
  | nil => rfl
  | cons e rest ih =>
    rw [List.filter_cons, List.map_cons, List.sum_cons, ← ih]
    beta_reduce
    split
    · rename_i yes
      rw [List.map_cons, List.sum_cons]
    · rename_i no
      rw [Nat.zero_add]

theorem total_keep_le (t : Table κ α) (p : κ → α → Bool) (w : κ → α → Nat) :
    (t.keep p).total w ≤ t.total w := by
  rw [total_keep]
  refine total_le fun k a _ => ?_
  split
  · exact Nat.le_refl _
  · exact Nat.zero_le _

omit [DecidableEq κ] in
theorem total_map (t : Table κ α) (f : α → β) (w : κ → β → Nat) :
    (t.map f).total w = t.total fun k a => w k (f a) := by
  unfold total map
  rw [List.map_map]
  rfl

omit [DecidableEq κ] in
/-- Double counting over two tables. -/
theorem total_comm (t : Table κ α) (u : Table ι β) (w : κ → α → ι → β → Nat) :
    (t.total fun k a => u.total fun j b => w k a j b) =
      u.total fun j b => t.total fun k a => w k a j b := by
  have swap := Multiset.sum_map_sum_map (Multiset.ofList t.entries) (Multiset.ofList u.entries)
    (f := fun e d => w e.1 e.2 d.1 d.2)
  simpa only [total, Multiset.map_coe, Multiset.sum_coe] using swap

/-- Only one row counts. -/
theorem total_single {t : Table κ α} {k : κ} {a : α} (found : t.get k = some a)
    (w : κ → α → Nat) : (t.total fun j b => if j = k then w j b else 0) = w k a := by
  rw [total_remove found, if_pos rfl]
  have none : (t.remove k).total (fun j b => if j = k then w j b else 0) =
      (t.remove k).total fun _ _ => 0 := by
    refine total_congr fun j b there => ?_
    rw [get_remove] at there
    split
    · rename_i same
      rw [if_pos same] at there
      cases there
    · rfl
  rw [none]
  simp [total]

end Table

end Mineru.Logic
