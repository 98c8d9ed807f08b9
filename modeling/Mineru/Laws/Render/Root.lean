import Mineru.Render.Publish

/-!
# The root and its creators

What an entry of the tree has above and below it, what the operations do to it, and who made what:
an entry has the creator of the top entry above it, and a step of a publisher (`Changed`) leaves the
entries of all others alone.

So the tree can be looked at through the eyes of one publisher, as the entries that it has made
(`Root.made`), and this view changes by its own steps only. The laws about commits are about such
views. An entry that was there before all publishers has no creator.
-/

set_option autoImplicit false

namespace Mineru.Render

open Logic

namespace Root

/-! ## The operations -/

section Operations

variable {r r' : Root} {i : Nat} {p q : Path} {name : Name}

theorem createDir_some (h : r.createDir i p = some r') :
    dirAt r.entries p.dropLast ∧ r.get p = none ∧
      ∀ q, r'.get q = if q = p then some ⟨some i, .dir⟩ else r.get q := by
  unfold createDir at h
  split at h
  · rename_i ok
    cases h
    exact ⟨ok.1, ok.2.1, fun q => Table.get_set _ _ _ _⟩
  · cases h

theorem hardLink_some {src dst : Path} (h : r.hardLink i src dst = some r') :
    ∃ c bytes, r.get src = some ⟨c, .file bytes⟩ ∧ r.get dst = none ∧
      ∀ q, r'.get q = if q = dst then some ⟨some i, .file bytes⟩ else r.get q := by
  unfold hardLink at h
  split at h
  · rename_i c bytes found
    split at h
    · rename_i ok
      cases h
      exact ⟨c, bytes, found, ok.2.1, fun q => Table.get_set _ _ _ _⟩
    · cases h
  · cases h

theorem writeFile_some {bytes : Bytes} (h : r.writeFile i p bytes = some r') :
    ¬ dirAt r.entries p ∧
      ∀ q, r'.get q = if q = p then some ⟨some i, .file bytes⟩ else r.get q := by
  unfold writeFile at h
  split at h
  · rename_i ok
    cases h
    exact ⟨ok.2, fun q => Table.get_set _ _ _ _⟩
  · cases h

theorem unlink_some (h : r.unlink name p = some r') :
    (∃ e, r.get [name] = some e ∧ e.node = .dir) ∧ p.head? = some name ∧ r.get p ≠ none ∧
      Childless r.entries p ∧ ∀ q, r'.get q = if q = p then none else r.get q := by
  unfold unlink at h
  split at h
  · rename_i ok
    cases h
    refine ⟨?_, ok.1.2.1, ok.1.2.2, ok.2.1, fun q => Table.get_remove _ _ _⟩
    rcases ok.1.1 with nil | there
    · cases nil
    · exact there
  · cases h

/-- Nothing is below a path where nothing is. -/
theorem above (h : r.get (p ++ q) ≠ none) (some : q ≠ []) : dirAt r.entries p := by
  induction q using List.reverseRecOn with
  | nil => exact absurd rfl some
  | append_singleton front last ih =>
    have parent := r.closed _ h
    rw [← List.append_assoc, List.dropLast_concat] at parent
    by_cases nil : front = []
    · rwa [nil, List.append_nil] at parent
    · rcases parent with empty | ⟨e, found, -⟩
      · exact .inl (List.append_eq_nil_iff.mp empty).1
      · exact ih (by rw [get, found]; simp) nil

theorem top {n : Name} (h : r.get (n :: q) ≠ none) (some : q ≠ []) :
    ∃ e, r.get [n] = .some e ∧ e.node = .dir := by
  rcases above (p := [n]) h some with nil | there
  · cases nil
  · exact there

theorem below_childless (h : Childless r.entries p) (some : q ≠ []) : r.get (p ++ q) = none := by
  by_contra there
  cases q with
  | nil => exact some rfl
  | cons n q =>
    rw [List.append_cons] at there
    by_cases nil : q = []
    · rw [nil, List.append_nil] at there
      exact there (h n)
    · rcases above there nil with empty | ⟨e, found, -⟩
      · simp at empty
      · rw [h n] at found
        cases found

end Operations

/-! ## The creators -/

/-- The entries that one publisher made, or those from before. -/
def made (r : Root) (c : Option Nat) (p : Path) : Option Node :=
  ((r.get p).filter fun e => e.creator = c).map Entry.node

theorem made_some {r : Root} {c : Option Nat} {p : Path} {node : Node} :
    r.made c p = some node ↔ r.get p = some ⟨c, node⟩ := by
  unfold made
  cases r.get p with
  | none => simp
  | some e =>
    obtain ⟨c', node'⟩ := e
    by_cases same : c' = c
    · simp [Option.filter, same]
    · simp [Option.filter, same]

/-- Every entry has the creator of the top entry above it. -/
def Owned (r : Root) : Prop :=
  ∀ n q e t, r.get (n :: q) = some e → r.get [n] = some t → e.creator = t.creator

theorem Owned.of_top {r : Root} (h : r.Owned) {n : Name} {q : Path} {e : Entry} {c : Option Nat}
    {node : Node} (found : r.get (n :: q) = some e) (top : r.get [n] = some ⟨c, node⟩) :
    e.creator = c := h n q e _ found top

/-- What a step of a publisher does to the root: nothing, an entry of its own comes, or one goes. -/
inductive Changed (i : Nat) (r r' : Root) : Prop where
  | same (is : r' = r)
  | made (p : Path) (node : Node) (absent : r.get p = none)
      (get : ∀ q, r'.get q = if q = p then some ⟨some i, node⟩ else r.get q)
      (top : ∀ n, p = [n] → node = .dir → n = imagesName)
      (below : ∀ n q, p = n :: q → q ≠ [] → r.get [n] = some ⟨some i, .dir⟩)
  | gone (p : Path) (node : Node) (mine : r.get p = some ⟨some i, node⟩)
      (leaf : Childless r.entries p) (get : ∀ q, r'.get q = if q = p then none else r.get q)

section Changed

variable {i : Nat} {r r' : Root}

/-- The entries of the others are as they were. -/
theorem Changed.others (h : Changed i r r') {c : Option Nat} (other : c ≠ some i) :
    r'.made c = r.made c := by
  cases h with
  | same is => rw [is]
  | made p node absent get top below =>
    funext q
    unfold Root.made
    rw [get q]
    split
    · rename_i is
      rw [is, absent]
      simp [Option.filter, Ne.symm other]
    · rfl
  | gone p node mine leaf get =>
    funext q
    unfold Root.made
    rw [get q]
    split
    · rename_i is
      rw [is, mine]
      simp [Option.filter, Ne.symm other]
    · rfl

theorem Changed.owned (h : Changed i r r') (owned : r.Owned) : r'.Owned := by
  cases h with
  | same is => rwa [is]
  | made p node absent get top below =>
    intro n q e t found above
    rw [get] at found above
    by_cases is : n :: q = p
    · rw [if_pos is] at found
      cases found
      by_cases nil : q = []
      · rw [nil] at is
        rw [if_pos is] at above
        cases above
        rfl
      · have there := below n q is.symm nil
        rw [if_neg (by rw [← is]; simpa using Ne.symm nil), there] at above
        cases above
        rfl
    · rw [if_neg is] at found
      by_cases is' : [n] = p
      · -- Nothing is below a top entry that was absent.
        have some : q ≠ [] := fun nil => is (nil ▸ is')
        obtain ⟨e', there, -⟩ := r.top (by rw [found]; simp) some
        rw [is', absent] at there
        cases there
      · rw [if_neg is'] at above
        exact owned n q e t found above
  | gone p node mine leaf get =>
    intro n q e t found above
    rw [get] at found above
    split at found
    · cases found
    · split at above
      · cases above
      · exact owned n q e t found above

end Changed

/-- The entries of the publisher itself, when one comes. -/
theorem made_put {i : Nat} {r r' : Root} {p : Path} {node : Node}
    (get : ∀ q, r'.get q = if q = p then some ⟨some i, node⟩ else r.get q) (q : Path) :
    r'.made (some i) q = if q = p then some node else r.made (some i) q := by
  unfold made
  rw [get]
  split
  · simp [Option.filter]
  · rfl

theorem made_drop {i : Nat} {r r' : Root} {p : Path}
    (get : ∀ q, r'.get q = if q = p then none else r.get q) (q : Path) :
    r'.made (some i) q = if q = p then none else r.made (some i) q := by
  unfold made
  rw [get]
  split <;> rfl

theorem made_absent {r : Root} {c : Option Nat} {p : Path} (h : r.get p = none) :
    r.made c p = none := by
  unfold made
  rw [h]
  rfl

end Root

end Mineru.Render
