import Mathlib

/-!
# File trees

A finite tree of directories and leaves, as a finite map from paths to nodes. A path is a list of
names, and `[]` is the root. The structure carries what makes the map a tree: the root is a
directory, and so is the parent of every node. The operations are those of a file system, each
`none` where the operation fails: a directory or a leaf is made below a directory, a directory is
removed when it is empty, a leaf is removed or moved. Moving replaces a leaf at the destination, never a directory;
directories are not moved.
-/

set_option autoImplicit false

namespace Mineru.Logic

variable {N α : Type} [DecidableEq N]

inductive Node (α : Type) where
  | dir
  | leaf (a : α)
  deriving DecidableEq, Repr

def Node.isDir : Node α → Bool
  | .dir => true
  | .leaf _ => false

/-- A finite tree over names `N` with leaves in `α`. -/
structure FileTree (N α : Type) [DecidableEq N] where
  nodes : Finmap fun _ : List N => Node α
  root : nodes.lookup [] = some .dir
  closed : ∀ p, p ≠ [] → nodes.lookup p ≠ none → nodes.lookup p.dropLast = some .dir

namespace FileTree

def get (t : FileTree N α) (p : List N) : Option (Node α) := t.nodes.lookup p

def isDir (t : FileTree N α) (p : List N) : Bool := (t.get p).any Node.isDir

theorem isDir_iff {t : FileTree N α} {p : List N} : t.isDir p = true ↔ t.get p = some .dir := by
  unfold isDir
  cases t.get p with
  | none => simp
  | some n => cases n <;> simp [Node.isDir]

/-- A finite map whose paths all have their parents in it. -/
def ofNodes (nodes : Finmap fun _ : List N => Node α) (root : nodes.lookup [] = some .dir)
    (closed : ∀ p ∈ nodes.keys, p = [] ∨ nodes.lookup p.dropLast = some .dir) : FileTree N α where
  nodes := nodes
  root := root
  closed := fun p ne there =>
    (closed p (Finmap.mem_keys.mpr
      (Finmap.lookup_isSome.mp (Option.isSome_iff_ne_none.mpr there)))).resolve_left ne

theorem get_root (t : FileTree N α) : t.get [] = some .dir := t.root

/-- Every node lies in a directory. -/
theorem get_dropLast {t : FileTree N α} {p : List N} (ne : p ≠ []) (h : t.get p ≠ none) :
    t.get p.dropLast = some .dir :=
  t.closed p ne h

theorem get_of_concat {t : FileTree N α} {p : List N} {n : N} (h : t.get (p ++ [n]) ≠ none) :
    t.get p = some .dir := by
  have parent := get_dropLast (List.append_ne_nil_of_right_ne_nil p (by simp)) h
  rwa [List.dropLast_concat] at parent

/-- Every directory above a node is there. -/
theorem get_above {t : FileTree N α} {p : List N} (r : List N) (ne : r ≠ [])
    (h : t.get (p ++ r) ≠ none) : t.get p = some .dir := by
  induction r using List.reverseRecOn with
  | nil => exact absurd rfl ne
  | append_singleton r n ih =>
    rw [← List.append_assoc] at h
    have below := get_of_concat h
    cases r with
    | nil => rwa [List.append_nil] at below
    | cons m r => exact ih (List.cons_ne_nil m r) (by rw [below]; exact Option.some_ne_none _)

/-- Nothing lies below a path that is no directory. -/
theorem get_below {t : FileTree N α} {p r : List N} (h : t.get p ≠ some .dir) (ne : r ≠ []) :
    t.get (p ++ r) = none :=
  not_not.mp fun some_ => h (get_above r ne some_)

/-! ## Operations -/

/-- A new directory at `p`. -/
def createDir (t : FileTree N α) (p : List N) : Option (FileTree N α) :=
  if h : p ≠ [] ∧ t.isDir p.dropLast = true ∧ (t.get p).isNone = true then
    some
      { nodes := t.nodes.insert p .dir
        root := by rw [Finmap.lookup_insert_of_ne _ h.1.symm]; exact t.root
        closed := by
          intro q ne some_
          have keeps : ∀ q', t.nodes.lookup q' = some .dir →
              (t.nodes.insert p .dir).lookup q' = some .dir := by
            intro q' dir
            by_cases eq : q' = p
            · rw [eq, Finmap.lookup_insert]
            · rw [Finmap.lookup_insert_of_ne _ eq, dir]
          by_cases eq : q = p
          · rw [eq]
            exact keeps _ (isDir_iff.mp h.2.1)
          · rw [Finmap.lookup_insert_of_ne _ eq] at some_
            exact keeps _ (t.closed q ne some_) }
  else none

/-- A new leaf at `p`. -/
def createLeaf (t : FileTree N α) (p : List N) (a : α) : Option (FileTree N α) :=
  if h : p ≠ [] ∧ t.isDir p.dropLast = true ∧ (t.get p).isNone = true then
    some
      { nodes := t.nodes.insert p (.leaf a)
        root := by rw [Finmap.lookup_insert_of_ne _ h.1.symm]; exact t.root
        closed := by
          intro q ne some_
          have keeps : ∀ q', t.nodes.lookup q' = some .dir →
              (t.nodes.insert p (.leaf a)).lookup q' = some .dir := by
            intro q' dir
            have other : q' ≠ p := by
              rintro rfl
              rw [get, dir] at h
              cases h.2.2
            rw [Finmap.lookup_insert_of_ne _ other, dir]
          by_cases eq : q = p
          · rw [eq]
            exact keeps _ (isDir_iff.mp h.2.1)
          · rw [Finmap.lookup_insert_of_ne _ eq] at some_
            exact keeps _ (t.closed q ne some_) }
  else none

/-- Without the leaf at `p`. -/
def removeLeaf (t : FileTree N α) (p : List N) : Option (FileTree N α) :=
  if h : (t.get p).any (! ·.isDir) = true then
    some
      { nodes := t.nodes.erase p
        root := by
          have ne : [] ≠ p := by
            rintro rfl
            rw [get_root] at h
            cases h
          rw [Finmap.lookup_erase_ne ne]
          exact t.root
        closed := by
          intro q ne some_
          have other : q ≠ p := by
            rintro rfl
            exact some_ (Finmap.lookup_erase _ _)
          rw [Finmap.lookup_erase_ne other] at some_
          have parent := t.closed q ne some_
          have leaf : q.dropLast ≠ p := by
            rintro rfl
            rw [get, parent] at h
            cases h
          rw [Finmap.lookup_erase_ne leaf]
          exact parent }
  else none

/-- Nothing lies directly in `p`. -/
def childless (t : FileTree N α) (p : List N) : Bool :=
  decide (∀ q ∈ t.nodes.keys, q = [] ∨ q.dropLast ≠ p)

theorem childless_iff {t : FileTree N α} {p : List N} :
    t.childless p = true ↔ ∀ n, t.get (p ++ [n]) = none := by
  unfold childless
  rw [decide_eq_true_eq]
  constructor
  · intro h n
    refine not_not.mp fun some_ => ?_
    have mem : p ++ [n] ∈ t.nodes.keys :=
      Finmap.mem_keys.mpr (Finmap.lookup_isSome.mp (Option.isSome_iff_ne_none.mpr some_))
    rcases h _ mem with nil | other
    · exact absurd nil (by simp)
    · exact other (List.dropLast_concat ..)
  · intro h q mem
    refine or_iff_not_imp_left.mpr fun ne parent => ?_
    have some_ : t.get q ≠ none :=
      Option.isSome_iff_ne_none.mp (Finmap.lookup_isSome.mpr (Finmap.mem_keys.mp mem))
    refine some_ ?_
    rw [← List.dropLast_concat_getLast ne, parent]
    exact h _

/-- Without the empty directory at `p`. -/
def removeDir (t : FileTree N α) (p : List N) : Option (FileTree N α) :=
  if h : p ≠ [] ∧ t.isDir p = true ∧ t.childless p = true then
    some
      { nodes := t.nodes.erase p
        root := by rw [Finmap.lookup_erase_ne h.1.symm]; exact t.root
        closed := by
          intro q ne some_
          have other : q ≠ p := by
            rintro rfl
            exact some_ (Finmap.lookup_erase _ _)
          rw [Finmap.lookup_erase_ne other] at some_
          have parent : q.dropLast ≠ p := by
            intro eq
            refine some_ ?_
            rw [← List.dropLast_concat_getLast ne, eq]
            exact childless_iff.mp h.2.2 _
          rw [Finmap.lookup_erase_ne parent]
          exact t.closed q ne some_ }
  else none

/-- The leaf at `src` moved to `dst`, over a leaf that is there. -/
def rename (t : FileTree N α) (src dst : List N) : Option (FileTree N α) :=
  match found : t.get src with
  | some (.leaf a) =>
    if h : dst ≠ [] ∧ t.isDir dst.dropLast = true ∧ t.isDir dst = false then
      some
        { nodes := (t.nodes.erase src).insert dst (.leaf a)
          root := by
            have ne : [] ≠ src := by
              rintro rfl
              rw [get_root] at found
              cases found
            rw [Finmap.lookup_insert_of_ne _ h.1.symm, Finmap.lookup_erase_ne ne]
            exact t.root
          closed := by
            have keeps : ∀ q, t.nodes.lookup q = some .dir →
                ((t.nodes.erase src).insert dst (.leaf a)).lookup q = some .dir := by
              intro q dir
              have ne : q ≠ dst := by
                rintro rfl
                rw [isDir_iff.mpr dir] at h
                cases h.2.2
              have leaf : q ≠ src := by
                rintro rfl
                rw [get, dir] at found
                cases found
              rw [Finmap.lookup_insert_of_ne _ ne, Finmap.lookup_erase_ne leaf, dir]
            intro q ne some_
            by_cases eq : q = dst
            · rw [eq]
              exact keeps _ (isDir_iff.mp h.2.1)
            · rw [Finmap.lookup_insert_of_ne _ eq] at some_
              have other : q ≠ src := by
                rintro rfl
                exact some_ (Finmap.lookup_erase _ _)
              rw [Finmap.lookup_erase_ne other] at some_
              exact keeps _ (t.closed q ne some_) }
    else none
  | _ => none

/-! ## What an operation that succeeds does, and when it succeeds -/

theorem get_createDir {t t' : FileTree N α} {p : List N} (h : t.createDir p = some t')
    (q : List N) : t'.get q = if q = p then some .dir else t.get q := by
  unfold createDir at h
  split at h
  · cases h
    split
    · subst q
      exact Finmap.lookup_insert _
    · exact Finmap.lookup_insert_of_ne _ ‹_›
  · cases h

/-- A new directory leaves every node where it is. -/
theorem createDir_keeps {t t' : FileTree N α} {p q : List N} (h : t.createDir p = some t')
    (there : t.get q ≠ none) : t'.get q = t.get q := by
  have ne : q ≠ p := by
    rintro rfl
    unfold createDir at h
    split at h
    · rename_i ok
      exact there (Option.isNone_iff_eq_none.mp ok.2.2)
    · cases h
  rw [get_createDir h, if_neg ne]

theorem createDir_vacant {t t' : FileTree N α} {p : List N} (h : t.createDir p = some t') :
    t.get p = none := by
  unfold createDir at h
  split at h
  · rename_i ok
    exact Option.isNone_iff_eq_none.mp ok.2.2
  · cases h

theorem get_createLeaf {t t' : FileTree N α} {p : List N} {a : α}
    (h : t.createLeaf p a = some t') (q : List N) :
    t'.get q = if q = p then some (.leaf a) else t.get q := by
  unfold createLeaf at h
  split at h
  · cases h
    split
    · subst q
      exact Finmap.lookup_insert _
    · exact Finmap.lookup_insert_of_ne _ ‹_›
  · cases h

theorem createLeaf_vacant {t t' : FileTree N α} {p : List N} {a : α}
    (h : t.createLeaf p a = some t') : t.get p = none := by
  unfold createLeaf at h
  split at h
  · rename_i ok
    exact Option.isNone_iff_eq_none.mp ok.2.2
  · cases h

theorem get_removeLeaf {t t' : FileTree N α} {p : List N} (h : t.removeLeaf p = some t')
    (q : List N) : t'.get q = if q = p then none else t.get q := by
  unfold removeLeaf at h
  split at h
  · cases h
    split
    · subst q
      exact Finmap.lookup_erase _ _
    · exact Finmap.lookup_erase_ne ‹_›
  · cases h

theorem removeLeaf_isSome {t : FileTree N α} {p : List N} {a : α} (h : t.get p = some (.leaf a)) :
    (t.removeLeaf p).isSome = true := by
  unfold removeLeaf
  rw [dif_pos (by rw [h]; rfl)]
  rfl

theorem get_removeDir {t t' : FileTree N α} {p : List N} (h : t.removeDir p = some t')
    (q : List N) : t'.get q = if q = p then none else t.get q := by
  unfold removeDir at h
  split at h
  · cases h
    split
    · subst q
      exact Finmap.lookup_erase _ _
    · exact Finmap.lookup_erase_ne ‹_›
  · cases h

theorem removeDir_isSome {t : FileTree N α} {p : List N} (ne : p ≠ []) (dir : t.get p = some .dir)
    (empty : ∀ n, t.get (p ++ [n]) = none) : (t.removeDir p).isSome = true := by
  unfold removeDir
  rw [dif_pos ⟨ne, isDir_iff.mpr dir, childless_iff.mpr empty⟩]
  rfl

theorem get_rename {t t' : FileTree N α} {src dst : List N} (h : t.rename src dst = some t')
    (q : List N) : t'.get q = if q = dst then t.get src else if q = src then none else t.get q := by
  unfold rename at h
  split at h
  · rename_i a found
    split at h
    · cases h
      split
      · subst q
        exact (Finmap.lookup_insert _).trans found.symm
      · rename_i other
        refine (Finmap.lookup_insert_of_ne _ other).trans ?_
        split
        · subst q
          exact Finmap.lookup_erase _ _
        · exact Finmap.lookup_erase_ne ‹_›
    · cases h
  · cases h

theorem rename_leaf {t t' : FileTree N α} {src dst : List N} (h : t.rename src dst = some t') :
    ∃ a, t.get src = some (.leaf a) := by
  unfold rename at h
  split at h
  · rename_i a found
    exact ⟨a, found⟩
  · cases h

/-- Moving a leaf leaves the directories where they are. -/
theorem rename_dir {t t' : FileTree N α} {src dst q : List N} (h : t.rename src dst = some t')
    (dir : t.get q = some .dir) : t'.get q = some .dir := by
  have src_ne : q ≠ src := by
    rintro rfl
    obtain ⟨a, leaf⟩ := rename_leaf h
    rw [dir] at leaf
    cases leaf
  have dst_ne : q ≠ dst := by
    rintro rfl
    unfold rename at h
    split at h
    · split at h
      · rename_i free
        rw [isDir_iff.mpr dir] at free
        cases free.2.2
      · cases h
    · cases h
  rw [get_rename h, if_neg dst_ne, if_neg src_ne, dir]

theorem rename_isSome {t : FileTree N α} {src dst : List N} {a : α}
    (leaf : t.get src = some (.leaf a)) (ne : dst ≠ []) (parent : t.get dst.dropLast = some .dir)
    (free : t.get dst ≠ some .dir) : (t.rename src dst).isSome = true := by
  unfold rename
  split
  · rw [dif_pos ⟨ne, isDir_iff.mpr parent, Bool.eq_false_iff.mpr fun is => free (isDir_iff.mp is)⟩]
    rfl
  · rename_i other
    exact absurd leaf (other a)

end FileTree

end Mineru.Logic
