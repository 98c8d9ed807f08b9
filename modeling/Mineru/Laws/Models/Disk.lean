import Mineru.Models.Disk

/-!
# Laws of the disk

What each operation does to the tree, to the inodes and to `lookup`.

A path is looked up in the tree, or through a leaf above it such as a link to a directory, and a
file is an inode that more than one path may lead to. So an operation is described twice: in the
tree, by what is at each path, and in what the paths lead to. `lookup_congr` is the bridge, since it
says on which leaves a lookup depends.

Which of these operations a task may carry out is not said here.
-/

set_option autoImplicit false

namespace Mineru.Models.Disk

open Logic

variable {d d' : Disk} {p q : Path}

theorem leaf_eq_some {leaf : Leaf} : d.leaf p = some leaf ↔ d.tree.get p = some (.leaf leaf) := by
  unfold Disk.leaf
  cases d.tree.get p with
  | none => simp
  | some node => cases node <;> simp

theorem leaf_congr (same : d'.tree.get p = d.tree.get p) : d'.leaf p = d.leaf p := by
  unfold Disk.leaf
  rw [same]

theorem leaf_eq_none (h : ∀ leaf, d.tree.get p ≠ some (.leaf leaf)) : d.leaf p = none := by
  cases found : d.leaf p with
  | none => rfl
  | some leaf => exact absurd (leaf_eq_some.mp found) (h leaf)

/-! ## Looking up -/

/-- `lookup` reads the tree at the path and the leaves above it. -/
theorem lookup_congr (here : d'.tree.get p = d.tree.get p)
    (above : ∀ q ∈ p.dropLast.inits, d'.leaf q = d.leaf q) : d'.lookup p = d.lookup p := by
  have blocked : (p.dropLast.inits.any fun q => (d'.leaf q).any Leaf.blocks) =
      p.dropLast.inits.any fun q => (d.leaf q).any Leaf.blocks := by
    rw [Bool.eq_iff_iff, List.any_eq_true, List.any_eq_true]
    refine exists_congr fun q => and_congr_right fun mem => ?_
    rw [above q mem]
  unfold lookup
  rw [here, blocked, above _ ((List.mem_inits _ _).mpr (List.prefix_refl _))]

theorem lookup_file {inode : Nat} (there : d.tree.get p = some (.leaf (.file inode))) :
    d.lookup p = .ok (some (.file inode)) := by
  unfold lookup
  rw [there]

/-- A file is found at its path or behind a link. -/
theorem of_lookup_file {inode : Nat} (found : d.lookup p = .ok (some (.file inode))) :
    d.tree.get p = some (.leaf (.file inode)) ∨
      ∃ files, d.leaf p.dropLast = some (.link (.dir files)) ∧
        inode ∈ Leaf.inodes (.link (.dir files)) := by
  unfold lookup at found
  split at found
  · cases found
  · rename_i i there
    cases found
    exact .inl there
  · cases found
  · split at found
    · cases found
    · have found := Except.ok.inj found
      obtain ⟨parent, there, shows⟩ := Option.bind_eq_some_iff.mp found
      cases parent with
      | file i => cases shows
      | link target =>
        cases target with
        | nothing | file => cases shows
        | dir files =>
          obtain ⟨i, inside, same⟩ := Option.map_eq_some_iff.mp shows
          cases same
          obtain ⟨before, after, rfl, -⟩ := List.lookup_eq_some_iff.mp inside
          exact .inr ⟨_, there, by simp [Leaf.inodes]⟩

theorem lookup_file_lt {inode : Nat} (found : d.lookup p = .ok (some (.file inode))) :
    inode < d.next := by
  rcases of_lookup_file found with there | ⟨files, there, mem⟩
  · exact d.below p _ there inode (List.mem_singleton.mpr rfl)
  · exact d.below _ _ (leaf_eq_some.mp there) inode mem

/-! ## Operations -/

theorem get_createDir (made : d.createDir p = some d') (q : Path) :
    d'.tree.get q = if q = p then some .dir else d.tree.get q := by
  unfold createDir at made
  split at made
  · rename_i tree made'
    cases made
    exact FileTree.get_createDir made' q
  · cases made

theorem createDir_vacant (made : d.createDir p = some d') : d.tree.get p = none := by
  unfold createDir at made
  split at made
  · rename_i tree made'
    exact FileTree.createDir_vacant made'
  · cases made

theorem createDir_rest (made : d.createDir p = some d') :
    d'.content = d.content ∧ d'.next = d.next := by
  unfold createDir at made
  split at made
  · cases made
    exact ⟨rfl, rfl⟩
  · cases made

theorem get_createFile (made : d.createFile p = some d') (q : Path) :
    d'.tree.get q = if q = p then some (.leaf (.file d.next)) else d.tree.get q := by
  unfold createFile at made
  split at made
  · rename_i tree made'
    cases made
    exact FileTree.get_createLeaf made' q
  · cases made

theorem createFile_vacant (made : d.createFile p = some d') : d.tree.get p = none := by
  unfold createFile at made
  split at made
  · rename_i tree made'
    exact FileTree.createLeaf_vacant made'
  · cases made

theorem createFile_rest (made : d.createFile p = some d') :
    d'.content = Function.update d.content d.next [] ∧ d'.next = d.next + 1 := by
  unfold createFile at made
  split at made
  · cases made
    exact ⟨rfl, rfl⟩
  · cases made

theorem get_removeFile (made : d.removeFile p = some d') (q : Path) :
    d'.tree.get q = if q = p then none else d.tree.get q := by
  unfold removeFile at made
  split at made
  · rename_i tree made'
    cases made
    exact FileTree.get_removeLeaf made' q
  · cases made

theorem removeFile_rest (made : d.removeFile p = some d') :
    d'.content = d.content ∧ d'.next = d.next := by
  unfold removeFile at made
  split at made
  · cases made
    exact ⟨rfl, rfl⟩
  · cases made

theorem removeFile_isSome {leaf : Leaf} (there : d.tree.get p = some (.leaf leaf)) :
    ∃ d', d.removeFile p = some d' := by
  obtain ⟨tree, made⟩ := Option.isSome_iff_exists.mp (FileTree.removeLeaf_isSome there)
  unfold removeFile
  split
  · exact ⟨_, rfl⟩
  · rename_i none
    rw [made] at none
    cases none

theorem get_rename (made : d.rename p q = some d') (r : Path) :
    d'.tree.get r = if r = q then d.tree.get p else if r = p then none else d.tree.get r := by
  unfold rename at made
  split at made
  · rename_i tree made'
    cases made
    exact FileTree.get_rename made' r
  · cases made

theorem rename_rest (made : d.rename p q = some d') :
    d'.content = d.content ∧ d'.next = d.next := by
  unfold rename at made
  split at made
  · cases made
    exact ⟨rfl, rfl⟩
  · cases made

end Mineru.Models.Disk
