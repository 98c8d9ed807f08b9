import Mineru.Logic.FileTree
import Mineru.Text

/-!
# The disk below a model cache

A `Disk` is a file tree whose files are numbers of inodes, and what stands in each inode. A name may
be replaced while a file is read: the open file is the inode, which keeps its content.

A symbolic link is only ever looked through at the parent of the path that is asked for, and shows
the files of the directory that it leads to. Links further up do not occur.
-/

set_option autoImplicit false

namespace Mineru.Models

open Logic

abbrev Bytes := List UInt8

abbrev Path := List Text

/-- What a symbolic link leads to; a directory shows its files. -/
inductive Target where
  | nothing
  | file
  | dir (files : List (Text × Nat))
  deriving DecidableEq, Repr

inductive Leaf where
  | file (inode : Nat)
  | link (target : Target)
  deriving DecidableEq, Repr

/-- The inodes that can be opened at a leaf or through it. -/
def Leaf.inodes : Leaf → List Nat
  | .file inode => [inode]
  | .link (.dir files) => files.map Prod.snd
  | .link .nothing | .link .file => []

/-- A path through this leaf is an error other than `NotFound`. -/
def Leaf.blocks : Leaf → Bool
  | .file _ | .link .file => true
  | .link .nothing | .link (.dir _) => false

/-- A tree of files; the inodes from `next` on are free. -/
structure Disk where
  tree : FileTree Text Leaf
  content : Nat → Bytes
  next : Nat
  below : ∀ p leaf, tree.get p = some (.leaf leaf) → ∀ i ∈ leaf.inodes, i < next

/-- What stands at a path. -/
inductive Entry where
  | dir
  | link
  | file (inode : Nat)
  deriving DecidableEq, Repr

namespace Disk

def leaf (d : Disk) (p : Path) : Option Leaf :=
  match d.tree.get p with
  | some (.leaf leaf) => some leaf
  | some .dir | none => none

/-- What a link shows at a name. -/
def shown : Leaf → Text → Option Entry
  | .link (.dir files), name => (files.lookup name).map .file
  | .link .nothing, _ | .link .file, _ | .file _, _ => none

/-- `symlink_metadata`: `.ok none` is `NotFound`. -/
def lookup (d : Disk) (p : Path) : Except Unit (Option Entry) :=
  match d.tree.get p with
  | some .dir => .ok (some .dir)
  | some (.leaf (.file inode)) => .ok (some (.file inode))
  | some (.leaf (.link _)) => .ok (some .link)
  | none =>
    if p.dropLast.inits.any fun q => (d.leaf q).any Leaf.blocks then .error ()
    else .ok ((d.leaf p.dropLast).bind fun parent => shown parent (p.getLast?.getD []))

/-- `Path::is_dir`, which follows a link. -/
def isDir (d : Disk) (p : Path) : Bool :=
  match d.tree.get p with
  | some .dir | some (.leaf (.link (.dir _))) => true
  | _ => false

/-! ## Operations -/

def createDir (d : Disk) (p : Path) : Option Disk :=
  match made : d.tree.createDir p with
  | some tree => some
    { d with
      tree := tree
      below := by
        intro q leaf there
        rw [FileTree.get_createDir made] at there
        split at there
        · cases there
        · exact d.below q leaf there }
  | none => none

/-- A new empty file. -/
def createFile (d : Disk) (p : Path) : Option Disk :=
  match made : d.tree.createLeaf p (.file d.next) with
  | some tree => some
    { tree := tree
      content := Function.update d.content d.next []
      next := d.next + 1
      below := by
        intro q leaf there i mem
        rw [FileTree.get_createLeaf made] at there
        split at there
        · cases there
          exact Nat.lt_succ_of_le (List.mem_singleton.mp mem).le
        · exact Nat.lt_succ_of_lt (d.below q leaf there i mem) }
  | none => none

def removeFile (d : Disk) (p : Path) : Option Disk :=
  match made : d.tree.removeLeaf p with
  | some tree => some
    { d with
      tree := tree
      below := by
        intro q leaf there
        rw [FileTree.get_removeLeaf made] at there
        split at there
        · cases there
        · exact d.below q leaf there }
  | none => none

def rename (d : Disk) (src dst : Path) : Option Disk :=
  match made : d.tree.rename src dst with
  | some tree => some
    { d with
      tree := tree
      below := by
        intro q leaf there
        rw [FileTree.get_rename made] at there
        split at there
        · exact d.below src leaf there
        · split at there
          · cases there
          · exact d.below q leaf there }
  | none => none

/-- More bytes at the end of an inode. -/
def append (d : Disk) (inode : Nat) (bytes : Bytes) : Disk :=
  { d with content := Function.update d.content inode (d.content inode ++ bytes) }

end Disk

end Mineru.Models
