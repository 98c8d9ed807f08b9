import Mineru.Logic.Table
import Mineru.Logic.Transition
import Mineru.Text

/-!
# Publishing a render

`official_cli_publish.rs` prepares a render in a private stage below its root, and `commit` makes it
public by hard links: the sidecars into a directory `images` that it creates, then the main file. A
commit that fails removes the `images` that it owns.

The root is a tree of entries, each with the publisher that made it; no step reads the publisher. A
step of a publisher is one operation on a directory, and a `remove_dir_all` takes a step for each
entry. Any operation may fail without changing anything. A handle of a directory is the path that it
was opened at.
-/

set_option autoImplicit false

namespace Mineru.Render

open Logic

abbrev Name := Text

/-- The components of a path below the root. -/
abbrev Path := List Name

abbrev Bytes := List UInt8

inductive Node where
  | file (bytes : Bytes)
  | dir
  | symlink
  deriving DecidableEq, Repr

/-- An entry; what was there before any publisher has no creator. -/
structure Entry where
  creator : Option Nat
  node : Node
  deriving DecidableEq, Repr

/-! ## The root -/

def dirAt (entries : Table Path Entry) (p : Path) : Prop :=
  p = [] ∨ ∃ e, entries.get p = some e ∧ e.node = .dir

/-- A tree: what is there is in a directory. -/
structure Root where
  entries : Table Path Entry
  closed : ∀ p, entries.get p ≠ none → dirAt entries p.dropLast

namespace Root

def get (r : Root) (p : Path) : Option Entry := r.entries.get p

def isDir (r : Root) (p : Path) : Bool := p = [] || (r.get p).any fun e => e.node = .dir

def Childless (entries : Table Path Entry) (p : Path) : Prop :=
  ∀ n, entries.get (p ++ [n]) = none

/-- Whether a directory is empty, or the entry is no directory. -/
def childless (r : Root) (p : Path) : Bool :=
  r.entries.rows.all fun (q, _) => q = [] || q.dropLast ≠ p

theorem childless_iff {r : Root} {p : Path} : r.childless p = true ↔ Childless r.entries p := by
  unfold childless Childless
  simp only [List.all_eq_true, Bool.or_eq_true, decide_eq_true_eq, Prod.forall, Table.mem_rows]
  constructor
  · intro h n
    cases there : r.entries.get (p ++ [n]) with
    | none => rfl
    | some e => simpa using h _ _ there
  · intro h q e there
    rcases List.eq_nil_or_concat q with rfl | ⟨front, last, rfl⟩
    · exact .inl rfl
    · rw [List.concat_eq_append] at there ⊢
      right
      intro same
      rw [List.dropLast_concat] at same
      have none := h last
      rw [← same, there] at none
      cases none

/-- An entry comes into a directory, where no directory was. -/
def put (r : Root) (p : Path) (e : Entry) (parent : dirAt r.entries p.dropLast)
    (free : ¬ dirAt r.entries p) : Root where
  entries := r.entries.set p e
  closed q there := by
    have other : ∀ d, dirAt r.entries d → dirAt (r.entries.set p e) d := by
      intro d dir
      have ne : d ≠ p := fun same => free (same ▸ dir)
      rcases dir with rfl | ⟨e', found, dir⟩
      · exact .inl rfl
      · exact .inr ⟨e', by rw [Table.get_set, if_neg ne, found], dir⟩
    by_cases same : q = p
    · exact other _ (same ▸ parent)
    · rw [Table.get_set, if_neg same] at there
      exact other _ (r.closed q there)

/-- An entry that has nothing below goes. -/
def drop (r : Root) (p : Path) (leaf : Childless r.entries p) (ne : p ≠ []) : Root where
  entries := r.entries.remove p
  closed q there := by
    have gone : q ≠ p := by
      rintro rfl
      simp [Table.get_remove] at there
    rw [Table.get_remove, if_neg gone] at there
    rcases List.eq_nil_or_concat q with rfl | ⟨front, last, rfl⟩
    · exact .inl rfl
    · have ne' : front ≠ p := by
        rintro rfl
        rw [List.concat_eq_append] at there
        exact there (leaf last)
      rcases r.closed _ there with nil | ⟨e, found, dir⟩
      · exact .inl nil
      · refine .inr ⟨e, ?_, dir⟩
        simp only [List.dropLast_concat, List.concat_eq_append] at found ⊢
        rw [Table.get_remove, if_neg ne', found]

instance (entries : Table Path Entry) (p : Path) : Decidable (dirAt entries p) :=
  decidable_of_iff (p = [] ∨ (entries.get p).any (fun e => e.node = .dir) = true) (by
    unfold dirAt
    cases entries.get p <;> simp)

instance (r : Root) (p : Path) : Decidable (Childless r.entries p) :=
  decidable_of_iff _ childless_iff

/-- `create_dir`. -/
def createDir (r : Root) (i : Nat) (p : Path) : Option Root :=
  if h : dirAt r.entries p.dropLast ∧ r.entries.get p = none ∧ ¬ dirAt r.entries p then
    some (r.put p ⟨some i, .dir⟩ h.1 h.2.2)
  else none

/-- `hard_link`. -/
def hardLink (r : Root) (i : Nat) (src dst : Path) : Option Root :=
  match r.get src with
  | some ⟨_, .file bytes⟩ =>
    if h : dirAt r.entries dst.dropLast ∧ r.entries.get dst = none ∧ ¬ dirAt r.entries dst then
      some (r.put dst ⟨some i, .file bytes⟩ h.1 h.2.2)
    else none
  | _ => none

/-- `create` and `write_all`. -/
def writeFile (r : Root) (i : Nat) (p : Path) (bytes : Bytes) : Option Root :=
  if h : dirAt r.entries p.dropLast ∧ ¬ dirAt r.entries p then
    some (r.put p ⟨some i, .file bytes⟩ h.1 h.2)
  else none

/-- One step of `remove_dir_all`: an entry of the tree at `name` that has nothing below. -/
def unlink (r : Root) (name : Name) (p : Path) : Option Root :=
  if h : (dirAt r.entries [name] ∧ p.head? = some name ∧ r.entries.get p ≠ none) ∧
      Childless r.entries p ∧ p ≠ [] then
    some (r.drop p h.2.1 h.2.2)
  else none

end Root

/-! ## Preparing -/

inductive Component where
  | rootDir
  | curDir
  | parentDir
  | normal (name : Name)
  deriving DecidableEq, Repr

/-- A part of a path that is not its first one: none when it is empty or `.`. -/
def component (part : Text) : Option Component :=
  if part = [] ∨ part = text "." then none
  else if part = text ".." then some .parentDir
  else some (.normal part)

/-- `Path::components`. -/
def components (path : Text) : List Component :=
  match path.splitOn '/' with
  | [] => []
  | first :: rest =>
    let leading :=
      if first = [] then if rest = [] then [] else [.rootDir]
      else if first = text "." then [.curDir]
      else (component first).toList
    leading ++ rest.filterMap component

def imagesName : Name := text "images"

/-- The names of components that are all normal. -/
def normals : List Component → Option Path
  | [] => some []
  | .normal name :: rest => (normals rest).map (name :: ·)
  | _ :: _ => none

/-- A relative path of two normal components or more, the first one `images`. -/
def sidecarPath (key : Text) : Option Path :=
  (normals (components key)).filter fun rel => 2 ≤ rel.length ∧ rel.head? = some imagesName

/-- `ancestors` without the path itself and the empty one. -/
def ancestors (rel : Path) : List Path := rel.inits.filter fun p => p ≠ [] ∧ p ≠ rel

/-- The checks of one key of the sidecars. -/
def checkSidecar (paths : List (List Component)) (key : Text) : Except String Path :=
  match sidecarPath key with
  | none => .error "unsafe rendered sidecar path"
  | some rel =>
    if (ancestors rel).any fun p => p.map Component.normal ∈ paths then
      .error "overlapping rendered sidecar paths"
    else .ok rel

def absent (root : Root) (name : Name) (message : String) : Except String Unit :=
  if (root.get [name]).isNone then .ok () else .error message

/-- A render as it is asked for: the last name of its path, its bytes and its sidecars. -/
structure Request where
  fileName : Option Name
  main : Bytes
  sidecars : List (Text × Bytes)

/-- The checks of `prepare_render`: the name of the target and the paths of the sidecars. -/
def accept (root : Root) (request : Request) : Except String (Name × List (Path × Bytes)) := do
  let some target := request.fileName | throw "output needs a filename"
  let keys := request.sidecars.map Prod.fst
  let assets ← request.sidecars.mapM fun (key, bytes) =>
    (checkSidecar (keys.map components) key).map fun rel => (rel, bytes)
  if target = imagesName then throw "render output overlaps a sidecar path"
  absent root target "render output already exists"
  if assets ≠ [] then absent root imagesName "render sidecar destination already exists"
  return (target, assets)

def renderedName : Name := text "rendered"

/-- A directory of the stage is created when nothing is there. -/
def Root.ensureDir (root : Root) (i : Nat) (p : Path) : Option Root :=
  if (root.get p).isNone then root.createDir i p else some root

/-- `write_staged`. -/
def writeStaged (root : Root) (i : Nat) (dir : Path) : Path → Bytes → Option Root
  | [], _ => some root
  | [name], bytes => root.writeFile i (dir ++ [name]) bytes
  | name :: rest, bytes => do
    let root' ← root.ensureDir i (dir ++ [name])
    if root'.isDir (dir ++ [name]) then writeStaged root' i (dir ++ [name]) rest bytes else none

/-- The stage with everything in it; `none` when an operation fails, and the stage is removed. -/
def stageRender (root : Root) (i : Nat) (name : Name) (main : Bytes)
    (assets : List (Path × Bytes)) : Option Root := do
  let staged ← root.createDir i [name]
  let written ← staged.writeFile i [name, renderedName] main
  assets.foldlM (fun root (path, bytes) => writeStaged root i [name] path bytes) written

/-- `PreparedRender`, with the bytes that it was prepared from. -/
structure PreparedRender where
  target : Name
  name : Name
  main : Bytes
  sidecars : List (Path × Bytes)
  deriving DecidableEq, Repr

def PreparedRender.assets (pub : PreparedRender) : List Path := pub.sidecars.map Prod.fst

def stageName (pid id : Nat) : Name :=
  text ".mineru-render-" ++ text (toString pid) ++ '-' :: text (toString id)

/-- What the calls of `prepare_render` of one process share: the root and `STAGE_ID`. -/
structure Prep where
  root : Root
  stageId : Nat
  prepared : List PreparedRender

/-- `prepare_render`: an error leaves no value, and its message is not looked at again. -/
def prepareRender (pid : Nat) (s : Prep) (request : Request) : Prep :=
  match accept s.root request with
  | .error _ => s
  | .ok (target, sidecars) =>
    let name := stageName pid s.stageId
    match stageRender s.root s.prepared.length name request.main sidecars with
    | none => { s with stageId := s.stageId + 1 }
    | some root =>
      ⟨root, s.stageId + 1, s.prepared ++ [⟨target, name, request.main, sidecars⟩]⟩

/-! ## Commit and drop -/

/-- Where the loops of `commit` are: the part of an asset's path that is next in the opened
`parent`, the parts after it, and the assets after it. -/
structure Cursor where
  path : Path
  parent : Path
  part : Name
  parts : List Name
  rest : List Path
  deriving DecidableEq, Repr

/-- The next operation of a publisher, and what `commit` returned. -/
inductive Ctl where
  | createImages
  | openImages
  /-- Look the next part up, or link the file when it is the last one. -/
  | part (c : Cursor)
  | createPart (c : Cursor)
  | openPart (c : Cursor)
  | linkTarget
  /-- The removal of the stage in `commit`. -/
  | removeStage
  | dropImages
  | dropStage (ok : Bool)
  | done (ok : Bool)
  deriving DecidableEq, Repr

/-- A publisher; `removalFailed` tells of the removal of its `images` and of the one in `commit`. -/
structure Publisher where
  ctl : Ctl
  ownsImages : Bool
  removalFailed : Bool
  deriving DecidableEq, Repr

def nextAsset : List Path → Ctl
  | [] => .linkTarget
  | path :: rest => match path.tail with
    | [] => nextAsset rest
    | part :: parts => .part ⟨path, [imagesName], part, parts, rest⟩

def Publisher.start (pub : PreparedRender) : Publisher :=
  ⟨if pub.assets = [] then .linkTarget else .createImages, false, false⟩

inductive Move where
  | go
  | fail
  | unlink (p : Path)
  deriving DecidableEq, Repr

/-- `commit` returns an error, and the value is dropped. -/
def Publisher.error (l : Publisher) : Publisher :=
  { l with ctl := if l.ownsImages then .dropImages else .dropStage false }

/-- The operation that is next fails. -/
def Publisher.fail (l : Publisher) : Option Publisher :=
  match l.ctl with
  | .part c => match c.parts with
    | [] => some l.error
    | _ :: _ => some { l with ctl := .createPart c }
  | .removeStage => some { l with ctl := .dropStage false, removalFailed := true }
  | .dropImages => some { l with ctl := .dropStage false, removalFailed := true }
  | .dropStage ok => some { l with ctl := .done ok }
  | .done _ => none
  | _ => some l.error

/-- What `commit` returned, when it did. -/
def Publisher.returned (l : Publisher) : Option Bool :=
  match l.ctl with
  | .dropImages => some false
  | .dropStage ok => some ok
  | .done ok => some ok
  | _ => none

namespace PreparedRender

variable (pub : PreparedRender) (i : Nat) (root : Root) (l : Publisher)

/-- The operation that is next succeeds. -/
def go : Option (Root × Publisher) :=
  match l.ctl with
  | .createImages => do
    let root' ← root.createDir i [imagesName]
    some (root', { l with ctl := .openImages, ownsImages := true })
  | .openImages =>
    if root.isDir [imagesName] then some (root, { l with ctl := nextAsset pub.assets }) else none
  | .part c => match c.parts with
    | [] => do
      let root' ← root.hardLink i (pub.name :: c.path) (c.parent ++ [c.part])
      some (root', { l with ctl := nextAsset c.rest })
    | _ :: _ =>
      let ctl := if (root.get (c.parent ++ [c.part])).isNone then .createPart c else .openPart c
      some (root, { l with ctl })
  | .createPart c => do
    let root' ← root.createDir i (c.parent ++ [c.part])
    some (root', { l with ctl := .openPart c })
  | .openPart c =>
    if root.isDir (c.parent ++ [c.part]) then match c.parts with
      | [] => none
      | part :: parts =>
        some (root, { l with ctl := .part { c with parent := c.parent ++ [c.part], part, parts } })
    else none
  | .linkTarget => do
    let root' ← root.hardLink i [pub.name, renderedName] [pub.target]
    some (root', { l with ctl := .removeStage, ownsImages := false })
  | _ => none

/-- One entry goes in a `remove_dir_all`; its root is the last one. -/
def unlink (p : Path) : Option (Root × Publisher) :=
  match l.ctl with
  | .removeStage => do
    let root' ← root.unlink pub.name p
    some (root', { l with ctl := if p = [pub.name] then .dropStage true else .removeStage })
  | .dropImages => do
    let root' ← root.unlink imagesName p
    some (root', { l with ctl := if p = [imagesName] then .dropStage false else .dropImages })
  | .dropStage ok => do
    let root' ← root.unlink pub.name p
    some (root', { l with ctl := if p = [pub.name] then .done ok else .dropStage ok })
  | _ => none

def act : Move → Option (Root × Publisher)
  | .go => pub.go i root l
  | .fail => l.fail.map fun l' => (root, l')
  | .unlink p => pub.unlink root l p

end PreparedRender

/-- The root and the publishers. -/
structure State where
  root : Root
  publishers : Nat → Publisher

def State.step (pubs : List PreparedRender) (s : State) : Nat × Move → Option State
  | (i, move) => do
    let pub ← pubs[i]?
    let (root, publisher) ← pub.act i s.root (s.publishers i) move
    some ⟨root, Function.update s.publishers i publisher⟩

/-- The publishers before their commits. -/
def State.start (s : Prep) : State where
  root := s.root
  publishers i := match s.prepared[i]? with
    | some pub => .start pub
    | none => ⟨.done false, false, false⟩

def machine (s : Prep) : Machine State (Nat × Move) Unit where
  start := .start s
  step t a := (t.step s.prepared a).map fun u => (u, ())

/-- A tree that was there before any publisher. -/
def Root.before (r : Root) : Root where
  entries := r.entries.map fun e => ⟨none, e.node⟩
  closed p there := by
    have found : r.entries.get p ≠ none := by
      intro none
      simp [Table.get_map, none] at there
    rcases r.closed p found with nil | ⟨e, there, dir⟩
    · exact .inl nil
    · exact .inr ⟨⟨none, e.node⟩, by rw [Table.get_map, there]; rfl, dir⟩

/-- Renders are prepared one after another. -/
def prepareAll (pid stageId : Nat) (before : Root) (requests : List Request) : Prep :=
  requests.foldl (prepareRender pid) ⟨before.before, stageId, []⟩

end Mineru.Render
