import Mineru.Laws.Models.Disk
import Mineru.Models.Cache

/-!
# Laws of the model cache

`Effect` says what one step of a task may do to the disk, and `Own` what a task can rely on,
whatever the others do: its temporary file, the prefix of an open file that it has read, the
artifacts that it has found. `Sound` is what holds of the disk: every path is as at the start, a new
directory above an artifact, a temporary file, or an artifact with the bytes of the manifest.

These are the rely and guarantee of a task. `Effect.sound` and `Effect.verified` say that a step
within its guarantee keeps the disk sound and verified artifacts in place; `Own.other` that it takes
nothing from another task. Which step has which effect is shown for each call in its own module.

Paths are told apart by their lengths and names: an artifact is five names below the root, and so is
a temporary file, with another name.
-/

set_option autoImplicit false

namespace Mineru.Models

open Logic

variable {w : World} {d₀ d d' : Disk} {t t' : Task}

/-! ## Paths -/

theorem artifactDir_length (root : Path) (hash : Text) :
    (artifactDir root hash).length = root.length + 4 := by
  simp [artifactDir]

theorem destination_eq (w : World) (slot : Slot) :
    w.destination slot = w.parent slot ++ [fileName slot.artifact.path] := rfl

theorem destination_length (w : World) (slot : Slot) :
    (w.destination slot).length = w.root.length + 5 := by
  rw [destination_eq, List.length_append, World.parent, artifactDir_length]
  rfl

theorem tempPath_length (w : World) (t : Task) (temp : Temp) :
    (t.tempPath w temp).length = w.root.length + 5 := by
  rw [Task.tempPath, List.length_append, World.parent, artifactDir_length]
  rfl

theorem destination_dropLast (w : World) (slot : Slot) :
    (w.destination slot).dropLast = w.parent slot := by
  rw [destination_eq, List.dropLast_concat]

theorem length_of_mem_inits {p : Path} {slot : Slot} (mem : p ∈ (w.parent slot).inits) :
    p.length ≤ w.root.length + 4 := by
  have le := ((List.mem_inits _ _).mp mem).length_le
  rwa [World.parent, artifactDir_length] at le

theorem fileName_layout : fileName Slot.layout.artifact.path = text "inference.onnx" := by
  decide

theorem fileName_layoutConfig :
    fileName Slot.layoutConfig.artifact.path = text "inference.yml" := by
  decide

/-- No temporary file has the name of an artifact. -/
theorem tempName_ne (temp : Temp) (slot : Slot) : temp.name ≠ fileName slot.artifact.path := by
  intro same
  have first : some '.' = (fileName slot.artifact.path).head? := congrArg List.head? same
  cases slot with
  | layout =>
    rw [fileName_layout] at first
    exact absurd first (by decide)
  | layoutConfig =>
    rw [fileName_layoutConfig] at first
    exact absurd first (by decide)

/-- A temporary file is never at the place of an artifact. -/
theorem tempPath_ne (t : Task) (temp : Temp) (slot : Slot) :
    t.tempPath w temp ≠ w.destination slot := by
  intro same
  exact tempName_ne temp slot
    (List.singleton_inj.mp (List.append_inj' same rfl).2)

/-- The two artifacts have two places. -/
theorem destination_injective {slot slot' : Slot} (same : w.destination slot = w.destination slot') :
    slot = slot' := by
  have names := List.singleton_inj.mp (List.append_inj' same rfl).2
  cases slot with
  | layout =>
    cases slot' with
    | layout => rfl
    | layoutConfig =>
      rw [fileName_layout, fileName_layoutConfig] at names
      exact absurd names (by decide)
  | layoutConfig =>
    cases slot' with
    | layout =>
      rw [fileName_layout, fileName_layoutConfig] at names
      exact absurd names (by decide)
    | layoutConfig => rfl

/-! ## What a step does to the disk -/

/-- What one step of a task may do to the disk. -/
inductive Effect (w : World) (d : Disk) (t : Task) : Disk → Prop where
  | same : Effect w d t d
  | createDir {p : Path} {d' : Disk} (mem : p ∈ (w.parent t.slot).inits)
      (made : d.createDir p = some d') : Effect w d t d'
  | createTemp {suffix : Text} {d' : Disk}
      (made : d.createFile (t.tempPath w ⟨suffix, d.next⟩) = some d') : Effect w d t d'
  | append {temp : Temp} {size : Nat} {chunk : Bytes} (pc : t.pc = .receive temp size)
      (fits : size + chunk.length ≤ t.slot.artifact.size) : Effect w d t (d.append temp.inode chunk)
  | dropTemp {temp : Temp} {d' : Disk} (held : t.pc.temp = some temp)
      (made : d.removeFile (t.tempPath w temp) = some d') : Effect w d t d'
  | persist {temp : Temp} {d' : Disk} (pc : t.pc = .persist temp)
      (made : d.rename (t.tempPath w temp) (w.destination t.slot) = some d') : Effect w d t d'

/-- To remove one's own temporary file is within the guarantee. -/
theorem Task.dropTemp_effect (w : World) (d : Disk) (t : Task) : Effect w d t (t.dropTemp w d) := by
  unfold Task.dropTemp
  split
  · rename_i temp held
    cases made : d.removeFile (t.tempPath w temp) with
    | none => exact .same
    | some d' => exact .dropTemp held made
  · exact .same

/-! ## Invariants -/

/-- The artifact is at its path, with the bytes of the manifest. -/
def Verified (w : World) (d : Disk) (slot : Slot) : Prop :=
  ∃ inode, d.lookup (w.destination slot) = .ok (some (.file inode)) ∧
    w.genuine slot (d.content inode) = true

/-- What stands at a path, compared to the start. -/
inductive Origin (w : World) (d₀ d : Disk) (p : Path) : Prop where
  | kept (same : d.tree.get p = d₀.tree.get p)
  | created (slot : Slot) (mem : p ∈ (w.parent slot).inits) (vacant : d₀.tree.get p = none)
      (there : d.tree.get p = some .dir)
  | temp (slot : Slot) (temp : Temp) (path : p = w.parent slot ++ [temp.name])
      (vacant : d₀.tree.get p = none) (there : d.tree.get p = some (.leaf (.file temp.inode)))
      (fits : (d.content temp.inode).length ≤ slot.artifact.size)
  | placed (slot : Slot) (inode : Nat) (path : p = w.destination slot)
      (there : d.tree.get p = some (.leaf (.file inode)))
      (genuine : w.genuine slot (d.content inode) = true)

/-- What holds of the disk in every reachable state; `d₀` is the disk at the start. -/
structure Sound (w : World) (d₀ d : Disk) : Prop where
  grows : d₀.next ≤ d.next
  kept : ∀ i, i < d₀.next → d.content i = d₀.content i
  origin : ∀ p, Origin w d₀ d p
  single : ∀ p q i, d₀.next ≤ i → d.tree.get p = some (.leaf (.file i)) →
    d.tree.get q = some (.leaf (.file i)) → p = q

/-- The temporary file of a task is at its path. -/
structure Held (w : World) (d₀ d : Disk) (slot : Slot) (temp : Temp) : Prop where
  there : d.tree.get (w.parent slot ++ [temp.name]) = some (.leaf (.file temp.inode))
  new : d₀.next ≤ temp.inode

def CheckOk (w : World) (d₀ d : Disk) (slot : Slot) : Check → Prop
  | .downloaded temp => Held w d₀ d slot temp
  | .winner temp => Held w d₀ d slot temp ∧ w.genuine slot (d.content temp.inode) = true
  | .present | .placed | .verify => True

/-- The file that is read is the one that is checked, or an artifact that is there has replaced it. -/
def Reads (w : World) (d : Disk) (slot : Slot) (inode : Nat) : Check → Prop
  | .downloaded temp => inode = temp.inode
  | .present | .winner _ | .placed | .verify =>
    d.lookup (w.destination slot) = .ok (some (.file inode)) ∨ Verified w d slot

/-- What a task can rely on at a call. -/
def PcOk (w : World) (d₀ d : Disk) (slot : Slot) : Pc → Prop
  | .stat check | .openFile check => CheckOk w d₀ d slot check
  | .read check inode taken => CheckOk w d₀ d slot check ∧ inode < d.next ∧
      taken = (d.content inode).take taken.length ∧ taken.length ≤ slot.artifact.size + 1 ∧
      Reads w d slot inode check
  | .createDirs todo => ∀ p ∈ todo, p ∈ (w.parent slot).inits
  | .statParent | .newTemp | .ended => True
  | .send temp _ redirects | .answer temp _ redirects =>
    Held w d₀ d slot temp ∧ d.content temp.inode = [] ∧ redirects ≤ maxRedirects
  | .reopen temp => Held w d₀ d slot temp ∧ d.content temp.inode = []
  | .receive temp size => Held w d₀ d slot temp ∧ (d.content temp.inode).length = size
  | .sync temp => Held w d₀ d slot temp
  | .persist temp => Held w d₀ d slot temp ∧ w.genuine slot (d.content temp.inode) = true
  | .killed left => ∀ temp ∈ left, Held w d₀ d slot temp

/-- The calls of a task that is not to touch anything. -/
def Task.calm (t : Task) : Bool :=
  match t.pc with
  | .stat .verify | .openFile .verify | .read .verify _ _ => true
  | .stat .present | .openFile .present | .read .present _ _ => t.policy = .offline
  | .ended | .killed none => true
  | _ => false

/-- The task is offline, or only verifies. -/
def Task.passive (t : Task) : Bool := t.policy = .offline || t.kind = .verify

structure Own (w : World) (d₀ d : Disk) (t : Task) : Prop where
  pc : PcOk w d₀ d t.slot t.pc
  done : ∀ slot, slot ≠ t.slot → slot ∉ t.rest → Verified w d slot
  calm : t.passive = true → t.calm = true

/-- No task has the temporary file of another, or reads it. -/
structure Apart (t u : Task) : Prop where
  temps : ∀ a b, t.pc.temp = some a → u.pc.temp = some b → a.inode ≠ b.inode
  reads : ∀ check inode taken b, t.pc = .read check inode taken → u.pc.temp = some b →
    inode ≠ b.inode
  read : ∀ check inode taken a, u.pc = .read check inode taken → t.pc.temp = some a →
    inode ≠ a.inode

theorem Apart.symm {u : Task} (h : Apart t u) : Apart u t where
  temps a b ha hb := Ne.symm (h.temps b a hb ha)
  reads := h.read
  read := h.reads

/-- The temporary file of a task is at its path, at every call. -/
theorem PcOk.held {slot : Slot} {pc : Pc} (ok : PcOk w d₀ d slot pc) {temp : Temp}
    (has : pc.temp = some temp) : Held w d₀ d slot temp := by
  have ofCheck : ∀ {check : Check}, CheckOk w d₀ d slot check → check.temp = some temp →
      Held w d₀ d slot temp := by
    intro check ok has
    cases check <;> simp only [Check.temp, Option.some.injEq, reduceCtorEq] at has
    · exact has ▸ ok
    · exact has ▸ ok.1
  cases pc <;> simp only [Pc.temp, Option.some.injEq, reduceCtorEq] at has
  case stat => exact ofCheck ok has
  case openFile => exact ofCheck ok has
  case read => exact ofCheck ok.1 has
  case killed => exact ok temp has
  all_goals subst has
  case sync => exact ok
  all_goals exact ok.1

theorem Own.held (own : Own w d₀ d t) {temp : Temp} (has : t.pc.temp = some temp) :
    Held w d₀ d t.slot temp :=
  own.pc.held has

/-- A temporary file is older than any that is still to be created. -/
theorem Held.lt {slot : Slot} {temp : Temp} (held : Held w d₀ d slot temp) :
    temp.inode < d.next :=
  d.below _ _ held.there _ (List.mem_singleton.mpr rfl)

/-! ## What an effect leaves alone -/

/-- The tree changes at the path of an artifact or of a temporary file, or where a directory is new. -/
theorem Effect.leaf_above (effect : Effect w d t d') {p : Path}
    (short : p.length ≤ w.root.length + 4) : d'.leaf p = d.leaf p := by
  cases effect with
  | same | append => rfl
  | @createDir q _ mem made =>
    by_cases same : p = q
    · subst same
      have vacant := Disk.createDir_vacant made
      have dir := Disk.get_createDir made p
      rw [if_pos rfl] at dir
      rw [Disk.leaf_eq_none fun leaf => by rw [dir]; simp,
        Disk.leaf_eq_none fun leaf => by rw [vacant]; simp]
    · refine Disk.leaf_congr ?_
      rw [Disk.get_createDir made, if_neg same]
  | @createTemp suffix _ made =>
    refine Disk.leaf_congr ?_
    rw [Disk.get_createFile made, if_neg]
    rintro rfl
    rw [tempPath_length] at short
    omega
  | @dropTemp temp _ held made =>
    refine Disk.leaf_congr ?_
    rw [Disk.get_removeFile made, if_neg]
    rintro rfl
    rw [tempPath_length] at short
    omega
  | @persist temp _ pc made =>
    refine Disk.leaf_congr ?_
    rw [Disk.get_rename made, if_neg, if_neg]
    · rintro rfl
      rw [tempPath_length] at short
      omega
    · rintro rfl
      rw [destination_length] at short
      omega

/-- What stands at an artifact changes when a temporary file is moved there. -/
theorem Effect.lookup_destination (effect : Effect w d t d') (slot : Slot) :
    d'.lookup (w.destination slot) = d.lookup (w.destination slot) ∨
      slot = t.slot ∧ ∃ temp, t.pc = .persist temp ∧
        d'.tree.get (w.destination slot) = d.tree.get (t.tempPath w temp) ∧
        d'.content = d.content := by
  have above : ∀ q ∈ (w.destination slot).dropLast.inits, d'.leaf q = d.leaf q := by
    intro q mem
    rw [destination_dropLast] at mem
    exact effect.leaf_above (length_of_mem_inits mem)
  cases effect with
  | same | append => exact .inl rfl
  | @createDir q _ mem made =>
    refine .inl (Disk.lookup_congr ?_ above)
    rw [Disk.get_createDir made, if_neg]
    intro same
    have short := length_of_mem_inits mem
    rw [← same, destination_length] at short
    omega
  | createTemp made =>
    refine .inl (Disk.lookup_congr ?_ above)
    rw [Disk.get_createFile made, if_neg (tempPath_ne t _ slot).symm]
  | dropTemp held made =>
    refine .inl (Disk.lookup_congr ?_ above)
    rw [Disk.get_removeFile made, if_neg (tempPath_ne t _ slot).symm]
  | @persist temp _ pc made =>
    have get := Disk.get_rename made (w.destination slot)
    by_cases own : slot = t.slot
    · subst own
      rw [if_pos rfl] at get
      exact .inr ⟨rfl, temp, pc, get, (Disk.rename_rest made).1⟩
    · refine .inl (Disk.lookup_congr ?_ above)
      rw [get, if_neg fun same => own (destination_injective same),
        if_neg (tempPath_ne t temp slot).symm]

theorem Effect.next_le (effect : Effect w d t d') : d.next ≤ d'.next := by
  cases effect with
  | same | append => exact Nat.le_refl _
  | createDir _ made => exact (Disk.createDir_rest made).2.ge
  | createTemp made => exact (Disk.createFile_rest made).2 ▸ Nat.le_succ _
  | dropTemp _ made => exact (Disk.removeFile_rest made).2.ge
  | persist _ made => exact (Disk.rename_rest made).2.ge

/-- Only the temporary file of the task is written. -/
theorem Effect.content_eq (effect : Effect w d t d') {i : Nat} (old : i < d.next)
    (other : ∀ temp, t.pc.temp = some temp → i ≠ temp.inode) : d'.content i = d.content i := by
  cases effect with
  | same => rfl
  | createDir _ made => rw [(Disk.createDir_rest made).1]
  | createTemp made =>
    rw [(Disk.createFile_rest made).1, Function.update_of_ne (Nat.ne_of_lt old)]
  | @append temp size chunk pc =>
    have ne : i ≠ temp.inode := other temp (by rw [pc]; rfl)
    exact Function.update_of_ne ne _ _
  | dropTemp _ made => rw [(Disk.removeFile_rest made).1]
  | persist _ made => rw [(Disk.rename_rest made).1]

/-- The files of the other tasks stay where they are. -/
theorem Effect.get_file (effect : Effect w d t d') {p : Path} {i : Nat}
    (there : d.tree.get p = some (.leaf (.file i))) (other : ∀ slot, p ≠ w.destination slot)
    (apart : ∀ temp, t.pc.temp = some temp → p ≠ t.tempPath w temp) :
    d'.tree.get p = some (.leaf (.file i)) := by
  cases effect with
  | same | append => exact there
  | @createDir q _ _ made =>
    rw [Disk.get_createDir made, if_neg]
    · exact there
    · rintro rfl
      rw [Disk.createDir_vacant made] at there
      cases there
  | createTemp made =>
    rw [Disk.get_createFile made, if_neg]
    · exact there
    · rintro rfl
      rw [Disk.createFile_vacant made] at there
      cases there
  | @dropTemp temp _ held made =>
    rw [Disk.get_removeFile made, if_neg (apart temp held)]
    exact there
  | @persist temp _ pc made =>
    rw [Disk.get_rename made, if_neg (other _), if_neg (apart temp (by rw [pc]; rfl))]
    exact there

/-! ## The artifacts stay -/

/-- What is about to be renamed has been verified. -/
theorem Own.held_persist (own : Own w d₀ d t) {temp : Temp} (pc : t.pc = .persist temp) :
    Held w d₀ d t.slot temp ∧ w.genuine t.slot (d.content temp.inode) = true := by
  have ok := own.pc
  rw [pc] at ok
  exact ok

/-- What an effect puts in the place of an artifact has the bytes of the manifest. -/
theorem Effect.lookup_or_verified (effect : Effect w d t d') (own : Own w d₀ d t) (slot : Slot) :
    d'.lookup (w.destination slot) = d.lookup (w.destination slot) ∨ Verified w d' slot := by
  rcases effect.lookup_destination slot with same | ⟨rfl, temp, pc, get, content⟩
  · exact .inl same
  · obtain ⟨held, genuine⟩ := own.held_persist pc
    refine .inr ⟨temp.inode, Disk.lookup_file (get.trans held.there), ?_⟩
    rw [content]
    exact genuine

/-- No temporary file is found at the path of an artifact. -/
theorem Sound.lookup_ne (sound : Sound w d₀ d) {slot : Slot} {i : Nat}
    (found : d.lookup (w.destination slot) = .ok (some (.file i))) {temp : Temp}
    (held : Held w d₀ d t.slot temp) : i ≠ temp.inode := by
  rintro rfl
  rcases Disk.of_lookup_file found with there | ⟨files, leaf, mem⟩
  · exact tempPath_ne t temp slot (sound.single _ _ _ held.new held.there there)
  · have there := Disk.leaf_eq_some.mp leaf
    cases sound.origin (w.destination slot).dropLast with
    | kept same =>
      have old := d₀.below _ _ (same.symm.trans there) _ mem
      exact absurd old (Nat.not_lt.mpr held.new)
    | created _ _ _ dir =>
      rw [dir] at there
      cases there
    | temp _ _ _ _ file | placed _ _ _ file =>
      rw [file] at there
      cases there

/-- A verified artifact stays one, because it can only be replaced by another verified file. -/
theorem Effect.verified (effect : Effect w d t d') (sound : Sound w d₀ d) (own : Own w d₀ d t)
    {slot : Slot} (now : Verified w d slot) : Verified w d' slot := by
  rcases effect.lookup_or_verified own slot with same | done
  · obtain ⟨i, found, genuine⟩ := now
    refine ⟨i, same.trans found, ?_⟩
    rw [effect.content_eq (Disk.lookup_file_lt found) fun temp has =>
      sound.lookup_ne found (own.held has)]
    exact genuine
  · exact done

/-! ## What a task relies on is kept by the others -/

/-- A temporary file is safe from the steps of other tasks. -/
theorem Held.other {u : Task} {b : Temp} (held : Held w d₀ d u.slot b) (effect : Effect w d t d')
    (own : Own w d₀ d t) (apart : ∀ a, t.pc.temp = some a → a.inode ≠ b.inode) :
    Held w d₀ d' u.slot b ∧ d'.content b.inode = d.content b.inode := by
  refine ⟨⟨?_, held.new⟩, effect.content_eq held.lt fun a has => Ne.symm (apart a has)⟩
  refine effect.get_file held.there (tempPath_ne u b) fun a has same => ?_
  have there := (own.held has).there
  rw [← Task.tempPath, ← same, held.there] at there
  exact apart a has (Leaf.file.inj (Node.leaf.inj (Option.some.inj there))).symm

/-- What a check has found out remains true whatever the others do. -/
theorem CheckOk.other {u : Task} {check : Check} (ok : CheckOk w d₀ d u.slot check)
    (effect : Effect w d t d') (own : Own w d₀ d t)
    (apart : ∀ a b, t.pc.temp = some a → check.temp = some b → a.inode ≠ b.inode) :
    CheckOk w d₀ d' u.slot check := by
  cases check with
  | downloaded b => exact (Held.other ok effect own fun a has => apart a b has rfl).1
  | winner b =>
    obtain ⟨held, same⟩ := Held.other ok.1 effect own fun a has => apart a b has rfl
    refine ⟨held, ?_⟩
    rw [same]
    exact ok.2
  | present | placed | verify => trivial

/-- An open file keeps its bytes. A rename puts another file in its place and does not write to
it. -/
theorem Reads.effect {check : Check} {slot : Slot} {i : Nat} (reads : Reads w d slot i check)
    (effect : Effect w d t d') (sound : Sound w d₀ d) (own : Own w d₀ d t) :
    Reads w d' slot i check := by
  have artifact : (d.lookup (w.destination slot) = .ok (some (.file i)) ∨ Verified w d slot) →
      d'.lookup (w.destination slot) = .ok (some (.file i)) ∨ Verified w d' slot := by
    rintro (found | done)
    · rcases effect.lookup_or_verified own slot with same | done
      · exact .inl (same.trans found)
      · exact .inr done
    · exact .inr (effect.verified sound own done)
  cases check with
  | downloaded => exact reads
  | present | winner | placed | verify => exact artifact reads

/-- A task can still rely on its own position behind a step of another one. -/
theorem PcOk.other {u : Task} (ok : PcOk w d₀ d u.slot u.pc) (effect : Effect w d t d')
    (sound : Sound w d₀ d) (own : Own w d₀ d t) (apart : Apart t u) :
    PcOk w d₀ d' u.slot u.pc := by
  obtain ⟨kind, policy, slot, rest, pc⟩ := u
  have held : ∀ b, pc.temp = some b → Held w d₀ d slot b →
      Held w d₀ d' slot b ∧ d'.content b.inode = d.content b.inode := fun b has held =>
    Held.other (u := ⟨kind, policy, slot, rest, pc⟩) held effect own fun a mine =>
      apart.temps a b mine has
  have checked : ∀ {check : Check}, pc.temp = check.temp → CheckOk w d₀ d slot check →
      CheckOk w d₀ d' slot check := fun same ok =>
    CheckOk.other (u := ⟨kind, policy, slot, rest, pc⟩) ok effect own fun a b mine has =>
      apart.temps a b mine (same.trans has)
  cases pc with
  | stat | openFile => exact checked rfl ok
  | read check i taken =>
    obtain ⟨check_ok, old, prefix_, short, reads⟩ := ok
    have same : d'.content i = d.content i := effect.content_eq old fun a mine =>
      apart.read check i taken a rfl mine
    refine ⟨checked rfl check_ok, old.trans_le effect.next_le, ?_, short,
      reads.effect effect sound own⟩
    rw [same]
    exact prefix_
  | createDirs todo => exact ok
  | statParent | newTemp | ended => trivial
  | send b | answer b =>
    obtain ⟨there, same⟩ := held b rfl ok.1
    exact ⟨there, same.trans ok.2.1, ok.2.2⟩
  | reopen b =>
    obtain ⟨there, same⟩ := held b rfl ok.1
    exact ⟨there, same.trans ok.2⟩
  | receive b size =>
    obtain ⟨there, same⟩ := held b rfl ok.1
    exact ⟨there, (congrArg List.length same).trans ok.2⟩
  | sync b => exact (held b rfl ok).1
  | persist b =>
    obtain ⟨there, same⟩ := held b rfl ok.1
    refine ⟨there, ?_⟩
    rw [same]
    exact ok.2
  | killed left => exact fun b mem => (held b mem (ok b mem)).1

/-- The steps of another task keep what a task relies on. -/
theorem Own.other {u : Task} (theirs : Own w d₀ d u) (effect : Effect w d t d')
    (sound : Sound w d₀ d) (own : Own w d₀ d t) (apart : Apart t u) : Own w d₀ d' u where
  pc := theirs.pc.other effect sound own apart
  done slot ne mem := effect.verified sound own (theirs.done slot ne mem)
  calm := theirs.calm

/-! ## The disk stays sound -/

/-- A path that is empty now was empty at the start. -/
theorem Sound.vacant (sound : Sound w d₀ d) {p : Path} (empty : d.tree.get p = none) :
    d₀.tree.get p = none := by
  cases sound.origin p with
  | kept same => exact same.symm.trans empty
  | created _ _ _ there | temp _ _ _ _ there | placed _ _ _ there =>
    rw [empty] at there
    cases there

theorem Held.vacant {temp : Temp} (held : Held w d₀ d t.slot temp) (sound : Sound w d₀ d) :
    d₀.tree.get (t.tempPath w temp) = none := by
  have there := held.there
  cases sound.origin (t.tempPath w temp) with
  | kept same =>
    have old := d₀.below _ _ (same.symm.trans there) _ (List.mem_singleton.mpr rfl)
    exact absurd old (Nat.not_lt.mpr held.new)
  | created _ _ empty | temp _ _ _ empty => exact empty
  | placed slot _ path _ _ => exact absurd path (tempPath_ne t temp slot)

/-- The disk stays sound under every step within the guarantee. -/
theorem Effect.sound (effect : Effect w d t d') (sound : Sound w d₀ d) (own : Own w d₀ d t) :
    Sound w d₀ d' := by
  have grows := sound.grows.trans effect.next_le
  have kept : ∀ i, i < d₀.next → d'.content i = d₀.content i := by
    intro i old
    rw [← sound.kept i old]
    exact effect.content_eq (old.trans_le sound.grows) fun temp has =>
      Nat.ne_of_lt (old.trans_le (own.held has).new)
  -- a path where nothing happens has the origin that it had
  have origin : ∀ p, d'.tree.get p = d.tree.get p →
      (∀ i, d.tree.get p = some (.leaf (.file i)) → d'.content i = d.content i) →
      Origin w d₀ d' p := by
    intro p here content
    cases sound.origin p with
    | kept same => exact .kept (here.trans same)
    | created slot mem vacant there => exact .created slot mem vacant (here.trans there)
    | temp slot temp path vacant there fits =>
      refine .temp slot temp path vacant (here.trans there) ?_
      rw [content _ there]
      exact fits
    | placed slot i path there genuine =>
      refine .placed slot i path (here.trans there) ?_
      rw [content _ there]
      exact genuine
  cases effect with
  | same => exact sound
  | @createDir q _ mem made =>
    have content := (Disk.createDir_rest made).1
    have files : ∀ p i, d'.tree.get p = some (.leaf (.file i)) →
        d.tree.get p = some (.leaf (.file i)) := by
      intro p i there
      rw [Disk.get_createDir made] at there
      split at there
      · cases there
      · exact there
    refine ⟨grows, kept, fun p => ?_, fun p q i new hp hq =>
      sound.single p q i new (files p i hp) (files q i hq)⟩
    by_cases same : p = q
    · subst same
      have here := Disk.get_createDir made p
      rw [if_pos rfl] at here
      exact .created t.slot mem (sound.vacant (Disk.createDir_vacant made)) here
    · exact origin p (by rw [Disk.get_createDir made, if_neg same]) fun i _ => by rw [content]
  | @createTemp suffix _ made =>
    have get := Disk.get_createFile made
    have content := (Disk.createFile_rest made).1
    have files : ∀ p i, d'.tree.get p = some (.leaf (.file i)) →
        (p = t.tempPath w ⟨suffix, d.next⟩ ∧ i = d.next) ∨
          (d.tree.get p = some (.leaf (.file i)) ∧ i < d.next) := by
      intro p i there
      rw [get] at there
      split at there
      · rename_i same
        exact .inl ⟨same, (Leaf.file.inj (Node.leaf.inj (Option.some.inj there))).symm⟩
      · exact .inr ⟨there, d.below p _ there i (List.mem_singleton.mpr rfl)⟩
    refine ⟨grows, kept, fun p => ?_, fun p q i new hp hq => ?_⟩
    · by_cases same : p = t.tempPath w ⟨suffix, d.next⟩
      · have here := get p
        rw [if_pos same] at here
        refine .temp t.slot ⟨suffix, d.next⟩ same ?_ here ?_
        · rw [same]
          exact sound.vacant (Disk.createFile_vacant made)
        · rw [content]
          simp
      · refine origin p (by rw [get, if_neg same]) fun i there => ?_
        have old := d.below p _ there i (List.mem_singleton.mpr rfl)
        rw [content, Function.update_of_ne (Nat.ne_of_lt old)]
    · rcases files p i hp with ⟨rfl, rfl⟩ | ⟨hp, old⟩
      · rcases files q d.next hq with ⟨rfl, -⟩ | ⟨-, old⟩
        · rfl
        · exact absurd old (Nat.lt_irrefl _)
      · rcases files q i hq with ⟨-, rfl⟩ | ⟨hq, -⟩
        · exact absurd old (Nat.lt_irrefl _)
        · exact sound.single p q i new hp hq
  | @append temp size chunk pc fits =>
    have held := own.held (show t.pc.temp = some temp by rw [pc]; rfl)
    have length : (d.content temp.inode).length = size := by
      have ok := own.pc
      rw [pc] at ok
      exact ok.2
    refine ⟨grows, kept, fun p => ?_, sound.single⟩
    by_cases same : p = t.tempPath w temp
    · rw [same]
      refine .temp t.slot temp rfl (held.vacant sound) held.there ?_
      change (Function.update d.content temp.inode _ temp.inode).length ≤ _
      rw [Function.update_self, List.length_append, length]
      exact fits
    · refine origin p rfl fun i there => ?_
      refine Function.update_of_ne ?_ _ _
      rintro rfl
      exact same (sound.single _ _ _ held.new there held.there)
  | @dropTemp temp _ has made =>
    have get := Disk.get_removeFile made
    have held := own.held has
    have files : ∀ p i, d'.tree.get p = some (.leaf (.file i)) →
        d.tree.get p = some (.leaf (.file i)) := by
      intro p i there
      rw [get] at there
      split at there
      · cases there
      · exact there
    refine ⟨grows, kept, fun p => ?_, fun p q i new hp hq =>
      sound.single p q i new (files p i hp) (files q i hq)⟩
    by_cases same : p = t.tempPath w temp
    · refine .kept ?_
      rw [get, if_pos same, same, held.vacant sound]
    · exact origin p (by rw [get, if_neg same]) fun i _ => by rw [(Disk.removeFile_rest made).1]
  | @persist temp _ pc made =>
    have get := Disk.get_rename made
    have content := (Disk.rename_rest made).1
    obtain ⟨held, genuine⟩ := own.held_persist pc
    have files : ∀ p i, d'.tree.get p = some (.leaf (.file i)) →
        (p = w.destination t.slot ∧ i = temp.inode) ∨
          (d.tree.get p = some (.leaf (.file i)) ∧ p ≠ t.tempPath w temp) := by
      intro p i there
      rw [get] at there
      split at there
      · rename_i same
        refine .inl ⟨same, ?_⟩
        have moved := there.symm.trans held.there
        exact Leaf.file.inj (Node.leaf.inj (Option.some.inj moved))
      · split at there
        · cases there
        · rename_i ne
          exact .inr ⟨there, ne⟩
    refine ⟨grows, kept, fun p => ?_, fun p q i new hp hq => ?_⟩
    · by_cases artifact : p = w.destination t.slot
      · refine .placed t.slot temp.inode artifact ?_ ?_
        · rw [get, if_pos artifact]
          exact held.there
        · rw [content]
          exact genuine
      · by_cases same : p = t.tempPath w temp
        · refine .kept ?_
          rw [get, if_neg artifact, if_pos same, same, held.vacant sound]
        · exact origin p (by rw [get, if_neg artifact, if_neg same]) fun i _ => by rw [content]
    · rcases files p i hp with ⟨rfl, rfl⟩ | ⟨hp, np⟩
      · rcases files q temp.inode hq with ⟨rfl, -⟩ | ⟨hq, nq⟩
        · rfl
        · exact absurd (sound.single _ _ _ new hq held.there) nq
      · rcases files q i hq with ⟨-, rfl⟩ | ⟨hq, -⟩
        · exact absurd (sound.single _ _ _ new hp held.there) np
        · exact sound.single p q i new hp hq

end Mineru.Models
