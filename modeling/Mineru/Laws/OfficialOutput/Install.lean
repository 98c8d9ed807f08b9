import Mineru.OfficialOutput.Install

/-!
# The installation is atomic

A call ends in one of three ways, whatever fails in it. The stage is the target and the old output
is the backup; or every entry of both directories is as before; or the old output could not be moved
back, and lies under the backup name.

The disk is the two directories with their entries, and each operation of the source is one that may
be refused by a fault or by what is there. `Refused.fault` tells the two apart: over a free name
only a fault can stop a rename. The cases are an absent target, an old output and an old output that
is a symlink (`installed_fresh`, `installed_over`).

The statement is about one call on a directory that nobody else changes, and about names rather than
the durability of what was written.
-/

set_option autoImplicit false

namespace Mineru.OfficialOutput

open Logic

/-! ## Entries -/

theorem Disk.get_set (d : Disk) (p q : Place) (n m : Text) (node : Node) :
    (d.set p n node).get q m = if q = p ∧ m = n then some node else d.get q m := by
  cases p <;> cases q <;> simp [Disk.get, Disk.set, Table.get_set]

theorem Disk.get_remove (d : Disk) (p q : Place) (n m : Text) :
    (d.remove p n).get q m = if q = p ∧ m = n then none else d.get q m := by
  cases p <;> cases q <;> simp [Disk.get, Disk.remove, Table.get_remove]

/-- An entry that was moved. -/
def Disk.moved (d : Disk) (p : Place) (n : Text) (q : Place) (m : Text) (node : Node) : Disk :=
  (d.remove p n).set q m node

theorem Disk.get_moved (d : Disk) (p q r : Place) (n m k : Text) (node : Node) :
    (d.moved p n q m node).get r k =
      if r = q ∧ k = m then some node else if r = p ∧ k = n then none else d.get r k := by
  unfold Disk.moved
  rw [Disk.get_set, Disk.get_remove]

/-- The same entries in both directories. -/
def Disk.Same (d d' : Disk) : Prop := ∀ place name, d'.get place name = d.get place name

/-- An entry that is moved to a free name and back again. -/
theorem Disk.same_moved_back (d : Disk) {p q : Place} {n m : Text} {node : Node}
    (there : d.get p n = some node) (free : d.get q m = none) :
    d.Same ((d.moved p n q m node).moved q m p n node) := by
  intro r k
  rw [Disk.get_moved, Disk.get_moved]
  by_cases first : r = p ∧ k = n
  · rw [if_pos first, first.1, first.2, there]
  · rw [if_neg first]
    by_cases second : r = q ∧ k = m
    · rw [if_pos second, second.1, second.2, free]
    · rw [if_neg second, if_neg second, if_neg first]

/-! ## Operations -/

section Operations

variable {w : Faults} {d : Disk} {α : Type}

theorem handling_after {x : Io α} {handle : String → Install α} {Q : α → Disk → Prop}
    {E : VlmError → Disk → Prop}
    (h : After x d Q fun e d' => After (handle e) d' Q E) : After (handling x handle) d Q E := by
  unfold After at h
  show After (handling x handle) d Q E
  unfold After handling
  cases run : x d with
  | ok | error =>
    rw [run] at h
    exact h

theorem withError_after {x : Io α} {f : String → VlmError} {Q : α → Disk → Prop}
    {E : VlmError → Disk → Prop} (h : After x d Q fun e d' => E (f e) d') :
    After (withError x f) d Q E :=
  handling_after (h.errors fun _ _ e => After.throw e)

/-- What makes a `rename` fail. -/
def Refused (w : Faults) (op : Op) (d : Disk) (p : Place) (n : Text) (q : Place) (m : Text)
    (e : String) : Prop :=
  w op = some e ∨ ∀ node, d.get p n = some node → replaces node (d.get q m) = false

theorem rename_after (op : Op) (p q : Place) (n m : Text) :
    After (rename w op p n q m) d
      (fun _ d' => ∃ node, d.get p n = some node ∧ d' = d.moved p n q m node)
      (fun e d' => d' = d ∧ Refused w op d p n q m e) := by
  unfold After rename Disk.rename
  cases fault : w op with
  | some e => exact ⟨rfl, .inl fault⟩
  | none =>
    cases there : d.get p n with
    | none => exact ⟨rfl, .inr fun node h => by rw [there] at h; cases h⟩
    | some node =>
      dsimp only
      by_cases fits : replaces node (d.get q m) = true
      · rw [if_pos fits]
        exact ⟨node, rfl, rfl⟩
      · rw [if_neg fits]
        refine ⟨rfl, .inr fun node' h => ?_⟩
        rw [there] at h
        cases h
        exact Bool.eq_false_iff.mpr fits

/-- A `rename` of an entry to a free name fails by its fault alone. -/
theorem Refused.fault {op : Op} {p q : Place} {n m : Text} {e : String} {node : Node}
    (h : Refused w op d p n q m e) (there : d.get p n = some node) (free : d.get q m = none) :
    w op = some e := by
  refine h.resolve_right fun stuck => ?_
  have refused := stuck node there
  rw [free] at refused
  cases node <;> cases refused

theorem tryClone_after (op : Op) :
    After (tryClone w op) d (fun _ d' => d' = d) (fun _ d' => d' = d) := by
  unfold After tryClone
  cases w op with
  | none | some => rfl

theorem symlinkMetadata_after (name : Text) :
    After (symlinkMetadata w name) d (fun node d' => d' = d ∧ node = d.get .output name)
      (fun _ d' => d' = d) := by
  unfold After symlinkMetadata
  cases w .symlinkMetadata with
  | none => exact ⟨rfl, rfl⟩
  | some e => rfl

theorem openChildNofollow_after (name : Text) :
    After (openChildNofollow w name) d
      (fun node d' => d' = d ∧ d.get .staging name = some node) (fun _ d' => d' = d) := by
  unfold After openChildNofollow
  cases w .openBackup with
  | some e => rfl
  | none =>
    cases there : d.get .staging name with
    | none => rfl
    | some node =>
      cases node with
      | dir entries => exact ⟨rfl, rfl⟩
      | file | symlink => rfl

end Operations

/-! ## Backup names -/

/-- The name of the stage in its parent. -/
def stageName : Text := text "stage"

theorem backupName_ne_stageName (stamp : Stamp) : stamp.backupName ≠ stageName := by
  intro same
  have first := congrArg List.head? same
  have dot : stamp.backupName.head? = some '.' := rfl
  rw [dot] at first
  revert first
  decide

/-! ## The three endings -/

/-- The staging parent as `create_private_stage` makes it: the stage is its one entry. -/
structure Staged (disk : Disk) (staged : Node) : Prop where
  stage : disk.get .staging stageName = some staged
  only : ∀ name, name ≠ stageName → disk.get .staging name = none

/-- The stage is the target, and the old output is the backup. -/
structure Installed (disk : Disk) (staged : Node) (targetName : Text) (backup : Option Backup)
    (after : Disk) : Prop where
  target : after.get .output targetName = some staged
  old : backup.map Backup.directory = disk.get .output targetName
  kept : ∀ b ∈ backup, after.get .staging b.name = some b.directory
  output : ∀ name, name ≠ targetName → after.get .output name = disk.get .output name

/-- The old output could not be moved back. -/
structure Stranded (w : Faults) (disk : Disk) (staged : Node) (targetName backupName : Text)
    (e : VlmError) (after : Disk) : Prop where
  error : ∃ installError rollback,
    w .renameRollback = some rollback ∧ e = rollbackError installError rollback
  target : after.get .output targetName = none
  old : ∃ node, disk.get .output targetName = some node ∧
    after.get .staging backupName = some node
  stage : after.get .staging stageName = some staged
  output : ∀ name, name ≠ targetName → after.get .output name = disk.get .output name

/-- What an error leaves. -/
def Failed (w : Faults) (disk : Disk) (staged : Node) (targetName backupName : Text)
    (e : VlmError) (after : Disk) : Prop :=
  disk.Same after ∨ Stranded w disk staged targetName backupName e after

section Endings

variable {w : Faults} {disk : Disk} {staged node : Node} {targetName : Text} {stamp : Stamp}
  {α : Type}

/-- The disk while the old output is aside. -/
def aside (disk : Disk) (stamp : Stamp) (targetName : Text) (node : Node) : Disk :=
  disk.moved .output targetName .staging stamp.backupName node

/-- Moving the old output back restores the disk, or leaves it under the backup name. -/
theorem rollback_after {f : String → VlmError} (ready : Staged disk staged)
    (old : disk.get .output targetName = some node)
    (reports : ∃ installError, f = rollbackError installError) :
    After (withError (rename w .renameRollback .staging stamp.backupName .output targetName) f)
      (aside disk stamp targetName node) (fun _ d => disk.Same d)
      (Failed w disk staged targetName stamp.backupName) := by
  have free := ready.only _ (backupName_ne_stageName stamp)
  have there : (aside disk stamp targetName node).get .staging stamp.backupName = some node := by
    unfold aside
    rw [Disk.get_moved, if_pos ⟨rfl, rfl⟩]
  have gone : (aside disk stamp targetName node).get .output targetName = none := by
    unfold aside
    rw [Disk.get_moved, if_neg (fun h => nomatch h.1), if_pos ⟨rfl, rfl⟩]
  refine withError_after ((rename_after _ _ _ _ _).weaken ?_ ?_)
  · rintro _ d ⟨node', found, rfl⟩
    rw [there] at found
    cases found
    exact disk.same_moved_back old free
  · rintro e d ⟨rfl, refused⟩
    obtain ⟨installError, rfl⟩ := reports
    refine .inr ⟨⟨installError, e, refused.fault there gone, rfl⟩, gone, ⟨node, old, there⟩, ?_, ?_⟩
    · unfold aside
      rw [Disk.get_moved, if_neg (fun h => backupName_ne_stageName stamp h.2.symm),
        if_neg (fun h => nomatch h.1)]
      exact ready.stage
    · intro name other
      unfold aside
      rw [Disk.get_moved, if_neg (fun h => nomatch h.1), if_neg (fun h => other h.2)]

theorem rollbackTarget_after {Q : α → Disk → Prop} (ready : Staged disk staged)
    (old : disk.get .output targetName = some node) (e : VlmError) :
    After (rollbackTarget w stamp.backupName targetName e) (aside disk stamp targetName node) Q
      (Failed w disk staged targetName stamp.backupName) := by
  refine (rollback_after ready old ⟨_, rfl⟩).bind ?_
  intro _ d same
  exact After.throw (.inl same)

theorem backUp_after (ready : Staged disk staged)
    (old : disk.get .output targetName = some node) :
    After (backUp w stamp targetName) disk
      (fun b d => d = aside disk stamp targetName node ∧ b = ⟨node, stamp.backupName⟩)
      (Failed w disk staged targetName stamp.backupName) := by
  have same : disk.Same disk := fun _ _ => rfl
  refine (withError_after ((rename_after _ _ _ _ _).errors fun e d h =>
    .inl (h.1 ▸ same))).bind ?_
  rintro _ d ⟨node', found, rfl⟩
  rw [old] at found
  cases found
  refine (handling_after ((openChildNofollow_after _).weaken (fun dir d h => h) ?_)).bind ?_
  · rintro e d rfl
    exact rollbackTarget_after ready old _
  · rintro dir d ⟨rfl, opened⟩
    rw [Disk.get_moved, if_pos ⟨rfl, rfl⟩] at opened
    cases opened
    exact After.pure ⟨rfl, rfl⟩

/-- The end of the call, with the old output aside or absent. -/
theorem install_after {backup : Option Backup} {d : Disk}
    (stageThere : d.get .staging stageName = some staged)
    (failed : ∀ e, After (installFailed w targetName backup e : Install Unit) d (fun _ _ => False)
      (Failed w disk staged targetName stamp.backupName))
    (done : Installed disk staged targetName backup
      (d.moved .staging stageName .output targetName staged)) :
    After (do
        handling (rename w .renameInstall .staging stageName .output targetName)
          (installFailed w targetName backup)
        return backup : Install (Option Backup)) d
      (Installed disk staged targetName) (Failed w disk staged targetName stamp.backupName) := by
  refine (handling_after ((rename_after _ _ _ _ _).weaken (fun _ _ h => h) ?_)).bind ?_
  · rintro e d ⟨rfl, -⟩
    exact (failed e).weaken (fun _ _ h => h.elim) fun _ _ h => h
  · rintro _ after ⟨node', found, rfl⟩
    rw [stageThere] at found
    cases found
    exact After.pure done

theorem installed_fresh (absent : disk.get .output targetName = none) :
    Installed disk staged targetName none
      (disk.moved .staging stageName .output targetName staged) where
  target := by rw [Disk.get_moved, if_pos ⟨rfl, rfl⟩]
  old := absent.symm
  kept b mem := by cases mem
  output name other := by
    rw [Disk.get_moved, if_neg (fun h => other h.2), if_neg (fun h => nomatch h.1)]

/-- Over an old output that is aside. -/
theorem installed_over (old : disk.get .output targetName = some node) :
    Installed disk staged targetName (some ⟨node, stamp.backupName⟩)
      ((aside disk stamp targetName node).moved .staging stageName .output targetName staged) where
  target := by rw [Disk.get_moved, if_pos ⟨rfl, rfl⟩]
  old := old.symm
  kept b mem := by
    cases mem
    unfold aside
    rw [Disk.get_moved, if_neg (fun h => nomatch h.1),
      if_neg (fun h => backupName_ne_stageName stamp h.2), Disk.get_moved, if_pos ⟨rfl, rfl⟩]
  output name other := by
    unfold aside
    rw [Disk.get_moved, if_neg (fun h => other h.2), if_neg (fun h => nomatch h.1),
      Disk.get_moved, if_neg (fun h => nomatch h.1), if_neg (fun h => other h.2)]

theorem stage_aside (ready : Staged disk staged) :
    (aside disk stamp targetName node).get .staging stageName = some staged := by
  unfold aside
  rw [Disk.get_moved, if_neg (fun h => backupName_ne_stageName stamp h.2.symm),
    if_neg (fun h => nomatch h.1)]
  exact ready.stage

theorem installFailed_fresh (e : String) :
    After (installFailed w targetName none e : Install Unit) disk (fun _ _ => False)
      (Failed w disk staged targetName stamp.backupName) :=
  After.throw (.inl fun _ _ => rfl)

theorem installFailed_over (ready : Staged disk staged)
    (old : disk.get .output targetName = some node) (e : String) :
    After (installFailed w targetName (some ⟨node, stamp.backupName⟩) e : Install Unit)
      (aside disk stamp targetName node) (fun _ _ => False)
      (Failed w disk staged targetName stamp.backupName) := by
  refine (rollback_after ready old ⟨_, rfl⟩).bind ?_
  intro _ d same
  exact After.throw (.inl same)

/-- An operation before the old output is moved: its error leaves the disk as it was. -/
theorem withError_early {x : Io α} {Q : α → Disk → Prop}
    (h : After x disk Q fun _ d => d = disk) :
    After (withError x ioError) disk Q (Failed w disk staged targetName stamp.backupName) := by
  refine withError_after (h.errors fun e d same => ?_)
  rw [same]
  exact .inl fun _ _ => rfl

/-- The two clones of the staging parent change nothing. -/
theorem clones_after {rest : Install (Option Backup)}
    (after : After rest disk (Installed disk staged targetName)
      (Failed w disk staged targetName stamp.backupName)) :
    After (do
      withError (tryClone w .cloneBackupParent) ioError
      withError (tryClone w .cloneBackupDirectoryParent) ioError
      rest) disk (Installed disk staged targetName)
      (Failed w disk staged targetName stamp.backupName) := by
  refine (withError_early (tryClone_after _)).bind fun _ d same => ?_
  rw [same]
  refine (withError_early (tryClone_after _)).bind fun _ d same => ?_
  rw [same]
  exact after

/-- An old output that is no symlink. -/
theorem installOver_after (ready : Staged disk staged)
    (old : disk.get .output targetName = some node) :
    After (do
      let backup ← some <$> backUp w stamp targetName
      handling (rename w .renameInstall .staging stageName .output targetName)
        (installFailed w targetName backup)
      return backup) disk (Installed disk staged targetName)
      (Failed w disk staged targetName stamp.backupName) := by
  rw [map_eq_pure_bind, bind_assoc]
  refine (backUp_after ready old).bind ?_
  rintro b d ⟨rfl, rfl⟩
  exact install_after (stage_aside ready) (installFailed_over ready old) (installed_over old)

end Endings

/-- **The installation is atomic**: for every disk with a private stage, and whatever operations fail,
the call leaves the stage as the target and returns the old output as its backup; or it fails and
every entry is as before; or the rollback failed too, and its error says so, and the old output lies
under the backup name. -/
theorem install_atomic (w : Faults) (stamp : Stamp) (targetName : Text) (disk : Disk)
    (staged : Node) (ready : Staged disk staged) :
    After (installStageIn w stamp stageName targetName) disk
      (Installed disk staged targetName) (Failed w disk staged targetName stamp.backupName) := by
  unfold installStageIn
  refine (withError_early (symlinkMetadata_after targetName)).bind fun target d h => ?_
  obtain ⟨same, found⟩ := h
  rw [same]
  cases target with
  | none =>
    refine clones_after ?_
    exact install_after ready.stage installFailed_fresh (installed_fresh found.symm)
  | some node =>
    cases node with
    | symlink link => exact After.throw (.inl fun _ _ => rfl)
    | file | dir => exact clones_after (installOver_after ready found.symm)

/-- An old output that cannot be opened any more, nor moved back. -/
def stuckFaults : Faults
  | .openBackup => some "Too many open files (os error 24)"
  | .renameRollback => some "Input/output error (os error 5)"
  | _ => none

def busyDisk : Disk where
  output := Table.set ∅ (text "vlm") (.dir [(text "a.md", .file [97])])
  staging := Table.set ∅ stageName (.dir [(text "a.md", .file [98])])

/-- The old output cannot be opened where it was moved to, and cannot be moved back. -/
theorem install_atomic_stuck :
    After (installStageIn stuckFaults ⟨1, 2, 3⟩ stageName (text "vlm")) busyDisk
      (Installed busyDisk (.dir [(text "a.md", .file [98])]) (text "vlm"))
      (Failed stuckFaults busyDisk (.dir [(text "a.md", .file [98])]) (text "vlm")
        (Stamp.backupName ⟨1, 2, 3⟩)) := by
  refine install_atomic stuckFaults ⟨1, 2, 3⟩ (text "vlm") busyDisk _ ⟨rfl, fun name other => ?_⟩
  show Table.get (Table.set ∅ stageName _) name = none
  rw [Table.get_set, if_neg other]
  rfl

end Mineru.OfficialOutput
