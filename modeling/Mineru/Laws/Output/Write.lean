import Mineru.Output.Write

/-!
# What writing the outputs leaves

A call that succeeds leaves what it staged as the target. A call that fails leaves the old output at
the target or under the backup name, except on one path: the stage cannot be installed, the old
output cannot be moved back, and its backup is removed then.

The state is the parent directory, with what is at the three names in question. Each operation has
one lemma that says what it leaves when it takes place and when it fails (`rename_after`,
`createStaging_after`, `fillStage_after`), and `SameBut` says that nothing but the stage has changed
so far. `Strands` is the condition on the faults and on the old state under which the promise is
broken.

Every single fault and every combination is covered. Other processes that work on the same directory
are not.
-/

set_option autoImplicit false

namespace Mineru.Output

open Logic

/-! ## Operations -/

/-- An entry that was moved. -/
def moved (d : Parent) (source destination : Text) (entry : Entry) : Parent :=
  (d.remove source).set destination entry

theorem get_moved (d : Parent) (source destination name : Text) (entry : Entry) :
    (moved d source destination entry).get name =
      if name = destination then some entry else if name = source then none else d.get name := by
  unfold moved
  rw [Table.get_set, Table.get_remove]

/-- When a `rename` moves an entry. -/
def Moves (w : Faults) (op : Op) (d : Parent) (source destination : Text) (entry : Entry) : Prop :=
  w op = none ∧ d.get source = some entry ∧ replaces entry (d.get destination) = true

section Operations

variable {w : Faults} {n : Names} {d : Parent} {op : Op} {α : Type}

/-- A rename takes place or changes nothing. -/
theorem rename_after (source destination : Text) :
    After (rename w op source destination) d
      (fun _ d' => ∃ entry, Moves w op d source destination entry ∧
        d' = moved d source destination entry)
      (fun _ d' => d' = d ∧ ∀ entry, ¬ Moves w op d source destination entry) := by
  unfold After rename Moves
  cases fault : w op with
  | some e => simp
  | none =>
    cases there : d.get source with
    | none => simp
    | some entry =>
      by_cases fits : replaces entry (d.get destination) = true
      · simp [fits, moved]
      · simp [fits]

theorem discard_after {Q : Unit → Parent → Prop} {E : Error → Parent → Prop} (name : Text)
    (kept : w op ≠ none → Q () d) (removed : w op = none → Q () (d.remove name)) :
    After (discard w op name) d Q E := by
  unfold After discard
  cases fault : w op with
  | some e => exact kept (by simp [fault])
  | none => exact removed fault

theorem handling_after {x : Io α} {handle : Error → Io α} {Q : α → Parent → Prop}
    {E E' : Error → Parent → Prop} (h : After x d Q E')
    (handled : ∀ e d', E' e d' → After (handle e) d' Q E) : After (handling x handle) d Q E := by
  unfold After at h ⊢
  unfold handling
  cases run : x d with
  | ok a d' =>
    rw [run] at h
    exact h
  | error e d' =>
    rw [run] at h
    exact handled e d' h

/-- The stage is gone or still there, and nothing else is different. -/
def SameBut (n : Names) (d d' : Parent) : Prop := ∀ name, name ≠ n.stage → d'.get name = d.get name

theorem SameBut.trans {d d' d'' : Parent} (h : SameBut n d d') (h' : SameBut n d' d'') :
    SameBut n d d'' := fun name other => (h' name other).trans (h name other)

theorem sameBut_set (entry : Entry) : SameBut n d (d.set n.stage entry) := by
  intro name other
  rw [Table.get_set, if_neg other]

theorem sameBut_remove : SameBut n d (d.remove n.stage) := by
  intro name other
  rw [Table.get_remove, if_neg other]

/-- Giving up removes the stage, and returns the error that was there first. -/
theorem abandon_after {Q : α → Parent → Prop} {E : Error → Parent → Prop} {e : Error}
    (h : ∀ d', SameBut n d d' → E e d') : After (abandon w n e) d Q E := by
  apply (discard_after (Q := fun _ d' => SameBut n d d') n.stage
    (fun _ _ _ => rfl) fun _ => sameBut_remove).bind
  intro _ d' same
  exact After.throw (h d' same)

end Operations

/-! ## The endings -/

/-- The old output is complete at the target or under the backup name, and the target holds nothing
else. -/
structure Kept (n : Names) (before after : Parent) : Prop where
  old : ∀ old, before.get n.target = some old →
    after.get n.target = some old ∨ after.get n.backup = some old
  target : after.get n.target = before.get n.target ∨ after.get n.target = none

/-- What a call promises: on success the target is what was staged, on an error the old output is
kept. -/
def Promise (w : Faults) (n : Names) (document : Document) (before : Parent) : Prop :=
  After (writeOutputsWith w n document) before
    (fun _ after => ∃ files, writeStaged w document ∅ = .ok () files ∧
      after.get n.target = some (.dir files))
    fun _ after => Kept n before after

/-- The faults that lose the old output: it is moved aside, the stage cannot be installed, the old
output cannot be moved back, and the backup can be removed. -/
structure Strands (w : Faults) (n : Names) (document : Document) (before : Parent) : Prop where
  valid : validateAssets document = .ok ()
  parent : w .createParent = none
  stage : w .createStage = none
  staged : ∃ files, writeStaged w document ∅ = .ok () files
  seen : w .exists = none
  old : ∃ old, before.get n.target = some old ∧ replaces old (before.get n.backup) = true
  backup : w .renameBackup = none
  install : w .renameInstall ≠ none
  restore : w .renameRestore ≠ none
  removed : w .removeStranded = none

/-- Nothing is left of the old output. -/
def Lost (n : Names) (before after : Parent) : Prop :=
  before.get n.target ≠ none ∧ after.get n.target = none ∧ after.get n.backup = none

section Endings

variable {w : Faults} {n : Names} {document : Document} {before d : Parent} {α : Type}

theorem SameBut.kept (h : SameBut n before d) : Kept n before d := by
  have target := h n.target n.stage_ne_target.symm
  exact ⟨fun old found => .inl (target.trans found), .inl target⟩

theorem abandon_kept {Q : α → Parent → Prop} {E : Error → Parent → Prop} {e : Error}
    (same : SameBut n before d) (no : ¬ Strands w n document before)
    (is : ∀ d', Kept n before d' ∧ ¬ Strands w n document before → E e d') :
    After (abandon w n e) d Q E :=
  abandon_after fun d' same' => is d' ⟨(same.trans same').kept, no⟩

/-- How a call ends with an error: it keeps the old output, or the faults lose it. -/
def Outcome (w : Faults) (n : Names) (document : Document) (before after : Parent) : Prop :=
  (Kept n before after ∧ ¬ Strands w n document before) ∨
    (Lost n before after ∧ Strands w n document before)

/-- The restoring rename and what follows it: the stage is given up, or the stage and the backup are
both removed when the rename fails. -/
theorem restore_after {Q : Unit → Parent → Prop} {E E' : Error → Parent → Prop}
    {Q' : Unit → Parent → Prop} {e : Error}
    (h : After (rename w .renameRestore n.backup n.target) d Q' E')
    (restored : ∀ d', Q' () d' → After (abandon w n e : Io Unit) d' Q E)
    (stuck : ∀ e' d', E' e' d' → After (do
      discard w .removeStage n.stage
      discard w .removeStranded n.backup
      throw e' : Io Unit) d' Q E) : After (restore w n e) d Q E := by
  unfold After at h
  unfold restore
  cases run : rename w .renameRestore n.backup n.target d with
  | ok a d' =>
    rw [run] at h
    have after := restored d' h
    unfold After at after ⊢
    simp only [run]
    exact after
  | error e' d' =>
    rw [run] at h
    have after := stuck e' d' h
    unfold After at after ⊢
    simp only [run]
    exact after

section Aside

variable {files : Files} {old : Entry}

/-- The disk with the stage filled and the old output aside. -/
structure Aside (n : Names) (before : Parent) (files : Files) (old : Entry) (d : Parent) : Prop where
  before : before.get n.target = some old
  stage : d.get n.stage = some (.dir files)
  target : d.get n.target = none
  backup : d.get n.backup = some old

theorem aside_of_moved (stage : d.get n.stage = some (.dir files))
    (found : before.get n.target = some old) :
    Aside n before files old (moved d n.target n.backup old) where
  before := found
  stage := by
    rw [get_moved, if_neg n.backup_ne_stage.symm, if_neg n.stage_ne_target]
    exact stage
  target := by rw [get_moved, if_neg n.backup_ne_target.symm, if_pos rfl]
  backup := by rw [get_moved, if_pos rfl]

theorem replaces_none (entry : Entry) : replaces entry none = true := by
  cases entry with
  | file | dir => rfl

/-- The stage is installed, whether or not the backup can be removed. -/
theorem installed_after (staged : writeStaged w document ∅ = .ok () files)
    (free : w .renameInstall = none) :
    After (do
        discard w .cleanupBackup n.backup
        return manifest document n.target : Io OutputManifest)
      (moved d n.stage n.target (.dir files))
      (fun _ after => (∃ files, writeStaged w document ∅ = .ok () files ∧
        after.get n.target = some (.dir files)) ∧ ¬ Strands w n document before)
      fun _ after => Outcome w n document before after := by
  have target : (moved d n.stage n.target (.dir files)).get n.target = some (.dir files) := by
    rw [get_moved, if_pos rfl]
  have no : ¬ Strands w n document before := fun strands => strands.install free
  apply (discard_after (Q := fun _ after => after.get n.target = some (.dir files)) n.backup
    (fun _ => target) fun _ => by
      rw [Table.get_remove, if_neg n.backup_ne_target.symm]
      exact target).bind
  intro _ after installed
  exact After.pure ⟨⟨files, staged, installed⟩, no⟩

/-- The stage cannot be installed. -/
theorem Aside.restore (h : Aside n before files old d) (e : Error)
    (ready : w .renameRestore ≠ none → w .removeStranded = none → Strands w n document before) :
    After (Output.restore w n e) d (fun _ _ => False)
      fun _ after => Outcome w n document before after := by
  apply restore_after (rename_after n.backup n.target)
  · -- the old output is back
    intro d' restored
    obtain ⟨entry, ⟨free, found, -⟩, rfl⟩ := restored
    rw [h.backup] at found
    cases found
    apply abandon_after
    intro d' same
    have target := same n.target n.stage_ne_target.symm
    rw [get_moved, if_pos rfl] at target
    refine .inl ⟨⟨fun old' found => .inl ?_, .inl (target.trans h.before.symm)⟩,
      fun strands => strands.restore free⟩
    rw [h.before] at found
    rw [target, found]
  · -- the old output is under the backup name alone
    rintro e' d' ⟨rfl, refused⟩
    have fault : w .renameRestore ≠ none := fun free => refused old
      ⟨free, h.backup, by rw [h.target]; exact replaces_none old⟩
    apply (discard_after (E := fun _ after => Outcome w n document before after)
      (Q := fun _ after => after.get n.target = none ∧ after.get n.backup = some old) n.stage
      (fun _ => ⟨h.target, h.backup⟩) fun _ => by
        rw [Table.get_remove, if_neg n.stage_ne_target.symm, Table.get_remove,
          if_neg n.backup_ne_stage]
        exact ⟨h.target, h.backup⟩).bind
    rintro _ d'' ⟨target, backup⟩
    apply (discard_after (E := fun _ after => Outcome w n document before after)
      (Q := fun _ after => Outcome w n document before after) n.backup ?_ ?_).bind
    · exact fun _ after ends => After.throw ends
    · intro stays
      refine .inl ⟨⟨fun old' found => .inr ?_, .inr target⟩, fun strands => stays strands.removed⟩
      rw [h.before] at found
      rw [backup, found]
    · intro removed
      refine .inr ⟨⟨by simp [h.before], ?_, ?_⟩, ready fault removed⟩
      · rw [Table.get_remove, if_neg n.backup_ne_target.symm]
        exact target
      · rw [Table.get_remove, if_pos rfl]

end Aside

/-- Behind the checks and the stage: the old output is replaced. -/
theorem replace_after {files : Files} (same : SameBut n before d)
    (stage : d.get n.stage = some (.dir files)) (staged : writeStaged w document ∅ = .ok () files)
    (present : (before.get n.target).isSome = true)
    (ready : ∀ old, before.get n.target = some old → replaces old (before.get n.backup) = true →
      w .renameBackup = none → w .renameInstall ≠ none → w .renameRestore ≠ none →
      w .removeStranded = none → Strands w n document before) :
    After (do
        handling (rename w .renameBackup n.target n.backup) (abandon w n)
        handling (rename w .renameInstall n.stage n.target) (restore w n)
        discard w .cleanupBackup n.backup
        return manifest document n.target : Io OutputManifest) d
      (fun _ after => (∃ files, writeStaged w document ∅ = .ok () files ∧
        after.get n.target = some (.dir files)) ∧ ¬ Strands w n document before)
      fun _ after => Outcome w n document before after := by
  obtain ⟨old, found⟩ := Option.isSome_iff_exists.mp present
  have target : d.get n.target = some old := (same _ n.stage_ne_target.symm).trans found
  have backup : d.get n.backup = before.get n.backup := same _ n.backup_ne_stage
  apply (handling_after (Q := fun _ after => Aside n before files old after ∧
    replaces old (before.get n.backup) = true ∧ w .renameBackup = none)
    ((rename_after n.target n.backup).weaken ?_ fun e d' h => h) ?_).bind
  · rintro _ d' ⟨aside, fits, free⟩
    apply (handling_after (Q := fun _ after => w .renameInstall = none ∧
      after = moved d' n.stage n.target (.dir files)) ((rename_after n.stage n.target).weaken ?_
        fun e d'' h => h) ?_).bind
    · rintro _ after ⟨installed, rfl⟩
      exact installed_after staged installed
    · rintro _ after ⟨entry, ⟨installed, is, -⟩, rfl⟩
      rw [aside.stage] at is
      cases is
      exact ⟨installed, rfl⟩
    · rintro e after ⟨rfl, refused⟩
      have fault : w .renameInstall ≠ none := fun installed => refused (.dir files)
        ⟨installed, aside.stage, by rw [aside.target]; rfl⟩
      exact (aside.restore e (ready old found fits free fault)).weaken (fun _ _ h => h.elim)
        fun _ _ h => h
  · rintro _ after ⟨entry, ⟨free, is, fits⟩, rfl⟩
    rw [target] at is
    cases is
    rw [backup] at fits
    exact ⟨aside_of_moved stage found, fits, free⟩
  · rintro e after ⟨rfl, refused⟩
    apply abandon_kept same _ fun d' h => .inl h
    intro strands
    obtain ⟨old', found', fits⟩ := strands.old
    rw [found] at found'
    cases found'
    exact refused old ⟨strands.backup, target, by rw [backup]; exact fits⟩

theorem createParent_after :
    After (createParent w) d (fun _ d' => w .createParent = none ∧ d' = d)
      (fun _ d' => w .createParent ≠ none ∧ d' = d) := by
  unfold After createParent
  cases fault : w .createParent with
  | none | some => simp

theorem createStaging_after :
    After (createStaging w n) d (fun _ d' => w .createStage = none ∧ SameBut n d d')
      (fun _ d' => w .createStage ≠ none ∧ d' = d) := by
  unfold After createStaging
  cases fault : w .createStage with
  | none => exact ⟨rfl, sameBut_set _⟩
  | some e => simp

theorem fillStage_after :
    After (fillStage w n document) d
      (fun _ d' => SameBut n d d' ∧ ∃ files, writeStaged w document ∅ = .ok () files ∧
        d'.get n.stage = some (.dir files))
      (fun _ d' => SameBut n d d' ∧ ∀ files, writeStaged w document ∅ ≠ .ok () files) := by
  unfold After fillStage
  cases run : writeStaged w document ∅ with
  | ok _ files => exact ⟨sameBut_set _, files, rfl, by rw [Table.get_set, if_pos rfl]⟩
  | error e files => exact ⟨sameBut_set _, by simp⟩

/-- Where the old output is not seen, it is not moved. -/
theorem fresh_after {files : Files} (same : SameBut n before d)
    (stage : d.get n.stage = some (.dir files)) (staged : writeStaged w document ∅ = .ok () files)
    (no : ¬ Strands w n document before) :
    After (do
        handling (rename w .renameNew n.stage n.target) (abandon w n)
        return manifest document n.target : Io OutputManifest) d
      (fun _ after => (∃ files, writeStaged w document ∅ = .ok () files ∧
        after.get n.target = some (.dir files)) ∧ ¬ Strands w n document before)
      fun _ after => Outcome w n document before after := by
  apply (handling_after (Q := fun _ after => after.get n.target = some (.dir files))
    ((rename_after n.stage n.target).weaken ?_ fun e d' h => h) ?_).bind
  · intro _ after installed
    exact After.pure ⟨⟨files, staged, installed⟩, no⟩
  · rintro _ after ⟨entry, ⟨-, is, -⟩, rfl⟩
    rw [stage] at is
    cases is
    rw [get_moved, if_pos rfl]
  · rintro e after ⟨rfl, -⟩
    exact abandon_kept same no fun d' h => .inl h

/-- A question that fails counts as the answer no. -/
theorem pathExists_after (name : Text) {E : Error → Parent → Prop} :
    After (pathExists w name) d
      (fun seen d' => d' = d ∧ (seen = true ↔ w .exists = none ∧ (d.get name).isSome = true)) E := by
  show _ ∧ _
  simp [Option.isNone_iff_eq_none]

/-- The whole call, with every way on which it can end. -/
theorem writeOutputsWith_after (w : Faults) (n : Names) (document : Document) (before : Parent) :
    After (writeOutputsWith w n document) before
      (fun _ after => (∃ files, writeStaged w document ∅ = .ok () files ∧
        after.get n.target = some (.dir files)) ∧ ¬ Strands w n document before)
      fun _ after => Outcome w n document before after := by
  have start : SameBut n before before := fun _ _ => rfl
  unfold writeOutputsWith
  cases valid : validateAssets document with
  | error e =>
    apply After.throw
    refine .inl ⟨start.kept, fun strands => ?_⟩
    rw [strands.valid] at valid
    cases valid
  | ok =>
    dsimp only
    apply (createParent_after.errors fun e d' h =>
      .inl ⟨h.2 ▸ start.kept, fun strands => h.1 strands.parent⟩).bind
    rintro _ d' ⟨parent, rfl⟩
    apply (createStaging_after.errors fun e d'' h =>
      .inl ⟨h.2 ▸ start.kept, fun strands => h.1 strands.stage⟩).bind
    rintro _ d₁ ⟨stage, same⟩
    apply (handling_after fillStage_after ?_).bind
    · rintro _ d₂ ⟨same', files, staged, there⟩
      have kept := same.trans same'
      have target := kept n.target n.stage_ne_target.symm
      apply (pathExists_after n.target).bind
      rintro seen _ ⟨rfl, iff⟩
      rw [target] at iff
      split
      · rename_i is
        obtain ⟨exists_, present⟩ := iff.mp is
        exact replace_after kept there staged present fun old found fits backup install restore
          removed => ⟨valid, parent, stage, ⟨files, staged⟩, exists_, ⟨old, found, fits⟩, backup,
            install, restore, removed⟩
      · rename_i unseen
        apply fresh_after kept there staged
        intro strands
        obtain ⟨old, found, -⟩ := strands.old
        exact unseen (iff.mpr ⟨strands.seen, by simp [found]⟩)
    · rintro e d₂ ⟨same', fails⟩
      apply abandon_kept (same.trans same') _ fun d' h => .inl h
      intro strands
      obtain ⟨files, staged⟩ := strands.staged
      exact fails files staged

end Endings

section Promise

variable {w : Faults} {n : Names} {document : Document} {before : Parent}

/-- The condition is not more than is needed: where it holds, the promise fails. -/
theorem Strands.breaks (strands : Strands w n document before) : ¬ Promise w n document before := by
  intro promise
  have both := (writeOutputsWith_after w n document before).and promise
  unfold After at both
  split at both
  · exact both.1.2 strands
  · obtain ⟨ends, kept⟩ := both
    rcases ends with ⟨-, no⟩ | ⟨lost, -⟩
    · exact no strands
    · obtain ⟨old, found⟩ := Option.ne_none_iff_exists'.mp lost.1
      rcases kept.old old found with there | there
      · simp [lost.2.1] at there
      · simp [lost.2.2] at there

/-- **Writing the outputs keeps its promise exactly when the faults do not strand the old output.**
They do if the old output is moved aside, the stage cannot be installed, the old output cannot be
moved back, and its backup can be removed. -/
theorem promise_iff (w : Faults) (n : Names) (document : Document) (before : Parent) :
    Promise w n document before ↔ ¬ Strands w n document before := by
  constructor
  · exact fun promise strands => strands.breaks promise
  · intro no
    exact (writeOutputsWith_after w n document before).weaken (fun _ _ h => h.1)
      fun _ _ h => (h.resolve_right fun lost => no lost.2).1

end Promise

/-- Neither the stage nor the old output can be moved to the target. -/
def stuckTarget : Faults
  | .renameInstall => some "Input/output error (os error 5)"
  | .renameRestore => some "Input/output error (os error 5)"
  | _ => none

def output : Names where
  target := text "out"
  stage := text ".mineru-stage-1-2-3"
  backup := text ".mineru-backup-1-2-4"
  stage_ne_target := by decide
  backup_ne_target := by decide
  backup_ne_stage := by decide

def oldOutput : Parent := Table.set ∅ (text "out") (.dir (Table.set ∅ [text "old.txt"] [111]))

/-- On that path the backup of the old output is removed as well. -/
theorem old_output_destroyed : ¬ Promise stuckTarget output ⟨[], [], [], [], []⟩ oldOutput :=
  Strands.breaks ⟨rfl, rfl, rfl, ⟨_, rfl⟩, rfl, ⟨_, rfl, rfl⟩, rfl, by simp [stuckTarget],
    by simp [stuckTarget], rfl⟩

end Mineru.Output
