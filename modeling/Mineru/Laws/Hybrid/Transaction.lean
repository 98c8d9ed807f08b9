import Mineru.Hybrid.Transaction
import Mineru.Laws.OfficialOutput.Install

/-!
# A transaction never loses the old bundle

The publication ends with the stage as the bundle, with the document directory as before, or with
the old bundle under the backup name. Each cleanup that follows leaves the document directory alone,
and the one that follows the last ending leaves the backup alone.

The publication and the three cleanups have a lemma each, which says how they end for any set of
faults, and `finishTransaction_after` runs through the pairs that can occur. A removal may be
partial: a directory tree that is being removed when a fault comes is neither whole nor gone, and is
then not relied upon.

Other processes are not modelled. The names of the transaction are its own.
-/

set_option autoImplicit false

namespace Mineru.Hybrid

open Logic OfficialOutput

/-! ## Operations -/

section Operations

variable {w : Faults} {s : State} {op : Op} {α : Type}

theorem rename_after (p q : Place) (n m : Text) :
    After (rename w op p n q m) s
      (fun _ s' => ∃ node, s.disk.get p n = some node ∧
        s' = { s with disk := s.disk.moved p n q m node })
      (fun _ s' => s' = s) := by
  unfold After rename Disk.rename
  cases w.fails op with
  | some e => rfl
  | none =>
    cases there : s.disk.get p n with
    | none => rfl
    | some node =>
      by_cases fits : replaces node (s.disk.get q m) = true
      · simp only [if_pos fits]
        exact ⟨node, rfl, rfl⟩
      · simp only [if_neg fits]

theorem failing_after {x : Io α} {handle : String → Publish α} {Q : α → State → Prop}
    {E : String × Bool → State → Prop} {E' : String → State → Prop} (h : After x s Q E')
    (handled : ∀ e s', E' e s' → After (handle e) s' Q E) : After (failing x handle) s Q E := by
  unfold After at h
  unfold failing
  cases run : x s with
  | ok a s' =>
    rw [run] at h
    unfold After
    simp only [run]
    exact h
  | error e s' =>
    rw [run] at h
    have after := handled e s' h
    unfold After at after ⊢
    simp only [run]
    exact after

theorem symlinkMetadata_after (name : Text) :
    After (symlinkMetadata w name) s (fun node s' => s' = s ∧ node = s.disk.get .output name)
      (fun _ s' => s' = s) := by
  unfold After symlinkMetadata
  cases w.fails .symlinkMetadata with
  | none => exact ⟨rfl, rfl⟩
  | some e => rfl

/-- Of the entries of both directories, only one of the transaction may be different. -/
structure Only (name : Text) (s s' : State) : Prop where
  output : ∀ other, s'.disk.get .output other = s.disk.get .output other
  staging : ∀ other, other ≠ name → s'.disk.get .staging other = s.disk.get .staging other
  gone : s'.gone = s.gone

theorem put_only (name : Text) (node : Option Node) : Only name s (s.put name node) := by
  cases node with
  | none =>
    refine ⟨fun other => ?_, fun other ne => ?_, rfl⟩
    · exact (Disk.get_remove s.disk .staging .output name other).trans (if_neg fun h => nomatch h.1)
    · exact (Disk.get_remove s.disk .staging .staging name other).trans (if_neg fun h => ne h.2)
  | some node =>
    refine ⟨fun other => ?_, fun other ne => ?_, rfl⟩
    · exact (Disk.get_set s.disk .staging .output name other node).trans
        (if_neg fun h => nomatch h.1)
    · exact (Disk.get_set s.disk .staging .staging name other node).trans (if_neg fun h => ne h.2)

theorem removePrivateEntry_after (op : Op) (name : Text) :
    After (removePrivateEntry w op name) s (fun _ => Only name s) (fun _ => Only name s) := by
  have refl : Only name s s := ⟨fun _ => rfl, fun _ _ => rfl, rfl⟩
  unfold After removePrivateEntry
  cases s.disk.get .staging name with
  | none =>
    cases w.fails op with
    | none | some => exact refl
  | some node =>
    cases w.fails op with
    | some e => exact put_only _ _
    | none =>
      cases node with
      | dir entries => exact put_only _ _
      | file | symlink => exact refl

theorem collected_after {label : String} {x : Io Unit} {Q : State → Prop} {E : String → State → Prop}
    (h : After x s (fun _ => Q) fun _ => Q) :
    After (collected label x) s (fun _ => Q) E := by
  unfold After at h
  unfold After collected
  cases run : x s with
  | ok | error =>
    rw [run] at h
    exact h

/-- No error was collected when the operation went well. -/
theorem collected_nil {label : String} {x : Io Unit} {Q Q' : State → Prop}
    {E : String → State → Prop} (h : After x s (fun _ => Q) fun _ => Q') :
    After (collected label x) s (fun errors s' => (errors = [] → Q s') ∧ (Q s' ∨ Q' s')) E := by
  unfold After at h
  unfold After collected
  cases run : x s with
  | ok a s' =>
    rw [run] at h
    exact ⟨fun _ => h, .inl h⟩
  | error e s' =>
    rw [run] at h
    exact ⟨fun none => by simp at none, .inr h⟩

/-- The document directory is the same. -/
def SameOutput (s s' : State) : Prop :=
  ∀ name, s'.disk.get .output name = s.disk.get .output name

theorem removeTransaction_after :
    After (removeTransaction w) s (fun _ s' => SameOutput s s' ∧ s'.gone = true)
      (fun _ s' => SameOutput s s') := by
  unfold After removeTransaction
  cases w.fails .removeTransaction with
  | some e => exact fun _ => rfl
  | none =>
    dsimp only
    by_cases empty : s.disk.staging.size = 0
    · rw [if_pos empty]
      exact ⟨fun _ => rfl, rfl⟩
    · rw [if_neg empty]
      exact fun _ => rfl

/-- The cleanup leaves the document directory alone, and it says so when the transaction is not
gone. -/
theorem cleanupTransaction_after :
    After (cleanupTransaction w) s (fun _ s' => SameOutput s s' ∧ s'.gone = true)
      (fun _ s' => SameOutput s s') := by
  apply (collected_after (removePrivateEntry_after _ stageName)).bind
  intro stage s₁ first
  apply (collected_after (removePrivateEntry_after _ backupName)).bind
  intro backup s₂ second
  have same : SameOutput s s₂ := fun name => (second.output name).trans (first.output name)
  apply (collected_nil removeTransaction_after).bind
  intro transaction s₃ third
  have same' : SameOutput s s₃ := by
    rcases third.2 with done | failed
    · exact fun name => (done.1 name).trans (same name)
    · exact fun name => (failed name).trans (same name)
  dsimp only
  split
  · rename_i none
    exact After.pure ⟨same', (third.1 (by simp at none; exact none.2.2)).2⟩
  · exact After.throw same'

theorem withError_after {x : Io Unit} {f : String → String} {Q : Unit → State → Prop}
    {E : String → State → Prop} (h : After x s Q fun e => E (f e)) : After (withError x f) s Q E := by
  unfold After at h
  unfold After withError
  cases run : x s with
  | ok | error =>
    rw [run] at h
    exact h

end Operations

/-! ## The publication -/

/-- A transaction directory as it is created: the stage is its one entry. -/
structure Staged (s : State) (staged : Node) : Prop where
  stage : s.disk.get .staging stageName = some staged
  only : ∀ name, name ≠ stageName → s.disk.get .staging name = none

/-- The stage is the bundle. -/
structure Published (s : State) (staged : Node) (s' : State) : Prop where
  bundle : s'.disk.get .output bundleName = some staged
  others : ∀ name, name ≠ bundleName → s'.disk.get .output name = s.disk.get .output name

/-- The old bundle is complete under the backup name. -/
structure Preserved (s s' : State) : Prop where
  old : ∃ old, s.disk.get .output bundleName = some old ∧
    s'.disk.get .staging backupName = some old
  others : ∀ name, name ≠ bundleName → s'.disk.get .output name = s.disk.get .output name

section Publication

variable {w : Faults} {s d : State} {staged old : Node}

theorem oldBundle_after :
    After (oldBundle w) s
      (fun is s' => s' = s ∧ is = (s.disk.get .output bundleName).isSome)
      (fun e s' => s' = s ∧ e.2 = false) := by
  apply (failing_after (symlinkMetadata_after bundleName) fun e s' same =>
    After.throw ⟨same, rfl⟩).bind
  rintro found _ ⟨rfl, rfl⟩
  split
  · exact After.throw ⟨rfl, rfl⟩
  · exact After.throw ⟨rfl, rfl⟩
  · rename_i entries found
    exact After.pure ⟨rfl, by rw [found]; rfl⟩
  · rename_i none
    exact After.pure ⟨rfl, by rw [none]; rfl⟩

/-- The state with the old bundle aside. -/
structure Aside (s : State) (staged old : Node) (d : State) : Prop where
  before : s.disk.get .output bundleName = some old
  stage : d.disk.get .staging stageName = some staged
  backup : d.disk.get .staging backupName = some old
  others : ∀ name, name ≠ bundleName → d.disk.get .output name = s.disk.get .output name

theorem aside_of_moved (ready : Staged s staged) (found : s.disk.get .output bundleName = some old) :
    Aside s staged old
      { s with disk := s.disk.moved .output bundleName .staging backupName old } where
  before := found
  stage := by
    dsimp only
    rw [Disk.get_moved, if_neg (fun h => absurd h.2 (by decide)), if_neg (fun h => nomatch h.1)]
    exact ready.stage
  backup := by
    dsimp only
    rw [Disk.get_moved, if_pos ⟨rfl, rfl⟩]
  others name other := by
    dsimp only
    rw [Disk.get_moved, if_neg (fun h => nomatch h.1), if_neg (fun h => other h.2)]

/-- How the publication fails: the old bundle is in the transaction, or the document directory is as
before. -/
def PublishFailed (s : State) (e : String × Bool) (s' : State) : Prop :=
  if e.2 then Preserved s s' else SameOutput s s'

theorem Aside.rollback (h : Aside s staged old d) (e : String) :
    After (installFailed w true e) d (fun _ => Published s staged) (PublishFailed s) := by
  show After (failing _ _ >>= fun _ => _) d _ _
  apply (failing_after (Q := fun _ s' => SameOutput s s') ((rename_after _ _ _ _).weaken ?_
    fun e s' h => h) ?_).bind
  · intro _ s' same
    exact After.throw same
  · rintro _ s' ⟨node, found, rfl⟩ name
    rw [h.backup] at found
    cases found
    dsimp only
    rw [Disk.get_moved]
    by_cases is : name = bundleName
    · rw [if_pos ⟨rfl, is⟩, is, h.before]
    · rw [if_neg (fun both => is both.2), if_neg (fun both => nomatch both.1)]
      exact h.others name is
  · rintro e' s' rfl
    exact After.throw ⟨⟨old, h.before, h.backup⟩, h.others⟩

theorem install_after (stage : d.disk.get .staging stageName = some staged)
    (others : ∀ name, name ≠ bundleName → d.disk.get .output name = s.disk.get .output name)
    {targetExists : Bool} (failed : ∀ e, After (installFailed w targetExists e) d
      (fun _ => Published s staged) (PublishFailed s)) :
    After (failing (rename w .renameInstall .staging stageName .output bundleName)
      (installFailed w targetExists)) d (fun _ => Published s staged) (PublishFailed s) := by
  apply failing_after ((rename_after _ _ _ _).weaken ?_ fun e s' h => h)
  · rintro e s' rfl
    exact failed e
  · rintro _ s' ⟨node, found, rfl⟩
    rw [stage] at found
    cases found
    constructor
    · dsimp only
      rw [Disk.get_moved, if_pos ⟨rfl, rfl⟩]
    · intro name other
      dsimp only
      rw [Disk.get_moved, if_neg (fun h => other h.2), if_neg (fun h => nomatch h.1)]
      exact others name other

theorem publish_after (ready : Staged s staged) :
    After (publishTransactionInner w) s (fun _ => Published s staged) (PublishFailed s) := by
  apply (oldBundle_after.errors fun e s' h => ?_).bind
  · rintro targetExists s' ⟨same, is⟩
    rw [same]
    cases targetExists with
    | true =>
      obtain ⟨old, found⟩ := Option.isSome_iff_exists.mp is.symm
      show After (failing _ _ >>= fun _ => _) s _ _
      apply (failing_after (Q := fun _ s' => Aside s staged old s')
        ((rename_after _ _ _ _).weaken ?_ fun e s' h => h) ?_).bind
      · intro _ d aside
        exact install_after aside.stage aside.others aside.rollback
      · rintro _ s' ⟨node, there, rfl⟩
        rw [found] at there
        cases there
        exact aside_of_moved ready found
      · rintro e s' rfl
        exact After.throw fun _ => rfl
    | false =>
      exact install_after ready.stage (fun _ _ => rfl) fun e => After.throw fun _ => rfl
  · obtain ⟨rfl, no⟩ := h
    unfold PublishFailed
    rw [no]
    exact fun _ => rfl

/-- The cleanup of the stage alone keeps the backup. -/
theorem preserve_after (path message : String) (h : Preserved s d) :
    After (preserve w path message) d (fun _ _ => False) (fun _ => Preserved s) := by
  have cleaned := removePrivateEntry_after (w := w) (s := d) .removeStage stageName
  have keeps : ∀ s', Only stageName d s' → Preserved s s' := by
    intro s' only
    obtain ⟨old, before, there⟩ := h.old
    exact ⟨⟨old, before, (only.staging _ (by decide)).trans there⟩, fun name other =>
      (only.output name).trans (h.others name other)⟩
  unfold After at cleaned ⊢
  unfold preserve cleanupStageOnly
  split at cleaned
  · rename_i run
    simp only [run]
    exact keeps _ cleaned
  · rename_i run
    simp only [run]
    exact keeps _ cleaned

end Publication

/-- What a call leaves when it fails: the document directory as it was, or the stage as the bundle
with only the cleanup left to do, or the old bundle under the backup name. -/
def Failed (s : State) (staged : Node) (path e : String) (s' : State) : Prop :=
  SameOutput s s' ∨ (Published s staged s' ∧ ∃ cleanup, e = publishedError path cleanup) ∨
    Preserved s s'

section Ending

variable {w : Faults} {path : String} {s d : State} {staged : Node}

/-- The cleanup after a publication. -/
theorem cleaned_after (path : String) (published : Published s staged d) :
    After (withError (cleanupTransaction w) (publishedError path)) d
      (fun _ s' => Published s staged s' ∧ s'.gone = true) (Failed s staged path) := by
  have still : ∀ s', SameOutput d s' → Published s staged s' := fun s' same =>
    ⟨(same _).trans published.bundle, fun name other =>
      (same name).trans (published.others name other)⟩
  apply withError_after
  apply cleanupTransaction_after.weaken
  · exact fun _ s' h => ⟨still s' h.1, h.2⟩
  · exact fun e s' h => .inr (.inl ⟨still s' h, e, rfl⟩)

/-- The cleanup after a failure that left the document directory as it was. -/
theorem abandoned_after (path message : String) (staged : Node) (same : SameOutput s d) {Q : Unit → State → Prop} :
    After (do
      withError (cleanupTransaction w) (cleanupFailure message path)
      throw message : Io Unit) d Q (Failed s staged path) := by
  have still : ∀ s', SameOutput d s' → SameOutput s s' := fun s' h name =>
    (h name).trans (same name)
  apply (withError_after (cleanupTransaction_after.weaken (fun _ s' h => still s' h.1)
    fun e s' h => .inl (still s' h))).bind
  exact fun _ s' h => After.throw (.inl h)

end Ending

/-- **A transaction never loses the old bundle**: on success the bundle is the staged tree and the
transaction is gone. On an error, the bundle is the old entry, or it is the staged tree and only the
cleanup failed, or the old bundle is complete under the backup name. -/
theorem finishTransaction_after (w : Faults) (path : String) (s : State) (staged : Node)
    (ready : Staged s staged) :
    After (finishTransaction w path) s (fun _ s' => Published s staged s' ∧ s'.gone = true)
      (Failed s staged path) := by
  have published := publish_after (w := w) ready
  unfold After at published
  unfold finishTransaction
  split at published
  · rename_i d run
    have after := cleaned_after (w := w) path published
    unfold After at after ⊢
    simp only [run]
    exact after
  · rename_i e d run
    obtain ⟨message, kept⟩ := e
    cases kept with
    | true =>
      have after := (preserve_after (w := w) path message published).weaken
        (Q := fun _ s' => Published s staged s' ∧ s'.gone = true) (E := Failed s staged path)
        (fun _ _ h => h.elim) fun _ _ h => .inr (.inr h)
      unfold After at after ⊢
      simp only [run]
      exact after
    | false =>
      have after := abandoned_after (w := w) path message staged published
        (Q := fun _ s' => Published s staged s' ∧ s'.gone = true)
      unfold After at after ⊢
      simp only [run]
      exact after

/-- A bundle over an old one, where neither can be moved to its place. -/
def stuckBundle : Faults where
  fails
    | .renameInstall => some "Input/output error (os error 5)"
    | .renameRollback => some "Input/output error (os error 5)"
    | _ => none
  leaves _ := none

def oldBundleState : State where
  disk :=
    { output := Table.set ∅ bundleName (.dir [(text "a.md", .file [97])])
      staging := Table.set ∅ stageName (.dir [(text "a.md", .file [98])]) }
  gone := false

/-- The new bundle cannot be moved to its place, nor the old one back to it. -/
theorem stuckBundle_after :
    After (finishTransaction stuckBundle "out/.hybrid-v4-stage-1-0") oldBundleState
      (fun _ s' => Published oldBundleState (.dir [(text "a.md", .file [98])]) s' ∧ s'.gone = true)
      (Failed oldBundleState (.dir [(text "a.md", .file [98])]) "out/.hybrid-v4-stage-1-0") := by
  apply finishTransaction_after
  refine ⟨rfl, fun name other => ?_⟩
  show Table.get (Table.set ∅ stageName _) name = none
  rw [Table.get_set, if_neg other]
  rfl

end Mineru.Hybrid
