import Mineru.Archive.Commit
import Mineru.Laws.Archive.Entries

/-!
# Publication is all or nothing

`Pending` relates the tree to the tree before the commit through the three undo logs: a logged path
holds what its log says, and every other path of the root is as it was. Each operation of the
forward pass pushes at most one path on one log (`Pending.create`, `Pending.backUp`,
`Pending.install`), and each operation of the rollback takes the last one off (`Pending.unInstall`,
`Pending.unBackUp`, `Pending.unCreate`), so that empty logs mean an untouched root.

The forward pass keeps `Pending` at every point where it can fail (`forwardPass_after`). The
rollback then restores the root, unless one of its own operations fails (`rollback_spec`).
-/

set_option autoImplicit false

namespace Mineru.Archive

open Logic

/-! ## The transaction directory -/

/-- The directories that `ExtractionTransaction::new` opens. -/
def stageDir (txn : Text) : Dir := [txn, text "stage"]

def backupDir (txn : Text) : Dir := [txn, text "backup"]

/-- A path of the root outside the transaction directory. -/
def Outside (txn : Text) (p : Path) : Prop := p.head? ≠ some txn

/-- A path that an entry may have. -/
structure Writable (txn : Text) (p : Path) : Prop where
  ne : p ≠ []
  outside : Outside txn p
  part_ne : [] ∉ p

section
variable {txn : Text} {p q : Path}

/-- A path of the overlay never runs into the transaction directory, where the stage and the backup
are. -/
theorem Outside.ne_stage (h : Outside txn p) : p ≠ stageDir txn ++ q := by
  rintro rfl
  exact h rfl

theorem Outside.ne_backup (h : Outside txn p) : p ≠ backupDir txn ++ q := by
  rintro rfl
  exact h rfl

/-- The two halves of the transaction directory do not meet. -/
theorem stage_ne_backup : stageDir txn ++ p ≠ backupDir txn ++ q := by
  intro h
  have second : text "stage" = text "backup" := by
    have := congrArg (·[1]?) h
    exact Option.some.inj this
  exact absurd second (by decide)

theorem backup_inj : backupDir txn ++ p = backupDir txn ++ q ↔ p = q :=
  List.append_right_inj _

theorem stage_inj : stageDir txn ++ p = stageDir txn ++ q ↔ p = q :=
  List.append_right_inj _

/-- The part of a path in front of a name lies outside, too. -/
theorem Writable.of_prefix {r : Path} (h : Writable txn (p ++ r)) (ne : p ≠ []) : Writable txn p where
  ne := ne
  outside := by
    obtain ⟨a, p, rfl⟩ := List.exists_cons_of_ne_nil ne
    exact h.outside
  part_ne := fun mem => h.part_ne (List.mem_append_left _ mem)

theorem Outside.append (h : Outside txn p) (ne : p ≠ []) (r : Path) : Outside txn (p ++ r) := by
  obtain ⟨a, p, rfl⟩ := List.exists_cons_of_ne_nil ne
  exact h

end

/-! ## The undo logs -/

/-- The tree `disk` is `start` with the logged changes: `installed` paths hold their staged files,
the other `backedUp` paths are free and their nodes are in the backup, `created` paths are
directories, and the rest of the root is as it was. The fields behind `tree` are what lets the last
change of each log be undone. -/
structure Pending (start : Disk) (txn : Text) (installed backedUp created : List Path) (disk : Disk) :
    Prop where
  tree : ∀ p, Outside txn p → disk.get p =
    if p ∈ installed then start.get (stageDir txn ++ p)
    else if p ∈ backedUp then none
    else if p ∈ created then some .dir
    else start.get p
  saved : ∀ p ∈ backedUp, disk.get (backupDir txn ++ p) = start.get p
  held : ∀ p ∈ backedUp, ∃ a, start.get p = some (.leaf a)
  staged : ∀ p ∈ installed, ∃ a, start.get (stageDir txn ++ p) = some (.leaf a)
  fresh : ∀ p ∈ installed, p ∉ backedUp → start.get p = none
  apart : ∀ p ∈ installed, p ∉ created
  made : ∀ p ∈ created, start.get p = none
  order : created.Pairwise fun a b => ¬ b <+: a
  installed_nodup : installed.Nodup
  backedUp_nodup : backedUp.Nodup
  writable : ∀ p ∈ installed ++ backedUp ++ created, Writable txn p

namespace Pending

variable {start disk disk' : Disk} {txn : Text} {installed backedUp created : List Path} {p : Path}

/-- At the start of the commit the logs are empty and nothing has changed. -/
theorem init (start : Disk) (txn : Text) : Pending start txn [] [] [] start where
  tree := fun _ _ => rfl
  saved := fun _ mem => absurd mem List.not_mem_nil
  held := fun _ mem => absurd mem List.not_mem_nil
  staged := fun _ mem => absurd mem List.not_mem_nil
  fresh := fun _ mem => absurd mem List.not_mem_nil
  apart := fun _ mem => absurd mem List.not_mem_nil
  made := fun _ mem => absurd mem List.not_mem_nil
  order := .nil
  installed_nodup := .nil
  backedUp_nodup := .nil
  writable := fun _ mem => absurd mem List.not_mem_nil

/-- Empty logs: the root is as it was. -/
theorem restored (h : Pending start txn [] [] [] disk) (out : Outside txn p) :
    disk.get p = start.get p :=
  h.tree p out

/-- A change inside the transaction directory that keeps the backup. -/
theorem inside (h : Pending start txn installed backedUp created disk)
    (out : ∀ p, Outside txn p → disk'.get p = disk.get p)
    (kept : ∀ p, disk.get p ≠ none → disk'.get p = disk.get p) :
    Pending start txn installed backedUp created disk' :=
  { h with
    tree := fun p outside => (out p outside).trans (h.tree p outside)
    saved := by
      intro p mem
      obtain ⟨a, leaf⟩ := h.held p mem
      have there := h.saved p mem
      rw [kept _ (by rw [there, leaf]; exact Option.some_ne_none _), there] }

/-! ### Forward -/

/-- A path without a node has not been installed, since an installed path holds the staged file. -/
theorem ne_installed (h : Pending start txn installed backedUp created disk)
    (out : Outside txn p) (free : disk.get p = none) : p ∉ installed := by
  intro mem
  obtain ⟨a, leaf⟩ := h.staged p mem
  rw [h.tree p out, if_pos mem, leaf] at free
  cases free

/-- Where there is no directory none was created, as long as every backed-up path has got its
file. -/
theorem ne_created (h : Pending start txn installed backedUp created disk) (out : Outside txn p)
    (settled : ∀ q ∈ backedUp, q ∈ installed) (other : disk.get p ≠ some .dir) :
    p ∉ created := by
  intro mem
  have notInstalled : p ∉ installed := fun i => h.apart p i mem
  rw [h.tree p out, if_neg notInstalled, if_neg (fun b => notInstalled (settled p b)),
    if_pos mem] at other
  exact other rfl

theorem unlogged (h : Pending start txn installed backedUp created disk) (out : Outside txn p)
    (settled : ∀ q ∈ backedUp, q ∈ installed) (new : p ∉ installed)
    (other : disk.get p ≠ some .dir) : start.get p = disk.get p := by
  rw [h.tree p out, if_neg new, if_neg (fun b => new (settled p b)),
    if_neg (h.ne_created out settled other)]

/-- A new directory goes on the log. -/
theorem create (h : Pending start txn installed backedUp created disk) (ok : Writable txn p)
    (settled : ∀ q ∈ backedUp, q ∈ installed) (done : disk.createDir p = some disk') :
    Pending start txn installed backedUp (created ++ [p]) disk' := by
  have free := FileTree.createDir_vacant done
  have new := h.ne_installed ok.outside free
  have notDir : disk.get p ≠ some .dir := by rw [free]; exact nofun
  have get := FileTree.get_createDir done
  refine { h with tree := ?_, saved := ?_, apart := ?_, made := ?_, order := ?_, writable := ?_ }
  · intro q out
    rw [get]
    by_cases eq : q = p
    · subst eq
      rw [if_pos rfl, if_neg new, if_neg (fun b => new (settled q b)),
        if_pos (List.mem_append_right _ (List.mem_singleton_self q))]
    · rw [if_neg eq, h.tree q out]
      simp only [List.mem_append, List.mem_singleton, eq, or_false]
  · intro q mem
    rw [get, if_neg (fun eq => ok.outside.ne_backup eq.symm), h.saved q mem]
  · intro q mem log
    rcases List.mem_append.mp log with log | log
    · exact h.apart q mem log
    · exact new (List.mem_singleton.mp log ▸ mem)
  · intro q log
    rcases List.mem_append.mp log with log | log
    · exact h.made q log
    · rw [List.mem_singleton.mp log, h.unlogged ok.outside settled new notDir, free]
  · refine List.pairwise_append.mpr ⟨h.order, List.pairwise_singleton _ _, ?_⟩
    intro a mem b single below
    -- a directory below `p` was there, so `p` was a directory
    rw [List.mem_singleton.mp single] at below
    have writable := h.writable a (List.mem_append_right _ mem)
    have notInstalled : a ∉ installed := fun i => h.apart a i mem
    have there : disk.get a = some .dir := by
      rw [h.tree a writable.outside, if_neg notInstalled,
        if_neg (fun b => notInstalled (settled a b)), if_pos mem]
    obtain ⟨r, rfl⟩ := below
    cases r with
    | nil =>
      rw [List.append_nil] at there
      exact notDir there
    | cons n r =>
      exact notDir (FileTree.get_above (n :: r) (List.cons_ne_nil n r)
        (by rw [there]; exact Option.some_ne_none _))
  · rw [← List.append_assoc, List.forall_mem_append]
    exact ⟨h.writable, List.forall_mem_singleton.mpr ok⟩

/-- A leaf that is in the way goes to the backup. -/
theorem backUp (h : Pending start txn installed backedUp created disk) (ok : Writable txn p)
    (settled : ∀ q ∈ backedUp, q ∈ installed) (new : p ∉ installed)
    (done : disk.rename p (backupDir txn ++ p) = some disk') :
    Pending start txn installed (backedUp ++ [p]) created disk' := by
  obtain ⟨a, leaf⟩ := FileTree.rename_leaf done
  have get := FileTree.get_rename done
  have was : start.get p = some (.leaf a) := by
    rw [h.unlogged ok.outside settled new (by rw [leaf]; exact nofun), leaf]
  refine { h with
    tree := ?_, saved := ?_, held := ?_, fresh := ?_, backedUp_nodup := ?_, writable := ?_ }
  · intro q out
    rw [get, if_neg out.ne_backup]
    by_cases eq : q = p
    · subst eq
      rw [if_pos rfl, if_neg new, if_pos (List.mem_append_right _ (List.mem_singleton_self q))]
    · rw [if_neg eq, h.tree q out]
      simp only [List.mem_append, List.mem_singleton, eq, or_false]
  · intro q mem
    rw [get]
    by_cases eq : q = p
    · subst eq
      rw [if_pos rfl, leaf, was]
    · rw [if_neg (backup_inj.not.mpr eq), if_neg (fun e => ok.outside.ne_backup e.symm)]
      rcases List.mem_append.mp mem with mem | mem
      · exact h.saved q mem
      · exact absurd (List.mem_singleton.mp mem) eq
  · rw [List.forall_mem_append]
    exact ⟨h.held, List.forall_mem_singleton.mpr ⟨a, was⟩⟩
  · exact fun q mem log => h.fresh q mem fun b => log (List.mem_append_left _ b)
  · refine List.nodup_append.mpr ⟨h.backedUp_nodup, List.nodup_singleton _, ?_⟩
    rintro q mem _ single rfl
    exact new (settled p (List.mem_singleton.mp single ▸ mem))
  · intro q mem
    simp only [List.mem_append, List.mem_singleton] at mem
    rcases mem with (mem | mem | rfl) | mem
    · exact h.writable q (by simp [mem])
    · exact h.writable q (by simp [mem])
    · exact ok
    · exact h.writable q (by simp [mem])

/-- A staged file goes to a free path. -/
theorem install (h : Pending start txn installed backedUp created disk) (ok : Writable txn p)
    (free : disk.get p = none) (wait : disk.get (stageDir txn ++ p) = start.get (stageDir txn ++ p))
    (done : disk.rename (stageDir txn ++ p) p = some disk') :
    Pending start txn (installed ++ [p]) backedUp created disk' := by
  obtain ⟨a, leaf⟩ := FileTree.rename_leaf done
  have get := FileTree.get_rename done
  have new := h.ne_installed ok.outside free
  have value := h.tree p ok.outside
  rw [free, if_neg new] at value
  refine { h with
    tree := ?_, saved := ?_, staged := ?_, fresh := ?_, apart := ?_, installed_nodup := ?_,
    writable := ?_ }
  · intro q out
    rw [get]
    by_cases eq : q = p
    · subst eq
      rw [if_pos rfl, if_pos (List.mem_append_right _ (List.mem_singleton_self q)), wait]
    · rw [if_neg eq, if_neg out.ne_stage, h.tree q out]
      simp only [List.mem_append, List.mem_singleton, eq, or_false]
  · intro q mem
    rw [get, if_neg (fun e => ok.outside.ne_backup e.symm), if_neg (fun e => stage_ne_backup e.symm),
      h.saved q mem]
  · rw [List.forall_mem_append]
    exact ⟨h.staged, List.forall_mem_singleton.mpr ⟨a, wait ▸ leaf⟩⟩
  · rw [List.forall_mem_append]
    refine ⟨h.fresh, List.forall_mem_singleton.mpr fun log => ?_⟩
    rw [if_neg log] at value
    split at value
    · cases value
    · exact value.symm
  · rw [List.forall_mem_append]
    refine ⟨h.apart, List.forall_mem_singleton.mpr fun log => ?_⟩
    rw [if_pos log] at value
    split at value
    · rename_i both
      obtain ⟨b, was⟩ := h.held p both
      rw [h.made p log] at was
      cases was
    · cases value
  · refine List.nodup_append.mpr ⟨h.installed_nodup, List.nodup_singleton _, ?_⟩
    rintro q mem _ single rfl
    exact new (List.mem_singleton.mp single ▸ mem)
  · intro q mem
    simp only [List.mem_append, List.mem_singleton] at mem
    rcases mem with ((mem | rfl) | mem) | mem
    · exact h.writable q (by simp [mem])
    · exact ok
    · exact h.writable q (by simp [mem])
    · exact h.writable q (by simp [mem])

/-! ### Backward -/

theorem mem_concat_ne {l : List Path} {q : Path} (eq : q ≠ p) : q ∈ l ++ [p] ↔ q ∈ l := by
  simp only [List.mem_append, List.mem_singleton, eq, or_false]

theorem not_mem_of_nodup_concat {l : List Path} (h : (l ++ [p]).Nodup) : p ∉ l := fun mem =>
  (List.nodup_append.mp h).2.2 p mem p (List.mem_singleton_self p) rfl

/-- The last installed file is removed. -/
theorem unInstall (h : Pending start txn (installed ++ [p]) backedUp created disk)
    (done : disk.removeLeaf p = some disk') :
    Pending start txn installed backedUp created disk' := by
  have last : p ∈ installed ++ [p] := List.mem_append_right _ (List.mem_singleton_self p)
  have new := not_mem_of_nodup_concat h.installed_nodup
  have sub : ∀ {q}, q ∈ installed → q ∈ installed ++ [p] := fun mem => List.mem_append_left _ mem
  have ok := h.writable p (by simp)
  have get := FileTree.get_removeLeaf done
  refine
    { h with
      tree := ?_, saved := ?_
      staged := fun q mem => h.staged q (sub mem)
      fresh := fun q mem => h.fresh q (sub mem)
      apart := fun q mem => h.apart q (sub mem)
      installed_nodup := (List.nodup_append.mp h.installed_nodup).1
      writable := fun q mem => h.writable q (by simp only [List.mem_append] at mem ⊢; tauto) }
  · intro q out
    rw [get]
    by_cases eq : q = p
    · subst eq
      rw [if_pos rfl, if_neg new, if_neg (h.apart q last)]
      split
      · rfl
      · exact (h.fresh q last ‹_›).symm
    · rw [if_neg eq, h.tree q out]
      simp only [mem_concat_ne eq]
  · intro q mem
    rw [get, if_neg (fun eq => ok.outside.ne_backup eq.symm), h.saved q mem]

/-- The last backed-up node comes back. -/
theorem unBackUp (h : Pending start txn [] (backedUp ++ [p]) created disk)
    (done : disk.rename (backupDir txn ++ p) p = some disk') :
    Pending start txn [] backedUp created disk' := by
  have last : p ∈ backedUp ++ [p] := List.mem_append_right _ (List.mem_singleton_self p)
  have new := not_mem_of_nodup_concat h.backedUp_nodup
  have ok := h.writable p (by simp)
  have get := FileTree.get_rename done
  obtain ⟨a, was⟩ := h.held p last
  have old : p ∉ created := fun log => by
    rw [h.made p log] at was
    cases was
  refine
    { h with
      tree := ?_, saved := ?_
      held := fun q mem => h.held q (List.mem_append_left _ mem)
      fresh := fun q mem => absurd mem List.not_mem_nil
      backedUp_nodup := (List.nodup_append.mp h.backedUp_nodup).1
      writable := fun q mem => h.writable q (by simp only [List.mem_append] at mem ⊢; tauto) }
  · intro q out
    rw [get]
    by_cases eq : q = p
    · subst eq
      rw [if_pos rfl, if_neg List.not_mem_nil, if_neg new, if_neg old, h.saved q last]
    · rw [if_neg eq, if_neg out.ne_backup, h.tree q out]
      simp only [mem_concat_ne eq]
  · intro q mem
    have other : q ≠ p := by
      rintro rfl
      exact new mem
    rw [get, if_neg (fun eq => ok.outside.ne_backup eq.symm), if_neg (backup_inj.not.mpr other),
      h.saved q (List.mem_append_left _ mem)]

/-- The last created directory is removed. -/
theorem unCreate (h : Pending start txn [] [] (created ++ [p]) disk)
    (done : disk.removeDir p = some disk') : Pending start txn [] [] created disk' := by
  have new : p ∉ created := fun mem =>
    (List.pairwise_append.mp h.order).2.2 p mem p (List.mem_singleton_self p) (List.prefix_refl p)
  have get := FileTree.get_removeDir done
  refine
    { h with
      tree := ?_
      saved := fun q mem => absurd mem List.not_mem_nil
      apart := fun q mem => absurd mem List.not_mem_nil
      made := fun q mem => h.made q (List.mem_append_left _ mem)
      order := (List.pairwise_append.mp h.order).1
      writable := fun q mem => h.writable q (by simp only [List.mem_append] at mem ⊢; tauto) }
  intro q out
  rw [get]
  by_cases eq : q = p
  · subst eq
    rw [if_pos rfl, if_neg List.not_mem_nil, if_neg List.not_mem_nil, if_neg new,
      h.made q (List.mem_append_right _ (List.mem_singleton_self q))]
  · rw [if_neg eq, h.tree q out]
    simp only [mem_concat_ne eq]

theorem canRemove (h : Pending start txn (installed ++ [p]) backedUp created disk) :
    ∃ a, disk.get p = some (.leaf a) := by
  have last : p ∈ installed ++ [p] := List.mem_append_right _ (List.mem_singleton_self p)
  rw [h.tree p (h.writable p (by simp)).outside, if_pos last]
  exact h.staged p last

/-- The node in the backup is there, its parent is, and its old path is free: what the restoring
rename asks for. -/
theorem canRestore (h : Pending start txn [] (backedUp ++ [p]) created disk) :
    (∃ a, disk.get (backupDir txn ++ p) = some (.leaf a)) ∧
      disk.get p.dropLast = some .dir ∧ disk.get p = none := by
  have last : p ∈ backedUp ++ [p] := List.mem_append_right _ (List.mem_singleton_self p)
  have ok := h.writable p (by simp)
  obtain ⟨a, was⟩ := h.held p last
  refine ⟨⟨a, (h.saved p last).trans was⟩, ?_, ?_⟩
  · have parent := FileTree.get_dropLast ok.ne (by rw [was]; exact Option.some_ne_none _)
    by_cases root : p.dropLast = []
    · rw [root]
      exact FileTree.get_root _
    · have out : Writable txn p.dropLast :=
        Writable.of_prefix (r := [p.getLast ok.ne]) (by rwa [List.dropLast_concat_getLast]) root
      have notHeld : p.dropLast ∉ backedUp ++ [p] := fun mem => by
        obtain ⟨b, leaf⟩ := h.held _ mem
        rw [parent] at leaf
        cases leaf
      have old : p.dropLast ∉ created := fun log => by
        rw [h.made _ log] at parent
        cases parent
      rw [h.tree _ out.outside, if_neg List.not_mem_nil, if_neg notHeld, if_neg old, parent]
  · rw [h.tree p ok.outside, if_neg List.not_mem_nil, if_pos last]

/-- The last created directory is empty, because everything in it was created or installed later and
has been undone. -/
theorem canClear (h : Pending start txn [] [] (created ++ [p]) disk) :
    disk.get p = some .dir ∧ ∀ n, disk.get (p ++ [n]) = none := by
  have last : p ∈ created ++ [p] := List.mem_append_right _ (List.mem_singleton_self p)
  have ok := h.writable p (by simp)
  refine ⟨?_, fun n => ?_⟩
  · rw [h.tree p ok.outside, if_neg List.not_mem_nil, if_neg List.not_mem_nil, if_pos last]
  · have vacant : start.get (p ++ [n]) = none :=
      FileTree.get_below (by rw [h.made p last]; exact nofun) (List.cons_ne_nil n [])
    have old : p ++ [n] ∉ created ++ [p] := by
      intro log
      rcases List.mem_append.mp log with log | log
      · exact (List.pairwise_append.mp h.order).2.2 _ log p (List.mem_singleton_self p)
          (List.prefix_append p [n])
      · exact absurd (List.mem_singleton.mp log) (by simp)
    rw [h.tree _ (ok.outside.append ok.ne [n]), if_neg List.not_mem_nil, if_neg List.not_mem_nil,
      if_neg old, vacant]

end Pending

/-! ## Single operations -/

/-- An operation failed between two counts. -/
def Faulted (w : World) (a b : Nat) : Prop := ∃ k, a ≤ k ∧ k < b ∧ w.fails k = true

theorem Faulted.mono {w : World} {a a' b b' : Nat} (h : Faulted w a b) (ha : a' ≤ a) (hb : b ≤ b') :
    Faulted w a' b' := by
  obtain ⟨k, low, high, fails⟩ := h
  exact ⟨k, Nat.le_trans ha low, Nat.lt_of_lt_of_le high hb, fails⟩

section
variable {w : World} {s : CommitState}

theorem checkCancellation_after :
    After (checkCancellation w) s (fun _ s' => s' = s.step) (fun _ s' => s' = s.step) := by
  unfold After checkCancellation
  cases w.cancelled s.steps <;> rfl

/-- The operation takes place, or the state stays as it is. -/
theorem perform_after {message : String} {operation : Disk → Option Disk} :
    After (perform w message operation) s
      (fun _ s' => ∃ disk, operation s.disk = some disk ∧ s' = { s.step with disk })
      (fun _ s' => s' = s.step ∧ (w.fails s.steps = true ∨ operation s.disk = none)) := by
  unfold After perform
  cases fault : w.fails s.steps with
  | true => exact ⟨rfl, Or.inl rfl⟩
  | false =>
    cases result : operation s.disk with
    | none => exact ⟨rfl, Or.inr rfl⟩
    | some disk => exact ⟨disk, rfl, rfl⟩

theorem tryClone_after {dir : Dir} {message : String} :
    After (tryClone w dir message) s (fun d s' => d = dir ∧ s' = s.step)
      (fun _ s' => s' = s.step ∧ w.fails s.steps = true) := by
  refine After.bind (perform_after.errors fun _ s' => ?_) fun _ s' h => ?_
  · rintro ⟨rfl, fault | none⟩
    · exact ⟨rfl, fault⟩
    · cases none
  · obtain ⟨disk, same, rfl⟩ := h
    cases same
    exact After.pure ⟨rfl, rfl⟩

/-- What `symlink_metadata` may answer. -/
inductive Answers (w : World) (s : CommitState) (p : Path) : Metadata → Prop where
  | found (node : Node Leaf) (get : s.disk.get p = some node) : Answers w s p (.found node)
  | notFound (get : s.disk.get p = none) : Answers w s p .notFound
  | failed (fault : w.fails s.steps = true) : Answers w s p .failed

/-- The answer to a question about a path is that of the tree at this point. An error to it is an
answer as well, so the question itself never ends the pass. -/
theorem symlinkMetadata_after {dir : Dir} {name : Text} :
    After (symlinkMetadata w dir name) s
      (fun m s' => Answers w s (dir ++ [name]) m ∧ s' = s.step) (fun _ _ => False) := by
  unfold After symlinkMetadata
  cases fault : w.fails s.steps with
  | true => exact ⟨.failed fault, rfl⟩
  | false =>
    cases get : s.disk.get (dir ++ [name]) with
    | none => exact ⟨.notFound get, rfl⟩
    | some node => exact ⟨.found node get, rfl⟩

/-- A directory is opened where there is one. Otherwise the reason is a failing operation or the
tree. -/
theorem openDirNofollow_after {dir : Dir} {name : Text} {message : String} :
    After (openDirNofollow w dir name message) s
      (fun d s' => d = dir ++ [name] ∧ s' = s.step ∧ s.disk.get d = some .dir)
      (fun _ s' => s' = s.step ∧
        (w.fails s.steps = true ∨ s.disk.get (dir ++ [name]) ≠ some .dir)) := by
  refine After.bind (perform_after.errors fun _ s' => ?_) fun _ s' h => ?_
  · rintro ⟨rfl, fault | none⟩
    · exact ⟨rfl, Or.inl fault⟩
    · refine ⟨rfl, Or.inr fun dir => ?_⟩
      rw [if_pos (FileTree.isDir_iff.mpr dir)] at none
      cases none
  · obtain ⟨disk, result, rfl⟩ := h
    split at result
    · cases result
      exact After.pure ⟨rfl, rfl, FileTree.isDir_iff.mp ‹_›⟩
    · cases result

end

/-! ## The rollback -/

/-- Every run of `x` counts forward, whatever the state. -/
def Counts {α : Type} (x : Commit α) : Prop :=
  ∀ s, After x s (fun _ s' => s.steps ≤ s'.steps) (fun _ s' => s.steps ≤ s'.steps)

namespace Counts

variable {α β : Type} {w : World}

theorem pure {a : α} : Counts (pure a) := fun _ => Nat.le_refl _

theorem throw {e : String} : Counts (throw e : Commit α) := fun _ => Nat.le_refl _

/-- Counting of operations goes through a sequence: steps only grow. -/
theorem bind {x : Commit α} {f : α → Commit β} (hx : Counts x) (hf : ∀ a, Counts (f a)) :
    Counts (x >>= f) := fun s =>
  After.bind (hx s) fun a s' le =>
    (hf a s').weaken (fun _ _ le' => Nat.le_trans le le') (fun _ _ le' => Nat.le_trans le le')

theorem perform {message : String} {operation : Disk → Option Disk} :
    Counts (perform w message operation) := fun _ =>
  perform_after.weaken (fun _ _ ⟨_, _, eq⟩ => eq ▸ Nat.le_succ _) (fun _ _ h => h.1 ▸ Nat.le_succ _)

theorem symlinkMetadata {dir : Dir} {name : Text} : Counts (symlinkMetadata w dir name) := fun _ =>
  symlinkMetadata_after.weaken (fun _ _ h => h.2 ▸ Nat.le_succ _) (fun _ _ => False.elim)

theorem relativeParts {path : Path} : Counts (relativeParts path) := by
  unfold Archive.relativeParts
  split
  · split
    · exact throw
    · exact pure
  · exact throw

theorem existingParent {root : Dir} {parts : List Text} : Counts (existingParent w root parts) := by
  have loop : ∀ (parts : List Text) (dir : Dir), Counts (existingParentLoop w parts dir) := by
    intro parts
    induction parts with
    | nil => exact fun _ => pure
    | cons name parts ih =>
      intro dir
      refine bind symlinkMetadata fun there => ?_
      split
      · exact bind (bind perform fun _ => pure) fun _ => ih _
      · exact throw
      · exact throw
  exact bind (bind perform fun _ => pure) fun _ => loop parts _

end Counts

/-- An existing parent is found, unless an operation fails. -/
theorem existingParentLoop_after {w : World} {parts : List Text} :
    ∀ {dir : Dir} {s : CommitState}, s.disk.get (dir ++ parts) = some .dir →
      After (existingParentLoop w parts dir) s
        (fun d s' => d = dir ++ parts ∧ s'.disk = s.disk ∧ s.steps ≤ s'.steps)
        (fun _ s' => Faulted w s.steps s'.steps) := by
  induction parts with
  | nil => exact fun _ => After.pure ⟨(List.append_nil _).symm, rfl, Nat.le_refl _⟩
  | cons name parts ih =>
    intro dir s there
    have split : dir ++ name :: parts = dir ++ [name] ++ parts := by simp
    rw [split] at there ⊢
    have here : s.disk.get (dir ++ [name]) = some .dir := by
      cases parts with
      | nil => rwa [List.append_nil] at there
      | cons n r =>
        exact FileTree.get_above _ (List.cons_ne_nil n r) (by rw [there]; exact Option.some_ne_none _)
    refine (symlinkMetadata_after.errors fun _ _ => False.elim).bind ?_
    rintro answer s₁ ⟨answers, rfl⟩
    cases answers with
    | found node get =>
      rw [here] at get
      cases get
      refine (openDirNofollow_after.errors fun _ s₂ => ?_).bind ?_
      · rintro ⟨rfl, fault | none⟩
        · exact ⟨s.step.steps, Nat.le_succ _, Nat.lt_succ_self _, fault⟩
        · exact absurd here none
      · rintro _ _ ⟨rfl, rfl, _⟩
        refine (ih (s := s.step.step) there).weaken ?_ ?_
        · rintro d s' ⟨rfl, disk, steps⟩
          exact ⟨rfl, disk, Nat.le_trans (Nat.le_add_right s.steps 2) steps⟩
        · exact fun _ s' fault => fault.mono (Nat.le_add_right s.steps 2) (Nat.le_refl _)
    | notFound get =>
      rw [here] at get
      cases get
    | failed fault =>
      exact After.throw ⟨s.steps, Nat.le_refl _, Nat.lt_succ_self _, fault⟩

/-- The rollback opens the parent of a path step by step. Where that directory stands in the tree,
only a failing operation keeps it from being found. -/
theorem existingParent_after {w : World} {root : Dir} {parts : List Text} {s : CommitState}
    (there : s.disk.get (root ++ parts) = some .dir) :
    After (existingParent w root parts) s
      (fun d s' => d = root ++ parts ∧ s'.disk = s.disk ∧ s.steps ≤ s'.steps)
      (fun _ s' => Faulted w s.steps s'.steps) := by
  refine (tryClone_after.errors fun _ s₁ => ?_).bind ?_
  · rintro ⟨rfl, fault⟩
    exact ⟨s.steps, Nat.le_refl _, Nat.lt_succ_self _, fault⟩
  · rintro _ _ ⟨rfl, rfl⟩
    refine (existingParentLoop_after (s := s.step) there).weaken ?_ ?_
    · rintro d s' ⟨rfl, disk, steps⟩
      exact ⟨rfl, disk, Nat.le_of_succ_le steps⟩
    · exact fun _ s' fault => fault.mono (Nat.le_succ _) (Nat.le_refl _)

theorem relativeParts_after {path : Path} {s : CommitState} {E : String → CommitState → Prop}
    (ne : path ≠ []) (part_ne : [] ∉ path) :
    After (relativeParts path) s
      (fun out s' => out = (path.dropLast, path.getLast ne) ∧ s = s') E := by
  unfold relativeParts
  simp only [List.getLast?_eq_some_getLast ne, if_neg part_ne]
  exact After.pure ⟨rfl, rfl⟩

/-- An operation that can take place does, unless it fails. -/
theorem perform_unless {w : World} {message : String} {operation : Disk → Option Disk}
    {s : CommitState} (can : (operation s.disk).isSome = true) :
    After (perform w message operation) s
      (fun _ s' => operation s.disk = some s'.disk ∧ s' = { s.step with disk := s'.disk })
      (fun _ s' => Faulted w s.steps s'.steps) := by
  refine perform_after.weaken ?_ ?_
  · rintro _ _ ⟨disk, result, rfl⟩
    exact ⟨result, rfl⟩
  · rintro _ _ ⟨rfl, fault | none⟩
    · exact ⟨s.steps, Nat.le_refl _, Nat.lt_succ_self _, fault⟩
    · rw [none] at can
      cases can

/-- The three undo operations: the parent of `p` is opened, and the operation takes place there. -/
theorem undo_after {w : World} {p : Path} {s : CommitState} (operation : Dir → Disk → Option Disk)
    (ne : p ≠ []) (parent : s.disk.get p.dropLast = some .dir)
    (can : (operation p s.disk).isSome = true) :
    After (do
        let dir ← existingParent w [] p.dropLast
        perform w "" (operation (dir ++ [p.getLast ne]))) s
      (fun _ s' => operation p s.disk = some s'.disk ∧ s.steps ≤ s'.steps)
      (fun _ s' => Faulted w s.steps s'.steps) := by
  refine (existingParent_after parent).bind ?_
  rintro _ s₁ ⟨rfl, disk, steps⟩
  rw [List.nil_append, List.dropLast_concat_getLast]
  refine (perform_unless (disk ▸ can)).weaken ?_ ?_
  · rintro _ s₂ ⟨result, eq⟩
    refine ⟨disk ▸ result, ?_⟩
    rw [eq]
    exact Nat.le_succ_of_le steps
  · exact fun _ _ fault => fault.mono steps (Nat.le_refl _)

section
variable {w : World} {start : Disk} {txn : Text} {installed backedUp created : List Path} {p : Path}
  {s : CommitState}

/-- The rollback of an installed file. Its error tells that one of its operations failed. -/
theorem removeRelativeFile_after
    (h : Pending start txn (installed ++ [p]) backedUp created s.disk) :
    After (removeRelativeFile w [] p) s
      (fun _ s' => Pending start txn installed backedUp created s'.disk ∧ s.steps ≤ s'.steps)
      (fun _ s' => Faulted w s.steps s'.steps) := by
  have ok := h.writable p (by simp)
  obtain ⟨a, leaf⟩ := h.canRemove
  refine (relativeParts_after ok.ne ok.part_ne).bind ?_
  rintro _ _ ⟨rfl, rfl⟩
  have parent := FileTree.get_dropLast ok.ne (by rw [leaf]; exact Option.some_ne_none _)
  refine (undo_after (fun q disk => disk.removeLeaf q) ok.ne parent
    (FileTree.removeLeaf_isSome leaf)).weaken ?_ fun _ _ fault => fault
  exact fun _ s' done => ⟨h.unInstall done.1, done.2⟩

/-- The rollback of a backed-up node, once no installed file is left. -/
theorem restoreRelativeFile_after (h : Pending start txn [] (backedUp ++ [p]) created s.disk) :
    After (restoreRelativeFile w (backupDir txn) [] p) s
      (fun _ s' => Pending start txn [] backedUp created s'.disk ∧ s.steps ≤ s'.steps)
      (fun _ s' => Faulted w s.steps s'.steps) := by
  have ok := h.writable p (by simp)
  obtain ⟨⟨a, leaf⟩, parent, free⟩ := h.canRestore
  refine (relativeParts_after ok.ne ok.part_ne).bind ?_
  rintro _ _ ⟨rfl, rfl⟩
  have backupParent : s.disk.get (backupDir txn ++ p.dropLast) = some .dir := by
    have := FileTree.get_dropLast (p := backupDir txn ++ p) (by simp [backupDir])
      (by rw [leaf]; exact Option.some_ne_none _)
    rwa [List.dropLast_append_of_ne_nil ok.ne] at this
  refine (existingParent_after backupParent).bind ?_
  rintro _ s₁ ⟨rfl, disk, steps⟩
  rw [List.append_assoc, List.dropLast_concat_getLast]
  refine ((undo_after (fun q disk => disk.rename (backupDir txn ++ p) q) ok.ne (disk ▸ parent)
    ?_).weaken ?_ ?_)
  · rw [disk]
    exact FileTree.rename_isSome leaf ok.ne parent (by rw [free]; exact nofun)
  · rintro _ s' ⟨done, steps'⟩
    exact ⟨h.unBackUp (disk ▸ done), Nat.le_trans steps steps'⟩
  · exact fun _ _ fault => fault.mono steps (Nat.le_refl _)

/-- The rollback of a created directory, at the end, when it is empty again. -/
theorem removeRelativeDirectory_after (h : Pending start txn [] [] (created ++ [p]) s.disk) :
    After (removeRelativeDirectory w [] p) s
      (fun _ s' => Pending start txn [] [] created s'.disk ∧ s.steps ≤ s'.steps)
      (fun _ s' => Faulted w s.steps s'.steps) := by
  have ok := h.writable p (by simp)
  obtain ⟨dir, empty⟩ := h.canClear
  refine (relativeParts_after ok.ne ok.part_ne).bind ?_
  rintro _ _ ⟨rfl, rfl⟩
  have parent := FileTree.get_dropLast ok.ne (by rw [dir]; exact Option.some_ne_none _)
  refine (undo_after (fun q disk => disk.removeDir q) ok.ne parent
    (FileTree.removeDir_isSome ok.ne dir empty)).weaken ?_ fun _ _ fault => fault
  exact fun _ s' done => ⟨h.unCreate done.1, done.2⟩

end

/-- A loop of the rollback: all paths are undone, or an operation failed. -/
theorem undoAll_spec {w : World} {undo : Path → Commit Unit} {P : List Path → Disk → Prop}
    (counts : ∀ p, Counts (undo p))
    (one : ∀ p ps (s : CommitState), P (p :: ps) s.disk → After (undo p) s
      (fun _ s' => P ps s'.disk ∧ s.steps ≤ s'.steps) (fun _ s' => Faulted w s.steps s'.steps)) :
    ∀ (ps : List Path) (s : CommitState),
      s.steps ≤ (undoAll undo ps s).2.steps ∧
      (P ps s.disk →
        ((undoAll undo ps s).1 = true → P [] (undoAll undo ps s).2.disk) ∧
        ((undoAll undo ps s).1 = false → Faulted w s.steps (undoAll undo ps s).2.steps)) := by
  intro ps
  induction ps with
  | nil => exact fun s => ⟨Nat.le_refl _, fun h => ⟨fun _ => h, nofun⟩⟩
  | cons p ps ih =>
    intro s
    have count := counts p s
    have step := one p ps s
    unfold After at count step
    unfold undoAll
    cases run : undo p s with
    | ok _ s₁ =>
      simp only [run] at count step ⊢
      refine ⟨Nat.le_trans count (ih s₁).1, fun h => ?_⟩
      obtain ⟨good, bad⟩ := (ih s₁).2 (step h).1
      exact ⟨good, fun flag => (bad flag).mono count (Nat.le_refl _)⟩
    | error _ s₁ =>
      simp only [run] at count step ⊢
      exact ⟨Nat.le_trans count (ih s₁).1,
        fun h => ⟨nofun, fun _ => (step h).mono (Nat.le_refl _) (ih s₁).1⟩⟩

/-- The rollback restores the root, unless one of its operations fails. -/
theorem rollback_spec {w : World} {start : Disk} {txn : Text} {s : CommitState}
    (h : Pending start txn s.installed s.backed_up s.created_dirs s.disk) :
    ((s.rollback w (backupDir txn)).1 = true →
      ∀ p, Outside txn p → (s.rollback w (backupDir txn)).2.disk.get p = start.get p) ∧
    ((s.rollback w (backupDir txn)).1 = false →
      Faulted w s.steps (s.rollback w (backupDir txn)).2.steps) := by
  have files := undoAll_spec (w := w)
    (P := fun ps disk => Pending start txn ps.reverse s.backed_up s.created_dirs disk)
    (fun p => Counts.bind Counts.relativeParts fun _ =>
      Counts.bind Counts.existingParent fun _ => Counts.perform)
    (fun p ps s' h' => removeRelativeFile_after (List.reverse_cons ▸ h')) s.installed.reverse s
  have backups := undoAll_spec (w := w)
    (P := fun ps disk => Pending start txn [] ps.reverse s.created_dirs disk)
    (fun p => Counts.bind Counts.relativeParts fun _ => Counts.bind Counts.existingParent fun _ =>
      Counts.bind Counts.existingParent fun _ => Counts.perform)
    (fun p ps s' h' => restoreRelativeFile_after (List.reverse_cons ▸ h')) s.backed_up.reverse
    (undoAll (removeRelativeFile w []) s.installed.reverse s).2
  have dirs := undoAll_spec (w := w)
    (P := fun ps disk => Pending start txn [] [] ps.reverse disk)
    (fun p => Counts.bind Counts.relativeParts fun _ =>
      Counts.bind Counts.existingParent fun _ => Counts.perform)
    (fun p ps s' h' => removeRelativeDirectory_after (List.reverse_cons ▸ h'))
    s.created_dirs.reverse
    (undoAll (restoreRelativeFile w (backupDir txn) []) s.backed_up.reverse
      (undoAll (removeRelativeFile w []) s.installed.reverse s).2).2
  simp only [List.reverse_reverse, List.reverse_nil] at files backups dirs
  obtain ⟨filesCount, filesOk⟩ := files
  obtain ⟨backupsCount, backupsOk⟩ := backups
  obtain ⟨dirsCount, dirsOk⟩ := dirs
  obtain ⟨filesOk, filesBad⟩ := filesOk h
  simp only [CommitState.rollback, Bool.and_eq_true, Bool.and_eq_false_imp]
  refine ⟨fun ⟨⟨removed, restored⟩, cleared⟩ p out => ?_, fun failed => ?_⟩
  · exact ((dirsOk ((backupsOk (filesOk removed)).1 restored)).1 cleared).restored out
  · -- the first loop with a failure is the one that had a fault
    cases removed : (undoAll (removeRelativeFile w []) s.installed.reverse s).1 with
    | false =>
      exact (filesBad removed).mono (Nat.le_refl _) (Nat.le_trans backupsCount dirsCount)
    | true =>
      obtain ⟨backupsOk, backupsBad⟩ := backupsOk (filesOk removed)
      cases restored : (undoAll (restoreRelativeFile w (backupDir txn) []) s.backed_up.reverse
          (undoAll (removeRelativeFile w []) s.installed.reverse s).2).1 with
      | false => exact (backupsBad restored).mono filesCount dirsCount
      | true =>
        exact ((dirsOk (backupsOk restored)).2 (failed ⟨removed, restored⟩)).mono
          (Nat.le_trans filesCount backupsCount) (Nat.le_refl _)

/-! ## The forward pass -/

/-- The logs of a state describe its tree. -/
def Ready (start : Disk) (txn : Text) (s : CommitState) : Prop :=
  Pending start txn s.installed s.backed_up s.created_dirs s.disk

/-- Between two entries every backed-up path has its new file. -/
def Settled (s : CommitState) : Prop := ∀ q ∈ s.backed_up, q ∈ s.installed

/-- A step that only adds directories inside the transaction directory. -/
structure Hidden (txn : Text) (s s' : CommitState) : Prop where
  installed : s'.installed = s.installed
  backed_up : s'.backed_up = s.backed_up
  created_dirs : s'.created_dirs = s.created_dirs
  outside : ∀ q, Outside txn q → s'.disk.get q = s.disk.get q
  kept : ∀ q, s.disk.get q ≠ none → s'.disk.get q = s.disk.get q

/-- A step that only adds directories, those of the root along `path` and on the log. -/
structure Grown (path : Path) (s s' : CommitState) : Prop where
  installed : s'.installed = s.installed
  backed_up : s'.backed_up = s.backed_up
  created_dirs : ∀ c ∈ s'.created_dirs, c ∈ s.created_dirs ∨ c <+: path
  kept : ∀ q, s.disk.get q ≠ none → s'.disk.get q = s.disk.get q

section
variable {w : World} {start : Disk} {txn : Text} {s s₁ s₂ : CommitState} {path : Path}

theorem Hidden.refl : Hidden txn s s := ⟨rfl, rfl, rfl, fun _ _ => rfl, fun _ _ => rfl⟩

theorem Hidden.step : Hidden txn s s.step := ⟨rfl, rfl, rfl, fun _ _ => rfl, fun _ _ => rfl⟩

theorem Hidden.trans (h : Hidden txn s s₁) (h' : Hidden txn s₁ s₂) : Hidden txn s s₂ where
  installed := h'.installed.trans h.installed
  backed_up := h'.backed_up.trans h.backed_up
  created_dirs := h'.created_dirs.trans h.created_dirs
  outside := fun q out => (h'.outside q out).trans (h.outside q out)
  kept := fun q there => (h'.kept q (h.kept q there ▸ there)).trans (h.kept q there)

/-- What happens inside the transaction directory does not touch the relation between the tree and
the logs. -/
theorem Hidden.ready (h : Hidden txn s s₁) (ready : Ready start txn s) : Ready start txn s₁ := by
  unfold Ready
  rw [h.installed, h.backed_up, h.created_dirs]
  exact Pending.inside ready h.outside h.kept

theorem Hidden.settled (h : Hidden txn s s₁) (settled : Settled s) : Settled s₁ := by
  unfold Settled
  rw [h.backed_up, h.installed]
  exact settled

theorem Grown.refl : Grown path s s := ⟨rfl, rfl, fun _ mem => Or.inl mem, fun _ _ => rfl⟩

theorem Grown.step : Grown path s s.step := ⟨rfl, rfl, fun _ mem => Or.inl mem, fun _ _ => rfl⟩

/-- Directories that were created on the way to a path are added to the log in one piece. -/
theorem Grown.trans (h : Grown path s s₁) (h' : Grown path s₁ s₂) : Grown path s s₂ where
  installed := h'.installed.trans h.installed
  backed_up := h'.backed_up.trans h.backed_up
  created_dirs := fun c mem => (h'.created_dirs c mem).elim (h.created_dirs c) Or.inr
  kept := fun q there => (h'.kept q (h.kept q there ▸ there)).trans (h.kept q there)

theorem Grown.settled (h : Grown path s s₁) (settled : Settled s) : Settled s₁ := by
  unfold Settled
  rw [h.backed_up, h.installed]
  exact settled

/-- The free `ensure_directory` below the transaction directory. -/
theorem ensureDirectoryLoop_after {parts : List Text} :
    ∀ {dir : Dir} {s : CommitState}, dir.head? = some txn →
      After (ensureDirectoryLoop w parts dir) s
        (fun d s' => d = dir ++ parts ∧ Hidden txn s s') (fun _ s' => Hidden txn s s') := by
  induction parts with
  | nil => exact fun _ => After.pure ⟨(List.append_nil _).symm, .refl⟩
  | cons name parts ih =>
    intro dir s inside
    have deeper : (dir ++ [name]).head? = some txn := by
      rw [List.head?_append_of_ne_nil _ (by rintro rfl; cases inside), inside]
    refine (symlinkMetadata_after.errors fun _ _ => False.elim).bind ?_
    rintro answer s₁ ⟨answers, rfl⟩
    have entered : After (enterOrCreate w dir name answer) s.step
        (fun _ s' => Hidden txn s s') (fun _ s' => Hidden txn s s') := by
      cases answers with
      | found node get =>
        cases node with
        | dir => exact After.pure .step
        | leaf a => exact After.throw .step
      | failed fault => exact After.throw .step
      | notFound get =>
        unfold enterOrCreate createDir
        refine perform_after.weaken ?_ fun _ _ h => h.1 ▸ Hidden.step.trans .step
        rintro _ _ ⟨disk, made, rfl⟩
        refine ⟨rfl, rfl, rfl, fun q out => ?_, fun q there => FileTree.createDir_keeps made there⟩
        have ne : q ≠ dir ++ [name] := by
          rintro rfl
          exact out deeper
        exact (FileTree.get_createDir made q).trans (if_neg ne)
    refine entered.bind fun _ s₂ h₂ => ?_
    refine (openDirNofollow_after.errors fun _ s₃ h => h.1 ▸ h₂.trans .step).bind ?_
    rintro _ s₃ ⟨rfl, rfl, _⟩
    refine (ih (s := s₂.step) deeper).weaken ?_ fun _ _ h => h₂.trans (Hidden.step.trans h)
    rintro d s' ⟨rfl, h⟩
    exact ⟨by simp, h₂.trans (Hidden.step.trans h)⟩

/-- The method `ensure_directory`: the path ends as a directory, what was missing is on the log, and
an error leaves logs that describe the tree. -/
theorem ensureDirectory_after {root : Dir} (inside : root.head? = some txn) :
    After (ensureDirectory w root path) s
      (fun d s' => d = root ++ path ∧ Hidden txn s s') (fun _ s' => Hidden txn s s') := by
  refine (tryClone_after.errors fun _ _ h => h.1 ▸ Hidden.step).bind ?_
  rintro _ _ ⟨rfl, rfl⟩
  refine (ensureDirectoryLoop_after (s := s.step) inside).weaken ?_ fun _ _ h => Hidden.step.trans h
  exact fun _ _ h => ⟨h.1, Hidden.step.trans h.2⟩

namespace CommitState

theorem published_after {Q : CommitState → Prop}
    (h : ∀ s', s'.disk = s.disk → s'.installed = s.installed → s'.backed_up = s.backed_up →
      s'.created_dirs = s.created_dirs → Q s') :
    After (published w) s (fun _ s' => Q s') (fun _ s' => Q s') := by
  refine (checkCancellation_after.errors fun _ _ eq => eq ▸ h _ rfl rfl rfl rfl).bind ?_
  rintro _ _ rfl
  exact After.modify (h _ rfl rfl rfl rfl)

/-- The method `ensure_directory`, from a directory on the way. -/
theorem ensureDirectoryLoop_after {parts : List Text} :
    ∀ {dir : Dir} {s : CommitState}, Ready start txn s → Settled s → s.disk.get dir = some .dir →
      (parts ≠ [] → Writable txn (dir ++ parts)) →
      After (ensureDirectoryLoop w parts dir) s
        (fun d s' => d = dir ++ parts ∧ Ready start txn s' ∧ Grown d s s' ∧
          s'.disk.get d = some .dir)
        (fun _ s' => Ready start txn s') := by
  induction parts with
  | nil =>
    intro dir s ready _ there _
    refine After.pure ⟨(List.append_nil _).symm, ready, .refl, there⟩
  | cons name parts ih =>
    intro dir s ready settled _ writable
    have split : dir ++ name :: parts = dir ++ [name] ++ parts := by simp
    have ok := writable (List.cons_ne_nil name parts)
    rw [split] at ok ⊢
    have here : Writable txn (dir ++ [name]) := ok.of_prefix (by simp)
    have onPath : dir ++ [name] <+: dir ++ [name] ++ parts := List.prefix_append _ _
    refine (symlinkMetadata_after.errors fun _ _ => False.elim).bind ?_
    rintro answer s₁ ⟨answers, rfl⟩
    have entered : After (enterOrCreate w dir name answer) s.step
        (fun _ s' => Ready start txn s' ∧ Grown (dir ++ [name] ++ parts) s s')
        (fun _ s' => Ready start txn s') := by
      cases answers with
      | found node get =>
        cases node with
        | dir => exact After.pure ⟨ready, .step⟩
        | leaf a => exact After.throw ready
      | failed fault => exact After.throw ready
      | notFound get =>
        refine (checkCancellation_after.errors fun _ _ eq => eq ▸ ready).bind ?_
        rintro _ _ rfl
        refine (perform_after.errors fun _ _ h => h.1 ▸ ready).bind ?_
        rintro _ _ ⟨disk, made, rfl⟩
        refine (After.modify (Q := fun _ s' =>
          Ready start txn s' ∧ Grown (dir ++ [name] ++ parts) s s') ?_).bind ?_
        · refine ⟨Pending.create ready here settled made, rfl, rfl, fun c mem => ?_,
            fun q there => FileTree.createDir_keeps made there⟩
          rcases List.mem_append.mp mem with mem | mem
          · exact Or.inl mem
          · exact Or.inr (List.mem_singleton.mp mem ▸ onPath)
        · rintro _ s₂ ⟨ready₂, grown₂⟩
          refine (published_after (Q := fun s' =>
            Ready start txn s' ∧ Grown (dir ++ [name] ++ parts) s s') ?_).errors fun _ _ h => h.1
          intro s' disk installed backed_up created_dirs
          refine ⟨?_, ?_, ?_, ?_, ?_⟩
          · unfold Ready
            rw [disk, installed, backed_up, created_dirs]
            exact ready₂
          · rw [installed, grown₂.installed]
          · rw [backed_up, grown₂.backed_up]
          · rw [created_dirs]
            exact grown₂.created_dirs
          · rw [disk]
            exact grown₂.kept
    refine entered.bind fun _ s₂ h₂ => ?_
    obtain ⟨ready₂, grown₂⟩ := h₂
    refine (openDirNofollow_after.errors fun _ s₃ h => h.1 ▸ ready₂).bind ?_
    rintro _ s₃ ⟨rfl, rfl, there⟩
    refine (ih (s := s₂.step) ready₂ (grown₂.settled settled) there fun _ => ok).weaken ?_
      fun _ _ h => h
    rintro d s' ⟨rfl, ready', grown', there'⟩
    exact ⟨rfl, ready', grown₂.trans (Grown.step.trans grown'), there'⟩

theorem ensureDirectory_after (ready : Ready start txn s) (settled : Settled s)
    (ok : path ≠ [] → Writable txn path) :
    After (ensureDirectory w path) s
      (fun d s' => d = path ∧ Ready start txn s' ∧ Grown path s s' ∧ s'.disk.get path = some .dir)
      (fun _ s' => Ready start txn s') := by
  refine (checkCancellation_after.errors fun _ _ eq => eq ▸ ready).bind ?_
  rintro _ _ rfl
  refine (tryClone_after.errors fun _ _ h => h.1 ▸ ready).bind ?_
  rintro _ _ ⟨rfl, rfl⟩
  refine (ensureDirectoryLoop_after (s := s.step.step) ready settled (FileTree.get_root _)
    ok).weaken ?_ fun _ _ h => h
  rintro d s' ⟨rfl, ready', grown, there⟩
  exact ⟨rfl, ready', Grown.step.trans (Grown.step.trans grown), there⟩

/-- What is in the way is gone, and nothing else that matters has changed. -/
structure Cleared (start : Disk) (txn : Text) (path : Path) (s s' : CommitState) : Prop where
  ready : Ready start txn s'
  free : s'.disk.get path = none
  installed : s'.installed = s.installed
  backed_up : ∀ q ∈ s'.backed_up, q ∈ s.backed_up ∨ q = path
  created_dirs : s'.created_dirs = s.created_dirs
  dirs : ∀ q, s.disk.get q = some .dir → s'.disk.get q = some .dir
  waiting : ∀ q, s.disk.get (stageDir txn ++ q) ≠ none →
    s'.disk.get (stageDir txn ++ q) = s.disk.get (stageDir txn ++ q)

/-- What is in the way goes to the backup and onto its log, or the path was free. An error in
between leaves logs that describe the tree. -/
theorem backUp_after {answer : Metadata} {t : CommitState} (ready : Ready start txn s)
    (settled : Settled s) (ok : Writable txn path) (new : path ∉ s.installed)
    (same : s.disk = t.disk) (answers : Answers w t path answer) :
    After (backUp w (backupDir txn) path.dropLast path (path.getLast ok.ne) answer) s
      (fun _ s' => Cleared start txn path s s') (fun _ s' => Ready start txn s') := by
  cases answers with
  | notFound get =>
    exact After.pure ⟨ready, same ▸ get, rfl, fun _ mem => Or.inl mem, rfl, fun _ h => h,
      fun _ _ => rfl⟩
  | failed fault => exact After.throw ready
  | found node get =>
    have moves : After (do
        let backupParent ←
          mapErr (Archive.ensureDirectory w (backupDir txn) path.dropLast) fun _ => prepareRollback
        perform w prepareRollback (·.rename (path.dropLast ++ [path.getLast ok.ne])
          (backupParent ++ [path.getLast ok.ne]))
        modify fun s => { s with backed_up := s.backed_up ++ [path] }
        published w) s
        (fun _ s' => Cleared start txn path s s') (fun _ s' => Ready start txn s') := by
      have inside : (backupDir txn).head? = some txn := rfl
      refine (After.mapErr ((Archive.ensureDirectory_after inside).errors
        fun _ _ h => h.ready ready)).bind ?_
      rintro _ s₁ ⟨rfl, hidden⟩
      have ready₁ := hidden.ready ready
      refine (perform_after.errors fun _ _ h => h.1 ▸ ready₁).bind ?_
      rintro _ _ ⟨disk, moved, rfl⟩
      rw [List.append_assoc, List.dropLast_concat_getLast] at moved
      have pending := Pending.backUp ready₁ ok (hidden.settled settled) (hidden.installed ▸ new) moved
      have get := FileTree.get_rename moved
      refine (After.modify (Q := fun _ s' => Cleared start txn path s s') ?_).bind ?_
      · refine ⟨pending, ?_, hidden.installed, fun q mem => ?_, hidden.created_dirs, fun q dir => ?_,
          fun q there => ?_⟩
        · rw [get, if_neg ok.outside.ne_backup, if_pos rfl]
        · rcases List.mem_append.mp mem with mem | mem
          · exact Or.inl (hidden.backed_up ▸ mem)
          · exact Or.inr (List.mem_singleton.mp mem)
        · exact FileTree.rename_dir moved
            ((hidden.kept q (by rw [dir]; exact Option.some_ne_none _)).trans dir)
        · rw [get, if_neg stage_ne_backup, if_neg fun e => ok.outside.ne_stage e.symm,
            hidden.kept _ there]
      · intro _ s₂ cleared
        refine (published_after (Q := fun s' => Cleared start txn path s s') ?_).errors
          fun _ _ h => h.ready
        intro s' disk installed backed_up created_dirs
        refine ⟨?_, disk ▸ cleared.free, installed ▸ cleared.installed, backed_up ▸ cleared.backed_up,
          created_dirs ▸ cleared.created_dirs, disk ▸ cleared.dirs, disk ▸ cleared.waiting⟩
        unfold Ready
        rw [disk, installed, backed_up, created_dirs]
        exact cleared.ready
    cases node with
    | dir => exact After.throw ready
    | leaf a =>
      cases a with
      | special => exact After.throw ready
      | file | symlink => exact moves

/-- An installed file: its logs, and what it leaves where it was. -/
structure Installed (txn : Text) (path : Path) (s s' : CommitState) : Prop where
  installed : s'.installed = s.installed ++ [path]
  backed_up : ∀ q ∈ s'.backed_up, q ∈ s.backed_up ∨ q = path
  created_dirs : ∀ c ∈ s'.created_dirs, c ∈ s.created_dirs ∨ c <+: path.dropLast
  dirs : ∀ q, s.disk.get q = some .dir → s'.disk.get q = some .dir
  waiting : ∀ q, q ≠ path → s.disk.get (stageDir txn ++ q) ≠ none →
    s'.disk.get (stageDir txn ++ q) = s.disk.get (stageDir txn ++ q)
  parent : s'.disk.get path.dropLast = some .dir

/-- The staged file goes to the path that has been cleared for it, and onto the log. -/
theorem install_after (ready : Ready start txn s) (settled : Settled s) (ok : Writable txn path)
    (new : path ∉ s.installed)
    (wait : s.disk.get (stageDir txn ++ path) = start.get (stageDir txn ++ path))
    (there : start.get (stageDir txn ++ path) ≠ none) :
    After (install w (stageDir txn) (backupDir txn) path) s
      (fun _ s' => Ready start txn s' ∧ Installed txn path s s')
      (fun _ s' => Ready start txn s') := by
  unfold install
  simp only [List.getLast?_eq_some_getLast ok.ne]
  refine (checkCancellation_after.errors fun _ _ eq => eq ▸ ready).bind ?_
  rintro _ _ rfl
  refine (ensureDirectory_after (s := s.step) ready settled fun ne =>
    Writable.of_prefix (r := [path.getLast ok.ne])
      (by rwa [List.dropLast_concat_getLast]) ne).bind ?_
  rintro _ s₁ ⟨rfl, ready₁, grown, parent⟩
  have grown := Grown.step.trans grown
  have inside : (stageDir txn).head? = some txn := rfl
  refine ((Archive.ensureDirectory_after inside).errors fun _ _ h => h.ready ready₁).bind ?_
  rintro _ s₂ ⟨rfl, hidden⟩
  have ready₂ := hidden.ready ready₁
  have kept : ∀ q, s.disk.get q ≠ none → s₂.disk.get q = s.disk.get q := fun q h =>
    (hidden.kept q (grown.kept q h ▸ h)).trans (grown.kept q h)
  refine (symlinkMetadata_after.errors fun _ _ => False.elim).bind ?_
  rintro answer s₃ ⟨answers, rfl⟩
  rw [List.dropLast_concat_getLast] at answers
  have settled₂ := hidden.settled (grown.settled settled)
  have new₂ : path ∉ s₂.installed := by rwa [hidden.installed, grown.installed]
  refine (backUp_after (s := s₂.step) (t := s₂) ready₂ settled₂ ok new₂ rfl answers).bind ?_
  intro _ s₄ cleared
  refine (checkCancellation_after.errors fun _ _ eq => eq ▸ cleared.ready).bind ?_
  rintro _ _ rfl
  refine (perform_after.errors fun _ _ h => h.1 ▸ cleared.ready).bind ?_
  rintro _ _ ⟨disk, moved, rfl⟩
  rw [List.append_assoc, List.dropLast_concat_getLast] at moved
  have staged : s₂.disk.get (stageDir txn ++ path) = start.get (stageDir txn ++ path) := by
    rw [kept _ (by rwa [wait]), wait]
  have wait₄ : s₄.disk.get (stageDir txn ++ path) = start.get (stageDir txn ++ path) :=
    (cleared.waiting path (by rwa [← staged] at there)).trans staged
  have pending := Pending.install cleared.ready ok cleared.free wait₄ moved
  have get := FileTree.get_rename moved
  have dirs : ∀ q, s₂.disk.get q = some .dir → disk.get q = some .dir := fun q dir =>
    FileTree.rename_dir moved (cleared.dirs q dir)
  refine (After.modify (Q := fun _ s' => Ready start txn s' ∧ Installed txn path s s') ?_).bind ?_
  · refine ⟨pending, ?_, fun q mem => ?_, fun c mem => ?_, fun q dir => ?_, fun q ne some_ => ?_, ?_⟩
    · change s₄.installed ++ [path] = _
      rw [cleared.installed]
      change s₂.installed ++ [path] = _
      rw [hidden.installed, grown.installed]
    · refine (cleared.backed_up q mem).imp_left fun mem => ?_
      rw [← grown.backed_up, ← hidden.backed_up]
      exact mem
    · have mem : c ∈ s₂.created_dirs := (cleared.created_dirs ▸ mem : c ∈ s₂.step.created_dirs)
      rw [hidden.created_dirs] at mem
      exact grown.created_dirs c mem
    · exact dirs q ((kept q (by rw [dir]; exact Option.some_ne_none _)).trans dir)
    · have there₂ : s₂.disk.get (stageDir txn ++ q) ≠ none := by rwa [kept _ some_]
      exact (get _).trans (by
        rw [if_neg fun e => ok.outside.ne_stage e.symm, if_neg (stage_inj.not.mpr ne)]
        exact (cleared.waiting q there₂).trans (kept _ some_))
    · exact dirs _ ((hidden.kept _ (by rw [parent]; exact Option.some_ne_none _)).trans parent)
  · rintro _ s₅ ⟨ready₅, done⟩
    refine (published_after (Q := fun s' => Ready start txn s' ∧ Installed txn path s s') ?_).errors
      fun _ _ h => h.1
    intro s' disk installed backed_up created_dirs
    refine ⟨?_, installed ▸ done.installed, backed_up ▸ done.backed_up,
      created_dirs ▸ done.created_dirs, disk ▸ done.dirs, disk ▸ done.waiting, disk ▸ done.parent⟩
    unfold Ready
    rw [disk, installed, backed_up, created_dirs]
    exact ready₅

end CommitState

/-! ## All entries -/

/-- The paths of the files. -/
def filesOf (entries : List Entry) : List Path :=
  (entries.filter fun e => !e.directory).map Entry.path

/-- A directory that the entries bring with them: a directory entry, or one above an entry. -/
def IsDirOf (entries : List Entry) (p : Path) : Prop :=
  ∃ e ∈ entries, p <+: e.path ∧ (e.directory = true ∨ p ≠ e.path)

instance (entries : List Entry) (p : Path) : Decidable (IsDirOf entries p) := by
  unfold IsDirOf
  exact inferInstance

/-- What the loop over `es` has done. -/
structure PublishedAll (es : List Entry) (s s' : CommitState) : Prop where
  installed : s'.installed = s.installed ++ filesOf es
  backed_up : ∀ q ∈ s'.backed_up, q ∈ s.backed_up ∨ q ∈ filesOf es
  created_dirs : ∀ c ∈ s'.created_dirs, c ∈ s.created_dirs ∨ IsDirOf es c
  dirs : ∀ q, s.disk.get q = some .dir → s'.disk.get q = some .dir
  made : ∀ q, IsDirOf es q → s'.disk.get q = some .dir

/-- What the loop over `es` needs: writable paths, and the files still to come all different and
staged. -/
structure Waiting (start : Disk) (txn : Text) (es : List Entry) (s : CommitState) : Prop where
  writable : ∀ e ∈ es, Writable txn e.path
  distinct : (es.map Entry.path).Nodup
  new : ∀ q ∈ filesOf es, q ∉ s.installed
  wait : ∀ q ∈ filesOf es, s.disk.get (stageDir txn ++ q) = start.get (stageDir txn ++ q)
  there : ∀ q ∈ filesOf es, start.get (stageDir txn ++ q) ≠ none

theorem prefix_dropLast {c p : Path} (ne : p ≠ []) (h : c <+: p.dropLast) : c <+: p ∧ c ≠ p := by
  refine ⟨h.trans (List.dropLast_prefix p), ?_⟩
  rintro rfl
  have := h.length_le
  rw [List.length_dropLast] at this
  have := List.length_pos_of_ne_nil ne
  omega

theorem prefix_of_ne {c p : Path} (h : c <+: p) (ne : c ≠ p) : c <+: p.dropLast := by
  obtain ⟨r, rfl⟩ := h
  have some_ : r ≠ [] := by
    rintro rfl
    exact ne (List.append_nil c).symm
  rw [List.dropLast_append_of_ne_nil some_]
  exact List.prefix_append _ _

theorem dir_of_prefix {disk : Disk} {c p : Path} (dir : disk.get p = some .dir) (h : c <+: p) :
    disk.get c = some .dir := by
  obtain ⟨r, rfl⟩ := h
  cases r with
  | nil => rwa [List.append_nil] at dir
  | cons n r =>
    exact FileTree.get_above _ (List.cons_ne_nil n r) (by rw [dir]; exact Option.some_ne_none _)

theorem mem_filesOf {es : List Entry} {q : Path} (h : q ∈ filesOf es) : q ∈ es.map Entry.path := by
  obtain ⟨e, mem, rfl⟩ := List.mem_map.mp h
  exact List.mem_map_of_mem (List.mem_filter.mp mem).1

/-- One entry of the overlay: its directory or its file is there, the entries behind it still wait
in the stage, and an error leaves logs that describe the tree. -/
theorem publishEntry_after {e : Entry} {es : List Entry} (ready : Ready start txn s)
    (settled : Settled s) (waiting : Waiting start txn (e :: es) s) :
    After (publishEntry w (stageDir txn) (backupDir txn) e) s
      (fun _ s' => Ready start txn s' ∧ Settled s' ∧ PublishedAll [e] s s' ∧ Waiting start txn es s')
      (fun _ s' => Ready start txn s') := by
  have ok := waiting.writable e List.mem_cons_self
  have writable : ∀ e ∈ es, Writable txn e.path := fun e mem =>
    waiting.writable e (List.mem_cons_of_mem _ mem)
  obtain ⟨notIn, distinct⟩ := List.nodup_cons.mp waiting.distinct
  unfold publishEntry
  cases dir : e.directory with
  | true =>
    have same : filesOf (e :: es) = filesOf es := by simp [filesOf, dir]
    have none : filesOf [e] = [] := by simp [filesOf, dir]
    have each : ∀ c, IsDirOf [e] c ↔ c <+: e.path := fun c => by simp [IsDirOf, dir]
    refine (CommitState.ensureDirectory_after ready settled fun _ => ok).bind ?_
    rintro _ s' ⟨rfl, ready', grown, there⟩
    refine After.pure ⟨ready', grown.settled settled, ⟨?_, ?_, ?_, ?_, ?_⟩, writable, distinct,
      ?_, ?_, ?_⟩
    · rw [none, List.append_nil, grown.installed]
    · exact fun q mem => Or.inl (grown.backed_up ▸ mem)
    · exact fun c mem => (grown.created_dirs c mem).imp_right (each c).mpr
    · exact fun q d => (grown.kept q (by rw [d]; exact Option.some_ne_none _)).trans d
    · exact fun q h => dir_of_prefix there ((each q).mp h)
    · rw [grown.installed, ← same]
      exact waiting.new
    · intro q mem
      rw [← same] at mem
      have wait := waiting.wait q mem
      exact (grown.kept _ (wait ▸ waiting.there q mem)).trans wait
    · rw [← same]
      exact waiting.there
  | false =>
    have cons : filesOf (e :: es) = e.path :: filesOf es := by simp [filesOf, dir]
    have one : filesOf [e] = [e.path] := by simp [filesOf, dir]
    have each : ∀ c, IsDirOf [e] c ↔ c <+: e.path ∧ c ≠ e.path := fun c => by simp [IsDirOf, dir]
    have first : e.path ∈ filesOf (e :: es) := cons ▸ List.mem_cons_self
    have rest : ∀ q ∈ filesOf es, q ∈ filesOf (e :: es) := fun q mem =>
      cons ▸ List.mem_cons_of_mem _ mem
    have other : ∀ q ∈ filesOf es, q ≠ e.path := fun q mem eq => notIn (eq ▸ mem_filesOf mem)
    refine (CommitState.install_after ready settled ok (waiting.new _ first) (waiting.wait _ first)
      (waiting.there _ first)).weaken ?_ fun _ _ h => h
    rintro _ s' ⟨ready', done⟩
    refine ⟨ready', ?_, ⟨?_, ?_, ?_, done.dirs, ?_⟩, writable, distinct, ?_, ?_, ?_⟩
    · intro q mem
      rw [done.installed, List.mem_append, List.mem_singleton]
      exact (done.backed_up q mem).imp_left (settled q)
    · rw [one, done.installed]
    · rw [one]
      exact fun q mem => (done.backed_up q mem).imp_right List.mem_singleton.mpr
    · exact fun c mem => (done.created_dirs c mem).imp_right fun h =>
        (each c).mpr (prefix_dropLast ok.ne h)
    · exact fun q h => dir_of_prefix done.parent (prefix_of_ne ((each q).mp h).1 ((each q).mp h).2)
    · intro q mem log
      rw [done.installed, List.mem_append, List.mem_singleton] at log
      rcases log with log | log
      · exact waiting.new q (rest q mem) log
      · exact other q mem log
    · intro q mem
      have wait := waiting.wait q (rest q mem)
      exact (done.waiting q (other q mem) (wait ▸ waiting.there q (rest q mem))).trans wait
    · exact fun q mem => waiting.there q (rest q mem)

theorem PublishedAll.cons {e : Entry} {es : List Entry} (h : PublishedAll [e] s s₁)
    (h' : PublishedAll es s₁ s₂) : PublishedAll (e :: es) s s₂ := by
  have files : filesOf (e :: es) = filesOf [e] ++ filesOf es := by
    rw [filesOf, ← List.singleton_append, List.filter_append, List.map_append]
    rfl
  have dirs : ∀ c, IsDirOf (e :: es) c ↔ IsDirOf [e] c ∨ IsDirOf es c := fun c => by
    simp [IsDirOf]
  constructor
  · rw [h'.installed, h.installed, files, List.append_assoc]
  · intro q mem
    rw [files, List.mem_append]
    rcases h'.backed_up q mem with mem | mem
    · exact (h.backed_up q mem).imp_right Or.inl
    · exact Or.inr (Or.inr mem)
  · intro c mem
    rw [dirs]
    rcases h'.created_dirs c mem with mem | mem
    · exact (h.created_dirs c mem).imp_right Or.inl
    · exact Or.inr (Or.inr mem)
  · exact fun q d => h'.dirs q (h.dirs q d)
  · intro q made
    rcases (dirs q).mp made with made | made
    · exact h'.dirs q (h.made q made)
    · exact h'.made q made

/-- The forward pass over the entries, in their order. The induction carries what still waits,
because a later entry reads its file from the stage. -/
theorem publishEntries_after {es : List Entry} :
    ∀ {s : CommitState}, Ready start txn s → Settled s → Waiting start txn es s →
      After (publishEntries w (stageDir txn) (backupDir txn) es) s
        (fun _ s' => Ready start txn s' ∧ PublishedAll es s s')
        (fun _ s' => Ready start txn s') := by
  induction es with
  | nil =>
    intro s ready _ _
    refine After.pure ⟨ready, (List.append_nil _).symm, fun _ mem => Or.inl mem,
      fun _ mem => Or.inl mem, fun _ h => h, ?_⟩
    rintro q ⟨e, mem, _⟩
    cases mem
  | cons e es ih =>
    intro s ready settled waiting
    refine (publishEntry_after ready settled waiting).bind ?_
    rintro _ s₁ ⟨ready₁, settled₁, done, waiting₁⟩
    refine (ih ready₁ settled₁ waiting₁).weaken ?_ fun _ _ h => h
    exact fun _ s' h => ⟨h.1, done.cons h.2⟩

end

/-! ## The commit -/

/-- A tree in which the entries are staged: no entry lies in the transaction directory, and every
file is in the stage. -/
structure Staging (entries : List Entry) where
  disk : Disk
  txn : Text
  unreserved : ∀ e ∈ entries, Outside txn e.path
  staged : ∀ e ∈ entries, e.directory = false →
    ∃ content, disk.get (stageDir txn ++ e.path) = some (.leaf (.file content))

/-- The tree with the staged files and the directories of the entries over it. -/
def Staging.overlay {entries : List Entry} (st : Staging entries) (p : Path) : Option (Node Leaf) :=
  if p ∈ filesOf entries then st.disk.get (stageDir st.txn ++ p)
  else if IsDirOf entries p then some .dir
  else st.disk.get p

def Staging.forward {entries : List Entry} (st : Staging entries) (w : World) :
    EStateM.Result String CommitState Unit :=
  forwardPass w (stageDir st.txn) (backupDir st.txn) entries { disk := st.disk, steps := 0 }

def Staging.commit {entries : List Entry} (st : Staging entries) (w : World) :
    Except String Unit × CommitState :=
  commitStagedOverlay w (stageDir st.txn) (backupDir st.txn) entries st.disk

/-- The forward pass: the overlay, or logs that describe the tree. -/
theorem forwardPass_after {entries : List Entry} (proper : Proper entries) (st : Staging entries)
    (w : World) :
    After (forwardPass w (stageDir st.txn) (backupDir st.txn) entries) { disk := st.disk, steps := 0 }
      (fun _ s => ∀ p, Outside st.txn p → s.disk.get p = st.overlay p)
      (fun _ s => Ready st.disk st.txn s) := by
  have files : ∀ q ∈ filesOf entries, ∃ content,
      st.disk.get (stageDir st.txn ++ q) = some (.leaf (.file content)) := by
    intro q mem
    obtain ⟨e, kept, rfl⟩ := List.mem_map.mp mem
    obtain ⟨entry, file⟩ := List.mem_filter.mp kept
    exact st.staged e entry (by simpa using file)
  have waiting : Waiting st.disk st.txn entries { disk := st.disk, steps := 1 } :=
    { writable := fun e mem => ⟨proper.path_ne e mem, st.unreserved e mem, proper.part_ne e mem⟩
      distinct := proper.distinct
      new := fun _ _ => List.not_mem_nil
      wait := fun _ _ => rfl
      there := fun q mem => by
        obtain ⟨content, staged⟩ := files q mem
        rw [staged]
        exact Option.some_ne_none _ }
  have start : Ready st.disk st.txn { disk := st.disk, steps := 0 } := .init st.disk st.txn
  refine (checkCancellation_after.errors fun _ _ eq => eq ▸ start).bind ?_
  rintro _ _ rfl
  refine (publishEntries_after (s := { disk := st.disk, steps := 1 }) start
    (fun _ mem => absurd mem List.not_mem_nil) waiting).bind ?_
  rintro _ s ⟨ready, done⟩
  refine checkCancellation_after.weaken ?_ fun _ _ eq => eq ▸ ready
  rintro _ _ rfl p out
  have installed : s.installed = filesOf entries := done.installed
  have value := Pending.tree ready p out
  unfold Staging.overlay
  rw [installed] at value
  split
  · rename_i file
    exact value.trans (if_pos file)
  · rename_i file
    split
    · rename_i made
      exact done.made p made
    · rename_i made
      have notHeld : p ∉ s.backed_up := fun mem =>
        (done.backed_up p mem).elim (fun h => absurd h List.not_mem_nil) file
      have notNew : p ∉ s.created_dirs := fun mem =>
        (done.created_dirs p mem).elim (fun h => absurd h List.not_mem_nil) made
      exact value.trans (by rw [if_neg file, if_neg notHeld, if_neg notNew])

/-- **Publication is all or nothing.** For entries that `extract_impl` accepts and every course of
the world: a commit that succeeds leaves the root with the staged files and directories over it; a
commit that fails returns the error of its forward pass and leaves the root as it was, if every
operation of the rollback went well, which they do unless one of them fails. -/
theorem commit_all_or_nothing (toLowercase : Text → Text) (limits : ArchiveLimits)
    (cancelled : Nat → Bool) (files : List ZipFile) (entries : List Entry)
    (accepted : accept toLowercase limits cancelled files = .ok entries)
    (st : Staging entries) (w : World) :
    match st.commit w with
    | (.ok _, s) => ∀ p, Outside st.txn p → s.disk.get p = st.overlay p
    | (.error error, s) => ∃ forwardError s₁, st.forward w = .error forwardError s₁ ∧
        ((s₁.rollback w (backupDir st.txn)).1 = true →
          error = forwardError ∧ ∀ p, Outside st.txn p → s.disk.get p = st.disk.get p) ∧
        (¬ Faulted w s₁.steps s.steps → (s₁.rollback w (backupDir st.txn)).1 = true) := by
  have forward := forwardPass_after (accept_proper accepted) st w
  unfold After at forward
  unfold Staging.commit commitStagedOverlay Staging.forward
  cases run : forwardPass w (stageDir st.txn) (backupDir st.txn) entries
      { disk := st.disk, steps := 0 } with
  | ok _ s =>
    rw [run] at forward
    exact forward
  | error error s₁ =>
    rw [run] at forward
    obtain ⟨good, bad⟩ := rollback_spec (w := w) forward
    cases undone : s₁.rollback w (backupDir st.txn) with
    | mk flag s =>
      rw [undone] at good bad
      cases flag with
      | true =>
        simp only [undone]
        refine ⟨error, s₁, rfl, ?_⟩
        rw [undone]
        exact ⟨fun _ => ⟨rfl, good rfl⟩, fun _ => rfl⟩
      | false =>
        simp only [undone]
        refine ⟨error, s₁, rfl, ?_⟩
        rw [undone]
        exact ⟨nofun, fun ok => absurd (bad rfl) ok⟩

/-- A root with a file `a`, and a transaction with a staged `a`. -/
def replacing : Staging [⟨[text "a"], false, 1, 1⟩] where
  disk := FileTree.ofNodes
    [⟨[], .dir⟩, ⟨[text "a"], .leaf (.file [1])⟩, ⟨[text "t"], .dir⟩,
      ⟨stageDir (text "t"), .dir⟩, ⟨backupDir (text "t"), .dir⟩,
      ⟨stageDir (text "t") ++ [text "a"], .leaf (.file [2])⟩].toFinmap
    (by decide +kernel) (by decide +kernel)
  txn := text "t"
  unreserved := by
    intro e mem
    rw [List.mem_singleton.mp mem]
    have : ([text "a"] : Path).head? ≠ some (text "t") := by decide
    exact this
  staged := by
    intro e mem _
    rw [List.mem_singleton.mp mem]
    exact ⟨[2], by decide +kernel⟩

/-- Without a failure the staged file replaces the one in the root. -/
theorem commit_all_or_nothing_replacing :
    (replacing.commit ⟨fun _ => false, fun _ => false⟩).1 = .ok () ∧
      (replacing.commit ⟨fun _ => false, fun _ => false⟩).2.disk.get [text "a"] =
        some (.leaf (.file [2])) := by
  have ok : (replacing.commit ⟨fun _ => false, fun _ => false⟩).1 = .ok () := by decide +kernel
  have published := commit_all_or_nothing id .default (fun _ => false)
    [⟨[0x61], some (text "a"), false, none, 1, 1⟩] _ (by decide +kernel) replacing
    ⟨fun _ => false, fun _ => false⟩
  refine ⟨ok, ?_⟩
  rcases run : replacing.commit ⟨fun _ => false, fun _ => false⟩ with ⟨_ | _, s⟩
  · rw [run] at ok
    cases ok
  · rw [run] at published
    have outside : Outside replacing.txn [text "a"] := by
      have : ([text "a"] : Path).head? ≠ some (text "t") := by decide
      exact this
    rw [published [text "a"] outside]
    decide +kernel

end Mineru.Archive
