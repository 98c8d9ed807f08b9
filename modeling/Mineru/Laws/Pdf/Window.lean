import Mineru.Pdf.Window

/-!
# Every page of a window

The invariant of `render_window_core` accounts for the pages: each one waits with its size, waits in
the window, has a task, is rendered, or has a warning (`Accounts`). The window fits the byte cap as
a whole, so its tasks do. The cap is compared with a saturating sum, which never goes over
`usize::MAX`: a cap of that size holds no page back.

`Within` is the comparison as the source makes it, and `Within.le` what it means below the largest
cap. The steps are the ends of tasks, in any order. A task ends with a page or with an error; one
that panics or is aborted is lost and ends the call, and the account of every page is made for the
runs without such a task (`orderly`).

That a task ends is not proved. The bytes are the estimates from the page sizes.
-/

set_option autoImplicit false

namespace Mineru.Pdf

open Logic Rendering

/-! ## Rendered pages -/

section Rendered

variable {π : Type} {page : RenderedPage π} {pages : List (RenderedPage π)}

/-- A page is inserted once, and none is lost. -/
theorem insertPage_perm (page : RenderedPage π) (fresh : page.index ∉ pages.map RenderedPage.index) :
    ((insertPage page pages).map RenderedPage.index).Perm
      (page.index :: pages.map RenderedPage.index) := by
  induction pages with
  | nil => exact List.Perm.refl _
  | cons other pages ih =>
    rw [List.map_cons, List.mem_cons, not_or] at fresh
    unfold insertPage
    split
    · exact List.Perm.refl _
    · rw [if_neg fresh.1]
      exact ((ih fresh.2).cons other.index).trans (List.Perm.swap _ _ _)

/-- The rendered pages stay sorted by their indexes. -/
theorem insertPage_sorted (fresh : page.index ∉ pages.map RenderedPage.index)
    (sorted : (pages.map RenderedPage.index).Pairwise (· < ·)) :
    ((insertPage page pages).map RenderedPage.index).Pairwise (· < ·) := by
  induction pages with
  | nil => exact List.pairwise_singleton _ _
  | cons other pages ih =>
    obtain ⟨above, rest⟩ := List.pairwise_cons.mp sorted
    rw [List.map_cons, List.mem_cons, not_or] at fresh
    unfold insertPage
    split
    · rename_i below
      refine List.pairwise_cons.mpr ⟨fun index mem => ?_, sorted⟩
      rcases List.mem_cons.mp mem with rfl | later
      · exact below
      · exact below.trans (above index later)
    · rename_i notBelow
      rw [if_neg fresh.1]
      refine List.pairwise_cons.mpr ⟨fun index mem => ?_, ih fresh.2 rest⟩
      rcases List.mem_cons.mp ((insertPage_perm page fresh.2).mem_iff.mp mem) with rfl | later
      · exact Nat.lt_of_le_of_ne (Nat.not_lt.mp notBelow) (Ne.symm fresh.1)
      · exact above index later

end Rendered

/-! ## Windows -/

/-- The cap, compared with a sum that saturates. -/
def Within (cap total : Nat) : Prop := min total (word - 1) ≤ cap

/-- Below the largest cap the comparison is the plain one. -/
theorem Within.le {cap total : Nat} (within : Within cap total) (below : cap < word - 1) :
    total ≤ cap := by
  unfold Within at within
  omega

theorem Within.of_le {cap total part : Nat} (within : Within cap total) (le : part ≤ total) :
    Within cap part := by
  unfold Within at within ⊢
  omega

/-- The running sum saturates, and so says no more than the comparison needs. -/
theorem Within.of_used {cap used total : Nat} (isUsed : used = min total (word - 1))
    (within : used ≤ cap) : Within cap total := by
  rwa [Within, ← isUsed]

/-- The window takes pages in their order as long as they fit. -/
theorem admitFrom_ok {cap used total : Nat} {admitted window : List Nat}
    {sizes rest : List (Nat × Nat)} (isUsed : used = min total (word - 1)) (within : used ≤ cap)
    (h : admitFrom cap used admitted sizes = .ok (window, rest)) :
    ∃ taken, sizes = taken ++ rest ∧ window = admitted ++ taken.map Prod.fst ∧
      Within cap (total + (taken.map Prod.snd).sum) ∧ (window = [] → sizes = []) := by
  induction sizes generalizing used total admitted with
  | nil =>
    obtain ⟨rfl, rfl⟩ := Prod.mk.inj (Except.ok.inj h)
    exact ⟨[], rfl, (List.append_nil _).symm, Within.of_used isUsed within, fun _ => rfl⟩
  | cons size sizes ih =>
    obtain ⟨index, bytes⟩ := size
    unfold admitFrom at h
    split at h
    · split at h
      · exact nomatch h
      · rename_i some
        obtain ⟨rfl, rfl⟩ := Prod.mk.inj (Except.ok.inj h)
        exact ⟨[], rfl, (List.append_nil _).symm, Within.of_used isUsed within, fun none => absurd none some⟩
    · rename_i fits
      have nextUsed : saturatingAdd used bytes = min (total + bytes) (word - 1) := by
        unfold saturatingAdd
        omega
      obtain ⟨taken, rfl, rfl, total, -⟩ := ih nextUsed (Nat.not_lt.mp fits) h
      refine ⟨(index, bytes) :: taken, rfl, by simp, ?_, fun none => by simp at none⟩
      rwa [List.map_cons, List.sum_cons, ← Nat.add_assoc]

/-- The only error of the admission is that a limit is exceeded. -/
theorem admitFrom_error {cap used : Nat} {admitted : List Nat} {sizes : List (Nat × Nat)}
    {error : Error} (h : admitFrom cap used admitted sizes = .error error) :
    ∃ resource limit actual, error = .limitExceeded resource limit actual := by
  induction sizes generalizing used admitted with
  | nil => exact nomatch h
  | cons size sizes ih =>
    obtain ⟨index, bytes⟩ := size
    unfold admitFrom at h
    split at h
    · split at h
      · exact ⟨_, _, _, (Except.error.inj h).symm⟩
      · exact nomatch h
    · exact ih h

/-- A window takes the first sizes, at least one of them, and fits the cap. -/
theorem admittedWindow_ok {cap : Nat} {sizes rest : List (Nat × Nat)} {window : List Nat}
    (some : sizes ≠ []) (h : admittedWindow sizes cap = .ok (window, rest)) :
    ∃ taken, sizes = taken ++ rest ∧ window = taken.map Prod.fst ∧
      Within cap (taken.map Prod.snd).sum ∧ window ≠ [] := by
  obtain ⟨taken, cut, is, within, none⟩ := admitFrom_ok (Nat.zero_min _).symm (Nat.zero_le cap) h
  rw [Nat.zero_add] at within
  exact ⟨taken, cut, is, within, fun empty => some (none empty)⟩

/-! ## The accounts -/

/-- The warning of a page. -/
def Tells (warning : Text) (index : Nat) : Prop := ∃ reason, warning = pageFailed index reason

/-- The estimate of a page, if there is one. -/
def Job.size (job : Job) (index : Nat) : Nat :=
  match job.estimate index with
  | .ok bytes => bytes
  | .error _ => 0

/-- The estimates of some pages together. -/
def Job.load (job : Job) (indexes : List Nat) : Nat := (indexes.map job.size).sum

section Accounts

variable {π : Type} {job : Job} {s : Rendering π} {left : List Nat}

/-- Every page is in one place, or has its warning. -/
structure Accounts (job : Job) (s : Rendering π) (left : List Nat) : Prop where
  placed : ∀ index, (s.pending.map Prod.fst).count index + s.windowPending.count index +
    s.tasks.count index + (s.rendered.map RenderedPage.index).count index + left.count index =
      job.indexes.count index
  told : List.Forall₂ Tells s.warnings left
  sorted : (s.rendered.map RenderedPage.index).Pairwise (· < ·)
  sized : ∀ size ∈ s.pending, job.size size.1 = size.2

theorem Accounts.warn {index bytes : Nat} {sizes : List (Nat × Nat)}
    (accounts : Accounts job { s with pending := (index, bytes) :: sizes } left) (reason : String)
    (error : Error) :
    Accounts job { s.warn index reason error with pending := sizes } (left ++ [index]) where
  placed i := by
    have placed := accounts.placed i
    simp only [List.map_cons, List.count_cons, List.count_append, List.count_nil] at placed ⊢
    show _ + List.count i s.windowPending + List.count i s.tasks +
      List.count i (s.rendered.map RenderedPage.index) + _ = _
    omega
  told := List.rel_append accounts.told (.cons ⟨reason, rfl⟩ .nil)
  sorted := accounts.sorted
  sized size mem := accounts.sized size (List.mem_cons_of_mem _ mem)

/-- The tasks, and what is left of the window, are within the bounds. -/
structure Bounded (job : Job) (s : Rendering π) : Prop where
  workers : s.tasks.length ≤ max job.workers 1
  load : Within job.maxInFlightImageBytes (job.load (s.tasks ++ s.windowPending))

/-- How a call ends. -/
structure Done (job : Job) (s : Rendering π) (ending : Ending π) : Prop where
  pending : s.pending = []
  windowPending : s.windowPending = []
  tasks : s.tasks = []
  result : (job.indexes ≠ [] ∧ s.rendered = [] ∧ ∃ error, ending = .returned (.error error)) ∨
    ((job.indexes = [] ∨ s.rendered ≠ []) ∧ ending = .returned (.ok (s.rendered, s.warnings)))

structure Inv (job : Job) (s : Rendering π) : Prop where
  accounts : ∃ left, Accounts job s left
  bounded : Bounded job s
  busy : s.ending = none → s.tasks ≠ []
  done : ∀ ending, s.ending = some ending → Done job s ending

theorem bounded_idle (windowPending : s.windowPending = []) (tasks : s.tasks = []) :
    Bounded job s := by
  constructor
  · rw [tasks]
    exact Nat.zero_le _
  · rw [tasks, windowPending]
    exact Nat.zero_le _

/-- The end of the rendering keeps the accounts. -/
theorem finish_inv (tolerant : job.tolerant = true) (failOnEmpty : job.failOnEmpty = true)
    (pending : s.pending = []) (windowPending : s.windowPending = []) (tasks : s.tasks = [])
    (accounts : Accounts job s left) : Inv job (finish job s) := by
  unfold finish
  split
  · rename_i empty
    refine ⟨⟨left, accounts.placed, accounts.told, accounts.sorted, accounts.sized⟩,
      bounded_idle windowPending tasks, nofun, ?_⟩
    rintro ending ⟨⟩
    exact ⟨pending, windowPending, tasks,
      .inl ⟨List.length_pos_iff.mp empty.2.2.1, empty.2.2.2, _, rfl⟩⟩
  · rename_i some
    refine ⟨⟨left, accounts.placed, accounts.told, accounts.sorted, accounts.sized⟩,
      bounded_idle windowPending tasks, nofun, ?_⟩
    rintro ending ⟨⟩
    refine ⟨pending, windowPending, tasks, .inr ⟨?_, rfl⟩⟩
    by_contra neither
    rw [not_or, not_not] at neither
    exact some ⟨tolerant, failOnEmpty, List.length_pos_iff.mpr neither.1, neither.2⟩

/-- The first pages of the window get a task, as long as there are enough. -/
theorem spawnFirst_eq {n : Nat} (enough : n ≤ s.windowPending.length) :
    spawnFirst n s = { s with
      windowPending := s.windowPending.drop n, tasks := s.tasks ++ s.windowPending.take n } := by
  induction n generalizing s with
  | zero => simp [spawnFirst]
  | succ n ih =>
    unfold spawnFirst
    cases window : s.windowPending with
    | nil =>
      rw [window] at enough
      exact absurd enough (Nat.not_succ_le_zero n)
    | cons index rest =>
      rw [window, List.length_cons] at enough
      dsimp only
      rw [ih (Nat.le_of_succ_le_succ enough)]
      simp

/-- A window begins with as many tasks as there are workers. -/
theorem beginWindow_inv {taken rest : List (Nat × Nat)} {window : List Nat}
    (isWindow : window = taken.map Prod.fst) (some : window ≠ [])
    (within : Within job.maxInFlightImageBytes (taken.map Prod.snd).sum)
    (windowPending : s.windowPending = []) (tasks : s.tasks = []) (running : s.ending = none)
    (accounts : Accounts job { s with pending := taken ++ rest } left) :
    Inv job (beginWindow job { s with pending := rest } window) := by
  have positive : 0 < window.length := List.length_pos_iff.mpr some
  have isLoad : job.load window = (taken.map Prod.snd).sum := by
    rw [Job.load, isWindow, List.map_map]
    congr 1
    exact List.map_congr_left fun size mem => accounts.sized size (List.mem_append_left _ mem)
  have spawned := spawnFirst_eq (s := { s with pending := rest, windowPending := window })
    (min_le_right (max job.workers 1) window.length)
  rw [beginWindow, if_neg some]
  refine (congrArg (Inv job) spawned).mpr ?_
  refine ⟨⟨left, ?_, accounts.told, accounts.sorted, fun size mem =>
    accounts.sized size (List.mem_append_right _ mem)⟩, ⟨?_, ?_⟩, fun _ => ?_, ?_⟩
  · intro index
    have placed := accounts.placed index
    have cut := congrArg (List.count index)
      (List.take_append_drop (min (max job.workers 1) window.length) window)
    rw [List.count_append] at cut
    simp only [windowPending, tasks, List.map_append, List.count_append, ← isWindow, List.count_nil,
      List.nil_append] at placed ⊢
    omega
  · simp only [tasks, List.nil_append, List.length_take]
    omega
  · simp only [tasks, List.nil_append, List.take_append_drop, isLoad]
    exact within
  · simp only [tasks, List.nil_append]
    intro none
    have short := congrArg List.length none
    rw [List.length_take, List.length_nil] at short
    omega
  · intro ending ended
    exact nomatch running.symm.trans ended

/-- The outer loop: an oversized page is left out with a warning, and a window begins. -/
theorem advance_inv (tolerant : job.tolerant = true) (failOnEmpty : job.failOnEmpty = true)
    {sizes : List (Nat × Nat)} (windowPending : s.windowPending = []) (tasks : s.tasks = [])
    (running : s.ending = none) (accounts : Accounts job { s with pending := sizes } left) :
    Inv job (advance job sizes s) := by
  induction sizes generalizing s left with
  | nil => exact finish_inv tolerant failOnEmpty rfl windowPending tasks accounts
  | cons size sizes ih =>
    obtain ⟨index, bytes⟩ := size
    unfold advance
    cases window : admittedWindow ((index, bytes) :: sizes) job.maxInFlightImageBytes with
    | ok admitted =>
      obtain ⟨window, rest⟩ := admitted
      obtain ⟨taken, cut, isWindow, within, some⟩ :=
        admittedWindow_ok (List.cons_ne_nil _ _) ‹_›
      rw [cut] at accounts
      exact beginWindow_inv isWindow some within windowPending tasks running accounts
    | error error =>
      obtain ⟨resource, limit, actual, rfl⟩ := admitFrom_error window
      dsimp only
      rw [if_pos tolerant]
      exact ih windowPending tasks running (accounts.warn _ _)

/-- The loop over the estimates: a page without one is left out with a warning. -/
theorem measure_accounts (tolerant : job.tolerant = true) {indexes : List Nat}
    (windowPending : s.windowPending = []) (tasks : s.tasks = []) (running : s.ending = none)
    (placed : ∀ index, (s.pending.map Prod.fst).count index + left.count index +
      indexes.count index = job.indexes.count index)
    (told : List.Forall₂ Tells s.warnings left) (rendered : s.rendered = [])
    (sized : ∀ size ∈ s.pending, job.size size.1 = size.2) :
    ∃ left, Accounts job (measure job indexes s) left ∧
      (measure job indexes s).windowPending = [] ∧ (measure job indexes s).tasks = [] ∧
      (measure job indexes s).ending = none := by
  induction indexes generalizing s left with
  | nil =>
    refine ⟨left, ⟨fun index => ?_, told, ?_, sized⟩, windowPending, tasks, running⟩
    · have placed := placed index
      simp only [Rendering.measure, windowPending, tasks, rendered, List.map_nil, List.count_nil] at placed ⊢
      omega
    · rw [Rendering.measure, rendered]
      exact List.Pairwise.nil
  | cons index indexes ih =>
    unfold Rendering.measure
    cases estimate : job.estimate index with
    | ok bytes =>
      refine ih windowPending tasks running (fun i => ?_) told rendered ?_
      · have placed := placed i
        simp only [List.map_append, List.map_cons, List.map_nil, List.count_append, List.count_cons,
          List.count_nil] at placed ⊢
        omega
      · intro size mem
        rcases List.mem_append.mp mem with earlier | last
        · exact sized size earlier
        · rw [List.mem_singleton.mp last, Job.size, estimate]
    | error error =>
      dsimp only
      rw [if_pos tolerant]
      refine ih windowPending tasks running (fun i => ?_)
        (List.rel_append told (.cons ⟨error.display, rfl⟩ .nil)) rendered sized
      have placed := placed i
      simp only [List.count_append, List.count_cons, List.count_nil] at placed ⊢
      show List.count i (s.pending.map Prod.fst) + _ + _ = _
      omega

theorem begin_inv (tolerant : job.tolerant = true) (failOnEmpty : job.failOnEmpty = true) :
    Inv job (begin job : Rendering π) := by
  have start : ∀ index, (([] : List (Nat × Nat)).map Prod.fst).count index +
      ([] : List Nat).count index + job.indexes.count index = job.indexes.count index := by simp
  obtain ⟨left, accounts, windowPending, tasks, running⟩ := measure_accounts
    (s := (⟨[], [], [], [], [], none, none⟩ : Rendering π)) tolerant rfl rfl rfl start .nil rfl nofun
  rw [begin, running]
  exact advance_inv tolerant failOnEmpty windowPending tasks running accounts

theorem Within.of_load {part whole : List Nat} (within : Within job.maxInFlightImageBytes (job.load whole))
    (sub : part.Subperm whole) : Within job.maxInFlightImageBytes (job.load part) := by
  obtain ⟨kept, perm, sub⟩ := sub
  refine within.of_le ?_
  have same : job.load part = job.load kept := (perm.map job.size).sum_eq.symm
  rw [same]
  exact (sub.map job.size).sum_le_sum fun _ _ => Nat.zero_le _

/-- Behind a task that has ended and left its page rendered or with a warning. -/
theorem refill_inv (tolerant : job.tolerant = true) (failOnEmpty : job.failOnEmpty = true)
    (workers : s.tasks.length < max job.workers 1)
    (load : Within job.maxInFlightImageBytes (job.load (s.tasks ++ s.windowPending)))
    (running : s.ending = none) (accounts : Accounts job s left) : Inv job (refill job s) := by
  unfold refill
  cases window : s.windowPending with
  | cons index rest =>
    rw [window] at load
    refine ⟨⟨left, fun i => ?_, accounts.told, accounts.sorted, accounts.sized⟩, ⟨?_, ?_⟩,
      fun _ => by simp, fun ending ended => nomatch running.symm.trans ended⟩
    · have placed := accounts.placed i
      simp only [window, List.count_append, List.count_cons, List.count_nil] at placed ⊢
      omega
    · rw [List.length_append]
      exact workers
    · rw [List.append_assoc]
      exact load
  | nil =>
    dsimp only
    split
    · rename_i idle
      exact advance_inv tolerant failOnEmpty window idle running accounts
    · rename_i busy
      exact ⟨⟨left, accounts⟩, ⟨workers.le, window ▸ load⟩, fun _ => busy,
        fun ending ended => nomatch running.symm.trans ended⟩

/-- A page with a task is not yet rendered. -/
theorem Accounts.fresh {left : List Nat} (accounts : Accounts job s left)
    (unique : job.indexes.Nodup) {index : Nat} (task : index ∈ s.tasks) :
    index ∉ s.rendered.map RenderedPage.index := by
  intro there
  have placed := accounts.placed index
  have one := List.nodup_iff_count_le_one.mp unique index
  have first := List.count_pos_iff.mpr task
  have second := List.count_pos_iff.mpr there
  omega

/-- A task that renders its page, or fails. -/
theorem join_inv (tolerant : job.tolerant = true) (failOnEmpty : job.failOnEmpty = true)
    (unique : job.indexes.Nodup) {index : Nat} {outcome : Outcome π}
    (ends : ∀ message, outcome ≠ .lost message) (running : s.ending = none) (task : index ∈ s.tasks)
    (inv : Inv job s) : Inv job (join job s index outcome) := by
  obtain ⟨left, accounts⟩ := inv.accounts
  have removed (i : Nat) : (s.tasks.erase index).count i + (if index = i then 1 else 0) =
      s.tasks.count i := by
    have same := (List.perm_cons_erase task).count_eq i
    rw [List.count_cons] at same
    simpa using same.symm
  have fresh := accounts.fresh unique task
  have workers : (s.tasks.erase index).length < max job.workers 1 := by
    have before := inv.bounded.workers
    have some := List.length_pos_of_mem task
    rw [List.length_erase_of_mem task]
    omega
  have load : Within job.maxInFlightImageBytes
      (job.load (s.tasks.erase index ++ s.windowPending)) :=
    inv.bounded.load.of_load ((List.erase_sublist.append_right _).subperm)
  unfold join
  cases outcome with
  | page raster =>
    refine refill_inv tolerant failOnEmpty workers load running
      ⟨fun i => ?_, accounts.told, insertPage_sorted fresh accounts.sorted, accounts.sized⟩
    have placed := accounts.placed i
    have more := (insertPage_perm ⟨index, raster⟩ fresh).count_eq i
    rw [List.count_cons] at more
    have erased := removed i
    simp only [beq_iff_eq] at more
    show (s.pending.map Prod.fst).count i + s.windowPending.count i + (s.tasks.erase index).count i +
      ((insertPage ⟨index, raster⟩ s.rendered).map RenderedPage.index).count i + left.count i = _
    omega
  | failed error =>
    dsimp only
    rw [if_pos tolerant]
    have told : List.Forall₂ Tells (s.warnings ++ [pageFailed index error.display]) (left ++ [index]) :=
      List.rel_append accounts.told (.cons ⟨_, rfl⟩ .nil)
    refine refill_inv tolerant failOnEmpty workers load running
      ⟨fun i => ?_, told, accounts.sorted, accounts.sized⟩
    have placed := accounts.placed i
    have erased := removed i
    simp only [List.count_append, List.count_cons, List.count_nil, beq_iff_eq]
    show (s.pending.map Prod.fst).count i + s.windowPending.count i + (s.tasks.erase index).count i +
      (s.rendered.map RenderedPage.index).count i + _ = _
    omega
  | lost message => exact absurd rfl (ends message)

end Accounts

/-! ## The length of a run -/

section Settled

variable {π : Type} {job : Job} {s : Rendering π}

/-- The pages that are rendered or have a warning, counted. -/
def Rendering.settled (s : Rendering π) : Nat := s.rendered.length + s.warnings.length

@[simp] theorem settled_warn (s : Rendering π) (index : Nat) (reason : String) (error : Error) :
    (s.warn index reason error).settled = s.settled + 1 := by
  simp [Rendering.warn, Rendering.settled, Nat.add_assoc]

@[simp] theorem settled_fail (s : Rendering π) (error : Error) : (s.fail error).settled = s.settled :=
  rfl

@[simp] theorem settled_finish (s : Rendering π) : (finish job s).settled = s.settled := by
  unfold finish
  split
  · rfl
  · rfl

@[simp] theorem settled_spawnFirst (n : Nat) (s : Rendering π) :
    (spawnFirst n s).settled = s.settled := by
  induction n generalizing s with
  | zero => rfl
  | succ n ih =>
    unfold spawnFirst
    cases s.windowPending with
    | nil => rfl
    | cons index rest => exact ih _

@[simp] theorem settled_beginWindow (s : Rendering π) (window : List Nat) :
    (beginWindow job s window).settled = s.settled := by
  unfold beginWindow
  split
  · rfl
  · exact settled_spawnFirst _ _

/-- The number of settled pages never falls. -/
theorem settled_advance (sizes : List (Nat × Nat)) (s : Rendering π) :
    s.settled ≤ (advance job sizes s).settled := by
  induction sizes generalizing s with
  | nil => exact (settled_finish { s with pending := [] }).ge
  | cons size sizes ih =>
    obtain ⟨index, bytes⟩ := size
    unfold advance
    split
    · rw [settled_beginWindow]
      exact le_refl s.settled
    · split
      · refine (Nat.le_succ _).trans ?_
        rw [Nat.succ_eq_add_one, ← settled_warn]
        exact ih _
      · exact le_refl s.settled
    · exact le_refl s.settled

theorem settled_refill (s : Rendering π) : s.settled ≤ (refill job s).settled := by
  unfold refill
  split
  · exact le_refl s.settled
  · split
    · exact settled_advance _ _
    · exact le_refl s.settled

/-- A task that ends settles its page. -/
theorem settled_join (tolerant : job.tolerant = true) {index : Nat} {outcome : Outcome π}
    (ends : ∀ message, outcome ≠ .lost message) (fresh : index ∉ s.rendered.map RenderedPage.index) :
    s.settled + 1 ≤ (join job s index outcome).settled := by
  unfold join
  cases outcome with
  | page raster =>
    refine Nat.le_trans ?_ (settled_refill _)
    have more := (insertPage_perm ⟨index, raster⟩ fresh).length_eq
    simp only [List.length_map, List.length_cons] at more
    simp only [Rendering.settled, more]
    omega
  | failed error =>
    dsimp only
    rw [if_pos tolerant]
    refine Nat.le_trans ?_ (settled_refill _)
    rw [settled_warn]
    exact le_refl _
  | lost message => exact absurd rfl (ends message)

end Settled

/-! ## The names in the warnings -/

/-- A warning names a page by its beginning. -/
def names (index : Nat) (warning : Text) : Bool := (renderPage index).isPrefixOf warning

/-- The digits of a number end where a blank stands. -/
theorem takeWhile_digits (n : Nat) (rest : Text) :
    (Nat.toDigits 10 n ++ ' ' :: rest).takeWhile Char.isDigit = Nat.toDigits 10 n := by
  rw [List.takeWhile_append_of_pos]
  · rw [List.takeWhile_cons_of_neg (by decide), List.append_nil]
  · exact fun c mem => Nat.isDigit_of_mem_toDigits (by decide) (by decide) mem

/-- A warning names its page, since different numbers have different digits. -/
theorem digits_inj {n k : Nat} {rest rest' : Text}
    (h : Nat.toDigits 10 n ++ ' ' :: rest = Nat.toDigits 10 k ++ ' ' :: rest') : n = k := by
  have same := congrArg (List.takeWhile Char.isDigit) h
  rw [takeWhile_digits, takeWhile_digits] at same
  rw [← @Nat.ofDigitChars_ten_toDigits n, ← @Nat.ofDigitChars_ten_toDigits k, same]

theorem renderPage_eq (index : Nat) :
    renderPage index = text "render page " ++ (Nat.toDigits 10 index ++ ' ' :: text "failed: ") := by
  have digits : text (toString index) = Nat.toDigits 10 index := Nat.toList_repr
  have blank : text " failed: " = ' ' :: text "failed: " := by decide
  exact (congrArg₂ (fun number rest => text "render page " ++ number ++ rest) digits blank).trans
    (List.append_assoc _ _ _)

/-- The warning of a page names no other page. -/
theorem names_pageFailed (index other : Nat) (reason : String) :
    names index (pageFailed other reason) = true ↔ index = other := by
  rw [names, List.isPrefixOf_iff_prefix, pageFailed]
  refine ⟨fun front => ?_, fun same => same ▸ List.prefix_append _ _⟩
  obtain ⟨rest, whole⟩ := front
  rw [renderPage_eq, renderPage_eq] at whole
  generalize text "render page " = front at whole
  simp only [List.append_assoc, List.append_cancel_left_eq, List.cons_append] at whole
  exact digits_inj whole

/-- A page has as many warnings as it was left out. -/
theorem count_names {warnings : List Text} {left : List Nat} (told : List.Forall₂ Tells warnings left)
    (index : Nat) : warnings.countP (names index) = left.count index := by
  induction told with
  | nil => rfl
  | @cons warning other warnings left tells _ ih =>
    obtain ⟨reason, rfl⟩ := tells
    rw [List.countP_cons, List.count_cons, ih]
    simp only [names_pageFailed, beq_iff_eq, eq_comm (a := other)]

/-! ## Every run -/

section Runs

variable {π : Type} {job : Job} {s : Rendering π}

/-- A task that neither panics nor is aborted. -/
def Rendering.Outcome.ends : Outcome π → Bool
  | .lost _ => false
  | _ => true

/-- `render_window_core` when no task panics or is aborted. -/
def orderly (π : Type) (job : Job) : Machine (Rendering π) (Nat × Outcome π) Unit :=
  (machine π job).restrict fun _ action => action.2.ends

theorem orderly_step {t : Rendering π} {index : Nat} {outcome : Outcome π} {reply : Unit}
    (taken : (orderly π job).step s (index, outcome) = some (t, reply)) :
    s.ending = none ∧ index ∈ s.tasks ∧ (∀ message, outcome ≠ .lost message) ∧
      t = join job s index outcome := by
  simp only [orderly, Machine.restrict, machine, Option.ite_none_right_eq_some] at taken
  obtain ⟨ends, ⟨running, task⟩, is⟩ := taken
  refine ⟨Option.isNone_iff_eq_none.mp running, task, ?_, (Prod.mk.inj (Option.some.inj is)).1.symm⟩
  rintro message rfl
  exact absurd ends Bool.false_ne_true

/-- Each step keeps the invariant and settles a page. -/
theorem run_inv (tolerant : job.tolerant = true) (failOnEmpty : job.failOnEmpty = true)
    (unique : job.indexes.Nodup) {h : List ((Nat × Outcome π) × Unit)}
    (run : (orderly π job).Run (begin job) h s) : Inv job s ∧ h.length ≤ s.settled := by
  induction run with
  | refl => exact ⟨begin_inv tolerant failOnEmpty, Nat.zero_le _⟩
  | @snoc _ _ _ action _ _ taken ih =>
    obtain ⟨inv, length⟩ := ih
    obtain ⟨index, outcome⟩ := action
    obtain ⟨running, task, ends, rfl⟩ := orderly_step taken
    obtain ⟨left, accounts⟩ := inv.accounts
    refine ⟨join_inv tolerant failOnEmpty unique ends running task inv, ?_⟩
    rw [List.length_append, List.length_singleton]
    exact (Nat.add_le_add_right length 1).trans
      (settled_join tolerant ends (accounts.fresh unique task))

/-- Only requested pages are settled. -/
theorem Accounts.settled_le {left : List Nat} (accounts : Accounts job s left) :
    s.settled ≤ job.indexes.length := by
  have whole : (s.pending.map Prod.fst ++ s.windowPending ++ s.tasks ++
      s.rendered.map RenderedPage.index ++ left).Perm job.indexes := by
    refine List.perm_iff_count.mpr fun index => ?_
    simp only [List.count_append]
    exact accounts.placed index
  have lengths := whole.length_eq
  have told := accounts.told.length_eq
  simp only [List.length_append, List.length_map] at lengths
  unfold Rendering.settled
  omega

/-- What a call that ends has done. -/
structure Answered (job : Job) (s : Rendering π) (ending : Ending π) : Prop where
  /-- Each page is rendered, or has one warning. -/
  once : ∀ index ∈ job.indexes,
    (index ∈ s.rendered.map RenderedPage.index ∧ s.warnings.countP (names index) = 0) ∨
    (index ∉ s.rendered.map RenderedPage.index ∧ s.warnings.countP (names index) = 1)
  requested : ∀ index ∈ s.rendered.map RenderedPage.index, index ∈ job.indexes
  ordered : (s.rendered.map RenderedPage.index).Pairwise (· < ·)
  /-- The error, or the pages and the warnings. -/
  result : (job.indexes ≠ [] ∧ s.rendered = [] ∧ ∃ error, ending = .returned (.error error)) ∨
    ((job.indexes = [] ∨ s.rendered ≠ []) ∧ ending = .returned (.ok (s.rendered, s.warnings)))

/-- When nothing is pending, the accounts have two places left. -/
theorem Inv.answered (inv : Inv job s) (unique : job.indexes.Nodup) {ending : Ending π}
    (ended : s.ending = some ending) : Answered job s ending := by
  obtain ⟨left, accounts⟩ := inv.accounts
  obtain ⟨pending, windowPending, tasks, result⟩ := inv.done ending ended
  have placed (index : Nat) : (s.rendered.map RenderedPage.index).count index + left.count index =
      job.indexes.count index := by
    have placed := accounts.placed index
    simpa only [pending, windowPending, tasks, List.map_nil, List.count_nil, Nat.zero_add] using placed
  refine ⟨fun index mem => ?_, fun index mem => ?_, accounts.sorted, result⟩
  · have one := (List.count_eq_one_of_mem unique mem)
    have placed := placed index
    rw [count_names accounts.told]
    by_cases there : index ∈ s.rendered.map RenderedPage.index
    · have some := List.count_pos_iff.mpr there
      exact .inl ⟨there, by omega⟩
    · have none := List.count_eq_zero_of_not_mem there
      exact .inr ⟨there, by omega⟩
  · have some := List.count_pos_iff.mpr mem
    have placed := placed index
    exact List.count_pos_iff.mp (by omega)

/-- **Every run of `render_window_core` without a lost task accounts for every page**: it takes no
more steps than there are pages, stops only when it returns, keeps within the bounds, and each page
is returned or has a warning that names it. -/
theorem accounted (tolerant : job.tolerant = true) (failOnEmpty : job.failOnEmpty = true)
    (increasing : job.indexes.Pairwise (· < ·)) {h : List ((Nat × Outcome π) × Unit)}
    (run : (orderly π job).Run (begin job) h s) :
    h.length ≤ job.indexes.length ∧
      (s.ending = none → s.tasks ≠ [] ∧ ∀ index ∈ s.tasks, ∀ outcome : Outcome π, outcome.ends →
        ∃ t, (orderly π job).step s (index, outcome) = some (t, ())) ∧
      s.ending ≠ some .panicked ∧ s.ending ≠ some .diverged ∧
      s.tasks.length ≤ max job.workers 1 ∧
      (job.maxInFlightImageBytes < word - 1 → job.load s.tasks ≤ job.maxInFlightImageBytes) ∧
      ∀ ending, s.ending = some ending → Answered job s ending := by
  have unique : job.indexes.Nodup := increasing.imp fun below => below.ne
  obtain ⟨inv, length⟩ := run_inv tolerant failOnEmpty unique run
  obtain ⟨left, accounts⟩ := inv.accounts
  have returned (ending : Ending π) (ended : s.ending = some ending) :
      ∃ result, ending = .returned result := by
    rcases (inv.done ending ended).result with ⟨-, -, error, is⟩ | ⟨-, is⟩
    · exact ⟨_, is⟩
    · exact ⟨_, is⟩
  refine ⟨length.trans accounts.settled_le, fun running => ⟨inv.busy running, ?_⟩, ?_, ?_,
    inv.bounded.workers, fun below => ?_, fun ending ended => inv.answered unique ended⟩
  · intro index task outcome ends
    exact ⟨_, (if_pos ends).trans (if_pos ⟨Option.isNone_iff_eq_none.mpr running, task⟩)⟩
  · intro ended
    obtain ⟨result, is⟩ := returned _ ended
    exact nomatch is
  · intro ended
    obtain ⟨result, is⟩ := returned _ ended
    exact nomatch is
  · exact (inv.bounded.load.of_load (List.sublist_append_left _ _).subperm).le below

end Runs

/-- Two pages of one window, with one worker. -/
def twoPages : Job := ⟨[0, 2], fun _ => .ok 100, 200, 0, true, true⟩

/-- Two pages, one of which fails. -/
theorem accounted_twoPages : ∃ h s, (orderly Nat twoPages).Run (begin twoPages) h s ∧
    ∃ ending, s.ending = some ending ∧ Answered twoPages s ending := by
  have first : (orderly Nat twoPages).Run (begin twoPages) ([] ++ [((0, .page 7), ())])
      (join twoPages (begin twoPages) 0 (.page 7)) := .snoc (.refl _) rfl
  have second := first.snoc (a := (2, .failed (.pdf "broken"))) rfl
  exact ⟨_, _, second, _, rfl, (accounted rfl rfl (by decide) second).2.2.2.2.2.2 _ rfl⟩

/-- Two pages of `2 ^ 63` bytes, a cap of `usize::MAX`, and two workers. -/
def twoGiants : Job := ⟨[0, 1], fun _ => .ok (2 ^ 63), word - 1, 2, true, true⟩

/-- The sum that saturates stays below a cap of `usize::MAX`, and both pages are rendered at a time. -/
theorem giants_together : ¬ ∀ job : Job, job.tolerant = true → job.failOnEmpty = true →
    job.indexes.Pairwise (· < ·) → ∀ s, (orderly Nat job).Reachable s →
      job.load s.tasks ≤ job.maxInFlightImageBytes := by
  intro claim
  exact absurd (claim twoGiants rfl rfl (by decide) _ Machine.Reachable.start) (by decide)

end Mineru.Pdf
