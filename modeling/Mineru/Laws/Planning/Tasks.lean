import Mineru.Planning.Tasks

/-!
# What the tasks of a run hold

`place_cases` says what one turn of the packing loop does: it opens a bin for the document, which
either is larger than the window or fits no bin, or it appends the document to one bin. `Packed` is
the invariant of the bins, `place_perm` says that a turn loses nothing, and `Grows` that a bin only
gets longer.

`PlanSpec` is one specification for both backends: the tasks are numbered in order and hold every
document once, each with the exact sum of its pages. For the pipeline backend it says also that a
task fits in the window unless a document alone is larger, and that no task was opened for a
document that another one had room for.

That the packing is a good one, or uses few tasks, is not stated.
-/

set_option autoImplicit false

namespace Mineru.Planning

open Logic

/-! ## One turn -/

/-- The bin with one more document. -/
def PlannedTask.grown (bin : PlannedTask) (doc : InputDocument) : PlannedTask :=
  { bin with
    totalPages := bin.totalPages + doc.effectivePages
    documents := bin.documents ++ [doc] }

theorem hasRoom_iff {window : Nat} {doc : InputDocument} {bin : PlannedTask} :
    hasRoom window doc bin = true ↔
      bin.totalPages + doc.effectivePages < word ∧ bin.totalPages + doc.effectivePages ≤ window := by
  unfold hasRoom checkedAdd
  split
  · next small => simp only [Option.any_some, decide_eq_true_eq, small, true_and]
  · next large => simp only [Option.any_none, Bool.false_eq_true, large, false_and]

theorem target_some {window i : Nat} {bins : List PlannedTask} {doc : InputDocument}
    (h : target window bins doc = some i) :
    ∃ bin, bins[i]? = some bin ∧ hasRoom window doc bin = true := by
  obtain ⟨⟨bin, j⟩, least, rfl⟩ := Option.map_eq_some_iff.mp h
  obtain ⟨mem, room⟩ := List.mem_filter.mp (List.argmin_mem least)
  exact ⟨bin, List.mem_zipIdx_iff_getElem?.mp mem, room⟩

theorem target_none {window : Nat} {bins : List PlannedTask} {doc : InputDocument}
    (h : target window bins doc = none) {bin : PlannedTask} (mem : bin ∈ bins) :
    ¬ hasRoom window doc bin = true := by
  intro room
  have empty := List.argmin_eq_none.mp (Option.map_eq_none_iff.mp h)
  obtain ⟨i, at_i⟩ := List.mem_iff_getElem?.mp mem
  have : (bin, i) ∈ bins.zipIdx.filter fun entry => hasRoom window doc entry.1 :=
    List.mem_filter.mpr ⟨List.mem_zipIdx_iff_getElem?.mpr at_i, room⟩
  rw [empty] at this
  cases this

/-- What one turn does. -/
theorem place_cases (window : Nat) (bins : List PlannedTask) (doc : InputDocument) :
    (place window bins doc = bins ++ [singleton doc] ∧
      (window < doc.effectivePages ∨ ∀ bin ∈ bins, ¬ hasRoom window doc bin = true)) ∨
    ∃ left bin right, bins = left ++ bin :: right ∧ hasRoom window doc bin = true ∧
      place window bins doc = left ++ bin.grown doc :: right := by
  unfold place
  by_cases large : doc.effectivePages > window
  · exact Or.inl ⟨if_pos large, Or.inl large⟩
  · rw [if_neg large]
    cases chosen : target window bins doc with
    | none => exact Or.inl ⟨rfl, Or.inr fun bin mem => target_none chosen mem⟩
    | some i =>
      right
      obtain ⟨bin, at_i, room⟩ := target_some chosen
      obtain ⟨lt, rfl⟩ := List.getElem?_eq_some_iff.mp at_i
      refine ⟨bins.take i, bins[i], bins.drop (i + 1), ?_, room, ?_⟩
      · rw [← List.drop_eq_getElem_cons lt, List.take_append_drop]
      · have total : checkedAdd bins[i].totalPages doc.effectivePages =
            some (bins[i].totalPages + doc.effectivePages) := if_pos (hasRoom_iff.mp room).1
        simp only [Option.bind_eq_bind, Option.bind_some, at_i, total, Option.pure_def]
        rw [List.modify_eq_take_cons_drop lt]
        rfl

/-! ## The bins -/

/-- What is true of every bin. -/
structure Packed (window : Nat) (bin : PlannedTask) : Prop where
  exact : bin.totalPages = (bin.documents.map InputDocument.effectivePages).sum
  fits : bin.totalPages < word
  within : bin.totalPages ≤ window ∨ ∃ doc, bin.documents = [doc] ∧ window < doc.effectivePages

theorem Packed.singleton (window : Nat) (doc : InputDocument) :
    Packed window (singleton doc) := by
  refine ⟨(Nat.add_zero _).symm, doc.fits, ?_⟩
  by_cases large : window < doc.effectivePages
  · exact Or.inr ⟨doc, rfl, large⟩
  · exact Or.inl (Nat.le_of_not_lt large)

theorem Packed.grown {window : Nat} {bin : PlannedTask} {doc : InputDocument}
    (h : Packed window bin) (room : hasRoom window doc bin = true) :
    Packed window (bin.grown doc) := by
  obtain ⟨small, within⟩ := hasRoom_iff.mp room
  refine ⟨?_, small, Or.inl within⟩
  change bin.totalPages + doc.effectivePages = ((bin.documents ++ [doc]).map _).sum
  rw [h.exact, List.map_append, List.sum_append]
  rfl

theorem place_packed {window : Nat} {bins : List PlannedTask} {doc : InputDocument}
    (h : ∀ bin ∈ bins, Packed window bin) : ∀ bin ∈ place window bins doc, Packed window bin := by
  intro bin mem
  rcases place_cases window bins doc with ⟨opened, -⟩ | ⟨left, old, right, rfl, room, grown⟩
  · rw [opened, List.mem_append, List.mem_singleton] at mem
    rcases mem with mem | rfl
    · exact h bin mem
    · exact .singleton window doc
  · rw [grown, List.mem_append, List.mem_cons] at mem
    rcases mem with mem | rfl | mem
    · exact h bin (List.mem_append_left _ mem)
    · exact (h old (List.mem_append_right _ List.mem_cons_self)).grown room
    · exact h bin (List.mem_append_right _ (List.mem_cons_of_mem _ mem))

/-- A turn adds its document and moves no other. -/
theorem place_perm (window : Nat) (bins : List PlannedTask) (doc : InputDocument) :
    ((place window bins doc).flatMap PlannedTask.documents).Perm
      (bins.flatMap PlannedTask.documents ++ [doc]) := by
  rcases place_cases window bins doc with ⟨opened, -⟩ | ⟨left, bin, right, rfl, -, grown⟩
  · rw [opened, List.flatMap_append]
    exact List.Perm.refl _
  · rw [grown, List.flatMap_append, List.flatMap_cons, List.flatMap_append, List.flatMap_cons]
    change (_ ++ (bin.documents ++ [doc] ++ _)).Perm _
    simp only [List.append_assoc]
    exact ((List.perm_append_comm.append_left bin.documents).append_left _)

/-- Every bin is the beginning of the later bin at its place. -/
def Grows (bins later : List PlannedTask) : Prop :=
  ∀ (i : Nat) (bin : PlannedTask), bins[i]? = some bin →
    ∃ task, later[i]? = some task ∧ bin.documents <+: task.documents

theorem Grows.refl (bins : List PlannedTask) : Grows bins bins :=
  fun _ bin at_i => ⟨bin, at_i, List.prefix_refl _⟩

theorem Grows.trans {a b c : List PlannedTask} (ab : Grows a b) (bc : Grows b c) : Grows a c := by
  intro i bin at_i
  obtain ⟨mid, there, starts⟩ := ab i bin at_i
  obtain ⟨task, final, continued⟩ := bc i mid there
  exact ⟨task, final, starts.trans continued⟩

theorem place_grows (window : Nat) (bins : List PlannedTask) (doc : InputDocument) :
    Grows bins (place window bins doc) := by
  intro i bin at_i
  rcases place_cases window bins doc with ⟨opened, -⟩ | ⟨left, old, right, rfl, -, grown⟩
  · rw [opened]
    have lt := (List.getElem?_eq_some_iff.mp at_i).1
    exact ⟨bin, by rw [List.getElem?_append_left lt, at_i], List.prefix_refl _⟩
  · rw [grown]
    rcases Nat.lt_trichotomy i left.length with lt | rfl | gt
    · rw [List.getElem?_append_left lt] at at_i ⊢
      exact ⟨bin, at_i, List.prefix_refl _⟩
    · rw [List.getElem?_append_right le_rfl, Nat.sub_self, List.getElem?_cons_zero] at at_i ⊢
      cases at_i
      exact ⟨bin.grown doc, rfl, List.prefix_append _ _⟩
    · obtain ⟨k, hk⟩ := Nat.exists_eq_succ_of_ne_zero (Nat.sub_ne_zero_of_lt gt)
      rw [List.getElem?_append_right gt.le, hk, List.getElem?_cons_succ] at at_i ⊢
      exact ⟨bin, at_i, List.prefix_refl _⟩

/-- A turn that opens a bin found none with room. -/
theorem place_opened {window : Nat} {bins : List PlannedTask} {doc : InputDocument}
    (usize : window < word) (h : bins.length < (place window bins doc).length) :
    ∀ bin ∈ bins, window < bin.totalPages + doc.effectivePages := by
  intro bin mem
  rcases place_cases window bins doc with ⟨-, large | full⟩ | ⟨left, old, right, rfl, -, grown⟩
  · exact large.trans_le (Nat.le_add_left _ _)
  · have := full bin mem
    rw [hasRoom_iff] at this
    omega
  · rw [grown, List.length_append, List.length_append, List.length_cons, List.length_cons] at h
    exact absurd h (lt_irrefl _)

/-! ## The whole loop -/

theorem pack_snoc (window : Nat) (docs : List InputDocument) (doc : InputDocument) :
    pack window (docs ++ [doc]) = place window (pack window docs) doc := by
  unfold pack
  rw [List.foldl_append, List.foldl_cons, List.foldl_nil]

theorem pack_packed (window : Nat) (docs : List InputDocument) :
    ∀ bin ∈ pack window docs, Packed window bin := by
  induction docs using List.reverseRecOn with
  | nil => exact nofun
  | append_singleton docs doc ih =>
    rw [pack_snoc]
    exact place_packed ih

theorem pack_perm (window : Nat) (docs : List InputDocument) :
    ((pack window docs).flatMap PlannedTask.documents).Perm docs := by
  induction docs using List.reverseRecOn with
  | nil => exact List.Perm.refl _
  | append_singleton docs doc ih =>
    rw [pack_snoc]
    exact (place_perm window _ doc).trans (ih.append_right [doc])

theorem pack_grows (window : Nat) (placed rest : List InputDocument) :
    Grows (pack window placed) (pack window (placed ++ rest)) := by
  induction rest using List.reverseRecOn with
  | nil =>
    rw [List.append_nil]
    exact .refl _
  | append_singleton rest doc ih =>
    rw [← List.append_assoc, pack_snoc]
    exact ih.trans (place_grows window _ doc)

/-! ## Plans -/

/-- What the tasks of a plan are to be. -/
structure PlanSpec (backend : Backend) (documents : List InputDocument) (window : Nat)
    (tasks : List PlannedTask) : Prop where
  numbered : tasks.map PlannedTask.index = List.range' 1 tasks.length
  complete : (tasks.flatMap PlannedTask.documents).Perm documents
  exact : ∀ task ∈ tasks,
    task.totalPages = (task.documents.map InputDocument.effectivePages).sum ∧
      task.totalPages < word
  within : backend = .pipeline → ∀ task ∈ tasks, task.totalPages ≤ window ∨
    ∃ doc, task.documents = [doc] ∧ window < doc.effectivePages
  /-- The bins at the time a document is placed are the beginnings of the tasks, and a document that
  opens a bin fits none of them. -/
  opened : backend = .pipeline → ∀ placed doc rest,
    packingOrder documents = placed ++ doc :: rest →
      Grows (pack window placed) tasks ∧
      ((pack window placed).length < (place window (pack window placed) doc).length →
        ∀ bin ∈ pack window placed, window < bin.totalPages + doc.effectivePages)
  inOrder : backend ≠ .pipeline → tasks.map PlannedTask.documents = documents.map ([·])

/-- The tasks of the bins, numbered from one. -/
def number (bins : List PlannedTask) : List PlannedTask :=
  bins.mapIdx fun index task => { task with index := index + 1 }

theorem number_index (bins : List PlannedTask) :
    (number bins).map PlannedTask.index = List.range' 1 (number bins).length := by
  ext i
  by_cases lt : i < bins.length <;> simp [number, lt, Nat.add_comm]

theorem number_documents (bins : List PlannedTask) :
    (number bins).map PlannedTask.documents = bins.map PlannedTask.documents := by
  ext i
  by_cases lt : i < bins.length <;> simp [number, lt]

theorem number_getElem? {bins : List PlannedTask} {i : Nat} {bin : PlannedTask}
    (h : bins[i]? = some bin) : (number bins)[i]? = some { bin with index := i + 1 } := by
  rw [number, List.getElem?_mapIdx, h, Option.map_some]

theorem mem_number {bins : List PlannedTask} {task : PlannedTask} (h : task ∈ number bins) :
    ∃ bin ∈ bins, ∃ i, task = { bin with index := i } := by
  obtain ⟨i, lt, rfl⟩ := List.mem_mapIdx.mp h
  exact ⟨bins[i], List.getElem_mem lt, i + 1, rfl⟩

/-- The plan of the pipeline backend. -/
theorem number_pack_spec (documents : List InputDocument) {window : Nat} (usize : window < word) :
    PlanSpec .pipeline documents window (number (pack window (packingOrder documents))) := by
  refine ⟨number_index _, ?_, ?_, ?_, ?_, fun other => absurd rfl other⟩
  · rw [List.flatMap_def, number_documents, ← List.flatMap_def]
    exact (pack_perm window _).trans (List.perm_insertionSort before documents)
  · intro task mem
    obtain ⟨bin, listed, i, rfl⟩ := mem_number mem
    have packed := pack_packed window _ bin listed
    exact ⟨packed.exact, packed.fits⟩
  · intro _ task mem
    obtain ⟨bin, listed, i, rfl⟩ := mem_number mem
    exact (pack_packed window _ bin listed).within
  · intro _ placed doc rest split
    refine ⟨?_, place_opened usize⟩
    intro i bin at_i
    rw [split]
    obtain ⟨task, there, starts⟩ := pack_grows window placed (doc :: rest) i bin at_i
    exact ⟨_, number_getElem? there, starts⟩

/-- The plan of the other backends. -/
theorem number_singletons_spec {backend : Backend} (documents : List InputDocument) (window : Nat)
    (other : backend ≠ .pipeline) :
    PlanSpec backend documents window (number (documents.map singleton)) := by
  have each : (number (documents.map singleton)).map PlannedTask.documents =
      documents.map ([·]) := by
    rw [number_documents, List.map_map]
    rfl
  refine ⟨number_index _, ?_, ?_, fun pipeline => absurd pipeline other,
    fun pipeline => absurd pipeline other, fun _ => each⟩
  · rw [List.flatMap_def, each, ← List.flatMap_def, List.flatMap_singleton']
  · intro task mem
    obtain ⟨bin, listed, i, rfl⟩ := mem_number mem
    obtain ⟨doc, -, rfl⟩ := List.mem_map.mp listed
    exact ⟨(Packed.singleton window doc).exact, doc.fits⟩

/-- **Every request with pages to process has a plan**, and the plan loses and duplicates nothing:
it is numbered in order, and each task keeps what its backend asks of it. No sum of pages overflows
on the way. -/
theorem plan_tasks_complete (backend : Backend) (documents : List InputDocument) {window : Nat}
    (usize : window < word) (positive : 1 ≤ window)
    (pages : ∀ doc ∈ documents, doc.effectivePages ≠ 0) :
    ∃ tasks, planTasks backend documents window = .ok tasks ∧
      PlanSpec backend documents window tasks := by
  have accepted : ¬ (window = 0 ∨ (documents.any fun d => d.effectivePages = 0) = true) := by
    intro refused
    rcases refused with zero | empty
    · omega
    · obtain ⟨doc, mem, zero⟩ := List.any_eq_true.mp empty
      exact pages doc mem (of_decide_eq_true zero)
  unfold planTasks
  rw [if_neg accepted]
  by_cases pipeline : backend = .pipeline
  · rw [if_neg (not_not.mpr pipeline)]
    subst pipeline
    exact ⟨_, rfl, number_pack_spec documents usize⟩
  · rw [if_pos pipeline]
    refine ⟨number (documents.map singleton), ?_, number_singletons_spec documents window pipeline⟩
    congr 1
    ext i
    simp only [number, List.getElem?_mapIdx, List.getElem?_map, Option.map_map]
    rfl

/-- A document of five hundred pages and one of a page, with a window of a page. -/
theorem plan_tasks_complete_pair :
    ∃ tasks, planTasks .pipeline
        [⟨text "a.pdf", text "pdf", text "a", 500, 0, by decide⟩,
          ⟨text "b.pdf", text "pdf", text "b", 1, 1, by decide⟩] 1 = .ok tasks ∧
      PlanSpec .pipeline
        [⟨text "a.pdf", text "pdf", text "a", 500, 0, by decide⟩,
          ⟨text "b.pdf", text "pdf", text "b", 1, 1, by decide⟩] 1 tasks :=
  plan_tasks_complete .pipeline _ (by decide) (by decide) (by simp)

end Mineru.Planning
