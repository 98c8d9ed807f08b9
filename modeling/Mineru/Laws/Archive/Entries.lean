import Mineru.Archive.Entries

/-!
# What the accepted entries have in common

The loop over the directory keeps one key for each entry, so that two entries never have the same
path, and `archivePath` returns paths of non-empty components. The check of the sorted keys
(`accept_unprefixed`) keeps files from lying above other entries; it is the only part that relies on
`to_lowercase`, which has to leave the slashes of a path where they are.

`Proper` is what the publication of an archive starts from, and is about the paths of the entries.
The limits on their number and their sizes are checked in the same loop, and are not described here.
-/

set_option autoImplicit false

namespace Mineru.Archive

/-- The paths of the entries: not empty, of non-empty components, and all different. -/
structure Proper (entries : List Entry) : Prop where
  path_ne : ∀ e ∈ entries, e.path ≠ []
  part_ne : ∀ e ∈ entries, [] ∉ e.path
  distinct : (entries.map Entry.path).Nodup

/-- A path that `archive_path` returns. -/
theorem archivePath_ok {name : Text} {path : Path} (h : archivePath name = .ok path) :
    path ≠ [] ∧ [] ∉ path := by
  unfold archivePath at h
  dsimp only at h
  repeat' split at h
  all_goals first | cases h; done | skip
  rename_i _ _ _ ok
  cases h
  simp only [Bool.or_eq_true, not_or, Bool.not_eq_true] at ok
  refine ⟨fun nil => ?_, fun mem => ?_⟩
  · rw [nil] at ok
    cases ok.2
  · exact absurd rfl (of_decide_eq_true (List.mem_filter.mp mem).2)

section
variable {lower : Text → Text} {limits : ArchiveLimits}

/-- What a turn of the loop adds: one entry, under a key that is new. -/
theorem acceptEntry_ok {st st' : Accepting} {file : ZipFile}
    (h : acceptEntry lower limits st file = .ok st') :
    ∃ name path, file.name = some name ∧ archivePath name = .ok path ∧
      lower (joined path) ∉ st.kinds.map Prod.fst ∧
      st'.kinds = st.kinds ++ [(lower (joined path), file.is_dir)] ∧
      st'.entries = st.entries ++ [⟨path, file.is_dir, file.size, file.compressed_size⟩] := by
  unfold acceptEntry at h
  simp only [bind, Except.bind, pure, Except.pure, throw, throwThe, MonadExceptOf.throw] at h
  repeat' split at h
  all_goals first | cases h; done | skip
  rename_i name named _ path pathOk _ _ _ _ fresh _ _ _ _ _ _
  cases h
  exact ⟨name, path, named, pathOk, fun mem => fresh (Or.inr mem), rfl, rfl⟩

/-- What the loop knows after some turns. -/
structure Accepting.Kept (lower : Text → Text) (st : Accepting) : Prop where
  keys : st.kinds = st.entries.map fun e => (lower (joined e.path), e.directory)
  distinct : (st.kinds.map Prod.fst).Nodup
  path_ne : ∀ e ∈ st.entries, e.path ≠ []
  part_ne : ∀ e ∈ st.entries, [] ∉ e.path

theorem acceptEntry_kept {st st' : Accepting} {file : ZipFile} (kept : st.Kept lower)
    (h : acceptEntry lower limits st file = .ok st') : st'.Kept lower := by
  obtain ⟨name, path, _, pathOk, fresh, kinds, entries⟩ := acceptEntry_ok h
  obtain ⟨path_ne, part_ne⟩ := archivePath_ok pathOk
  exact
    { keys := by rw [kinds, entries, kept.keys, List.map_append, List.map_singleton]
      distinct := by
        rw [kinds, List.map_append, List.map_singleton]
        refine List.nodup_append.mpr ⟨kept.distinct, List.nodup_singleton _, ?_⟩
        rintro key mem _ single rfl
        rw [List.mem_singleton.mp single] at mem
        exact fresh mem
      path_ne := by
        rw [entries, List.forall_mem_append]
        exact ⟨kept.path_ne, List.forall_mem_singleton.mpr path_ne⟩
      part_ne := by
        rw [entries, List.forall_mem_append]
        exact ⟨kept.part_ne, List.forall_mem_singleton.mpr part_ne⟩ }

/-- The loop over the directory, by induction on its entries. It stops at the first entry that is
refused. -/
theorem acceptLoop_kept {cancelled : Nat → Bool} (files : List ZipFile) :
    ∀ {index : Nat} {st st' : Accepting}, st.Kept lower →
      acceptLoop lower limits cancelled files index st = .ok st' → st'.Kept lower := by
  induction files with
  | nil =>
    intro index st st' kept h
    cases h
    exact kept
  | cons file files ih =>
    intro index st st' kept h
    unfold acceptLoop at h
    split at h
    · cases h
    · cases turn : acceptEntry lower limits st file with
      | error e =>
        rw [turn] at h
        cases h
      | ok st₁ =>
        rw [turn] at h
        exact ih (acceptEntry_kept kept turn) h

/-- What `accept` returns comes out of the loop and has no conflict. -/
theorem accept_ok {cancelled : Nat → Bool} {files : List ZipFile} {entries : List Entry}
    (h : accept lower limits cancelled files = .ok entries) :
    ∃ st : Accepting, st.Kept lower ∧ st.entries = entries ∧ conflicts st.kinds = false := by
  unfold accept at h
  cases run : acceptLoop lower limits cancelled files 0 {} with
  | error e =>
    rw [run] at h
    cases h
  | ok st =>
    rw [run] at h
    simp only [bind, Except.bind, pure, Except.pure, throw, throwThe, MonadExceptOf.throw] at h
    split at h
    · cases h
    · cases h
      refine ⟨st, acceptLoop_kept files ?_ run, rfl, Bool.eq_false_iff.mpr ‹_›⟩
      exact ⟨rfl, List.nodup_nil, fun _ mem => absurd mem List.not_mem_nil,
        fun _ mem => absurd mem List.not_mem_nil⟩

/-- Entries that are accepted have proper paths, each of them once. -/
theorem accept_proper {cancelled : Nat → Bool} {files : List ZipFile} {entries : List Entry}
    (h : accept lower limits cancelled files = .ok entries) : Proper entries := by
  obtain ⟨st, kept, rfl, _⟩ := accept_ok h
  refine ⟨kept.path_ne, kept.part_ne, ?_⟩
  have keys := kept.distinct
  rw [kept.keys, List.map_map] at keys
  have paths : (st.entries.map Entry.path).map (fun p => lower (joined p)) =
      st.entries.map (Prod.fst ∘ fun e => (lower (joined e.path), e.directory)) := by
    rw [List.map_map]
    rfl
  exact List.Nodup.of_map _ (paths ▸ keys)

/-! ## Files above other entries -/

theorem joined_append {p r : Path} (hp : p ≠ []) (hr : r ≠ []) :
    joined (p ++ r) = joined p ++ '/' :: joined r := by
  induction p with
  | nil => exact absurd rfl hp
  | cons a p ih =>
    cases p with
    | nil =>
      cases r with
      | nil => exact absurd rfl hr
      | cons b r => rfl
    | cons b p =>
      have := ih (List.cons_ne_nil b p)
      simp only [List.cons_append, joined, List.append_assoc] at this ⊢
      rw [this]

theorem mem_slashPrefixes (a b : Text) : a ∈ slashPrefixes (a ++ '/' :: b) := by
  induction a with
  | nil => simp [slashPrefixes]
  | cons c a ih =>
    simp only [List.cons_append, slashPrefixes]
    have deeper : c :: a ∈ (slashPrefixes (a ++ '/' :: b)).map (c :: ·) :=
      List.mem_map_of_mem ih
    split
    · exact List.mem_cons_of_mem _ deeper
    · exact deeper

theorem lookup_of_nodup {kinds : List (Text × Bool)} (distinct : (kinds.map Prod.fst).Nodup)
    {key : Text} {directory : Bool} (mem : (key, directory) ∈ kinds) :
    kinds.lookup key = some directory := by
  induction kinds with
  | nil => cases mem
  | cons kind kinds ih =>
    rw [List.map_cons, List.nodup_cons] at distinct
    rcases List.mem_cons.mp mem with rfl | mem
    · simp [List.lookup]
    · have other : key ≠ kind.1 := by
        rintro rfl
        exact distinct.1 (List.mem_map.mpr ⟨_, mem, rfl⟩)
      rw [List.lookup_cons, beq_eq_false_iff_ne.mpr other]
      exact ih distinct.2 mem

/-- No accepted file lies above another accepted entry, as long as lowercasing a path leaves its
slashes where they are. -/
theorem accept_unprefixed (slash : ∀ a b, lower (a ++ '/' :: b) = lower a ++ '/' :: lower b)
    {cancelled : Nat → Bool} {files : List ZipFile} {entries : List Entry}
    (h : accept lower limits cancelled files = .ok entries) {e e' : Entry} (he : e ∈ entries)
    (he' : e' ∈ entries) (file : e.directory = false) {r : Path} (ne : r ≠ []) :
    e'.path ≠ e.path ++ r := by
  obtain ⟨st, kept, rfl, apart⟩ := accept_ok h
  intro below
  refine Bool.eq_false_iff.mp apart ?_
  have entry : ∀ e ∈ st.entries, (lower (joined e.path), e.directory) ∈ st.kinds := fun e mem => by
    rw [kept.keys]
    exact List.mem_map.mpr ⟨e, mem, rfl⟩
  have folded : lower (joined e'.path) ∈ (st.kinds.map Prod.fst).insertionSort (· ≤ ·) :=
    (List.mem_insertionSort _).mpr (List.mem_map.mpr ⟨_, entry e' he', rfl⟩)
  obtain ⟨index, bound, at_⟩ := List.getElem_of_mem folded
  unfold conflicts
  refine List.any_eq_true.mpr ⟨(lower (joined e'.path), index), ?_, ?_⟩
  · exact List.mk_mem_zipIdx_iff_getElem?.mpr (at_ ▸ List.getElem?_eq_getElem bound)
  · refine Bool.or_eq_true_iff.mpr (Or.inl (List.any_eq_true.mpr ⟨lower (joined e.path), ?_, ?_⟩))
    · rw [below, joined_append (kept.path_ne e he) ne, slash]
      exact mem_slashPrefixes _ _
    · rw [lookup_of_nodup kept.distinct (file ▸ entry e he)]
      rfl

end

end Mineru.Archive
