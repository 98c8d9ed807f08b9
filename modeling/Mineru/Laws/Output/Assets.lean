import Mineru.Laws.Output.Write

/-!
# What the stage holds

`write_staged` writes every file under a temporary name beside it and renames that. The temporary
name of an asset may be the name of another one: then the second of the two takes the first with it
(`stored_lost`). If no asset is in the way of a later one, the stage holds exactly what was written.

The writes are a fold over the files, and `stored_all` says what is at their names in the end. Paths
are normalized and checked before, so two assets never have the same path, and the documents have
names that no temporary name is (`temporaryPath_own`).

The theorem is about calls that succeed. An error ends the writing, and the stage is removed.
-/

set_option autoImplicit false

namespace Mineru.Output

open Logic

/-- A file to be written. -/
abbrev Write := List Text × List UInt8

/-! ## Writes -/

/-- What a write of a file under its temporary name leaves. -/
def wrote (files : Files) (write : Write) : Files :=
  (files.remove (temporaryPath write.1)).set write.1 write.2

def stored (files : Files) (writes : List Write) : Files := writes.foldl wrote files

theorem get_wrote (files : Files) (write : Write) (path : List Text) :
    (wrote files write).get path = if path = write.1 then some write.2
      else if path = temporaryPath write.1 then none else files.get path := by
  unfold wrote
  rw [Table.get_set, Table.get_remove]

/-- No file goes under the name of an earlier one for a while. -/
def Clear (writes : List Write) : Prop :=
  writes.Pairwise fun earlier later => temporaryPath later.1 ≠ earlier.1

section Stored

variable {files : Files} {writes : List Write} {path : List Text} {data : List UInt8}

/-- What is found was written, or was there before. -/
theorem get_stored (found : (stored files writes).get path = some data) :
    (path, data) ∈ writes ∨ files.get path = some data := by
  induction writes generalizing files with
  | nil => exact .inr found
  | cons write writes ih =>
    rcases ih found with later | there
    · exact .inl (List.mem_cons_of_mem _ later)
    · rw [get_wrote] at there
      split at there
      · rename_i same
        refine .inl (List.mem_cons.mpr (.inl ?_))
        rw [same, ← Option.some.inj there]
      · split at there
        · cases there
        · exact .inr there

/-- A name that no write touches. -/
theorem stored_untouched
    (other : ∀ write ∈ writes, write.1 ≠ path ∧ temporaryPath write.1 ≠ path) :
    (stored files writes).get path = files.get path := by
  induction writes generalizing files with
  | nil => rfl
  | cons write writes ih =>
    have here := other write List.mem_cons_self
    have rest : (stored (wrote files write) writes).get path = (wrote files write).get path :=
      ih fun later mem => other later (List.mem_cons_of_mem _ mem)
    refine rest.trans ?_
    rw [get_wrote, if_neg here.1.symm, if_neg here.2.symm]

/-- A name that serves as a temporary one, and is not written, is free at the end. -/
theorem stored_lost (notWritten : path ∉ writes.map Prod.fst)
    (temporary : ∃ write ∈ writes, temporaryPath write.1 = path) :
    (stored files writes).get path = none := by
  obtain ⟨write, mem, is⟩ := temporary
  obtain ⟨before, after, rfl⟩ := List.append_of_mem mem
  rw [List.map_append, List.map_cons, List.mem_append, List.mem_cons, not_or, not_or] at notWritten
  obtain ⟨-, different, notAfter⟩ := notWritten
  rw [stored, List.foldl_append, List.foldl_cons]
  cases found : (stored (wrote (stored files before) write) after).get path with
  | none => exact found
  | some data =>
    rcases get_stored found with later | there
    · exact absurd (List.mem_map_of_mem later) notAfter
    · rw [get_wrote, if_neg different, if_pos is.symm] at there
      cases there

/-- Every file is where it was written, exactly if no later write takes it away. -/
theorem stored_all (unique : (writes.map Prod.fst).Nodup) :
    (∀ write ∈ writes, (stored files writes).get write.1 = some write.2) ↔ Clear writes := by
  induction writes generalizing files with
  | nil => simp [Clear]
  | cons write writes ih =>
    obtain ⟨fresh, unique⟩ := List.nodup_cons.mp unique
    have later : (∀ later ∈ writes, (stored (wrote files write) writes).get later.1 = some later.2) ↔
        Clear writes := ih unique
    unfold Clear at later ⊢
    rw [List.forall_mem_cons, List.pairwise_cons]
    refine and_congr ?_ later
    constructor
    · intro kept write' mem is
      have gone : (stored (wrote files write) writes).get write.1 = none :=
        stored_lost fresh ⟨write', mem, is⟩
      cases gone.symm.trans kept
    · intro clear
      have kept : (stored (wrote files write) writes).get write.1 = (wrote files write).get write.1 :=
        stored_untouched fun write' mem =>
          ⟨fun same => fresh (same ▸ List.mem_map_of_mem mem), clear write' mem⟩
      refine kept.trans ?_
      rw [get_wrote, if_pos rfl]

end Stored

/-! ## The run -/

theorem atomicWrite_after (w : Faults) (file : Nat) (path : List Text) (data : List UInt8)
    (files : Files) :
    After (atomicWrite w file path data) files (fun _ files' => files' = wrote files (path, data))
      (fun _ _ => True) := by
  unfold atomicWrite
  have reads : After (get : Staging Files) files (fun now files' => now = files ∧ files' = files)
      fun _ _ => True := ⟨rfl, rfl⟩
  refine After.bind reads ?_
  rintro _ _ ⟨rfl, rfl⟩
  cases written : w (.writeTemporary file) with
  | some e => trivial
  | none =>
    dsimp only
    split
    · trivial
    · split
      · cases renamed : w (.renameTemporary file) with
        | some e => trivial
        | none =>
          dsimp only
          split
          · trivial
          · exact rfl
      · rename_i root
        cases renamed : w (.renameTemporary file) with
        | some e => trivial
        | none =>
          dsimp only
          rw [if_pos (Or.inl (not_not.mp root))]
          trivial

theorem createDirAll_after (w : Faults) (file : Nat) (path : List Text) (files : Files) :
    After (createDirAll w file path) files (fun _ files' => files' = files) (fun _ _ => True) := by
  unfold After createDirAll
  cases fault : w (.createDirs file) with
  | some e => trivial
  | none =>
    by_cases taken : blocked files path = true
    · simp [taken]
    · simp [taken]

/-- The file of an asset. -/
def Asset.write (asset : Asset) : Write := (normalizeRelativePath asset.relativePath, asset.data)

theorem writeAssets_after (w : Faults) (file : Nat) (assets : List Asset) (files : Files) :
    After (writeAssets w file assets) files
      (fun _ files' => files' = stored files (assets.map Asset.write)) (fun _ _ => True) := by
  induction assets generalizing file files with
  | nil => exact rfl
  | cons asset rest ih =>
    unfold writeAssets
    apply (createDirAll_after w file _ files).bind
    rintro _ _ rfl
    apply (atomicWrite_after w file _ asset.data _).bind
    rintro _ _ rfl
    exact ih (file + 1) _

/-- The files of a document. -/
def written (document : Document) : List Write :=
  ([text "document.json"], document.json) :: ([text "document.md"], document.markdown) ::
    ([text "middle.json"], document.middleJson) ::
    ([text "content_list.json"], document.contentList) :: document.assets.map Asset.write

theorem writeStaged_after (w : Faults) (document : Document) (files : Files) :
    After (writeStaged w document) files
      (fun _ files' => files' = stored files (written document)) (fun _ _ => True) := by
  unfold writeStaged
  apply (atomicWrite_after w 0 _ document.json files).bind
  rintro _ _ rfl
  apply (atomicWrite_after w 1 _ document.markdown _).bind
  rintro _ _ rfl
  apply (atomicWrite_after w 2 _ document.middleJson _).bind
  rintro _ _ rfl
  apply (atomicWrite_after w 3 _ document.contentList _).bind
  rintro _ _ rfl
  refine (writeAssets_after w 4 document.assets _).weaken ?_ fun _ _ h => h
  intro _ files' same
  rw [same, written]
  simp only [stored, List.foldl_cons]

/-! ## Names -/

theorem validateFrom_cons (paths : List (List Text)) (asset : Asset) (rest : List Asset) :
    validateFrom paths (asset :: rest) =
      if asset.relativePath = [] ∨ asset.relativePath.any Component.leaves ∨
          normalizeRelativePath asset.relativePath ∈ paths then .error invalidAssets
      else validateFrom (normalizeRelativePath asset.relativePath :: paths) rest := rfl

theorem validateFrom_unique {paths : List (List Text)} {assets : List Asset}
    (valid : validateFrom paths assets = .ok ()) :
    (assets.map fun asset => normalizeRelativePath asset.relativePath).Nodup ∧
      ∀ asset ∈ assets, normalizeRelativePath asset.relativePath ∉ paths := by
  induction assets generalizing paths with
  | nil => simp
  | cons asset rest ih =>
    rw [validateFrom_cons] at valid
    split at valid
    · exact nomatch valid
    · rename_i accepted
      obtain ⟨unique, apart⟩ := ih valid
      have fresh : normalizeRelativePath asset.relativePath ∉ paths := fun mem =>
        accepted (.inr (.inr mem))
      constructor
      · rw [List.map_cons, List.nodup_cons]
        refine ⟨fun mem => ?_, unique⟩
        obtain ⟨other, there, same⟩ := List.mem_map.mp mem
        exact apart other there (same ▸ List.mem_cons_self)
      · rintro other (_ | ⟨_, there⟩)
        · exact fresh
        · exact fun mem => apart other there (List.mem_cons_of_mem _ mem)

/-- The names that the documents of the stage have. -/
def ownNames : List (List Text) :=
  [[text "document.json"], [text "document.md"], [text "middle.json"], [text "content_list.json"]]

theorem written_names (document : Document) :
    (written document).map Prod.fst =
      ownNames ++ document.assets.map fun asset => normalizeRelativePath asset.relativePath := by
  simp [written, ownNames, Asset.write, Function.comp_def]

theorem written_unique {document : Document} (valid : validateAssets document = .ok ()) :
    ((written document).map Prod.fst).Nodup := by
  obtain ⟨unique, apart⟩ := validateFrom_unique valid
  rw [written_names, List.nodup_append]
  refine ⟨by decide, unique, fun own isOwn path mem same => ?_⟩
  obtain ⟨asset, there, rfl⟩ := List.mem_map.mp mem
  exact apart asset there (same ▸ isOwn)

/-- A temporary name ends with `.tmp`, so it is none of the documents. -/
theorem temporaryPath_own {path own : List Text} (isOwn : own ∈ ownNames) :
    temporaryPath path ≠ own := by
  intro same
  have ends : ∀ name ∈ ownNames.map (·.getLast?), ∀ last ∈ name, ¬ text ".tmp" <:+ last := by
    decide
  cases last : path.getLast? with
  | none =>
    rw [List.getLast?_eq_none_iff.mp last] at same
    exact absurd (same ▸ isOwn) (by decide)
  | some name =>
    rw [temporaryPath, last] at same
    refine ends own.getLast? (List.mem_map_of_mem isOwn) (temporaryName name) ?_ ?_
    · rw [← same]
      simp
    · exact (List.suffix_append _ _).trans ((List.suffix_cons '.' _).trans (List.suffix_append _ _))

/-- No asset lies under the temporary name of a later one. -/
def AssetsClear (document : Document) : Prop :=
  document.assets.Pairwise fun earlier later =>
    temporaryPath (normalizeRelativePath later.relativePath) ≠
      normalizeRelativePath earlier.relativePath

theorem clear_written (document : Document) : Clear (written document) ↔ AssetsClear document := by
  have assets : Clear (document.assets.map Asset.write) ↔ AssetsClear document := List.pairwise_map
  have own {name : Text} (data : List UInt8) (isOwn : [name] ∈ ownNames) (writes : List Write) :
      Clear (([name], data) :: writes) ↔ Clear writes := by
    unfold Clear
    rw [List.pairwise_cons]
    exact and_iff_right fun later _ => temporaryPath_own isOwn
  rw [← assets, written, own _ (by decide), own _ (by decide), own _ (by decide), own _ (by decide)]

/-! ## The stage -/

/-- The stage holds the documents and the assets, and nothing else. -/
def Complete (document : Document) (files : Files) : Prop :=
  ∀ path data, files.get path = some data ↔ (path, data) ∈ written document

/-- **A stage that was written is complete exactly if no asset lies under the temporary name of a
later one.** The condition is about the paths of the assets and their order, whatever their bytes
are. -/
theorem stage_complete_iff (w : Faults) (document : Document) (files : Files)
    (valid : validateAssets document = .ok ()) (run : writeStaged w document ∅ = .ok () files) :
    Complete document files ↔ AssetsClear document := by
  have isStored : files = stored ∅ (written document) := by
    have after := writeStaged_after w document ∅
    unfold After at after
    rwa [run] at after
  have everyWrite : (∀ write ∈ written document, files.get write.1 = some write.2) ↔
      Clear (written document) := by
    rw [isStored]
    exact stored_all (written_unique valid)
  rw [← clear_written, ← everyWrite]
  constructor
  · intro complete write mem
    exact (complete write.1 write.2).mpr mem
  · intro all path data
    constructor
    · intro found
      rw [isStored] at found
      exact (get_stored found).resolve_right nofun
    · exact all (path, data)

/-- A picture. -/
def picture : Asset := ⟨[.normal (text "a.png")], [1]⟩

/-- A file with the temporary name of the picture. -/
def besides : Asset := ⟨[.normal (text "a.png.tmp")], [2]⟩

def noFaults : Faults := fun _ => none

/-- A table in a directory of its own. -/
def nested : Asset := ⟨[.normal (text "tables"), .normal (text "t.html")], [3, 4]⟩

/-- In this order no asset lies under the temporary name of a later one. -/
theorem stage_complete_pictures :
    Complete ⟨[], [], [], [], [picture, besides, nested]⟩
      (stored ∅ (written ⟨[], [], [], [], [picture, besides, nested]⟩)) := by
  refine (stage_complete_iff noFaults ⟨[], [], [], [], [picture, besides, nested]⟩ _ (by rfl)
    (by rfl)).mpr ?_
  unfold AssetsClear
  decide

/-- The picture takes the file that was written before it. -/
theorem asset_overwritten : ∃ files : Files,
    validateAssets ⟨[], [], [], [], [besides, picture]⟩ = .ok () ∧
      writeStaged noFaults ⟨[], [], [], [], [besides, picture]⟩ ∅ = .ok () files ∧
      files.get [text "a.png"] = some [1] ∧ files.get [text "a.png.tmp"] = none ∧
      ¬ Complete ⟨[], [], [], [], [besides, picture]⟩ files := by
  refine ⟨stored ∅ (written ⟨[], [], [], [], [besides, picture]⟩), by rfl, by rfl, by decide,
    by decide, fun complete => ?_⟩
  have there := (complete [text "a.png.tmp"] [2]).mpr (by decide)
  exact absurd there (by decide)

end Mineru.Output
