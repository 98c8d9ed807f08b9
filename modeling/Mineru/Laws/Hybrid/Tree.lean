import Mineru.Hybrid.Tree
import Mineru.Laws.Archive.Entries

/-!
# What a bundle may hold

`Admissible` speaks of the tree as its paths, in any order: what each entry must be, and the budgets
of all of them together. The walk is a loop over these paths: behind each prefix its counters are
those of the prefix (`TreeState.of`), and it goes on as long as the prefix is admissible. So what it
accepts does not depend on the order in which the directories are read.

Every test of the source has its own equivalence (`child_iff`, `chargeData_iff`,
`createDestinationDir_iff`), which says when it passes and what it returns; `bind_iff` puts them
together along the walk.

A source that changes while it is copied is outside of the model, and so are errors in the middle of
a copy. The limits are those of the walk: the depth and the number of entries, the bytes of the
names and the bytes of the files.
-/

set_option autoImplicit false

namespace Mineru.Hybrid

open Archive Logic Stems

/-! ## Admissible trees -/

/-- An entry of a tree: its path, and what is there. -/
abbrev TreeEntry := List OsName × Node Leaf

def OsName.len : OsName → Nat
  | .utf8 name => utf8Len name
  | .other bytes => bytes.length

/-- The length of a relative path, with its slashes. -/
def relativeBytes (path : List OsName) : Nat := (path.map OsName.len).sum + (path.length - 1)

def OsName.lower (T : CaseTables) : OsName → Text
  | .utf8 name => T.toLowercase name
  | .other _ => []

/-- A path after lower-casing. -/
def lowered (T : CaseTables) (path : List OsName) : Text := joined (path.map (OsName.lower T))

def fileSize : Node Leaf → Nat
  | .leaf (.file bytes) => bytes.length
  | _ => 0

/-- The names of a path are portable, and it is within its caps. -/
structure PortablePath (path : List OsName) : Prop where
  named : ∀ name ∈ path, ∃ t, name = .utf8 t ∧ portableName t = true ∧
    utf8Len t ≤ MAX_COMPONENT_BYTES
  depth : path.length ≤ MAX_DEPTH
  length : relativeBytes path ≤ MAX_RELATIVE_PATH_BYTES

/-- A directory or a regular file, and in the root one of those that a bundle has. -/
structure Expected (entry : TreeEntry) : Prop where
  regular : entry.2 ≠ .leaf .symlink ∧ entry.2 ≠ .leaf .special
  rootFile : ∀ name bytes, entry = ([name], .leaf (.file bytes)) →
    ∃ t, name = .utf8 t ∧ knownFile t = true
  rootDirectory : ∀ name, entry = ([name], .dir) → name = .utf8 (text "images")

structure Admissible (T : CaseTables) (byteCap : UInt64) (tree : List TreeEntry) : Prop where
  portable : ∀ entry ∈ tree, PortablePath entry.1
  expected : ∀ entry ∈ tree, Expected entry
  entries : tree.length ≤ MAX_ENTRIES
  nameBudget : (tree.map fun entry => relativeBytes entry.1).sum ≤ MAX_NAME_BUDGET
  data : (tree.map fun entry => fileSize entry.2).sum ≤ byteCap.toNat
  apart : (tree.map fun entry => lowered T entry.1).Nodup

section Admissible

variable {T : CaseTables} {byteCap : UInt64} {tree tree' : List TreeEntry} {entry : TreeEntry}

/-- The order of the entries does not matter. -/
theorem Admissible.perm (perm : tree.Perm tree') (h : Admissible T byteCap tree) :
    Admissible T byteCap tree' where
  portable entry mem := h.portable entry (perm.mem_iff.mpr mem)
  expected entry mem := h.expected entry (perm.mem_iff.mpr mem)
  entries := perm.length_eq ▸ h.entries
  nameBudget := (perm.map fun entry => relativeBytes entry.1).sum_eq ▸ h.nameBudget
  data := (perm.map fun entry => fileSize entry.2).sum_eq ▸ h.data
  apart := (perm.map _).nodup_iff.mp h.apart

/-- What is admissible as a whole is so at each point of the walk. -/
theorem Admissible.front (h : Admissible T byteCap (tree ++ tree')) :
    Admissible T byteCap tree where
  portable entry mem := h.portable entry (List.mem_append_left _ mem)
  expected entry mem := h.expected entry (List.mem_append_left _ mem)
  entries := by
    have := h.entries
    rw [List.length_append] at this
    omega
  nameBudget := by
    have := h.nameBudget
    rw [List.map_append, List.sum_append] at this
    omega
  data := by
    have := h.data
    rw [List.map_append, List.sum_append] at this
    omega
  apart := by
    have := h.apart
    rw [List.map_append] at this
    exact (List.nodup_append.mp this).1

/-- There is room for one more path. -/
structure Room (T : CaseTables) (tree : List TreeEntry) (path : List OsName) : Prop where
  portable : PortablePath path
  entries : tree.length + 1 ≤ MAX_ENTRIES
  nameBudget : (tree.map fun entry => relativeBytes entry.1).sum + relativeBytes path ≤
    MAX_NAME_BUDGET
  apart : lowered T path ∉ tree.map fun entry => lowered T entry.1

theorem admissible_nil : Admissible T byteCap [] where
  portable := nofun
  expected := nofun
  entries := Nat.zero_le _
  nameBudget := Nat.zero_le _
  data := Nat.zero_le _
  apart := List.nodup_nil

/-- One more entry: there is room for it, it is of an expected kind, and the sum of the files allows
it. -/
theorem admissible_concat : Admissible T byteCap (tree ++ [entry]) ↔
    Admissible T byteCap tree ∧ Room T tree entry.1 ∧ Expected entry ∧
      (tree.map fun entry => fileSize entry.2).sum + fileSize entry.2 ≤ byteCap.toNat := by
  constructor
  · intro h
    have last : entry ∈ tree ++ [entry] := List.mem_append_right _ (List.mem_singleton_self entry)
    have entries := h.entries
    have nameBudget := h.nameBudget
    have data := h.data
    have apart := h.apart
    simp only [List.map_append, List.map_cons, List.map_nil, List.sum_append, List.sum_cons,
      List.sum_nil, List.length_append, List.length_cons, List.length_nil, Nat.add_zero,
      Nat.zero_add] at entries nameBudget data apart
    refine ⟨h.front, ⟨h.portable entry last, entries, nameBudget, ?_⟩, h.expected entry last, data⟩
    intro there
    exact (List.nodup_append.mp apart).2.2 _ there _ (List.mem_singleton_self _) rfl
  · rintro ⟨h, room, expected, data⟩
    refine ⟨fun other mem => ?_, fun other mem => ?_, ?_, ?_, ?_, ?_⟩
    · rcases List.mem_append.mp mem with earlier | last
      · exact h.portable other earlier
      · exact List.mem_singleton.mp last ▸ room.portable
    · rcases List.mem_append.mp mem with earlier | last
      · exact h.expected other earlier
      · exact List.mem_singleton.mp last ▸ expected
    · rw [List.length_append]
      exact room.entries
    · rw [List.map_append, List.sum_append]
      exact room.nameBudget
    · rw [List.map_append, List.sum_append]
      exact data
    · rw [List.map_append]
      refine List.nodup_append.mpr ⟨h.apart, List.nodup_singleton _, ?_⟩
      rintro key there other last rfl
      rw [List.map_cons, List.map_nil, List.mem_singleton] at last
      exact room.apart (last ▸ there)

end Admissible

/-! ## Paths -/

section Paths

variable {T : CaseTables} {path : List OsName} {name : Text}

/-- A longer path counts its new name and the separator in front of it. -/
theorem relativeBytes_concat (path : List OsName) (name : OsName) :
    relativeBytes (path ++ [name]) =
      relativeBytes path + name.len + if 0 < path.length then 1 else 0 := by
  simp only [relativeBytes, List.map_append, List.map_cons, List.map_nil, List.sum_append,
    List.sum_cons, List.sum_nil, List.length_append, List.length_cons, List.length_nil]
  split
  · omega
  · omega

theorem lowered_concat (some : path ≠ []) (name : OsName) :
    lowered T (path ++ [name]) = lowered T path ++ '/' :: name.lower T := by
  rw [lowered, List.map_append]
  exact joined_append (mt List.map_eq_nil_iff.mp some) (List.cons_ne_nil _ _)

/-- The path that the walk hands down. -/
def RelativePath.of (T : CaseTables) (path : List OsName) : RelativePath :=
  ⟨path.length, relativeBytes path, lowered T path⟩

theorem toLowercase_ne_nil (lowers : ∀ c, T.lower c ≠ []) (some : name ≠ []) :
    T.toLowercase name ≠ [] := by
  cases name with
  | nil => exact absurd rfl some
  | cons c rest =>
    rw [CaseTables.toLowercase, CaseTables.lowercaseFrom]
    refine List.append_ne_nil_of_left_ne_nil ?_ _
    split
    · exact List.cons_ne_nil _ _
    · exact lowers c

theorem portableName_ne_nil (portable : portableName name = true) : name ≠ [] := by
  rintro rfl
  exact absurd portable (by decide)

/-- No portable path but the root is empty after lower-casing. -/
theorem lowered_eq_nil (lowers : ∀ c, T.lower c ≠ []) (portable : PortablePath path) :
    lowered T path = [] ↔ path = [] := by
  refine ⟨fun empty => ?_, fun empty => empty ▸ rfl⟩
  by_contra some
  rcases List.eq_nil_or_concat path with none | ⟨front, last, rfl⟩
  · exact some none
  · rw [List.concat_eq_append] at empty portable
    obtain ⟨t, rfl, isPortable, -⟩ :=
      portable.named last (List.mem_append_right _ (List.mem_singleton_self _))
    by_cases short : front = []
    · rw [short] at empty
      exact toLowercase_ne_nil lowers (portableName_ne_nil isPortable) empty
    · rw [lowered_concat short] at empty
      exact List.append_ne_nil_of_right_ne_nil _ (List.cons_ne_nil _ _) empty

end Paths

/-! ## Admission -/

section Rules

variable {α β : Type} {b : β}

theorem bind_iff {x : Except Text α} {f : α → Except Text β} :
    (x >>= f) = .ok b ↔ ∃ a, x = .ok a ∧ f a = .ok b := by
  cases x with
  | error e => exact ⟨nofun, fun ⟨_, is, _⟩ => nomatch is⟩
  | ok a => exact ⟨fun h => ⟨a, rfl, h⟩, fun ⟨_, is, h⟩ => Except.ok.inj is ▸ h⟩

/-- `if refused { return Err(e) }`. -/
theorem throw_iff {refused : Prop} [Decidable refused] {e : Text} {k : PUnit → Except Text β}
    {x : Except Text β} :
    (if refused then throw e >>= k else x) = .ok b ↔ ¬ refused ∧ x = .ok b := by
  split
  · rename_i is
    exact ⟨nofun, fun h => absurd is h.1⟩
  · rename_i isNot
    exact ⟨fun h => ⟨isNot, h⟩, fun h => h.2⟩

theorem error_iff {refused : Prop} [Decidable refused] {e : Text} {x : Except Text β} :
    (if refused then .error e else x) = .ok b ↔ ¬ refused ∧ x = .ok b := by
  split
  · rename_i is
    exact ⟨nofun, fun h => absurd is h.1⟩
  · rename_i isNot
    exact ⟨fun h => ⟨isNot, h⟩, fun h => h.2⟩

theorem checkedAdd_iff {values a b c : Nat} {overflow : Text} :
    checkedAdd values a b overflow = .ok c ↔ a + b < values ∧ c = a + b := by
  unfold checkedAdd
  split
  · rename_i fits
    exact ⟨fun h => ⟨fits, (Except.ok.inj h).symm⟩, fun h => congrArg _ h.2.symm⟩
  · rename_i wraps
    exact ⟨nofun, fun h => absurd h.1 wraps⟩

theorem pure_iff {x y : β} : (pure x : Except Text β) = .ok y ↔ y = x :=
  ⟨fun h => (Except.ok.inj h).symm, fun h => congrArg _ h.symm⟩

end Rules

section Admission

variable {T : CaseTables} {above : List OsName} {name : Text} {r : RelativePath}
  {tree : List TreeEntry} {s : TreeState}

/-- A path is portable if the path above it is, the new name is, and the limits hold with it. -/
theorem portablePath_concat (portable : PortablePath above) :
    PortablePath (above ++ [.utf8 name]) ↔ portableName name = true ∧
      utf8Len name ≤ MAX_COMPONENT_BYTES ∧ above.length + 1 ≤ MAX_DEPTH ∧
      relativeBytes above + utf8Len name + (if 0 < above.length then 1 else 0) ≤
        MAX_RELATIVE_PATH_BYTES := by
  have bytes := relativeBytes_concat above (.utf8 name)
  constructor
  · intro h
    obtain ⟨t, is, portable, short⟩ :=
      h.named (.utf8 name) (List.mem_append_right _ (List.mem_singleton_self _))
    obtain rfl := OsName.utf8.inj is
    have depth := h.depth
    rw [List.length_append] at depth
    exact ⟨portable, short, depth, bytes ▸ h.length⟩
  · rintro ⟨isPortable, short, depth, length⟩
    refine ⟨fun other mem => ?_, ?_, bytes ▸ length⟩
    · rcases List.mem_append.mp mem with earlier | last
      · exact portable.named other earlier
      · exact ⟨name, List.mem_singleton.mp last, isPortable, short⟩
    · rw [List.length_append]
      exact depth

theorem child_ok {self : RelativePath} : self.child T name = .ok r ↔
    (portableName name = true ∧ utf8Len name ≤ MAX_COMPONENT_BYTES ∧ self.depth + 1 ≤ MAX_DEPTH ∧
      self.bytes + utf8Len name + (if 0 < self.depth then 1 else 0) ≤ MAX_RELATIVE_PATH_BYTES) ∧
    r = ⟨self.depth + 1, self.bytes + utf8Len name + (if 0 < self.depth then 1 else 0),
      if self.portable = [] then T.toLowercase name
      else self.portable ++ '/' :: T.toLowercase name⟩ := by
  simp only [RelativePath.child, throw_iff, bind_iff, checkedAdd_iff, pure_iff]
  unfold MAX_COMPONENT_BYTES MAX_DEPTH MAX_RELATIVE_PATH_BYTES
  constructor
  · rintro ⟨safe, _, ⟨-, rfl⟩, _, ⟨-, rfl⟩, _, ⟨-, rfl⟩, within, rfl⟩
    rw [not_or, not_or] at within
    exact ⟨⟨by simpa using safe, Nat.not_lt.mp within.1, Nat.not_lt.mp within.2.1,
      Nat.not_lt.mp within.2.2⟩, rfl⟩
  · rintro ⟨⟨safe, short, depth, length⟩, rfl⟩
    exact ⟨by simpa using safe, _, ⟨by omega, rfl⟩, _, ⟨by omega, rfl⟩, _, ⟨by omega, rfl⟩,
      by omega, rfl⟩

/-- A child is accepted exactly if its path is portable. -/
theorem child_iff (lowers : ∀ c, T.lower c ≠ []) (portable : PortablePath above) :
    (RelativePath.of T above).child T name = .ok r ↔
      PortablePath (above ++ [.utf8 name]) ∧ r = RelativePath.of T (above ++ [.utf8 name]) := by
  have key : (if (RelativePath.of T above).portable = [] then T.toLowercase name
      else (RelativePath.of T above).portable ++ '/' :: T.toLowercase name) =
        lowered T (above ++ [.utf8 name]) := by
    split
    · rename_i empty
      rw [(lowered_eq_nil lowers portable).mp empty]
      rfl
    · rename_i some
      rw [lowered_concat fun empty => some ((lowered_eq_nil lowers portable).mpr empty)]
      rfl
  have next : RelativePath.of T (above ++ [.utf8 name]) =
      ⟨above.length + 1, relativeBytes above + utf8Len name + (if 0 < above.length then 1 else 0),
        lowered T (above ++ [.utf8 name])⟩ := by
    rw [RelativePath.of, List.length_append, relativeBytes_concat]
    rfl
  rw [child_ok, portablePath_concat portable, key, next]
  exact Iff.rfl

/-- The counters behind a part of the tree. -/
def TreeState.of (T : CaseTables) (tree : List TreeEntry) : TreeState where
  entries := tree.length
  nameBytes := (tree.map fun entry => relativeBytes entry.1).sum
  dataBytes := (tree.map fun entry => fileSize entry.2).sum
  names := tree.map fun entry => lowered T entry.1

/-- An entry is counted as a directory until its bytes are read. -/
theorem admit_iff (lowers : ∀ c, T.lower c ≠ []) (portable : PortablePath above) :
    (TreeState.of T tree).admitEntry T (.of T above) name = .ok (r, s) ↔
      Room T tree (above ++ [.utf8 name]) ∧ r = .of T (above ++ [.utf8 name]) ∧
        s = .of T (tree ++ [(above ++ [.utf8 name], .dir)]) := by
  have next : TreeState.of T (tree ++ [(above ++ [.utf8 name], .dir)]) =
      { TreeState.of T tree with
        entries := tree.length + 1
        nameBytes := (tree.map fun entry => relativeBytes entry.1).sum +
          relativeBytes (above ++ [.utf8 name])
        names := (tree.map fun entry => lowered T entry.1) ++ [lowered T (above ++ [.utf8 name])] } := by
    simp [TreeState.of, fileSize]
  simp only [TreeState.admitEntry, bind_iff, throw_iff, checkedAdd_iff, pure_iff, Prod.mk.injEq,
    child_iff lowers portable]
  rw [next]
  constructor
  · rintro ⟨_, ⟨path, rfl⟩, _, ⟨-, rfl⟩, _, ⟨-, rfl⟩, within, apart, rfl, rfl⟩
    rw [not_or] at within
    exact ⟨⟨path, Nat.not_lt.mp within.1, Nat.not_lt.mp within.2, apart⟩, rfl, rfl⟩
  · rintro ⟨⟨path, entries, nameBudget, apart⟩, rfl, rfl⟩
    have small : MAX_ENTRIES < 2 ^ 64 ∧ MAX_NAME_BUDGET < 2 ^ 64 := by decide
    exact ⟨_, ⟨path, rfl⟩, _, ⟨entries.trans_lt small.1, rfl⟩, _, ⟨nameBudget.trans_lt small.2, rfl⟩,
      not_or.mpr ⟨Nat.not_lt.mpr entries, Nat.not_lt.mpr nameBudget⟩, apart, rfl, rfl⟩

end Admission

/-! ## Entries -/

section Entries

variable {T : CaseTables} {R : Reader} {byteCap : UInt64} {above : List OsName} {name : Text}
  {tree : List TreeEntry} {destination destination' : Listing} {s s' : TreeState}

/-- The bytes of a file are accepted exactly if the sum stays within the cap. -/
theorem chargeData_iff {amount : Nat} : s.chargeData amount byteCap = .ok s' ↔
    s.dataBytes + amount ≤ byteCap.toNat ∧ s' = { s with dataBytes := s.dataBytes + amount } := by
  have small := byteCap.toNat_lt
  simp only [TreeState.chargeData, bind_iff, throw_iff, checkedAdd_iff, pure_iff]
  constructor
  · rintro ⟨_, ⟨-, rfl⟩, within, rfl⟩
    exact ⟨Nat.not_lt.mp within, rfl⟩
  · rintro ⟨within, rfl⟩
    exact ⟨_, ⟨by omega, rfl⟩, Nat.not_lt.mpr within, rfl⟩

/-- The sizes of the pieces do not matter. -/
theorem copyLoop_iff {source written bytes : List UInt8} (within : s.dataBytes ≤ byteCap.toNat) :
    copyLoop R byteCap source written s = .ok (bytes, s') ↔
      s.dataBytes + source.length ≤ byteCap.toNat ∧ bytes = written ++ source ∧
        s' = { s with dataBytes := s.dataBytes + source.length } := by
  induction source, written, s using copyLoop.induct R with
  | case1 written s =>
    rw [copyLoop, if_pos rfl, Except.ok.injEq, Prod.mk.injEq]
    rw [List.append_nil, List.length_nil, Nat.add_zero, eq_comm (b := bytes), eq_comm (b := s')]
    exact (and_iff_right within).symm
  | case2 source written s some read ih =>
    have cut : (source.take (R.size source)).length + (source.drop (R.size source)).length =
        source.length := by
      rw [← List.length_append, List.take_append_drop]
    rw [copyLoop, if_neg some]
    simp only [bind_iff, chargeData_iff]
    constructor
    · rintro ⟨t, ⟨charged, rfl⟩, h⟩
      obtain ⟨total, rfl, rfl⟩ := (ih _ charged).mp h
      refine ⟨by rw [← cut, ← Nat.add_assoc]; exact total, ?_, ?_⟩
      · rw [List.append_assoc, List.take_append_drop]
      · rw [← cut, ← Nat.add_assoc]
    · rintro ⟨total, rfl, rfl⟩
      rw [← cut, ← Nat.add_assoc] at total
      have charged := (Nat.le_add_right _ _).trans total
      refine ⟨_, ⟨charged, rfl⟩, (ih _ charged).mpr ⟨total, ?_, ?_⟩⟩
      · rw [List.append_assoc, List.take_append_drop]
      · rw [← cut, ← Nat.add_assoc]

/-- A new path is no name of the destination. -/
theorem Room.new (room : Room T tree (above ++ [.utf8 name]))
    (copied : ∀ other ∈ destination.names, above ++ [other] ∈ tree.map Prod.fst) :
    OsName.utf8 name ∉ destination.names := by
  intro there
  obtain ⟨entry, mem, is⟩ := List.mem_map.mp (copied _ there)
  exact room.apart (List.mem_map.mpr ⟨entry, mem, congrArg (lowered T) is⟩)

/-- The branch for an entry that is no directory, behind its admission. -/
theorem copyLeaf_iff {node : Leaf} (admissible : Admissible T byteCap tree)
    (room : Room T tree (above ++ [.utf8 name]))
    (copied : ∀ other ∈ destination.names, above ++ [other] ∈ tree.map Prod.fst) :
    copyLeaf R byteCap node destination name (.of T (above ++ [.utf8 name])) (above = [])
        (.of T (tree ++ [(above ++ [.utf8 name], .dir)])) = .ok (destination', s') ↔
      Admissible T byteCap (tree ++ [(above ++ [.utf8 name], .leaf node)]) ∧
        destination' = destination.append (.leaf (.utf8 name) node .done) ∧
        s' = .of T (tree ++ [(above ++ [.utf8 name], .leaf node)]) := by
  have last : (above ++ [OsName.utf8 name], Node.leaf node) ∈
      tree ++ [(above ++ [OsName.utf8 name], Node.leaf node)] :=
    List.mem_append_right _ (List.mem_singleton_self _)
  cases node with
  | symlink => exact ⟨nofun, fun h => absurd rfl (h.1.expected _ last).regular.1⟩
  | special => exact ⟨nofun, fun h => absurd rfl (h.1.expected _ last).regular.2⟩
  | file bytes =>
    have counted : TreeState.of T (tree ++ [(above ++ [.utf8 name], .leaf (.file bytes))]) =
        { TreeState.of T (tree ++ [(above ++ [.utf8 name], .dir)]) with
          dataBytes := (TreeState.of T (tree ++ [(above ++ [.utf8 name], .dir)])).dataBytes +
            bytes.length } := by
      simp [TreeState.of, fileSize]
    have data : (TreeState.of T (tree ++ [(above ++ [.utf8 name], .dir)])).dataBytes =
        (tree.map fun entry => fileSize entry.2).sum := by
      simp [TreeState.of, fileSize]
    have known : ¬ (decide (above = []) && !knownFile name) = true ↔
        (above = [] → knownFile name = true) := by
      simp
    simp only [copyLeaf, copyFile, error_iff, throw_iff, bind_iff, pure_iff, known, Prod.exists,
      copyLoop_iff (data ▸ admissible.data), Prod.mk.injEq]
    rw [admissible_concat, counted, data]
    constructor
    · rintro ⟨isKnown, isNew, _, _, ⟨total, rfl, rfl⟩, rfl, rfl⟩
      refine ⟨⟨admissible, room, ⟨⟨nofun, nofun⟩, ?_, fun _ is => nomatch (Prod.mk.inj is).2⟩, total⟩,
        rfl, rfl⟩
      intro other _ is
      rcases List.append_eq_singleton_iff.mp (Prod.mk.inj is).1 with ⟨root, one⟩ | ⟨-, none⟩
      · exact ⟨name, (List.cons.inj one).1.symm, isKnown root⟩
      · exact nomatch none
    · rintro ⟨⟨-, -, expected, total⟩, rfl, rfl⟩
      refine ⟨?_, room.new copied, _, _, ⟨total, rfl, rfl⟩, rfl, rfl⟩
      rintro rfl
      obtain ⟨t, is, isKnown⟩ := expected.rootFile _ _ rfl
      exact OsName.utf8.inj is ▸ isKnown

/-- A directory is created in the stage unless something of that name is there. -/
theorem createDestinationDir_iff {child : Listing} :
    createDestinationDir destination name = .ok child ↔
      OsName.utf8 name ∉ destination.names ∧ child = .done := by
  rw [createDestinationDir, error_iff]
  exact and_congr_right fun _ => ⟨fun h => (Except.ok.inj h).symm, fun h => congrArg _ h.symm⟩

/-- The checks on a directory, behind its admission. -/
theorem directory_iff (admissible : Admissible T byteCap tree)
    (room : Room T tree (above ++ [.utf8 name])) :
    Admissible T byteCap (tree ++ [(above ++ [.utf8 name], .dir)]) ↔
      (above = [] → name = text "images") := by
  rw [admissible_concat]
  constructor
  · rintro ⟨-, -, expected, -⟩ rfl
    exact OsName.utf8.inj (expected.rootDirectory _ rfl)
  · intro isImages
    refine ⟨admissible, room, ⟨⟨nofun, nofun⟩, fun _ _ is => (nomatch (Prod.mk.inj is).2),
      fun other is => ?_⟩, admissible.data⟩
    rcases List.append_eq_singleton_iff.mp (Prod.mk.inj is).1 with ⟨root, one⟩ | ⟨-, none⟩
    · rw [← (List.cons.inj one).1, isImages root]
    · exact nomatch none

end Entries

/-! ## The walk -/

namespace Listing

theorem append_done (l : Listing) : l.append .done = l := by
  induction l with
  | done => rfl
  | leaf name node rest ih | directory name children rest _ ih => rw [append, ih]

theorem append_assoc (l m n : Listing) : (l.append m).append n = l.append (m.append n) := by
  induction l with
  | done => rfl
  | leaf name node rest ih | directory name children rest _ ih => simp only [append, ih]

theorem names_append (l m : Listing) : (l.append m).names = l.names ++ m.names := by
  induction l with
  | done => rfl
  | leaf name node rest ih | directory name children rest _ ih =>
    simp only [append, names, ih, List.cons_append]

end Listing

section Walk

variable {T : CaseTables} {R : Reader} {byteCap : UInt64}

/-- The names that a directory has behind an entry. -/
theorem copied_more {destination : Listing} (next : Listing) {above : List OsName} {name : OsName}
    {tree : List TreeEntry} (more : List TreeEntry) (names : next.names = [name])
    (there : above ++ [name] ∈ more.map Prod.fst)
    (copied : ∀ other ∈ destination.names, above ++ [other] ∈ tree.map Prod.fst) :
    ∀ other ∈ (destination.append next).names, above ++ [other] ∈ (tree ++ more).map Prod.fst := by
  intro other mem
  rw [Listing.names_append, names] at mem
  rw [List.map_append]
  rcases List.mem_append.mp mem with earlier | last
  · exact List.mem_append_left _ (copied other earlier)
  · exact List.mem_append_right _ (List.mem_singleton.mp last ▸ there)

theorem intoString_iff {name : OsName} {t : Text} : intoString name = .ok t ↔ name = .utf8 t := by
  cases name with
  | utf8 name => exact ⟨fun h => congrArg _ (Except.ok.inj h), fun h => congrArg _ (OsName.utf8.inj h)⟩
  | other bytes => exact ⟨nofun, nofun⟩

/-- Behind a part of the tree, the walk accepts what keeps the tree admissible, and copies it. -/
theorem walkDirectory_iff (lowers : ∀ c, T.lower c ≠ []) {source destination destination' : Listing}
    {above : List OsName} {tree : List TreeEntry} {s' : TreeState} (portable : PortablePath above)
    (admissible : Admissible T byteCap tree)
    (copied : ∀ other ∈ destination.names, above ++ [other] ∈ tree.map Prod.fst) :
    walkDirectory T R byteCap source destination (.of T above) (above = []) (.of T tree) =
        .ok (destination', s') ↔
      Admissible T byteCap (tree ++ source.paths above) ∧ destination' = destination.append source ∧
        s' = .of T (tree ++ source.paths above) := by
  induction source generalizing destination above tree destination' s' with
  | done =>
    rw [walkDirectory, Listing.paths, List.append_nil, Listing.append_done, Except.ok.injEq,
      Prod.mk.injEq, eq_comm (b := destination'), eq_comm (b := s')]
    exact (and_iff_right admissible).symm
  | leaf name node rest ih =>
    rw [walkDirectory, Listing.paths, ← List.singleton_append, ← List.append_assoc]
    simp only [bind_iff, intoString_iff, admit_iff lowers portable, Prod.exists]
    constructor
    · rintro ⟨name, rfl, _, _, ⟨room, rfl, rfl⟩, _, _, leaf, walked⟩
      obtain ⟨next, rfl, rfl⟩ := (copyLeaf_iff admissible room copied).mp leaf
      have there := copied_more (.leaf (.utf8 name) node .done)
        ([(above ++ [.utf8 name], .leaf node)]) rfl (List.mem_singleton_self _) copied
      obtain ⟨whole, rfl, rfl⟩ := (ih portable next there).mp walked
      exact ⟨whole, Listing.append_assoc _ _ _, rfl⟩
    · rintro ⟨whole, rfl, rfl⟩
      have next := whole.front
      obtain ⟨-, room, expected, -⟩ := admissible_concat.mp next
      obtain ⟨t, rfl, -⟩ :=
        room.portable.named name (List.mem_append_right _ (List.mem_singleton_self _))
      have there := copied_more (.leaf (.utf8 t) node .done)
        ([(above ++ [.utf8 t], .leaf node)]) rfl (List.mem_singleton_self _) copied
      refine ⟨t, rfl, _, _, ⟨room, rfl, rfl⟩, _, _,
        (copyLeaf_iff admissible room copied).mpr ⟨next, rfl, rfl⟩, ?_⟩
      exact (ih portable next there).mpr
        ⟨whole, (Listing.append_assoc destination (.leaf (.utf8 t) node .done) rest).symm, rfl⟩
  | directory name children rest ihChildren ihRest =>
    have notRoot : ∀ name : OsName, decide (above ++ [name] = []) = false := by simp
    have nothing {path : List OsName} {tree : List TreeEntry} :
        ∀ other ∈ Listing.done.names, path ++ [other] ∈ tree.map Prod.fst :=
      fun _ mem => absurd mem List.not_mem_nil
    have images : ∀ name : Text, ¬ (decide (above = []) && decide (name ≠ text "images")) = true ↔
        (above = [] → name = text "images") := by
      simp
    rw [walkDirectory, Listing.paths, ← List.singleton_append, ← List.append_assoc, ← List.append_assoc]
    simp only [bind_iff, throw_iff, intoString_iff, admit_iff lowers portable, Prod.exists,
      createDestinationDir_iff, images]
    constructor
    · rintro ⟨name, rfl, _, _, ⟨room, rfl, rfl⟩, isImages, _, ⟨isNew, rfl⟩, child, _, inside, walked⟩
      have next := (directory_iff admissible room).mpr isImages
      rw [← notRoot (.utf8 name)] at inside
      obtain ⟨below, isChild, rfl⟩ := (ihChildren room.portable next nothing).mp inside
      rw [show child = children from isChild] at walked
      have there := copied_more (.directory (.utf8 name) children .done)
        ([(above ++ [.utf8 name], .dir)] ++ children.paths (above ++ [.utf8 name])) rfl
        (List.mem_cons_self) copied
      rw [← List.append_assoc] at there
      obtain ⟨whole, rfl, rfl⟩ := (ihRest portable below there).mp walked
      exact ⟨whole, Listing.append_assoc _ _ _, rfl⟩
    · rintro ⟨whole, rfl, rfl⟩
      have below := whole.front
      have next := below.front
      obtain ⟨-, room, expected, -⟩ := admissible_concat.mp next
      obtain ⟨t, rfl, -⟩ :=
        room.portable.named name (List.mem_append_right _ (List.mem_singleton_self _))
      have inside := (ihChildren room.portable next nothing).mpr
        ⟨below, rfl, rfl⟩
      rw [notRoot (.utf8 t)] at inside
      have there := copied_more (.directory (.utf8 t) children .done)
        ([(above ++ [.utf8 t], .dir)] ++ children.paths (above ++ [.utf8 t])) rfl
        (List.mem_cons_self) copied
      rw [← List.append_assoc] at there
      refine ⟨t, rfl, _, _, ⟨room, rfl, rfl⟩, (directory_iff admissible room).mp next, _,
        ⟨room.new copied, rfl⟩, _, _, inside, ?_⟩
      exact (ihRest portable below there).mpr ⟨whole,
        (Listing.append_assoc destination (.directory (.utf8 t) children .done) rest).symm, rfl⟩

/-- Two listings of one tree. -/
def Listing.SameTree (l m : Listing) : Prop := (l.paths []).Perm (m.paths [])

theorem portablePath_root : PortablePath [] where
  named := nofun
  depth := Nat.zero_le _
  length := Nat.zero_le _

/-- A copy succeeds exactly on an admissible source, and then the stage is like it. -/
theorem copyBundle_ok (lowers : ∀ c, T.lower c ≠ []) {source stage : Listing} :
    copyBundle T R byteCap source = .ok stage ↔
      Admissible T byteCap (source.paths []) ∧ stage = source := by
  have walk {s' : TreeState} : walkDirectory T R byteCap source .done .root true {} = .ok (stage, s') ↔
      Admissible T byteCap (source.paths []) ∧ stage = source ∧ s' = .of T (source.paths []) :=
    walkDirectory_iff lowers portablePath_root admissible_nil fun _ mem => absurd mem List.not_mem_nil
  simp only [copyBundle, bind_iff, pure_iff, Prod.exists]
  constructor
  · rintro ⟨_, _, walked, rfl⟩
    obtain ⟨admissible, is, -⟩ := walk.mp walked
    exact ⟨admissible, is⟩
  · rintro ⟨admissible, rfl⟩
    exact ⟨_, _, walk.mpr ⟨admissible, rfl, rfl⟩, rfl⟩

/-- **The copy accepts the admissible trees in any order, and copies them as they are.** Of
lower-casing it is assumed that it turns a character into one or more. -/
theorem copyBundle_iff (lowers : ∀ c, T.lower c ≠ []) (source : Listing) :
    (∀ listed : Listing, listed.SameTree source →
      ((∃ stage, copyBundle T R byteCap listed = .ok stage) ↔
        Admissible T byteCap (source.paths []))) ∧
    ∀ stage, copyBundle T R byteCap source = .ok stage → stage = source := by
  refine ⟨fun listed same => ⟨?_, fun admissible => ?_⟩, fun stage ok => ((copyBundle_ok lowers).mp ok).2⟩
  · rintro ⟨stage, ok⟩
    exact ((copyBundle_ok lowers).mp ok).1.perm same
  · exact ⟨listed, (copyBundle_ok lowers).mpr ⟨admissible.perm same.symm, rfl⟩⟩

/-- A reader that fills its buffer. -/
def Reader.full : Reader where
  size rest := min rest.length COPY_BUFFER_BYTES
  positive rest some := by
    have := List.length_pos_iff.mpr some
    unfold COPY_BUFFER_BYTES
    omega
  buffer rest := min_le_right _ _

/-- A document with one image. -/
def small : Listing :=
  .directory (.utf8 (text "images"))
    (.leaf (.utf8 (text "A.png")) (.file [1, 2, 3]) .done)
    (.leaf (.utf8 (text "markdown.md")) (.file [35]) .done)

/-- A directory with an image, and a file beside it. -/
theorem copyBundle_small : ∃ stage, copyBundle CaseTables.asciiOnly .full 4 small = .ok stage := by
  refine ((copyBundle_iff (fun c => List.cons_ne_nil _ _) small).1 small (List.Perm.refl _)).mpr ?_
  have portable : ∀ ts : List Text, ts.length ≤ MAX_DEPTH →
      (∀ t ∈ ts, portableName t = true ∧ utf8Len t ≤ MAX_COMPONENT_BYTES) →
      relativeBytes (ts.map .utf8) ≤ MAX_RELATIVE_PATH_BYTES → PortablePath (ts.map .utf8) := by
    intro ts depth named length
    refine ⟨fun name mem => ?_, by rwa [List.length_map], length⟩
    obtain ⟨t, there, rfl⟩ := List.mem_map.mp mem
    exact ⟨t, rfl, named t there⟩
  refine ⟨?_, ?_, by decide, by decide, by decide, by decide⟩
  · refine List.forall_mem_cons.mpr ⟨?_, List.forall_mem_cons.mpr ⟨?_, List.forall_mem_singleton.mpr ?_⟩⟩
    · exact portable [text "images"] (by decide) (by decide) (by decide)
    · exact portable [text "images", text "A.png"] (by decide) (by decide) (by decide)
    · exact portable [text "markdown.md"] (by decide) (by decide) (by decide)
  · refine List.forall_mem_cons.mpr ⟨?_, List.forall_mem_cons.mpr ⟨?_, List.forall_mem_singleton.mpr ?_⟩⟩
    · exact ⟨by decide, nofun, fun name is => (List.cons.inj (Prod.mk.inj is).1).1.symm⟩
    · exact ⟨by decide, nofun, nofun⟩
    · refine ⟨by decide, fun name bytes is => ⟨text "markdown.md", ?_, by decide⟩, nofun⟩
      exact (List.cons.inj (Prod.mk.inj is).1).1.symm

end Walk

end Mineru.Hybrid
