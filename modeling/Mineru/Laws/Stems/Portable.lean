import Mineru.Laws.Stems.Canonical

/-!
# Which names have a canonical stem

`trimmedName` is the name that `canonical_stem` goes on to check; it is never empty, holds safe
characters only and ends in neither a dot nor a space. So everything is decided by
`windows_device_name`, which answers `true` exactly for the devices (`windowsDeviceName_true`) and
panics exactly if the base is four bytes long and its third byte does not end a character
(`windowsDeviceName_panic`).
-/

set_option autoImplicit false

namespace Mineru.Stems

open Logic

/-! ## Devices -/

/-- The names that Windows keeps for its devices. -/
def deviceNames : List Text :=
  ["con", "prn", "aux", "nul"].map text ++
    [text "com", text "lpt"].flatMap fun port => (text "123456789").map fun digit => port ++ [digit]

/-- The part before the first dot is a device name, in some letter case. -/
def IsDevice (name : Text) : Prop :=
  ∃ device ∈ deviceNames, (deviceBase name).map Char.toLower = device

/-- The part before the first dot has four bytes, and no character ends at the third of them. -/
def SplitsCharacter (name : Text) : Prop :=
  utf8Len (deviceBase name) = 4 ∧ ∀ cut, cut <+: deviceBase name → utf8Len cut ≠ 3

theorem isUpper_bounds {c : Char} (h : c.isUpper = true) : 65 ≤ c.toNat ∧ c.toNat ≤ 90 := by
  simpa [Char.isUpper, UInt32.le_iff_toNat_le] using h

theorem toLower_upper {c : Char} (h : c.isUpper = true) : c.toLower.toNat = c.toNat + 32 := by
  have bounds := isUpper_bounds h
  have range : c.val ≥ 'A'.val ∧ c.val ≤ 'Z'.val := by
    simpa [Char.isUpper] using h
  have shape : c.toLower.toNat = (c.val + ('a'.val - 'A'.val)).toNat := by
    unfold Char.toLower
    rw [dif_pos range]
    rfl
  rw [shape, UInt32.toNat_add]
  exact Nat.mod_eq_of_lt (show c.toNat + 32 < 2 ^ 32 by omega)

/-- Lower-casing neither enters nor leaves the characters that are not letters. -/
theorem toLower_eq {c d : Char} (low : d.toNat < 97) : c.toLower = d → c = d := by
  intro same
  by_cases upper : c.isUpper = true
  · have := toLower_upper upper
    have := isUpper_bounds upper
    rw [same] at *
    omega
  · rwa [Char.toLower_eq_of_not_isUpper upper] at same

theorem toLower_ascii {c : Char} (h : c.toLower.toNat < 128) : c.toNat < 128 := by
  by_cases upper : c.isUpper = true
  · have := isUpper_bounds upper
    omega
  · rwa [Char.toLower_eq_of_not_isUpper upper] at h

/-- What the proofs below read off the tables of names, in one evaluation. -/
theorem name_tables :
    (deviceNames.all fun device => device.all fun c => decide (c.toNat < 128)) = true ∧
    (∀ name ∈ ["con", "prn", "aux", "nul"], (text name).map Char.toLower = text name) ∧
    ((text "123456789").all fun c => '1' ≤ c && c ≤ '9') = true ∧
    ((text "123456789").all fun d => decide (d.toNat < 97 ∧ d.toLower = d)) = true ∧
    (∀ device ∈ [text "com", text "lpt"].flatMap
      fun port => (text "123456789").map fun digit => port ++ [digit], device.length = 4) ∧
    ((text "document").all isSafeStemChar) = true := by
  decide +kernel

theorem deviceNames_ascii : ∀ device ∈ deviceNames, ∀ c ∈ device, c.toNat < 128 := by
  intro device mem c char
  exact of_decide_eq_true
    (List.all_eq_true.mp (List.all_eq_true.mp name_tables.1 device mem) c char)

/-- A text that lower-cases to an ASCII text is one. -/
theorem ascii_of_toLower {t device : Text} (ascii : ∀ c ∈ device, c.toNat < 128)
    (h : t.map Char.toLower = device) : ∀ c ∈ t, c.toNat < 128 := by
  intro c mem
  refine toLower_ascii (ascii _ ?_)
  rw [← h]
  exact List.mem_map_of_mem mem

theorem eqIgnoreAsciiCase_lower {t device : Text} (lower : device.map Char.toLower = device) :
    eqIgnoreAsciiCase t device = true ↔ t.map Char.toLower = device := by
  unfold eqIgnoreAsciiCase
  rw [lower, decide_eq_true_iff]

/-- The device names without a number. -/
theorem plain_devices {base : Text} :
    (["con", "prn", "aux", "nul"].any fun device => eqIgnoreAsciiCase base (text device)) = true ↔
      ∃ device ∈ ["con", "prn", "aux", "nul"].map text, base.map Char.toLower = device := by
  have lower := name_tables.2.1
  rw [List.any_eq_true]
  constructor
  · intro ⟨name, mem, same⟩
    exact ⟨text name, List.mem_map_of_mem mem, (eqIgnoreAsciiCase_lower (lower name mem)).mp same⟩
  · intro ⟨device, mem, same⟩
    obtain ⟨name, listed, rfl⟩ := List.mem_map.mp mem
    exact ⟨name, listed, (eqIgnoreAsciiCase_lower (lower name listed)).mpr same⟩

theorem digit_mem {c : Char} :
    ('1' ≤ c && c ≤ '9') = true ↔ c ∈ text "123456789" := by
  constructor
  · intro h
    have bounds : 49 ≤ c.toNat ∧ c.toNat ≤ 57 := by
      simpa [Char.le_def, UInt32.le_iff_toNat_le] using h
    have back : c = Char.ofNat c.toNat := (Char.ofNat_toNat c).symm
    generalize c.toNat = n at back bounds
    obtain ⟨low, high⟩ := bounds
    subst back
    interval_cases n <;> decide
  · intro mem
    exact List.all_eq_true.mp name_tables.2.2.1 c mem

/-- The device names with a number, behind a port name. -/
theorem numbered_devices {first : Text} {c : Char} :
    ((eqIgnoreAsciiCase first (text "com") || eqIgnoreAsciiCase first (text "lpt")) &&
        [c].head?.any fun c => '1' ≤ c && c ≤ '9') = true ↔
      ∃ device ∈ [text "com", text "lpt"].flatMap
        fun port => (text "123456789").map fun digit => port ++ [digit],
        (first ++ [c]).map Char.toLower = device := by
  have low : ∀ d ∈ text "123456789", d.toNat < 97 ∧ d.toLower = d := by
    exact fun d mem => of_decide_eq_true (List.all_eq_true.mp name_tables.2.2.2.1 d mem)
  rw [Bool.and_eq_true, Bool.or_eq_true, List.head?_cons, Option.any_some, digit_mem,
    eqIgnoreAsciiCase_lower (by decide), eqIgnoreAsciiCase_lower (by decide)]
  constructor
  · intro ⟨port, digit⟩
    refine ⟨first.map Char.toLower ++ [c], List.mem_flatMap.mpr ⟨first.map Char.toLower, ?_, ?_⟩, ?_⟩
    · rcases port with port | port <;> rw [port]
      · exact List.mem_cons_self
      · exact List.mem_cons_of_mem _ List.mem_cons_self
    · exact List.mem_map_of_mem digit
    · rw [List.map_append, List.map_cons, (low c digit).2, List.map_nil]
  · intro ⟨device, mem, same⟩
    obtain ⟨port, listed, rest⟩ := List.mem_flatMap.mp mem
    obtain ⟨digit, isDigit, rfl⟩ := List.mem_map.mp rest
    rw [List.map_append, List.map_cons, List.map_nil] at same
    obtain ⟨lower, number⟩ := List.append_inj' same rfl
    have number := toLower_eq (low digit isDigit).1 (List.cons.inj number).1
    refine ⟨?_, number ▸ isDigit⟩
    rw [lower]
    simpa only [List.mem_cons, List.not_mem_nil, or_false] using listed

/-! ## The device test -/

theorem isDevice_iff {name : Text} : IsDevice name ↔
    (∃ device ∈ ["con", "prn", "aux", "nul"].map text,
      (deviceBase name).map Char.toLower = device) ∨
    ∃ device ∈ [text "com", text "lpt"].flatMap
      fun port => (text "123456789").map fun digit => port ++ [digit],
      (deviceBase name).map Char.toLower = device := by
  unfold IsDevice deviceNames
  simp only [List.mem_append, or_and_right, exists_or]

/-- The bytes of a base that lower-cases to a device name are those of the device name. -/
theorem device_bytes {base device : Text} (mem : device ∈ deviceNames)
    (h : base.map Char.toLower = device) : utf8Len base = device.length ∧
      ∀ c ∈ base, c.toNat < 128 := by
  have ascii := ascii_of_toLower (deviceNames_ascii device mem) h
  refine ⟨?_, ascii⟩
  rw [utf8Len_ascii ascii, ← h, List.length_map]

/-- A device name has a character boundary behind each of its bytes. -/
theorem IsDevice.whole {name : Text} (h : IsDevice name) : ¬ SplitsCharacter name := by
  obtain ⟨device, mem, same⟩ := h
  obtain ⟨bytes, ascii⟩ := device_bytes mem same
  intro ⟨four, across⟩
  refine across ((deviceBase name).take 3) (List.take_prefix _ _) ?_
  rw [utf8Len_ascii fun c char => ascii c (List.mem_of_mem_take char), List.length_take]
  rw [utf8Len_ascii ascii] at four
  omega

/-- The slice of the first three bytes panics. -/
theorem windowsDeviceName_panic {name : Text} (h : SplitsCharacter name) :
    windowsDeviceName name = .error .panic := by
  have plain : ¬ IsDevice name := fun device => device.whole h
  obtain ⟨four, across⟩ := h
  unfold windowsDeviceName
  unfold deviceBase at four across
  dsimp only
  rw [if_neg, if_pos four, splitAtByte_none.mpr across]
  · rfl
  · rw [plain_devices]
    exact fun device => plain (isDevice_iff.mpr (Or.inl device))

/-- A base of four bytes that has a character boundary behind the third one ends in a character of
one byte. -/
theorem last_of_four {base first rest : Text} (four : utf8Len base = 4)
    (cut : splitAtByte 3 base = some (first, rest)) : ∃ c, base = first ++ [c] ∧ rest = [c] := by
  obtain ⟨whole, three⟩ := splitAtByte_some.mp cut
  rw [whole, utf8Len_append, three] at four
  cases rest with
  | nil => cases four
  | cons c rest =>
    rw [utf8Len_cons] at four
    have := c.utf8Size_pos
    cases rest with
    | nil => exact ⟨c, whole, rfl⟩
    | cons d rest =>
      have := d.utf8Size_pos
      rw [utf8Len_cons] at four
      omega

/-- Elsewhere the test answers whether the name is a device. -/
theorem windowsDeviceName_ok {name : Text} (h : ¬ SplitsCharacter name) :
    ∃ answer, windowsDeviceName name = .ok answer ∧ (answer = true ↔ IsDevice name) := by
  unfold windowsDeviceName
  dsimp only
  rw [isDevice_iff, ← plain_devices]
  by_cases plain : (["con", "prn", "aux", "nul"].any
      fun device => eqIgnoreAsciiCase (deviceBase name) (text device)) = true
  · refine ⟨true, if_pos plain, ?_⟩
    exact iff_of_true rfl (Or.inl plain)
  · by_cases four : utf8Len (deviceBase name) = 4
    · cases cut : splitAtByte 3 (deviceBase name) with
      | none => exact absurd ⟨four, splitAtByte_none.mp cut⟩ h
      | some parts =>
        obtain ⟨c, whole, rest⟩ := last_of_four four cut
        refine ⟨_, (if_neg plain).trans ((if_pos four).trans (congrArg numberedDevice cut)), ?_⟩
        rw [or_iff_right plain, whole, rest, numbered_devices]
    · refine ⟨false, (if_neg plain).trans (if_neg four), ?_⟩
      refine iff_of_false Bool.false_ne_true ?_
      intro device
      rcases device with device | ⟨device, mem, same⟩
      · exact plain device
      · have numbered := name_tables.2.2.2.2.1
        have bytes := device_bytes (List.mem_append_right _ mem) same
        exact four (bytes.1.trans (numbered device mem))

/-! ## Canonical stems -/

/-- The sanitized and trimmed name, `document` if nothing is left of it. -/
def trimmedName (value : Text) : Text :=
  let stem := trimEndMatches dotOrSpace (sanitizeStem value)
  if stem.isEmpty then text "document" else stem

theorem sanitizeStem_safe {value : Text} {c : Char} (h : c ∈ sanitizeStem value) :
    isSafeStemChar c = true := by
  obtain ⟨d, mem, rfl⟩ := List.mem_map.mp h
  split
  · assumption
  · decide

theorem trimEndMatches_starts (p : Char → Bool) (t : Text) : trimEndMatches p t <+: t := by
  unfold trimEndMatches
  rw [← List.reverse_suffix, List.reverse_reverse]
  exact List.dropWhile_suffix p

theorem trimEndMatches_ends (t : Text) :
    endsWithDotOrSpace (trimEndMatches dotOrSpace t) = false := by
  unfold endsWithDotOrSpace trimEndMatches
  rw [List.getLast?_reverse]
  cases back : t.reverse.dropWhile dotOrSpace with
  | nil => rfl
  | cons c rest =>
    have head : dotOrSpace c = false := by
      have := List.head_dropWhile_not dotOrSpace (l := t.reverse) (by rw [back]; simp)
      simpa only [back, List.head_cons] using this
    rw [List.head?_cons, Option.any_some, head]

/-- The trimmed name passes every check but the one for devices. -/
theorem trimmedName_plain (value : Text) : trimmedName value ≠ [] ∧
    endsWithDotOrSpace (trimmedName value) = false ∧
    ∀ c ∈ trimmedName value, isSafeStemChar c = true := by
  unfold trimmedName
  dsimp only
  split
  · exact ⟨by decide, by decide, List.all_eq_true.mp name_tables.2.2.2.2.2⟩
  · next some =>
    refine ⟨?_, trimEndMatches_ends _, ?_⟩
    · rwa [List.isEmpty_iff] at some
    · intro c mem
      exact sanitizeStem_safe ((trimEndMatches_starts _ _).subset mem)

/-- So the stem depends on the device test alone. -/
theorem canonicalStem_eq (value : Text) : canonicalStem value =
    windowsDeviceName (trimmedName value) >>= fun device =>
      if device then Checked.fail notPortable else .ok (trimmedName value) := by
  obtain ⟨ne, ends, safe⟩ := trimmedName_plain value
  have plain : ((trimmedName value).isEmpty || endsWithDotOrSpace (trimmedName value) ||
      !(trimmedName value).all isSafeStemChar) = false := by
    simp only [Bool.or_eq_false_iff, ends, Bool.not_eq_false', List.all_eq_true,
      List.isEmpty_eq_false_iff]
    exact ⟨⟨ne, trivial⟩, safe⟩
  have portable : portableName (trimmedName value) =
      windowsDeviceName (trimmedName value) >>= fun device => .ok !device := by
    unfold portableName
    rw [plain]
    rfl
  unfold canonicalStem
  change (portableName (trimmedName value) >>= _) = _
  rw [portable]
  cases test : windowsDeviceName (trimmedName value) with
  | error e => rfl
  | ok device =>
    cases device with
    | true => rfl
    | false =>
      change (windowsDeviceName (trimmedName value) >>= _) = _
      rw [test]
      rfl

/-- A canonical name is no device. -/
theorem Canonical.notDevice {s : Text} (h : Canonical s) : ¬ IsDevice s := by
  intro device
  obtain ⟨answer, test, isDevice⟩ := windowsDeviceName_ok device.whole
  rw [h.device] at test
  cases test
  exact Bool.false_ne_true (isDevice.mpr device)

/-- A name is refused for a device. -/
theorem canonicalStem_refused {value : Text} {e : VlmError}
    (h : canonicalStem value = .error (.err e)) : IsDevice (trimmedName value) := by
  rw [canonicalStem_eq] at h
  by_cases splits : SplitsCharacter (trimmedName value)
  · rw [windowsDeviceName_panic splits] at h
    cases h
  · obtain ⟨device, test, isDevice⟩ := windowsDeviceName_ok splits
    rw [test] at h
    cases device with
    | true => exact isDevice.mp rfl
    | false => cases h

theorem isSafeStemChar_iff {c : Char} : isSafeStemChar c = true ↔
    isControl c = false ∧ c ≠ '/' ∧ c ≠ '\\' ∧ c ∉ text "<>:\"|?*" := by
  simp [isSafeStemChar, text]

/-- What the stems of a name are to be: no panic, a stem that every platform keeps as it is, and an
error for devices only. -/
structure StemSafe (value : Text) : Prop where
  noPanic : canonicalStem value ≠ .error .panic
  ne : ∀ t, canonicalStem value = .ok t → t ≠ []
  safe : ∀ t, canonicalStem value = .ok t → ∀ c ∈ t, isControl c = false ∧ c ≠ '/' ∧ c ≠ '\\' ∧
    c ∉ text "<>:\"|?*"
  ends : ∀ t, canonicalStem value = .ok t → t.getLast? ≠ some '.' ∧ t.getLast? ≠ some ' '
  device : ∀ t, canonicalStem value = .ok t → ¬ IsDevice t
  fixed : ∀ t, canonicalStem value = .ok t → canonicalStem t = .ok t
  refused : ∀ e, canonicalStem value = .error (.err e) → IsDevice (trimmedName value)

/-- **Stems are safe exactly for the names whose slice of three bytes ends at a character.** The
slice is taken only from a base of four bytes, so it is on names of this length that the function
may panic. -/
theorem canonical_stem_safe (value : Text) :
    StemSafe value ↔ ¬ SplitsCharacter (trimmedName value) := by
  constructor
  · intro safe splits
    refine safe.noPanic ?_
    rw [canonicalStem_eq, windowsDeviceName_panic splits]
    rfl
  · intro whole
    refine ⟨?_, ?_, ?_, ?_, ?_, ?_, ?_⟩
    · obtain ⟨device, test, -⟩ := windowsDeviceName_ok whole
      rw [canonicalStem_eq, test]
      cases device <;> exact nofun
    · intro t stem
      exact (canonicalStem_canonical stem).ne
    · intro t stem c mem
      exact isSafeStemChar_iff.mp ((canonicalStem_canonical stem).safe c mem)
    · intro t stem
      have ends := (canonicalStem_canonical stem).ends
      unfold endsWithDotOrSpace at ends
      constructor <;> intro last <;> rw [last] at ends <;> cases ends
    · intro t stem
      exact (canonicalStem_canonical stem).notDevice
    · intro t stem
      exact canonicalStem_of_canonical (canonicalStem_canonical stem)
    · intro e refused
      exact canonicalStem_refused refused

/-- A name of an emoji is sliced inside the emoji. -/
theorem canonical_stem_emoji :
    canonicalStem [Char.ofNat 0x1f600] = .error .panic ∧ ¬ StemSafe [Char.ofNat 0x1f600] := by
  have panics : canonicalStem [Char.ofNat 0x1f600] = .error .panic := by decide +kernel
  exact ⟨panics, fun safe => safe.noPanic panics⟩

end Mineru.Stems
