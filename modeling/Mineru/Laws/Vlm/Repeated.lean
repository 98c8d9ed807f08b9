import Mineru.Laws.Builders.Entities
import Mineru.Logic.Periods
import Mineru.Vlm.Repeated

/-!
# The period of an answer

The array holds the longest border of every leading part of the bytes that the loop has passed
(`Filled`). The inner loop falls back from border to border, as long as the next byte is not the one
behind the border (`shorten_ensures`), so each turn adds one entry (`extendTable_ensures`). The period
that is read off the last entry is the smallest one, and no index is out of range
(`repeatedWholeFragment_iff`).
-/

set_option autoImplicit false

namespace Mineru.Vlm

open Logic Logic.Checked
open Builders (utf8 sliceAt utf8_append utf8_length)

/-! ## What does not panic -/

section Scan

variable {α : Type} {l : List α} {i a b : Nat}

theorem Scan.item_ensures (inside : i < l.length) :
    Ensures (Scan.item l i) fun x => l[i]? = some x := by
  unfold Scan.item
  rw [List.getElem?_eq_getElem inside]
  exact Ensures.ok rfl

theorem Scan.assign_ensures (inside : i < l.length) (x : α) :
    Ensures (Scan.assign l i x) fun l' => l' = l.set i x := by
  unfold Scan.assign
  rw [if_pos inside]
  exact Ensures.ok rfl

theorem Scan.sub_ensures (le : b ≤ a) : Ensures (Scan.sub a b) fun d => d = a - b := by
  unfold Scan.sub
  rw [if_pos le]
  exact Ensures.ok rfl

theorem Scan.div_ensures (pos : 0 < b) : Ensures (Scan.div a b) fun q => q = a / b := by
  unfold Scan.div
  rw [if_neg pos.ne']
  exact Ensures.ok rfl

theorem Scan.upTo_ensures (le : a ≤ l.length) : Ensures (Scan.upTo l a) fun l' => l' = l.take a := by
  unfold Scan.upTo
  rw [if_pos le]
  exact Ensures.ok rfl

end Scan

/-! ## The prefix function -/

variable {bytes : List UInt8} {table : List Nat} {index : Nat}

/-- The array holds the longest borders of the parts that end before the index. -/
structure Filled (bytes : List UInt8) (table : List Nat) (index : Nat) : Prop where
  size : table.length = maxRepeatedFragmentScanBytes
  entries : ∀ j < index, ∃ k, table[j]? = some k ∧ LongestBorder bytes (j + 1) k

theorem Filled.item (filled : Filled bytes table index) {j : Nat} (lt : j < index) :
    Ensures (Scan.item table j) fun k => LongestBorder bytes (j + 1) k := by
  obtain ⟨k, found, longest⟩ := filled.entries j lt
  refine (Scan.item_ensures (List.getElem?_eq_some_iff.mp found).1).weaken fun k' found' => ?_
  obtain rfl := Option.some.inj (found.symm.trans found')
  exact longest

theorem filled_one : Filled bytes (List.replicate maxRepeatedFragmentScanBytes 0) 1 where
  size := List.length_replicate
  entries j lt := by
    obtain rfl := Nat.lt_one_iff.mp lt
    exact ⟨0, rfl, longestBorder_one⟩

/-- The inner loop stops at the longest border that the next byte follows, or at none. -/
theorem shorten_ensures (filled : Filled bytes table index) (inside : index < bytes.length) :
    ∀ {fuel length : Nat}, length < fuel → Fallback bytes index length →
      Ensures (shorten bytes table index fuel length) fun k =>
        Fallback bytes index k ∧ (k = 0 ∨ bytes[k]? = bytes[index]?) := by
  intro fuel
  induction fuel with
  | zero => exact fun lt => absurd lt (Nat.not_lt_zero _)
  | succ fuel ih =>
    intro length lt fallback
    have short : length < index := fallback.border.1
    unfold shorten
    refine Ensures.ite (fun pos => ?_) fun zero => Ensures.ok ⟨fallback, .inl (Nat.eq_zero_of_not_pos zero)⟩
    refine (Scan.item_ensures inside).bind fun next isNext => ?_
    refine (Scan.item_ensures (short.trans inside)).bind fun behind isBehind => ?_
    refine Ensures.ite (fun differs => ?_) fun same => Ensures.ok ⟨fallback, .inr ?_⟩
    · refine (Scan.sub_ensures pos).bind fun last isLast => ?_
      subst isLast
      refine (filled.item (by omega)).bind fun length' longest => ?_
      rw [Nat.sub_add_cancel pos] at longest
      refine ih (by have := longest.border.1; omega) (fallback.descend ?_ longest)
      rw [isNext, isBehind]
      exact fun same => differs (Option.some.inj same).symm
    · rw [isNext, isBehind, not_not.mp same]

/-- A turn adds the entry of the index. -/
theorem extendTable_ensures (filled : Filled bytes table index) (pos : 0 < index)
    (inside : index < bytes.length) (room : index < maxRepeatedFragmentScanBytes) :
    Ensures (extendTable bytes table index) fun table' => Filled bytes table' (index + 1) := by
  unfold extendTable
  refine (Scan.sub_ensures pos).bind fun before isBefore => ?_
  subst isBefore
  refine (filled.item (by omega)).bind fun length longest => ?_
  rw [Nat.sub_add_cancel pos] at longest
  refine (shorten_ensures filled inside (Nat.lt_succ_self length) longest.fallback).bind ?_
  rintro k ⟨fallback, stopped⟩
  refine (Scan.item_ensures inside).bind fun next isNext => ?_
  refine (Scan.item_ensures (fallback.border.1.trans inside)).bind fun behind isBehind => ?_
  have entry : LongestBorder bytes (index + 1) (if next = behind then k + 1 else k) := by
    split
    · rename_i same
      exact fallback.extend (by rw [isNext, isBehind, same])
    · rename_i differs
      have apart : bytes[k]? ≠ bytes[index]? := by
        rw [isNext, isBehind]
        exact fun same => differs (Option.some.inj same).symm
      obtain rfl := stopped.resolve_right apart
      exact fallback.clear apart
  refine (Scan.assign_ensures (filled.size ▸ room) _).weaken fun table' is => ?_
  subst is
  refine ⟨List.length_set.trans filled.size, fun j lt => ?_⟩
  rcases Nat.lt_succ_iff_lt_or_eq.mp lt with old | rfl
  · obtain ⟨k', found, is⟩ := filled.entries j old
    exact ⟨k', (List.getElem?_set_ne old.ne').trans found, is⟩
  · exact ⟨_, List.getElem?_set_self (filled.size ▸ room), entry⟩

/-- The turns from an index on. -/
theorem extendTable_run (count : Nat) : ∀ {index : Nat} {table : List Nat},
    Filled bytes table index → 0 < index → index + count ≤ bytes.length →
    bytes.length ≤ maxRepeatedFragmentScanBytes →
    Ensures ((List.range' index count).foldlM (extendTable bytes) table) fun table' =>
      Filled bytes table' (index + count) := by
  induction count with
  | zero => exact fun filled _ _ _ => Ensures.ok filled
  | succ count ih =>
    intro index table filled pos inside room
    rw [List.range'_succ, List.foldlM_cons]
    refine (extendTable_ensures filled pos (by omega) (by omega)).bind fun table' next => ?_
    refine (ih next (Nat.succ_pos index) (by omega) room).weaken fun table'' is => ?_
    rwa [Nat.add_right_comm, Nat.add_assoc] at is

theorem prefixTable_ensures (some : bytes ≠ []) (room : bytes.length ≤ maxRepeatedFragmentScanBytes) :
    Ensures (prefixTable bytes) fun table => Filled bytes table bytes.length := by
  have pos := List.length_pos_of_ne_nil some
  refine (extendTable_run (bytes.length - 1) filled_one Nat.one_pos (by omega) room).weaken ?_
  intro table filled
  rwa [Nat.add_sub_cancel' pos] at filled

/-! ## Character boundaries -/

/-- The longest part that a text begins with and that has at most so many bytes. -/
structure Cut (t cut : Text) (cap : Nat) : Prop where
  starts : cut <+: t
  fits : utf8Len cut ≤ cap
  longest : ∀ other, other <+: t → utf8Len other ≤ cap → utf8Len other ≤ utf8Len cut

theorem isCharBoundary_iff {t : Text} {n : Nat} :
    isCharBoundary t n = true ↔ ∃ front, front <+: t ∧ utf8Len front = n := by
  unfold isCharBoundary
  rw [Option.isSome_iff_exists]
  constructor
  · rintro ⟨⟨front, back⟩, cut⟩
    obtain ⟨rfl, len⟩ := splitAtByte_some.mp cut
    exact ⟨front, ⟨back, rfl⟩, len⟩
  · rintro ⟨front, ⟨back, rfl⟩, len⟩
    exact ⟨(front, back), splitAtByte_some.mpr ⟨rfl, len⟩⟩

theorem utf8Len_mono {front t : Text} (starts : front <+: t) : utf8Len front ≤ utf8Len t := by
  obtain ⟨back, rfl⟩ := starts
  rw [utf8Len_append]
  exact Nat.le_add_right _ _

/-- Of two parts that a text begins with, the one with fewer bytes begins the other. -/
theorem prefix_of_utf8Len {front front' t : Text} (starts : front <+: t) (starts' : front' <+: t)
    (le : utf8Len front ≤ utf8Len front') : front <+: front' := by
  rcases List.prefix_or_prefix_of_prefix starts starts' with short | ⟨back, rfl⟩
  · exact short
  · rw [utf8Len_append] at le
    rcases back with _ | ⟨c, back⟩
    · rw [List.append_nil]
    · have := c.utf8Size_pos
      rw [utf8Len_cons] at le
      omega

theorem floorBoundary_ensures (t : Text) (n : Nat) :
    Ensures (floorBoundary t n) fun k => ∃ cut, utf8Len cut = k ∧ Cut t cut n := by
  induction n with
  | zero =>
    have start : isCharBoundary t 0 = true := isCharBoundary_iff.mpr ⟨[], List.nil_prefix, rfl⟩
    unfold floorBoundary
    rw [if_pos start]
    exact Ensures.ok ⟨[], rfl, List.nil_prefix, Nat.le_refl 0, fun _ _ le => le⟩
  | succ n ih =>
    unfold floorBoundary
    refine Ensures.ite (fun here => ?_) fun inside => ih.weaken ?_
    · obtain ⟨front, starts, len⟩ := isCharBoundary_iff.mp here
      exact Ensures.ok ⟨front, len, starts, len.le, fun _ _ le => len.symm ▸ le⟩
    · rintro k ⟨cut, len, starts, fits, longest⟩
      refine ⟨cut, len, starts, fits.trans (Nat.le_succ n), fun other starts' le => ?_⟩
      have ne : utf8Len other ≠ n + 1 := fun is => inside (isCharBoundary_iff.mpr ⟨other, starts', is⟩)
      exact longest other starts' (by omega)

theorem Cut.of_min {t cut : Text} {cap : Nat} (h : Cut t cut (min (utf8Len t) cap)) : Cut t cut cap where
  starts := h.starts
  fits := h.fits.trans (Nat.min_le_right _ _)
  longest other starts le := h.longest other starts (Nat.le_min.mpr ⟨utf8Len_mono starts, le⟩)

/-! ## The answer -/

/-- A text of at least 24 bytes repeats a fragment of at least 8 characters at least 3 times: the
fragment is the smallest period of its bytes. -/
structure Repeats (t : Text) : Prop where
  long : 24 ≤ utf8Len t
  repeated : ∃ p, SmallestPeriod (utf8 t) p ∧
    (∃ fragment, fragment <+: t ∧ utf8Len fragment = p ∧ 8 ≤ fragment.length) ∧ 3 ≤ utf8Len t / p

/-- Behind the table: the period is read off its last entry. -/
theorem period_ensures {trimmed cut : Text} (starts : cut <+: trimmed) (long : 24 ≤ utf8Len cut)
    (filled : Filled (utf8 cut) table (utf8 cut).length) :
    Ensures (do
      let last ← Scan.sub (utf8 cut).length 1
      let border ← Scan.item table last
      let period ← Scan.sub (utf8 cut).length border
      if isCharBoundary trimmed period then do
        let (fragment, _) ← sliceAt period trimmed
        if fragment.length ≥ minRepeatedFragmentChars then do
          let count ← Scan.div (utf8 cut).length period
          return decide (count ≥ repeatedFragmentCount)
        else return false
      else return false) fun found => (found = true ↔ Repeats cut) := by
  have size : (utf8 cut).length = utf8Len cut := utf8_length cut
  refine (Scan.sub_ensures (by omega)).bind fun last isLast => ?_
  subst isLast
  refine (filled.item (by omega)).bind fun border longest => ?_
  rw [Nat.sub_add_cancel (by omega)] at longest
  refine (Scan.sub_ensures longest.border.1.le).bind fun p isP => ?_
  subst isP
  have smallest := longest.period
  have pos := smallest.period.1
  have inside : (utf8 cut).length - border ≤ utf8Len cut := size ▸ Nat.sub_le _ _
  generalize (utf8 cut).length - border = p at smallest pos inside ⊢
  refine Ensures.ite (fun boundary => ?_) fun within => Ensures.ok ⟨nofun, fun repeats => ?_⟩
  · obtain ⟨front, ⟨back, rfl⟩, len⟩ := isCharBoundary_iff.mp boundary
    have begins : front <+: cut := prefix_of_utf8Len ⟨back, rfl⟩ starts (len.symm ▸ inside)
    rw [Builders.sliceAt_eq len]
    refine Ensures.ite (fun chars => ?_) fun few => Ensures.ok ⟨nofun, fun repeats => ?_⟩
    · refine (Scan.div_ensures pos).bind fun count isCount => Ensures.ok ?_
      subst isCount
      rw [decide_eq_true_iff, size]
      refine ⟨fun often => ⟨long, p, smallest, ⟨front, begins, len, chars⟩, often⟩, fun repeats => ?_⟩
      obtain ⟨q, smallest', -, often⟩ := repeats.repeated
      rwa [smallest'.unique smallest] at often
    · obtain ⟨q, smallest', ⟨fragment, begins', len', chars⟩, -⟩ := repeats.repeated
      obtain rfl := smallest'.unique smallest
      have short : fragment <+: front := prefix_of_utf8Len begins' begins (len'.trans len.symm).le
      exact absurd (chars.trans short.length_le) few
  · obtain ⟨q, smallest', ⟨fragment, begins, len, -⟩, -⟩ := repeats.repeated
    obtain rfl := smallest'.unique smallest
    exact absurd (isCharBoundary_iff.mpr ⟨fragment, begins.trans starts, len⟩) within

/-- **The detector does not panic, and it is exact on what it looks at**: the beginning of the
answer up to the limit of bytes, cut back to the end of a character. It answers yes if that
beginning is one fragment, long enough and often enough repeated, whose last repetition may be
cut. -/
theorem repeatedWholeFragment_iff (answer : Text) :
    ∃ t found, Cut (trim answer) t (16 * 1024) ∧ repeatedWholeFragment answer = .ok found ∧
      (found = true ↔ Repeats t) := by
  have run : Ensures (repeatedWholeFragment answer) fun found =>
      ∃ t, Cut (trim answer) t (16 * 1024) ∧ (found = true ↔ Repeats t) := by
    unfold repeatedWholeFragment
    refine (floorBoundary_ensures _ _).bind ?_
    rintro scanLen ⟨cut, rfl, isCut⟩
    have whole : Cut (trim answer) cut (16 * 1024) := isCut.of_min
    obtain ⟨back, parts⟩ := whole.starts
    have bytes : (utf8 (trim answer)).take (utf8Len cut) = utf8 cut := by
      rw [← parts, utf8_append, ← utf8_length, List.take_left]
    have inside : utf8Len cut ≤ (utf8 (trim answer)).length := by
      rw [utf8_length]
      exact utf8Len_mono whole.starts
    refine (Scan.upTo_ensures inside).bind fun bytes' is => ?_
    rw [bytes] at is
    subst is
    have size : (utf8 cut).length = utf8Len cut := utf8_length cut
    refine Ensures.ite (fun short => ?_) fun long => ?_
    · refine Ensures.ok ⟨cut, whole, nofun, fun repeats => ?_⟩
      have := repeats.long
      have short : (utf8 cut).length < 24 := short
      omega
    · have long : 24 ≤ utf8Len cut := size ▸ Nat.le_of_not_lt long
      have some : utf8 cut ≠ [] := List.ne_nil_of_length_pos (by omega)
      have room : (utf8 cut).length ≤ maxRepeatedFragmentScanBytes := size ▸ whole.fits
      refine (prefixTable_ensures some room).bind fun table filled => ?_
      exact (period_ensures whole.starts long filled).weaken fun found iff => ⟨cut, whole, iff⟩
  rcases is : repeatedWholeFragment answer with (⟨⟨⟩⟩ | _) | found
  · exact absurd is run.ne_panic
  · obtain ⟨t, cut, iff⟩ := run.of_ok is
    exact ⟨t, found, cut, rfl, iff⟩

end Mineru.Vlm
