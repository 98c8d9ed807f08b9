import Mineru.Builders.Entities

/-!
# Repeated fragments

`repeated_whole_fragment` of `vlm_http.rs` tells whether an answer repeats one fragment. It looks at the
first bytes of the trimmed answer, computes the prefix function of them in an array, and reads the period
off its last entry. Indices, slices, subtractions and the division panic as in the source, and so does a
loop that does not come to an end.
-/

set_option autoImplicit false

namespace Mineru.Vlm

open Logic
open Builders (utf8 sliceAt)

/-- A run that has no error of its own. -/
abbrev Scan (α : Type) := Checked Empty α

/-- `MAX_REPEATED_FRAGMENT_SCAN_BYTES`. -/
def maxRepeatedFragmentScanBytes : Nat := 16 * 1024

/-- `MIN_REPEATED_FRAGMENT_CHARS`. -/
def minRepeatedFragmentChars : Nat := 8

/-- `REPEATED_FRAGMENT_COUNT`. -/
def repeatedFragmentCount : Nat := 3

/-! ## What may panic -/

/-- `slice[i]`. -/
def Scan.item {α : Type} (l : List α) (i : Nat) : Scan α :=
  match l[i]? with
  | some a => .ok a
  | none => .error .panic

/-- `slice[i] = a`. -/
def Scan.assign {α : Type} (l : List α) (i : Nat) (a : α) : Scan (List α) :=
  if i < l.length then .ok (l.set i a) else .error .panic

/-- The difference of two `usize`. -/
def Scan.sub (a b : Nat) : Scan Nat := if b ≤ a then .ok (a - b) else .error .panic

/-- The quotient of two `usize`. -/
def Scan.div (a b : Nat) : Scan Nat := if b = 0 then .error .panic else .ok (a / b)

/-- `str::is_char_boundary`. -/
def isCharBoundary (t : Text) (n : Nat) : Bool := (splitAtByte n t).isSome

/-- `&bytes[..n]`. -/
def Scan.upTo {α : Type} (l : List α) (n : Nat) : Scan (List α) :=
  if n ≤ l.length then .ok (l.take n) else .error .panic

/-! ## The prefix function -/

/-- `while length > 0 && bytes[index] != bytes[length] { length = prefix[length - 1]; }`. -/
def shorten (bytes : List UInt8) (table : List Nat) (index : Nat) : Nat → Nat → Scan Nat
  | 0, _ => .error .panic
  | fuel + 1, length =>
    if length > 0 then do
      let next ← Scan.item bytes index
      let behind ← Scan.item bytes length
      if next ≠ behind then do
        let last ← Scan.sub length 1
        let length ← Scan.item table last
        shorten bytes table index fuel length
      else .ok length
    else .ok length

/-- One turn of the loop over the bytes. -/
def extendTable (bytes : List UInt8) (table : List Nat) (index : Nat) : Scan (List Nat) := do
  let before ← Scan.sub index 1
  let length ← Scan.item table before
  let length ← shorten bytes table index (length + 1) length
  let next ← Scan.item bytes index
  let behind ← Scan.item bytes length
  Scan.assign table index (if next = behind then length + 1 else length)

/-- The array behind the loop. -/
def prefixTable (bytes : List UInt8) : Scan (List Nat) :=
  (List.range' 1 (bytes.length - 1)).foldlM (extendTable bytes)
    (List.replicate maxRepeatedFragmentScanBytes 0)

/-! ## `repeated_whole_fragment` -/

/-- `while !trimmed.is_char_boundary(scan_len) { scan_len -= 1; }`. -/
def floorBoundary (t : Text) : Nat → Scan Nat
  | 0 => if isCharBoundary t 0 then .ok 0 else .error .panic
  | n + 1 => if isCharBoundary t (n + 1) then .ok (n + 1) else floorBoundary t n

def repeatedWholeFragment (t : Text) : Scan Bool := do
  let trimmed := trim t
  let scanLen ← floorBoundary trimmed (min (utf8Len trimmed) maxRepeatedFragmentScanBytes)
  let bytes ← Scan.upTo (utf8 trimmed) scanLen
  if bytes.length < minRepeatedFragmentChars * repeatedFragmentCount then return false
  else do
    let table ← prefixTable bytes
    let last ← Scan.sub bytes.length 1
    let border ← Scan.item table last
    let period ← Scan.sub bytes.length border
    if isCharBoundary trimmed period then do
      let (fragment, _) ← sliceAt period trimmed
      if fragment.length ≥ minRepeatedFragmentChars then do
        let count ← Scan.div bytes.length period
        return decide (count ≥ repeatedFragmentCount)
      else return false
    else return false

end Mineru.Vlm
