import Mineru.Logic.Checked

/-!
# The ZIP pre-scan

`zip_scan::scan` reads the directory of an archive before the ZIP library sees it. Here it runs over
the byte sequence of the reader, in `Checked`: `bad()` is `ScanError.fallback`, and an addition that
the source does not check, or an index, panics when it overflows 64 bits or leaves its slice.

`usize` is 64 bits, so the `usize::try_from` of a `u64` succeeds. `seek` to any offset succeeds, and
`read_exact` fails past the end unless nothing is to be read. Allocation is not modelled.
-/

set_option autoImplicit false

namespace Mineru.ZipScan

open Logic Logic.Checked

abbrev Bytes := List UInt8

structure ScanLimits where
  max_entries : Nat
  central_cap : Nat
  zip64_cap : Nat
  name_cap : Nat
  component_cap : Nat
  depth_cap : Nat
  total_name_cap : Nat
  total_component_cap : Nat
  deriving DecidableEq, Repr

inductive ScanError where
  | fallback
  | limit
  deriving DecidableEq, Repr

structure ScanResult where
  count : Nat
  central_start : Nat
  deriving DecidableEq, Repr

abbrev Scan := Checked ScanError

def CENTRAL_CAP : Nat := 64 * 1024 * 1024
def ZIP64_CAP : Nat := 64 * 1024
def NAME_CAP : Nat := 4 * 1024
def COMPONENT_CAP : Nat := 255
def DEPTH_CAP : Nat := 64
def TOTAL_NAME_CAP : Nat := 32 * 1024 * 1024
def TOTAL_COMPONENT_CAP : Nat := 1000000
def ENTRY_CAP : Nat := 100000

/-- `ScanLimits::production`. -/
def ScanLimits.production (max_entries : Nat) : ScanLimits where
  max_entries := min max_entries ENTRY_CAP
  central_cap := CENTRAL_CAP
  zip64_cap := ZIP64_CAP
  name_cap := NAME_CAP
  component_cap := COMPONENT_CAP
  depth_cap := DEPTH_CAP
  total_name_cap := TOTAL_NAME_CAP
  total_component_cap := TOTAL_COMPONENT_CAP

/-! ## Machine arithmetic and reading -/

def U16_MAX : Nat := 0xffff
def U32_MAX : Nat := 0xffffffff

/-- `checked_add` on 64 bits. -/
def checkedAdd (a b : Nat) : Option Nat := if a + b < 2 ^ 64 then some (a + b) else none

/-- `+` on 64 bits. -/
def add (a b : Nat) : Scan Nat := if a + b < 2 ^ 64 then .ok (a + b) else .error .panic

/-- `-` on 64 bits. -/
def sub (a b : Nat) : Scan Nat := if b ≤ a then .ok (a - b) else .error .panic

/-- `from_le_bytes`. -/
def fromLe : Bytes → Nat
  | [] => 0
  | b :: bs => b.toNat + 256 * fromLe bs

/-- The bytes `pos .. pos + n`. -/
def slice (b : Bytes) (pos n : Nat) : Bytes := (b.drop pos).take n

/-- The little-endian number of `width` bytes at `i`. -/
def field (b : Bytes) (i width : Nat) : Nat := fromLe (slice b i width)

def leAt (width : Nat) (b : Bytes) (i : Nat) : Scan Nat :=
  if i + width ≤ b.length then .ok (field b i width) else .error .panic

def u16at (b : Bytes) (i : Nat) : Scan Nat := leAt 2 b i
def u32at (b : Bytes) (i : Nat) : Scan Nat := leAt 4 b i
def u64at (b : Bytes) (i : Nat) : Scan Nat := leAt 8 b i

/-- `&b[..4] != signature`. -/
def signatureIs (b : Bytes) (s : Bytes) : Scan Bool :=
  if 4 ≤ b.length then .ok (b.take 4 == s) else .error .panic

def EOCD : Bytes := [0x50, 0x4b, 5, 6]
def CENTRAL : Bytes := [0x50, 0x4b, 1, 2]
def LOCAL : Bytes := [0x50, 0x4b, 3, 4]
def LOCATOR64 : Bytes := [0x50, 0x4b, 6, 7]
def EOCD64 : Bytes := [0x50, 0x4b, 6, 6]

/-- `at`: seek and fill a buffer of `n` bytes. -/
def readAt (r : Bytes) (pos n : Nat) : Scan Bytes :=
  if n = 0 ∨ pos + n ≤ r.length then .ok (slice r pos n) else fail .fallback

/-- `take`: the buffer and the cursor after it. -/
def take (r : Bytes) (cursor stop n : Nat) : Scan (Bytes × Nat) := do
  let next ← okOr ((checkedAdd cursor n).filter (· ≤ stop)) .fallback
  let b ← readAt r cursor n
  .ok (b, next)

/-- `skip`: the cursor after it. -/
def skip (cursor stop n : Nat) : Scan Nat :=
  okOr ((checkedAdd cursor n).filter (· ≤ stop)) .fallback

/-! ## Names and extra fields -/

/-- The loop of `validate_name` over the components, with the running component count. -/
def validateParts (l : ScanLimits) : List Bytes → Nat → Scan Nat
  | [], components => .ok components
  | p :: parts, components =>
    if p = [] ∧ parts = [] then validateParts l parts components
    else do
      reject (p.length > l.component_cap) .limit
      reject (p = [] ∨ p = [0x2e] ∨ p = [0x2e, 0x2e]) .fallback
      let components ←
        okOr ((checkedAdd components 1).filter (· ≤ l.total_component_cap)) .limit
      validateParts l parts components

/-- `n.split(|b| *b == b'/')`. -/
def parts (n : Bytes) : List Bytes := n.splitOn 0x2f

def depth (n : Bytes) : Nat := ((parts n).filter (· ≠ [])).length

def validateName (n : Bytes) (l : ScanLimits) (components : Nat) : Scan Nat := do
  reject (n = [] ∨ ∃ b ∈ n, b = 0x5c ∨ b < 0x20 ∨ b = 0x7f) .fallback
  let components ← validateParts l (parts n) components
  reject (depth n > l.depth_cap) .limit
  .ok components

/-- The loop of `validate_extra` from index `i`. Each turn moves `i` by at least four, so the
length of the field bounds the number of turns. -/
def validateExtraLoop (extra : Bytes) : Nat → Nat → Scan Unit
  | 0, _ => .ok ()
  | turns + 1, i =>
    if i < extra.length then do
      reject ((← add i 4) > extra.length) .fallback
      let id ← u16at extra i
      let n ← u16at extra (i + 2)
      let i ← add i 4
      reject ((← add i n) > extra.length ∨ id = 0x7075) .fallback
      validateExtraLoop extra turns (← add i n)
    else .ok ()

def validateExtra (extra : Bytes) : Scan Unit := validateExtraLoop extra extra.length 0

/-- One of the four fields of `zip64_values`: the directory's value, and whether it is the sentinel
that sends the reader to the ZIP64 extra field. -/
structure Wanted where
  need : Bool
  value : Nat
  deriving DecidableEq, Repr

/-- The arrays `need` and `values`, in the order of the ZIP64 extra field. -/
structure WantedFields where
  size : Wanted
  compressed : Wanted
  offset : Wanted
  disk : Wanted
  deriving DecidableEq, Repr

/-- One turn of the loop over `k`: a wanted value is read at `j`, and `j` moves behind it. -/
def readWanted (extra : Bytes) (stop width : Nat) (w : Wanted) (j : Nat) : Scan (Wanted × Nat) :=
  if w.need then do
    reject ((← add j width) > stop) .fallback
    let value ← leAt width extra j
    let j ← add j width
    .ok (⟨false, value⟩, j)
  else .ok (w, j)

/-- The loop over `k` from `j`. -/
def readWantedFields (extra : Bytes) (stop : Nat) (ws : WantedFields) (j : Nat) :
    Scan WantedFields := do
  let (size, j) ← readWanted extra stop 8 ws.size j
  let (compressed, j) ← readWanted extra stop 8 ws.compressed j
  let (offset, j) ← readWanted extra stop 8 ws.offset j
  let (disk, _) ← readWanted extra stop 4 ws.disk j
  .ok ⟨size, compressed, offset, disk⟩

/-- The outer loop of `zip64_values` from index `i`. -/
def zip64Loop (extra : Bytes) : Nat → Nat → Bool → WantedFields → Scan WantedFields
  | 0, _, _, ws => .ok ws
  | turns + 1, i, found, ws =>
    if i < extra.length then do
      reject ((← add i 4) > extra.length) .fallback
      let id ← u16at extra i
      let n ← u16at extra (i + 2)
      let i ← add i 4
      let next ← add i n
      reject (next > extra.length) .fallback
      if id = 1 then do
        reject (found = true) .fallback
        let ws ← readWantedFields extra next ws i
        zip64Loop extra turns next true ws
      else
        zip64Loop extra turns next found ws
    else .ok ws

/-- `zip64_values`: the compressed size and the offset of the local header. -/
def zip64Values (h : Bytes) (extra : Bytes) : Scan (Nat × Nat) := do
  let size ← u32at h 24
  let compressed ← u32at h 20
  let offset ← u32at h 42
  let disk ← u16at h 34
  let ws ← zip64Loop extra extra.length 0 false
    ⟨⟨size = U32_MAX, size⟩, ⟨compressed = U32_MAX, compressed⟩, ⟨offset = U32_MAX, offset⟩,
      ⟨disk = U16_MAX, disk⟩⟩
  reject (ws.size.need ∨ ws.compressed.need ∨ ws.offset.need ∨ ws.disk.need) .fallback
  reject (ws.disk.value ≠ 0) .fallback
  .ok (ws.compressed.value, ws.offset.value)

/-! ## The directory -/

/-- `find_map` over the windows of the tail, last window first: the offset of the end record.
`then_some` computes the sum before it looks at the condition. -/
def findEocd (tail : Bytes) (tailStart : Nat) : Nat → Scan (Option Nat)
  | 0 => .ok none
  | i + 1 => do
    if slice tail i 4 ≠ EOCD ∨ (← add i 22) > tail.length then
      findEocd tail tailStart i
    else do
      let n ← u16at tail (i + 20)
      let at_ ← add tailStart i
      if (← add (← add i 22) n) = tail.length then .ok (some at_)
      else findEocd tail tailStart i

/-- `zip64`: count, size, start of the directory, and the offset of the ZIP64 end record. -/
def zip64 (r : Bytes) (eocd stop cap : Nat) : Scan (Nat × Nat × Nat × Nat) := do
  reject (eocd < 20) .fallback
  let l ← readAt r (← sub eocd 20) 20
  reject (¬ (← signatureIs l LOCATOR64) ∨ (← u32at l 4) ≠ 0 ∨ (← u32at l 16) ≠ 1) .fallback
  let pos ← u64at l 8
  let fixed ← readAt r pos 12
  reject (¬ (← signatureIs fixed EOCD64)) .fallback
  let payload ← u64at fixed 4
  reject (payload < 44) .fallback
  reject (payload > cap) .limit
  let recordEnd ← okOr ((checkedAdd pos 12).bind (checkedAdd · payload)) .fallback
  reject (recordEnd ≠ (← sub eocd 20) ∨ recordEnd > stop) .fallback
  let p ← readAt r (← add pos 12) payload
  reject ((← u32at p 4) ≠ 0 ∨ (← u32at p 8) ≠ 0 ∨ (← u64at p 12) ≠ (← u64at p 20)) .fallback
  .ok (← u64at p 12, ← u64at p 28, ← u64at p 36, pos)

/-- The closure `zip32` of `directory_values`. -/
def zip32 (e : Bytes) (eocdAt : Nat) : Scan (Nat × Nat × Nat × Nat) := do
  .ok (← u16at e 8, ← u32at e 12, ← u32at e 16, eocdAt)

/-- `directory_values`. A count of `0xffff` is a valid ZIP32 count unless the ZIP64 record
validates; only its structural failure falls back. -/
def directoryValues (r e : Bytes) (eocdAt stop zip64Cap : Nat)
    (countSaturated sizeOrOffsetSaturated : Bool) : Scan (Nat × Nat × Nat × Nat) :=
  if sizeOrOffsetSaturated then zip64 r eocdAt stop zip64Cap
  else if countSaturated then
    match zip64 r eocdAt stop zip64Cap with
    | .error (.err .fallback) => zip32 e eocdAt
    | outcome => outcome
  else zip32 e eocdAt

/-! ## The scan -/

/-- The variables of the loop over the central records. -/
structure Cursor where
  cursor : Nat
  names : Nat
  components : Nat
  ranges : List (Nat × Nat)
  deriving DecidableEq, Repr

/-- One turn of the loop over the central records. -/
def scanRecord (r : Bytes) (limits : ScanLimits) (centralStart centralEnd : Nat) (st : Cursor) :
    Scan Cursor := do
  let (h, cursor) ← take r st.cursor centralEnd 46
  let disk ← u16at h 34
  reject (¬ (← signatureIs h CENTRAL) ∨ (disk ≠ 0 ∧ disk ≠ U16_MAX)) .fallback
  let flags ← u16at h 8
  let method ← u16at h 10
  reject (flags &&& 0x0009 ≠ 0 ∨ (method ≠ 0 ∧ method ≠ 8)) .fallback
  let nl ← u16at h 28
  let xl ← u16at h 30
  let cl ← u16at h 32
  reject (nl > limits.name_cap) .limit
  let names ← okOr ((checkedAdd st.names nl).filter (· ≤ limits.total_name_cap)) .limit
  let (name, cursor) ← take r cursor centralEnd nl
  let components ← validateName name limits st.components
  let (extra, cursor) ← take r cursor centralEnd xl
  validateExtra extra
  let cursor ← skip cursor centralEnd cl
  let (compressed, local_) ← zip64Values h extra
  let _ ← okOr ((checkedAdd local_ 30).filter (· ≤ centralStart)) .fallback
  let localH ← readAt r local_ 30
  reject (¬ (← signatureIs localH LOCAL) ∨ (← u16at localH 8) ≠ method) .fallback
  let localFlags ← u16at localH 6
  reject (localFlags &&& 0x0009 ≠ 0) .fallback
  let lnl ← u16at localH 26
  let lxl ← u16at localH 28
  reject (lnl > limits.name_cap) .limit
  let nameAt ← okOr (checkedAdd local_ 30) .fallback
  let localName ← readAt r nameAt lnl
  reject (localName ≠ name) .fallback
  let localExtra ← readAt r (← add nameAt lnl) lxl
  validateExtra localExtra
  let data ← okOr ((checkedAdd nameAt lnl).bind (checkedAdd · lxl)) .fallback
  let dataEnd ← okOr (checkedAdd data compressed) .fallback
  reject (dataEnd > centralStart) .fallback
  .ok ⟨cursor, names, components, st.ranges ++ [(local_, dataEnd)]⟩

/-- `for _ in 0..count`. -/
def scanRecords (r : Bytes) (limits : ScanLimits) (centralStart centralEnd : Nat) :
    Nat → Cursor → Scan Cursor
  | 0, st => .ok st
  | count + 1, st => do
    let st ← scanRecord r limits centralStart centralEnd st
    scanRecords r limits centralStart centralEnd count st

/-- The order of `sort_unstable` on ranges. Equal ranges are equal, so stability does not show. -/
def rangeLe (a b : Nat × Nat) : Prop := a.1 < b.1 ∨ a.1 = b.1 ∧ a.2 ≤ b.2

instance : DecidableRel rangeLe := fun a b => by unfold rangeLe; exact inferInstance

/-- `ranges.windows(2).any(|r| r[0].1 > r[1].0)`. -/
def anyOverlap : List (Nat × Nat) → Bool
  | a :: b :: rest => a.2 > b.1 || anyOverlap (b :: rest)
  | _ => false

/-- `zip_scan::scan` over the bytes of the reader. -/
def scan (r : Bytes) (limits : ScanLimits) : Scan ScanResult := do
  reject (limits.max_entries = 0 ∨ limits.central_cap = 0 ∨ limits.zip64_cap < 44 ∨
    limits.name_cap = 0 ∨ limits.component_cap = 0 ∨ limits.depth_cap = 0 ∨
    limits.total_name_cap = 0 ∨ limits.total_component_cap = 0) .limit
  let stop := r.length
  let tailStart := stop - (22 + 65535)
  let tail ← readAt r tailStart (← sub stop tailStart)
  let eocdAt ← okOr (← findEocd tail tailStart (tail.length - 3)) .fallback
  let e := tail.drop (← sub eocdAt tailStart)
  reject ((← u16at e 4) ≠ 0 ∨ (← u16at e 6) ≠ 0 ∨ (← u16at e 8) ≠ (← u16at e 10)) .fallback
  let countSaturated : Bool := (← u16at e 8) = U16_MAX
  let sizeOrOffsetSaturated : Bool := (← u32at e 12) = U32_MAX ∨ (← u32at e 16) = U32_MAX
  let (count, centralSize, centralStart, centralEndExpected) ←
    directoryValues r e eocdAt stop limits.zip64_cap countSaturated sizeOrOffsetSaturated
  reject (count > limits.max_entries ∨ centralSize > limits.central_cap) .limit
  let centralEnd ← okOr (checkedAdd centralStart centralSize) .fallback
  reject (centralEnd ≠ centralEndExpected ∨ centralEnd > stop) .fallback
  let st ← scanRecords r limits centralStart centralEnd count ⟨centralStart, 0, 0, []⟩
  reject (st.cursor ≠ centralEnd) .fallback
  let ranges := st.ranges.insertionSort rangeLe
  reject (count = 0 ∧ centralStart ≠ 0 ∨ count ≠ 0 ∧ (ranges.map Prod.fst).min? ≠ some 0) .fallback
  reject (anyOverlap ranges = true) .fallback
  .ok ⟨count, centralStart⟩

end Mineru.ZipScan
