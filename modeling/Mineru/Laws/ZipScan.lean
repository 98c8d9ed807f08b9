import Mineru.ZipScan

/-!
# What an accepted archive looks like

`Sound` describes the directory of an archive in its own terms: central records laid end to end,
each pointing to a local header that agrees with it, local ranges apart from each other below the
directory, names within the limits. `scan_sound` says that the pre-scan accepts only such archives,
and that on no input does one of its additions overflow or one of its indices leave its slice.

Each function of the scan has one triple (`add_ensures` to `directoryValues_ensures`); the loop over
the records carries `Progress`, and the sorted check at the end is turned into disjointness of all
pairs by `anyOverlap_false`.

The reader reports its length as a 64-bit number, so the archives are the byte sequences shorter
than `2 ^ 64`.
-/

set_option autoImplicit false

namespace Mineru.ZipScan

open Logic Logic.Checked

/-! ## Extra fields and names in their own terms -/

/-- An extra field is a sequence of blocks: an identifier, a length, and that many bytes. -/
inductive Tiled : Bytes → List (Nat × Bytes) → Prop where
  | nil : Tiled [] []
  | cons (head data rest : Bytes) (blocks : List (Nat × Bytes)) (four : head.length = 4)
      (sized : data.length = field head 2 2) (tail : Tiled rest blocks) :
      Tiled (head ++ data ++ rest) ((field head 0 2, data) :: blocks)

/-- The blocks with the identifier of the ZIP64 extra field. -/
def zip64Blocks (blocks : List (Nat × Bytes)) : List Bytes :=
  (blocks.filter fun b => b.1 = 1).map Prod.snd

/-- The bytes that a 32-bit field of the record takes in the ZIP64 block: eight when it is
saturated. -/
def widthIn64 (low : Nat) : Nat := if low = U32_MAX then 8 else 0

/-- The value of a 32-bit field of the record: its own, or eight bytes of the ZIP64 block. -/
def widened (low : Nat) (block : Bytes) (at_ : Nat) : Nat :=
  if low = U32_MAX then field block at_ 8 else low

/-- The compressed size and the offset that a central record gives with its extra field. -/
def Directs (header extra : Bytes) (compressed offset : Nat) : Prop :=
  ∃ blocks : List (Nat × Bytes), ∃ block : Option Bytes,
    Tiled extra blocks ∧ zip64Blocks blocks = block.toList ∧
    ((field header 24 4 = U32_MAX ∨ field header 20 4 = U32_MAX ∨ field header 42 4 = U32_MAX ∨
      field header 34 2 = U16_MAX) → block ≠ none) ∧
    compressed = widened (field header 20 4) (block.getD []) (widthIn64 (field header 24 4)) ∧
    offset = widened (field header 42 4) (block.getD [])
      (widthIn64 (field header 24 4) + widthIn64 (field header 20 4))

/-- The components of a name; a last empty one marks a directory and does not count. -/
def components (n : Bytes) : List Bytes :=
  if (parts n).getLast? = some [] then (parts n).dropLast else parts n

structure ValidName (l : ScanLimits) (n : Bytes) : Prop where
  nonempty : n ≠ []
  plain : ∀ b ∈ n, b ≠ 0x5c ∧ ¬ b < 0x20 ∧ b ≠ 0x7f
  component : ∀ p ∈ components n, p ≠ [] ∧ p ≠ [0x2e] ∧ p ≠ [0x2e, 0x2e]
  component_cap : ∀ p ∈ components n, p.length ≤ l.component_cap
  depth_cap : (components n).length ≤ l.depth_cap

/-! ## Entries and directories -/

/-- An entry of the directory: where its central record starts, and the local header and the
compressed size that the record directs to. -/
structure Entry where
  record : Nat
  offset : Nat
  compressed : Nat

section
variable (r : Bytes)

def Entry.header (e : Entry) : Bytes := slice r e.record 46

def Entry.nameLength (e : Entry) : Nat := field r (e.record + 28) 2

def Entry.extraLength (e : Entry) : Nat := field r (e.record + 30) 2

def Entry.commentLength (e : Entry) : Nat := field r (e.record + 32) 2

/-- The end of the central record: header, name, extra field and comment. -/
def Entry.recordEnd (e : Entry) : Nat :=
  e.record + 46 + e.nameLength r + e.extraLength r + e.commentLength r

def Entry.name (e : Entry) : Bytes := slice r (e.record + 46) (e.nameLength r)

def Entry.extra (e : Entry) : Bytes := slice r (e.record + 46 + e.nameLength r) (e.extraLength r)

/-- The end of the compressed data: after local header, name and extra field. -/
def Entry.dataEnd (e : Entry) : Nat :=
  e.offset + 30 + field r (e.offset + 26) 2 + field r (e.offset + 28) 2 + e.compressed

/-- The central record and the local header of an entry agree, and its name is within the
limits. -/
structure Entry.Agrees (l : ScanLimits) (centralStart : Nat) (e : Entry) : Prop where
  central : slice r e.record 4 = CENTRAL
  directs : Directs (e.header r) (e.extra r) e.compressed e.offset
  isLocal : slice r e.offset 4 = LOCAL
  method : field r (e.record + 10) 2 = 0 ∨ field r (e.record + 10) 2 = 8
  sameMethod : field r (e.offset + 8) 2 = field r (e.record + 10) 2
  noFlags : field r (e.record + 8) 2 &&& 0x0009 = 0
  noLocalFlags : field r (e.offset + 6) 2 &&& 0x0009 = 0
  sameName : slice r (e.offset + 30) (field r (e.offset + 26) 2) = e.name r
  below : e.dataEnd r ≤ centralStart
  name_cap : e.nameLength r ≤ l.name_cap
  valid : ValidName l (e.name r)

/-- The central records of `es` fill the bytes from `start` to `stop`. -/
inductive LaidOut : Nat → List Entry → Nat → Prop where
  | nil (stop : Nat) : LaidOut stop [] stop
  | cons (e : Entry) (es : List Entry) (stop : Nat) (rest : LaidOut (e.recordEnd r) es stop) :
      LaidOut e.record (e :: es) stop

/-- The directory that `result` describes: `entries`, up to the end record at `stop`. -/
structure IsDirectory (l : ScanLimits) (result : ScanResult) (entries : List Entry) (stop : Nat) :
    Prop where
  count : entries.length = result.count
  laidOut : LaidOut r result.central_start entries stop
  ends : slice r stop 4 = EOCD ∨ slice r stop 4 = EOCD64
  inside : stop ≤ r.length
  agree : ∀ e ∈ entries, e.Agrees r l result.central_start
  apart : entries.Pairwise fun a b => a.dataEnd r ≤ b.offset ∨ b.dataEnd r ≤ a.offset
  first : result.count ≠ 0 → ∃ e ∈ entries, e.offset = 0
  total_name_cap : (entries.map (Entry.nameLength r)).sum ≤ l.total_name_cap
  total_component_cap :
    (entries.map fun e => (components (e.name r)).length).sum ≤ l.total_component_cap

def Sound (l : ScanLimits) (result : ScanResult) : Prop :=
  ∃ entries stop, IsDirectory r l result entries stop

end

/-! ## Arithmetic and reading -/

/-- A number of so many bytes is below the power that they span. Every bound on a field comes from
here. -/
theorem fromLe_lt (b : Bytes) : fromLe b < 256 ^ b.length := by
  induction b with
  | nil => exact Nat.one_pos
  | cons x bs ih =>
    have byte : x.toNat < 256 := x.toNat_lt
    simp only [fromLe, List.length_cons, Nat.pow_succ]
    omega

theorem slice_length_le (b : Bytes) (pos n : Nat) : (slice b pos n).length ≤ n :=
  List.length_take_le _ _

theorem slice_length {b : Bytes} {pos n : Nat} (h : n = 0 ∨ pos + n ≤ b.length) :
    (slice b pos n).length = n := by
  simp only [slice, List.length_take, List.length_drop]
  omega

theorem field_lt (b : Bytes) (i width : Nat) : field b i width < 256 ^ width :=
  Nat.lt_of_lt_of_le (fromLe_lt _)
    (Nat.pow_le_pow_right (by decide) (slice_length_le b i width))

theorem slice_slice {b : Bytes} {pos n i m : Nat} (h : i + m ≤ n) :
    slice (slice b pos n) i m = slice b (pos + i) m := by
  simp only [slice, List.drop_take, List.take_take, List.drop_drop]
  rw [Nat.min_eq_left (by omega)]

/-- A field of a slice is the field of the whole, further on. -/
theorem field_slice {b : Bytes} {pos n i width : Nat} (h : i + width ≤ n) :
    field (slice b pos n) i width = field b (pos + i) width := by
  rw [field, field, slice_slice h]

/-- An addition of the scan that fits does not panic; `sub_ensures` is the same of a subtraction,
and `leAt_ensures` of a field that is read. -/
theorem add_ensures {a b : Nat} (h : a + b < 2 ^ 64) : Ensures (add a b) (· = a + b) := by
  rw [add, if_pos h]
  exact Ensures.ok rfl

theorem sub_ensures {a b : Nat} (h : b ≤ a) : Ensures (sub a b) (· = a - b) := by
  rw [sub, if_pos h]
  exact Ensures.ok rfl

theorem leAt_ensures {width : Nat} {b : Bytes} {i : Nat} (h : i + width ≤ b.length) :
    Ensures (leAt width b i) (· = field b i width) := by
  rw [leAt, if_pos h]
  exact Ensures.ok rfl

theorem signatureIs_ensures {b s : Bytes} (h : 4 ≤ b.length) :
    Ensures (signatureIs b s) (· = (b.take 4 == s)) := by
  rw [signatureIs, if_pos h]
  exact Ensures.ok rfl

/-- A filled buffer: the bytes asked for, which were there. -/
theorem readAt_ensures (r : Bytes) (pos n : Nat) :
    Ensures (readAt r pos n)
      (fun b => b = slice r pos n ∧ b.length = n ∧ (n = 0 ∨ pos + n ≤ r.length)) := by
  unfold readAt
  split
  · rename_i h
    exact Ensures.ok ⟨rfl, slice_length h, h⟩
  · exact Ensures.fail

/-- A checked addition that succeeds has not wrapped. -/
theorem checkedAdd_some {a b c : Nat} (h : checkedAdd a b = some c) :
    c = a + b ∧ a + b < 2 ^ 64 := by
  unfold checkedAdd at h
  split at h
  · exact ⟨(Option.some.inj h).symm, ‹_›⟩
  · cases h

theorem checkedAdd_filter_some {a b c m : Nat}
    (h : (checkedAdd a b).filter (· ≤ m) = some c) : c = a + b ∧ c ≤ m := by
  obtain ⟨sum, small⟩ := Option.filter_eq_some_iff.mp h
  exact ⟨(checkedAdd_some sum).1, of_decide_eq_true small⟩

theorem skip_ensures (cursor stop n : Nat) :
    Ensures (skip cursor stop n) (fun next => next = cursor + n ∧ next ≤ stop) :=
  Ensures.okOr.weaken fun _ h => checkedAdd_filter_some h

/-- The bytes at the cursor are read, all of them, and the cursor moves behind them. -/
theorem take_ensures (r : Bytes) (cursor stop n : Nat) :
    Ensures (take r cursor stop n) (fun out => out.1 = slice r cursor n ∧ out.1.length = n ∧
      out.2 = cursor + n ∧ out.2 ≤ stop) := by
  refine Ensures.okOr.bind fun next sum => ?_
  refine (readAt_ensures r cursor n).bind fun b buf => ?_
  exact Ensures.ok ⟨buf.1, buf.2.1, checkedAdd_filter_some sum⟩

/-! ## Extra fields -/

/-- The block at `i` in front of a tiled rest. -/
theorem Tiled.step {extra : Bytes} {i n : Nat} {blocks : List (Nat × Bytes)}
    (sized : n = field extra (i + 2) 2) (inside : i + 4 + n ≤ extra.length)
    (tail : Tiled (extra.drop (i + 4 + n)) blocks) :
    Tiled (extra.drop i) ((field extra i 2, slice extra (i + 4) n) :: blocks) := by
  have four : (slice extra i 4).length = 4 := slice_length (by omega)
  have whole : extra.drop i =
      slice extra i 4 ++ slice extra (i + 4) n ++ extra.drop (i + 4 + n) := by
    simp only [slice, List.append_assoc, ← List.drop_drop, List.take_append_drop]
  have ident : field extra i 2 = field (slice extra i 4) 0 2 := by
    rw [field_slice (by decide), Nat.add_zero]
  have length : (slice extra (i + 4) n).length = field (slice extra i 4) 2 2 := by
    rw [field_slice (by decide), ← sized, slice_length (by omega)]
  rw [whole, ident]
  exact .cons _ _ _ _ four length tail

/-- The loop reads blocks to the end; four bytes a turn, it never runs out of turns. -/
theorem validateExtraLoop_ensures (extra : Bytes) (small : extra.length < 2 ^ 17) (turns : Nat) :
    ∀ i, i ≤ extra.length → extra.length ≤ i + turns →
      Ensures (validateExtraLoop extra turns i)
        (fun _ => ∃ blocks, Tiled (extra.drop i) blocks ∧ ∀ b ∈ blocks, b.1 ≠ 0x7075) := by
  have done : ∀ i, extra.length ≤ i →
      ∃ blocks, Tiled (extra.drop i) blocks ∧ ∀ b ∈ blocks, b.1 ≠ 0x7075 := fun i past =>
    ⟨[], by rw [List.drop_of_length_le past]; exact ⟨.nil, by simp only [List.not_mem_nil,
      false_implies, implies_true]⟩⟩
  induction turns with
  | zero => exact fun i _ enough => Ensures.ok (done i enough)
  | succ turns ih =>
    intro i inside enough
    refine Ensures.ite (fun more => ?_) (fun past => Ensures.ok (done i (by omega)))
    refine (add_ensures (by omega)).bind ?_
    rintro _ rfl
    refine Ensures.reject.bind fun _ head => ?_
    refine (leAt_ensures (by omega)).bind fun id idEq => ?_
    refine (leAt_ensures (by omega)).bind fun n nEq => ?_
    have n_lt : n < 2 ^ 16 := nEq ▸ field_lt extra (i + 2) 2
    refine (add_ensures (by omega)).bind ?_
    rintro _ rfl
    refine (add_ensures (by omega)).bind ?_
    rintro _ rfl
    refine Ensures.reject.bind fun _ body => ?_
    refine (add_ensures (by omega)).bind ?_
    rintro _ rfl
    refine (ih (i + 4 + n) (by omega) (by omega)).weaken ?_
    rintro _ ⟨blocks, tiled, plain⟩
    refine ⟨_, Tiled.step nEq (by omega) tiled, fun b mem => ?_⟩
    rcases List.mem_cons.mp mem with rfl | mem
    · exact fun bad => body (Or.inr (idEq.trans bad))
    · exact plain b mem

/-- The extra field of an accepted record is tiled by its blocks, and none of them gives the name
another time. -/
theorem validateExtra_ensures (extra : Bytes) (small : extra.length < 2 ^ 17) :
    Ensures (validateExtra extra)
      (fun _ => ∃ blocks, Tiled extra blocks ∧ ∀ b ∈ blocks, b.1 ≠ 0x7075) :=
  validateExtraLoop_ensures extra small extra.length 0 (Nat.zero_le _) (by omega)

/-- One field read at `j`, if it is wanted. -/
theorem readWanted_ensures {extra : Bytes} {stop width j : Nat} (w : Wanted)
    (small : extra.length < 2 ^ 17) (inside : stop ≤ extra.length) (start : j ≤ stop)
    (narrow : width ≤ 8) :
    Ensures (readWanted extra stop width w j) (fun out =>
      out.1 = ⟨false, if w.need then field extra j width else w.value⟩ ∧
      out.2 = j + (if w.need then width else 0) ∧ out.2 ≤ stop) := by
  rcases w with ⟨need, value⟩
  cases need with
  | false => exact Ensures.ok ⟨rfl, rfl, start⟩
  | true =>
    refine (add_ensures (by omega)).bind ?_
    rintro _ rfl
    refine Ensures.reject.bind fun _ body => ?_
    refine (leAt_ensures (by omega)).bind ?_
    rintro _ rfl
    refine (add_ensures (by omega)).bind ?_
    rintro _ rfl
    exact Ensures.ok ⟨rfl, rfl, Nat.le_of_not_lt body⟩

/-- The four fields after a ZIP64 block: what was wanted is read from the block, in order. -/
def WantedFields.readFrom (ws : WantedFields) (block : Bytes) : WantedFields :=
  let width (w : Wanted) : Nat := if w.need then 8 else 0
  let value (w : Wanted) (at_ width : Nat) : Nat :=
    if w.need then field block at_ width else w.value
  ⟨⟨false, value ws.size 0 8⟩, ⟨false, value ws.compressed (width ws.size) 8⟩,
    ⟨false, value ws.offset (width ws.size + width ws.compressed) 8⟩,
    ⟨false, value ws.disk (width ws.size + width ws.compressed + width ws.offset) 4⟩⟩

/-- The fields that a record leaves to its ZIP64 block are read in their order, as far as they are
wanted. -/
theorem readWantedFields_ensures {extra : Bytes} {i n : Nat} (ws : WantedFields)
    (small : extra.length < 2 ^ 17) (inside : i + n ≤ extra.length) :
    Ensures (readWantedFields extra (i + n) ws i) (· = ws.readFrom (slice extra i n)) := by
  refine (readWanted_ensures ws.size small inside (by omega) (by decide)).bind ?_
  rintro ⟨size, j₁⟩ ⟨rfl, at₁, in₁⟩
  refine (readWanted_ensures ws.compressed small inside in₁ (by decide)).bind ?_
  rintro ⟨compressed, j₂⟩ ⟨rfl, at₂, in₂⟩
  refine (readWanted_ensures ws.offset small inside in₂ (by decide)).bind ?_
  rintro ⟨offset, j₃⟩ ⟨rfl, at₃, in₃⟩
  refine (readWanted_ensures ws.disk small inside in₃ (by decide)).bind ?_
  rintro ⟨disk, j₄⟩ ⟨rfl, at₄, in₄⟩
  simp only at at₁ at₂ at₃ at₄ in₁ in₂ in₃ in₄
  refine Ensures.ok ?_
  -- a field that is read lies inside the block, so it is the block's field
  have within : ∀ (w : Wanted) (j j' width : Nat), j' = j + (if w.need then width else 0) →
      j' ≤ i + n → i ≤ j →
      (if w.need then field extra j width else w.value) =
        if w.need then field (slice extra i n) (j - i) width else w.value := by
    intro w j j' width moved fits after
    cases need : w.need with
    | false => rfl
    | true =>
      rw [need, if_pos rfl] at moved
      rw [if_pos rfl, if_pos rfl, field_slice (by omega), Nat.add_sub_cancel' after]
  have e₁ : i - i = 0 := Nat.sub_self i
  have e₂ : j₁ - i = if ws.size.need then 8 else 0 := by omega
  have e₃ : j₂ - i = (if ws.size.need then 8 else 0) + if ws.compressed.need then 8 else 0 := by
    omega
  have e₄ : j₃ - i = (if ws.size.need then 8 else 0) + (if ws.compressed.need then 8 else 0) +
      if ws.offset.need then 8 else 0 := by omega
  simp only [WantedFields.readFrom]
  rw [within ws.size i j₁ 8 at₁ in₁ (by omega), within ws.compressed j₁ j₂ 8 at₂ in₂ (by omega),
    within ws.offset j₂ j₃ 8 at₃ in₃ (by omega), within ws.disk j₃ j₄ 4 at₄ in₄ (by omega),
    e₁, e₂, e₃, e₄]

/-- The ZIP64 blocks of an extra field are those with the first identifier. -/
theorem zip64Blocks_cons (id : Nat) (data : Bytes) (blocks : List (Nat × Bytes)) :
    zip64Blocks ((id, data) :: blocks) =
      if id = 1 then data :: zip64Blocks blocks else zip64Blocks blocks := by
  by_cases h : id = 1 <;> simp [zip64Blocks, h]

/-- What the loop of `zip64_values` makes of the blocks that it walks over: none of them is a ZIP64
block, or exactly one is, and the wanted fields are read from it. -/
def ReadBlocks (found : Bool) (ws : WantedFields) (blocks : List (Nat × Bytes))
    (out : WantedFields) : Prop :=
  zip64Blocks blocks = [] ∧ out = ws ∨
    found = false ∧ ∃ block, zip64Blocks blocks = [block] ∧ out = ws.readFrom block

/-- The search for the ZIP64 block over the whole extra field, which accepts one block and no more.
The induction is on the turns that are left. -/
theorem zip64Loop_ensures (extra : Bytes) (small : extra.length < 2 ^ 17) (turns : Nat) :
    ∀ i found ws, i ≤ extra.length → extra.length ≤ i + turns →
      Ensures (zip64Loop extra turns i found ws)
        (fun out => ∃ blocks, Tiled (extra.drop i) blocks ∧ ReadBlocks found ws blocks out) := by
  have done : ∀ i found ws, extra.length ≤ i →
      ∃ blocks, Tiled (extra.drop i) blocks ∧ ReadBlocks found ws blocks ws := fun i found ws past =>
    ⟨[], by rw [List.drop_of_length_le past]; exact .nil, Or.inl ⟨rfl, rfl⟩⟩
  induction turns with
  | zero => exact fun i found ws _ enough => Ensures.ok (done i found ws enough)
  | succ turns ih =>
    intro i found ws inside enough
    refine Ensures.ite (fun more => ?_) (fun past => Ensures.ok (done i found ws (by omega)))
    refine (add_ensures (by omega)).bind ?_
    rintro _ rfl
    refine Ensures.reject.bind fun _ head => ?_
    refine (leAt_ensures (by omega)).bind fun id idEq => ?_
    refine (leAt_ensures (by omega)).bind fun n nEq => ?_
    have n_lt : n < 2 ^ 16 := nEq ▸ field_lt extra (i + 2) 2
    refine (add_ensures (by omega)).bind ?_
    rintro _ rfl
    refine (add_ensures (by omega)).bind ?_
    rintro _ rfl
    refine Ensures.reject.bind fun _ body => ?_
    refine Ensures.ite (fun isZip64 => ?_) (fun other => ?_)
    · refine Ensures.reject.bind fun _ fresh => ?_
      refine (readWantedFields_ensures ws small (by omega)).bind ?_
      rintro _ rfl
      refine (ih (i + 4 + n) true _ (by omega) (by omega)).weaken ?_
      rintro out ⟨blocks, tiled, ⟨none, rfl⟩ | ⟨impossible, _⟩⟩
      · refine ⟨_, Tiled.step nEq (by omega) tiled, Or.inr ⟨by simpa using fresh, _, ?_, rfl⟩⟩
        rw [zip64Blocks_cons, if_pos (idEq ▸ isZip64), none]
      · cases impossible
    · refine (ih (i + 4 + n) found ws (by omega) (by omega)).weaken ?_
      rintro out ⟨blocks, tiled, read⟩
      refine ⟨_, Tiled.step nEq (by omega) tiled, ?_⟩
      rw [ReadBlocks, zip64Blocks_cons, if_neg (idEq ▸ other)]
      exact read

/-- `zip64_values` reads what the record directs to. -/
theorem zip64Values_ensures (header extra : Bytes) (long : header.length = 46)
    (small : extra.length < 2 ^ 17) :
    Ensures (zip64Values header extra) (fun out => Directs header extra out.1 out.2) := by
  refine (leAt_ensures (by omega)).bind fun size sizeEq => ?_
  refine (leAt_ensures (by omega)).bind fun compressed compressedEq => ?_
  refine (leAt_ensures (by omega)).bind fun offset offsetEq => ?_
  refine (leAt_ensures (by omega)).bind fun disk diskEq => ?_
  refine (zip64Loop_ensures extra small extra.length 0 false _ (Nat.zero_le _) (by omega)).bind ?_
  rintro out ⟨blocks, tiled, read⟩
  refine Ensures.reject.bind fun _ resolved => ?_
  refine Ensures.reject.bind fun _ _ => ?_
  rw [List.drop_zero] at tiled
  refine Ensures.ok ?_
  subst sizeEq compressedEq offsetEq diskEq
  rcases read with ⟨noBlock, rfl⟩ | ⟨_, block, oneBlock, rfl⟩
  · simp only [decide_eq_true_eq, not_or] at resolved
    refine ⟨blocks, none, tiled, noBlock, ?_, ?_, ?_⟩
    · rintro (h | h | h | h)
      exacts [absurd h resolved.1, absurd h resolved.2.1, absurd h resolved.2.2.1,
        absurd h resolved.2.2.2]
    · rw [widened, if_neg resolved.2.1]
    · rw [widened, if_neg resolved.2.2.1]
  · refine ⟨blocks, some block, tiled, oneBlock, fun _ => Option.some_ne_none _, ?_, ?_⟩
    · simp only [WantedFields.readFrom, decide_eq_true_eq, widened, widthIn64, Option.getD_some]
    · simp only [WantedFields.readFrom, decide_eq_true_eq, widened, widthIn64, Option.getD_some]

/-! ## Names -/

/-- The components of a name: each is within its limits, and together they are counted. -/
theorem validateParts_ensures (l : ScanLimits) (ps : List Bytes) :
    ∀ k, k ≤ l.total_component_cap → Ensures (validateParts l ps k) (fun out =>
      let kept := if ps.getLast? = some [] then ps.dropLast else ps
      out = k + kept.length ∧ out ≤ l.total_component_cap ∧
        ∀ p ∈ kept, (p ≠ [] ∧ p ≠ [0x2e] ∧ p ≠ [0x2e, 0x2e]) ∧ p.length ≤ l.component_cap) := by
  induction ps with
  | nil => exact fun k capped => Ensures.ok ⟨rfl, capped, fun p mem => absurd mem List.not_mem_nil⟩
  | cons p ps ih =>
    intro k capped
    unfold validateParts
    refine Ensures.ite (fun last => ?_) (fun inner => ?_)
    · obtain ⟨rfl, rfl⟩ := last
      exact ih k capped
    · refine Ensures.reject.bind fun _ short => ?_
      refine Ensures.reject.bind fun _ proper => ?_
      refine Ensures.okOr.bind fun k' counted => ?_
      obtain ⟨rfl, capped'⟩ := checkedAdd_filter_some counted
      refine (ih (k + 1) capped').weaken ?_
      rintro out ⟨total, outCapped, good⟩
      -- the first part is kept, whether or not the last one is dropped
      have kept : (if (p :: ps).getLast? = some [] then (p :: ps).dropLast else p :: ps) =
          p :: if ps.getLast? = some [] then ps.dropLast else ps := by
        cases ps with
        | nil =>
          have : p ≠ [] := fun e => inner ⟨e, rfl⟩
          simp [this]
        | cons q qs =>
          rw [List.getLast?_cons_cons, List.dropLast_cons_cons]
          split <;> rfl
      simp only [not_or] at proper
      refine ⟨?_, outCapped, ?_⟩
      · rw [kept, List.length_cons]
        omega
      · rw [kept]
        intro q mem
        rcases List.mem_cons.mp mem with rfl | mem
        · exact ⟨proper, Nat.le_of_not_lt short⟩
        · exact good q mem

/-- The components of a checked name are its non-empty parts. -/
theorem depth_eq {n : Bytes} (proper : ∀ p ∈ components n, p ≠ []) :
    depth n = (components n).length := by
  unfold components depth at *
  split at proper
  · rename_i empty
    obtain ⟨front, whole⟩ := List.getLast?_eq_some_iff.mp empty
    rw [if_pos empty]
    rw [whole, List.dropLast_concat] at proper ⊢
    rw [List.filter_append, List.filter_eq_self.mpr fun p mem => decide_eq_true (proper p mem)]
    simp
  · rename_i whole
    rw [if_neg whole, List.filter_eq_self.mpr fun p mem => decide_eq_true (proper p mem)]

/-- A name that is accepted is valid, and its components are counted against the limit of the
archive. -/
theorem validateName_ensures (n : Bytes) (l : ScanLimits) (k : Nat)
    (capped : k ≤ l.total_component_cap) :
    Ensures (validateName n l k) (fun out => ValidName l n ∧
      out = k + (components n).length ∧ out ≤ l.total_component_cap) := by
  refine Ensures.reject.bind fun _ plain => ?_
  refine (validateParts_ensures l (parts n) k capped).bind ?_
  rintro out ⟨total, outCapped, good⟩
  refine Ensures.reject.bind fun _ deep => Ensures.ok ⟨?_, total, outCapped⟩
  simp only [not_or, not_exists, not_and] at plain
  exact
    { nonempty := plain.1
      plain := plain.2
      component := fun p mem => (good p mem).1
      component_cap := fun p mem => (good p mem).2
      depth_cap := depth_eq (fun p mem => (good p mem).1.1) ▸ Nat.le_of_not_lt deep }

/-! ## The end record -/

theorem take_slice {r : Bytes} {pos n m : Nat} (h : m ≤ n) :
    (slice r pos n).take m = slice r pos m := by
  rw [slice, List.take_take, Nat.min_eq_left h, slice]

/-- A check of the signature of a buffer that was read at `pos`. -/
theorem signatureIs_slice {r s : Bytes} {pos n : Nat} (h : (slice r pos n).length = n)
    (four : 4 ≤ n) :
    Ensures (signatureIs (slice r pos n) s) (fun is => is = true → slice r pos 4 = s) := by
  refine (signatureIs_ensures (by omega)).weaken ?_
  rintro _ rfl is
  rw [← take_slice four]
  exact beq_iff_eq.mp is

/-- The search for the end record goes down from the end. Its sums fit since the tail is short. -/
theorem findEocd_ensures (tail : Bytes) (tailStart : Nat) (fits : tailStart + tail.length < 2 ^ 64)
    (small : tail.length < 2 ^ 17) (i : Nat) (inside : i ≤ tail.length) :
    Ensures (findEocd tail tailStart i) (fun found => ∀ at_, found = some at_ →
      ∃ k, at_ = tailStart + k ∧ k + 22 ≤ tail.length ∧ slice tail k 4 = EOCD) := by
  induction i with
  | zero => exact Ensures.ok fun _ h => nomatch h
  | succ i ih =>
    refine (add_ensures (by omega)).bind ?_
    rintro _ rfl
    refine Ensures.ite (fun _ => ih (by omega)) (fun candidate => ?_)
    simp only [not_or, not_not, Nat.not_lt] at candidate
    refine (leAt_ensures (by omega)).bind fun n nEq => ?_
    have n_lt : n < 2 ^ 16 := nEq ▸ field_lt tail (i + 20) 2
    refine (add_ensures (by omega)).bind ?_
    rintro _ rfl
    refine (add_ensures (by omega)).bind ?_
    rintro _ rfl
    refine (add_ensures (by omega)).bind ?_
    rintro _ rfl
    refine Ensures.ite (fun _ => Ensures.ok ?_) (fun _ => ih (by omega))
    rintro _ ⟨rfl⟩
    exact ⟨i, rfl, candidate.2, candidate.1⟩

/-- The values of a ZIP64 end record; its own offset comes last. -/
theorem zip64_ensures (r : Bytes) (eocd stop cap : Nat) (fits : r.length < 2 ^ 64) :
    Ensures (zip64 r eocd stop cap) (fun out => slice r out.2.2.2 4 = EOCD64) := by
  refine Ensures.reject.bind fun _ room => ?_
  refine (sub_ensures (by omega)).bind ?_
  rintro _ rfl
  refine (readAt_ensures r _ 20).bind ?_
  rintro l ⟨rfl, lLength, _⟩
  refine (signatureIs_ensures (by omega)).bind fun locator _ => ?_
  refine (leAt_ensures (by omega)).bind fun _ _ => ?_
  refine (leAt_ensures (by omega)).bind fun _ _ => ?_
  refine Ensures.reject.bind fun _ _ => ?_
  refine (leAt_ensures (by omega)).bind fun pos _ => ?_
  refine (readAt_ensures r pos 12).bind ?_
  rintro fixed ⟨rfl, fixedLength, fixedInside⟩
  refine (signatureIs_slice fixedLength (by decide)).bind fun is signed => ?_
  refine Ensures.reject.bind fun _ isSigned => ?_
  refine (leAt_ensures (by omega)).bind fun payload _ => ?_
  refine Ensures.reject.bind fun _ big => ?_
  refine Ensures.reject.bind fun _ _ => ?_
  refine Ensures.okOr.bind fun recordEnd _ => ?_
  refine (sub_ensures (by omega)).bind ?_
  rintro _ rfl
  refine Ensures.reject.bind fun _ _ => ?_
  refine (add_ensures (by omega)).bind ?_
  rintro _ rfl
  refine (readAt_ensures r _ payload).bind ?_
  rintro p ⟨rfl, pLength, _⟩
  refine (leAt_ensures (by omega)).bind fun _ _ => ?_
  refine (leAt_ensures (by omega)).bind fun _ _ => ?_
  refine (leAt_ensures (by omega)).bind fun _ _ => ?_
  refine (leAt_ensures (by omega)).bind fun _ _ => ?_
  refine Ensures.reject.bind fun _ _ => ?_
  refine (leAt_ensures (by omega)).bind fun _ _ => ?_
  refine (leAt_ensures (by omega)).bind fun _ _ => ?_
  refine (leAt_ensures (by omega)).bind fun _ _ => ?_
  exact Ensures.ok (signed (by simpa using isSigned))

/-- The values of the end record itself. The directory then ends where this record begins. -/
theorem zip32_ensures (e : Bytes) (eocdAt : Nat) (long : 22 ≤ e.length) :
    Ensures (zip32 e eocdAt) (fun out => out.2.2.2 = eocdAt) := by
  refine (leAt_ensures (by omega)).bind fun _ _ => ?_
  refine (leAt_ensures (by omega)).bind fun _ _ => ?_
  refine (leAt_ensures (by omega)).bind fun _ _ => ?_
  exact Ensures.ok rfl

/-- Either end record: the directory ends where one of the two starts. -/
theorem directoryValues_ensures (r e : Bytes) (eocdAt stop cap : Nat) (countSat sizeSat : Bool)
    (fits : r.length < 2 ^ 64) (long : 22 ≤ e.length) (eocd : slice r eocdAt 4 = EOCD) :
    Ensures (directoryValues r e eocdAt stop cap countSat sizeSat)
      (fun out => slice r out.2.2.2 4 = EOCD ∨ slice r out.2.2.2 4 = EOCD64) := by
  have by64 : Ensures (zip64 r eocdAt stop cap)
      (fun out => slice r out.2.2.2 4 = EOCD ∨ slice r out.2.2.2 4 = EOCD64) :=
    (zip64_ensures r eocdAt stop cap fits).weaken fun _ h => Or.inr h
  have by32 : Ensures (zip32 e eocdAt)
      (fun out => slice r out.2.2.2 4 = EOCD ∨ slice r out.2.2.2 4 = EOCD64) :=
    (zip32_ensures e eocdAt long).weaken fun _ h => Or.inl (h ▸ eocd)
  unfold directoryValues
  refine Ensures.ite (fun _ => by64) (fun _ => Ensures.ite (fun _ => ?_) (fun _ => by32))
  split
  · exact by32
  · exact by64

/-! ## The records -/

/-- One turn of the loop: the cursor passes one entry, whose range and sizes are recorded. -/
structure Advance (r : Bytes) (l : ScanLimits) (centralStart : Nat) (st st' : Cursor) (e : Entry) :
    Prop where
  record : e.record = st.cursor
  cursor : st'.cursor = e.recordEnd r
  names : st'.names = st.names + e.nameLength r
  names_cap : st'.names ≤ l.total_name_cap
  components : st'.components = st.components + (components (e.name r)).length
  components_cap : st'.components ≤ l.total_component_cap
  ranges : st'.ranges = st.ranges ++ [(e.offset, e.dataEnd r)]
  agrees : e.Agrees r l centralStart

/-- One record of the directory: what is accepted of it, and that the counters stay within their
limits. -/
theorem scanRecord_ensures (r : Bytes) (l : ScanLimits) (centralStart centralEnd : Nat) (st : Cursor)
    (fits : r.length < 2 ^ 64) (capped : st.components ≤ l.total_component_cap) :
    Ensures (scanRecord r l centralStart centralEnd st)
      (fun st' => ∃ e, Advance r l centralStart st st' e) := by
  refine (take_ensures r st.cursor centralEnd 46).bind ?_
  rintro ⟨h, cursor₁⟩ ⟨rfl, hLength, rfl, _⟩
  simp only at hLength ⊢
  refine (leAt_ensures (by omega)).bind fun disk _ => ?_
  refine (signatureIs_slice hLength (by decide)).bind fun central isCentral => ?_
  refine Ensures.reject.bind fun _ headOk => ?_
  refine (leAt_ensures (by omega)).bind fun flags flagsEq => ?_
  refine (leAt_ensures (by omega)).bind fun method methodEq => ?_
  refine Ensures.reject.bind fun _ plain => ?_
  refine (leAt_ensures (by omega)).bind fun nl nlEq => ?_
  refine (leAt_ensures (by omega)).bind fun xl xlEq => ?_
  refine (leAt_ensures (by omega)).bind fun cl clEq => ?_
  have xl_lt : xl < 2 ^ 16 := xlEq ▸ field_lt _ 30 2
  rw [field_slice (by decide)] at flagsEq methodEq nlEq xlEq clEq
  refine Ensures.reject.bind fun _ nameCap => ?_
  refine Ensures.okOr.bind fun names namesSum => ?_
  obtain ⟨rfl, namesCap⟩ := checkedAdd_filter_some namesSum
  refine (take_ensures r _ centralEnd nl).bind ?_
  rintro ⟨name, cursor₂⟩ ⟨rfl, nameLength, rfl, _⟩
  refine (validateName_ensures _ l st.components capped).bind ?_
  rintro components ⟨valid, rfl, componentsCap⟩
  refine (take_ensures r _ centralEnd xl).bind ?_
  rintro ⟨extra, cursor₃⟩ ⟨rfl, extraLength, rfl, _⟩
  simp only at nameLength extraLength ⊢
  refine (validateExtra_ensures _ (by omega)).bind fun _ _ => ?_
  refine (skip_ensures _ centralEnd cl).bind ?_
  rintro cursor₄ ⟨rfl, _⟩
  refine (zip64Values_ensures _ _ hLength (by omega)).bind ?_
  rintro ⟨compressed, offset⟩ directs
  refine Ensures.okOr.bind fun _ _ => ?_
  refine (readAt_ensures r offset 30).bind ?_
  rintro localH ⟨rfl, localLength, localInside⟩
  refine (signatureIs_slice localLength (by decide)).bind fun local_ isLocal => ?_
  refine (leAt_ensures (by omega)).bind fun localMethod localMethodEq => ?_
  refine Ensures.reject.bind fun _ localOk => ?_
  refine (leAt_ensures (by omega)).bind fun localFlags localFlagsEq => ?_
  refine Ensures.reject.bind fun _ localPlain => ?_
  refine (leAt_ensures (by omega)).bind fun lnl lnlEq => ?_
  refine (leAt_ensures (by omega)).bind fun lxl lxlEq => ?_
  have lxl_lt : lxl < 2 ^ 16 := lxlEq ▸ field_lt _ 28 2
  rw [field_slice (by decide)] at localMethodEq localFlagsEq lnlEq lxlEq
  refine Ensures.reject.bind fun _ _ => ?_
  refine Ensures.okOr.bind fun nameAt nameAtEq => ?_
  obtain ⟨rfl, nameAtFits⟩ := checkedAdd_some nameAtEq
  refine (readAt_ensures r _ lnl).bind ?_
  rintro localName ⟨rfl, _, localNameInside⟩
  refine Ensures.reject.bind fun _ sameName => ?_
  refine (add_ensures (by omega)).bind ?_
  rintro _ rfl
  refine (readAt_ensures r _ lxl).bind ?_
  rintro localExtra ⟨_, localExtraLength, _⟩
  refine (validateExtra_ensures _ (by omega)).bind fun _ _ => ?_
  refine Ensures.okOr.bind fun data dataEq => ?_
  refine Ensures.okOr.bind fun dataEnd dataEndEq => ?_
  refine Ensures.reject.bind fun _ below => Ensures.ok ?_
  obtain ⟨_, nameEnd, dataEq⟩ := Option.bind_eq_some_iff.mp dataEq
  obtain ⟨rfl, _⟩ := checkedAdd_some nameEnd
  obtain ⟨rfl, _⟩ := checkedAdd_some dataEq
  obtain ⟨rfl, _⟩ := checkedAdd_some dataEndEq
  simp only [not_or, not_and, not_not] at headOk plain localOk localPlain sameName below
  subst flagsEq methodEq nlEq xlEq clEq localMethodEq localFlagsEq lnlEq lxlEq
  refine ⟨⟨st.cursor, offset, compressed⟩, rfl, rfl, rfl, namesCap, rfl, componentsCap, rfl, ?_⟩
  exact
    { central := isCentral headOk.1
      directs := directs
      isLocal := isLocal localOk.1
      method := by
        by_cases stored : field r (st.cursor + 10) 2 = 0
        · exact Or.inl stored
        · exact Or.inr (plain.2 stored)
      sameMethod := localOk.2
      noFlags := plain.1
      noLocalFlags := localPlain
      sameName := sameName
      below := Nat.le_of_not_lt below
      name_cap := Nat.le_of_not_lt nameCap
      valid := valid }

/-- The whole loop: the entries that the cursor passed, with their totals. -/
structure Progress (r : Bytes) (l : ScanLimits) (centralStart : Nat) (st st' : Cursor)
    (es : List Entry) : Prop where
  laidOut : LaidOut r st.cursor es st'.cursor
  names : st'.names = st.names + (es.map (Entry.nameLength r)).sum
  names_cap : st'.names ≤ l.total_name_cap
  components : st'.components =
    st.components + (es.map fun e => (components (e.name r)).length).sum
  components_cap : st'.components ≤ l.total_component_cap
  ranges : st'.ranges = st.ranges ++ es.map fun e => (e.offset, e.dataEnd r)
  agree : ∀ e ∈ es, e.Agrees r l centralStart

theorem Progress.refl {r : Bytes} {l : ScanLimits} {centralStart : Nat} {st : Cursor}
    (names : st.names ≤ l.total_name_cap) (components : st.components ≤ l.total_component_cap) :
    Progress r l centralStart st st [] where
  laidOut := .nil _
  names := rfl
  names_cap := names
  components := rfl
  components_cap := components
  ranges := (List.append_nil _).symm
  agree := fun _ mem => absurd mem List.not_mem_nil

/-- One more record in front of those that come behind it. -/
theorem Advance.progress {r : Bytes} {l : ScanLimits} {centralStart : Nat} {st st₁ st₂ : Cursor}
    {e : Entry} {es : List Entry} (first : Advance r l centralStart st st₁ e)
    (rest : Progress r l centralStart st₁ st₂ es) :
    Progress r l centralStart st st₂ (e :: es) where
  laidOut := first.record ▸ .cons e es _ (first.cursor ▸ rest.laidOut)
  names := by
    rw [rest.names, first.names, List.map_cons, List.sum_cons, Nat.add_assoc]
  names_cap := rest.names_cap
  components := by
    rw [rest.components, first.components, List.map_cons, List.sum_cons, Nat.add_assoc]
  components_cap := rest.components_cap
  ranges := by
    rw [rest.ranges, first.ranges, List.append_assoc, List.singleton_append, List.map_cons]
  agree := List.forall_mem_cons.mpr ⟨first.agrees, rest.agree⟩

/-- All records of the directory, laid end to end. The induction is on their number. -/
theorem scanRecords_ensures (r : Bytes) (l : ScanLimits) (centralStart centralEnd : Nat)
    (fits : r.length < 2 ^ 64) (count : Nat) :
    ∀ st : Cursor, st.names ≤ l.total_name_cap → st.components ≤ l.total_component_cap →
      Ensures (scanRecords r l centralStart centralEnd count st)
        (fun st' => ∃ es, es.length = count ∧ Progress r l centralStart st st' es) := by
  induction count with
  | zero => exact fun st names parts => Ensures.ok ⟨[], rfl, .refl names parts⟩
  | succ count ih =>
    intro st names parts
    refine (scanRecord_ensures r l centralStart centralEnd st fits parts).bind ?_
    rintro st₁ ⟨e, first⟩
    refine (ih st₁ first.names_cap first.components_cap).weaken ?_
    rintro st₂ ⟨es, length, rest⟩
    exact ⟨e :: es, by rw [List.length_cons, length], first.progress rest⟩

/-! ## The sorted check -/

instance : Std.Total rangeLe where
  total a b := by
    unfold rangeLe
    omega

instance : IsTrans (Nat × Nat) rangeLe where
  trans a b c := by
    unfold rangeLe
    omega

/-- In a sorted list the check of neighbours covers all pairs. -/
theorem anyOverlap_false : ∀ {l : List (Nat × Nat)}, l.Pairwise rangeLe → anyOverlap l = false →
    l.Pairwise fun a b => a.2 ≤ b.1
  | [], _, _ => .nil
  | [_], _, _ => List.pairwise_singleton _ _
  | a :: b :: rest, sorted, apart => by
    obtain ⟨below, sorted⟩ := List.pairwise_cons.mp sorted
    simp only [anyOverlap, Bool.or_eq_false_iff, decide_eq_false_iff_not, Nat.not_lt] at apart
    refine List.pairwise_cons.mpr ⟨fun c mem => ?_, anyOverlap_false sorted apart.2⟩
    have starts : b.1 ≤ c.1 := by
      rcases List.mem_cons.mp mem with rfl | mem
      · exact Nat.le_refl _
      · have := (List.pairwise_cons.mp sorted).1 c mem
        unfold rangeLe at this
        omega
    exact Nat.le_trans apart.1 starts

/-- The sort does not change which ranges there are, so the entries themselves lie apart. -/
theorem apart_of_sorted {r : Bytes} {es : List Entry} {ranges : List (Nat × Nat)}
    (eq : ranges = es.map fun e => (e.offset, e.dataEnd r))
    (apart : anyOverlap (ranges.insertionSort rangeLe) = false) :
    es.Pairwise fun a b => a.dataEnd r ≤ b.offset ∨ b.dataEnd r ≤ a.offset := by
  have sorted : (ranges.insertionSort rangeLe).Pairwise fun a b => a.2 ≤ b.1 ∨ b.2 ≤ a.1 :=
    (anyOverlap_false (List.pairwise_insertionSort _ _) apart).imp fun h => Or.inl h
  have each : ranges.Pairwise fun a b => a.2 ≤ b.1 ∨ b.2 ≤ a.1 :=
    ((List.perm_insertionSort _ _).pairwise_iff Or.symm).mp sorted
  rw [eq, List.pairwise_map] at each
  exact each

/-! ## The scan -/

/-- The scan from its beginning to its end, on any bytes of a length that the reader can report. -/
theorem scan_ensures (r : Bytes) (fits : r.length < 2 ^ 64) (l : ScanLimits) :
    Ensures (scan r l) (Sound r l) := by
  dsimp only [scan]
  refine Ensures.reject.bind fun _ _ => ?_
  have inside : r.length - (22 + 65535) ≤ r.length := Nat.sub_le _ _
  have near : r.length - (r.length - (22 + 65535)) ≤ 65557 := by omega
  generalize r.length - (22 + 65535) = tailStart at *
  refine (sub_ensures inside).bind ?_
  rintro _ rfl
  refine (readAt_ensures r tailStart _).bind ?_
  rintro tail ⟨tailEq, tailLength, _⟩
  refine (findEocd_ensures tail tailStart (by omega) (by omega) _ (by omega)).bind fun found at_ => ?_
  refine Ensures.okOr.bind fun eocdAt foundEq => ?_
  obtain ⟨k, rfl, room, eocd⟩ := at_ eocdAt foundEq
  refine (sub_ensures (by omega)).bind ?_
  rintro _ rfl
  have eLength : 22 ≤ (tail.drop (tailStart + k - tailStart)).length := by
    rw [List.length_drop]
    omega
  have eocd : slice r (tailStart + k) 4 = EOCD := by
    rw [← eocd, tailEq, slice_slice (by omega)]
  refine (leAt_ensures (by omega)).bind fun _ _ => ?_
  refine (leAt_ensures (by omega)).bind fun _ _ => ?_
  refine (leAt_ensures (by omega)).bind fun _ _ => ?_
  refine (leAt_ensures (by omega)).bind fun _ _ => ?_
  refine Ensures.reject.bind fun _ _ => ?_
  refine (leAt_ensures (by omega)).bind fun _ _ => ?_
  refine (leAt_ensures (by omega)).bind fun _ _ => ?_
  refine (leAt_ensures (by omega)).bind fun _ _ => ?_
  refine (directoryValues_ensures r _ _ _ _ _ _ fits eLength eocd).bind ?_
  rintro ⟨count, centralSize, centralStart, expected⟩ ends
  refine Ensures.reject.bind fun _ _ => ?_
  refine Ensures.okOr.bind fun centralEnd _ => ?_
  refine Ensures.reject.bind fun _ bounded => ?_
  refine (scanRecords_ensures r l centralStart centralEnd fits count _ (Nat.zero_le _)
    (Nat.zero_le _)).bind ?_
  rintro st ⟨entries, length, progress⟩
  refine Ensures.reject.bind fun _ filled => ?_
  refine Ensures.reject.bind fun _ lowest => ?_
  refine Ensures.reject.bind fun _ overlap => Ensures.ok ?_
  simp only [not_or, not_not, Nat.not_lt] at bounded
  refine ⟨entries, centralEnd, ?_⟩
  exact
    { count := length
      laidOut := not_not.mp filled ▸ progress.laidOut
      ends := bounded.1 ▸ ends
      inside := bounded.2
      agree := progress.agree
      apart := apart_of_sorted progress.ranges (by simpa using overlap)
      first := by
        intro some_
        simp only [not_or, not_and, not_not] at lowest
        have least := List.min?_mem (lowest.2 some_)
        obtain ⟨range, mem, start⟩ := List.mem_map.mp least
        rw [List.mem_insertionSort, progress.ranges, List.nil_append] at mem
        obtain ⟨e, entry, rfl⟩ := List.mem_map.mp mem
        exact ⟨e, entry, start⟩
      total_name_cap := by simpa only [progress.names, Nat.zero_add] using progress.names_cap
      total_component_cap := by
        simpa only [progress.components, Nat.zero_add] using progress.components_cap }

/-- **The pre-scan is sound.** On no input does an addition of the scan overflow or an index leave
its slice, and what the scan accepts is a directory in the sense of `Sound`. Whether the entries can
be inflated is not looked at by the scan. -/
theorem scan_sound (r : Bytes) (fits : r.length < 2 ^ 64) (l : ScanLimits) :
    scan r l ≠ .error .panic ∧ ∀ result, scan r l = .ok result → Sound r l result :=
  ⟨(scan_ensures r fits l).ne_panic, fun _ run => (scan_ensures r fits l).of_ok run⟩

/-- The size of a stored entry, compressed and uncompressed. -/
def storedSizes (size : UInt8) : Bytes := [size, 0, 0, 0, size, 0, 0, 0]

def localHeader (name : Bytes) (size : UInt8) : Bytes :=
  LOCAL ++ [20, 0] ++ List.replicate 12 0 ++ storedSizes size ++
    [UInt8.ofNat name.length, 0, 0, 0] ++ name

def centralRecord (name : Bytes) (size offset : UInt8) : Bytes :=
  CENTRAL ++ [20, 0, 20, 0] ++ List.replicate 12 0 ++ storedSizes size ++
    [UInt8.ofNat name.length, 0] ++ List.replicate 12 0 ++ [offset, 0, 0, 0] ++ name

/-- An archive with two entries, `a` with two bytes and `b/c` with none: their local headers and
data, the central records and the end record. -/
def twoEntries : Bytes :=
  localHeader [0x61] 2 ++ [7, 8] ++ localHeader [0x62, 0x2f, 0x63] 0 ++
    centralRecord [0x61] 2 0 ++ centralRecord [0x62, 0x2f, 0x63] 0 33 ++
    EOCD ++ [0, 0, 0, 0, 2, 0, 2, 0, 96, 0, 0, 0, 66, 0, 0, 0, 0, 0]

/-- An archive of two entries is accepted. -/
theorem scan_sound_twoEntries :
    scan twoEntries (.production 2) = .ok ⟨2, 66⟩ ∧
      Sound twoEntries (.production 2) ⟨2, 66⟩ := by
  have run : scan twoEntries (.production 2) = .ok ⟨2, 66⟩ := by decide +kernel
  exact ⟨run, (scan_sound twoEntries (by decide +kernel) (.production 2)).2 _ run⟩

end Mineru.ZipScan
