import Mineru.Builders.TableState

/-!
# When a table can be written back

The ranges of the rows come from a stack of tags, and the insertion point is where the first `tbody`
closes, wherever that is. The writer goes through the source with one cursor, so it panics as soon
as a range or the insertion point lies behind it. `InOrder` is exactly what it needs; then it writes
the source without the deleted rows and with the further ones.

The first half is about reading: the tags are in their order and inside of the text
(`htmlTags_placed`), and the ranges are inside of it too (`parse_within`), though in an order that
nested tables may disturb. The second half is about writing: `Ahead` says of a state of the writer
that the rest of its way goes forward, and it is `InOrder` at the start.

Positions count characters. The source slices at bytes, at the beginnings and ends of tags, which
are ASCII.
-/

set_option autoImplicit false

namespace Mineru.Builders

open Logic

/-! ## Positions of tags -/

/-- The inside of a tag is shorter than the text that it is read from, which is why reading ends. -/
theorem tagInner_length {quote : Option Char} {t inner : Text} (h : tagInner quote t = some inner) :
    inner.length + 1 ≤ t.length := by
  induction t generalizing quote inner with
  | nil => cases quote <;> cases h
  | cons c rest ih =>
    cases quote with
    | some delimiter =>
      unfold tagInner at h
      obtain ⟨inner', found, rfl⟩ := Option.map_eq_some_iff.mp h
      exact Nat.succ_le_succ (ih found)
    | none =>
      unfold tagInner at h
      split at h
      · obtain ⟨inner', found, rfl⟩ := Option.map_eq_some_iff.mp h
        exact Nat.succ_le_succ (ih found)
      · split at h
        · cases h
          exact Nat.succ_le_succ (Nat.zero_le _)
        · obtain ⟨inner', found, rfl⟩ := Option.map_eq_some_iff.mp h
          exact Nat.succ_le_succ (ih found)

theorem findText_length {pattern t : Text} {offset : Nat} (h : findText pattern t = some offset) :
    offset + pattern.length ≤ t.length := by
  induction t generalizing offset with
  | nil =>
    unfold findText at h
    split at h
    · next empty =>
      cases h
      rw [empty]
      exact Nat.le_refl _
    · cases h
  | cons c rest ih =>
    unfold findText at h
    split at h
    · next here =>
      cases h
      rw [Nat.zero_add]
      exact (List.isPrefixOf_iff_prefix.mp here).length_le
    · obtain ⟨offset', found, rfl⟩ := Option.map_eq_some_iff.mp h
      have inside := ih found
      rw [List.length_cons]
      omega

/-- A tag lies in the text it was read from. -/
theorem tagAt_bounds {start : Nat} {rest : Text} {tag : HtmlTag} (h : tagAt start rest = some tag) :
    tag.start = start ∧ start < tag.stop ∧ tag.stop ≤ start + 1 + rest.length := by
  unfold tagAt at h
  split at h
  · next comment =>
    obtain ⟨offset, found, rfl⟩ := Option.map_eq_some_iff.mp h
    have inside := findText_length found
    have long := (List.isPrefixOf_iff_prefix.mp comment).length_le
    rw [List.length_drop] at inside
    change offset + 3 ≤ rest.length - 3 at inside
    change 3 ≤ rest.length at long
    refine ⟨rfl, ?_, ?_⟩
    · show start < start + offset + 7
      omega
    · show start + offset + 7 ≤ _
      omega
  · split at h
    · cases h
    · next inner found =>
      have inside := tagInner_length found
      dsimp only at h
      split at h
      · cases h
        exact ⟨rfl, by show start < start + _ + 2; omega, by show start + _ + 2 ≤ _; omega⟩
      · obtain ⟨-, is⟩ := Option.ite_none_left_eq_some.mp h
        cases is
        exact ⟨rfl, by show start < start + _ + 2; omega, by show start + _ + 2 ≤ _; omega⟩

/-- Tags one after the other, from `pos` to `last`. -/
def Placed : Nat → Nat → List HtmlTag → Prop
  | pos, last, [] => pos ≤ last
  | pos, last, tag :: rest => pos ≤ tag.start ∧ tag.start < tag.stop ∧ Placed tag.stop last rest

theorem Placed.weaken {pos pos' last : Nat} {tags : List HtmlTag} (h : Placed pos last tags)
    (le : pos' ≤ pos) : Placed pos' last tags := by
  cases tags with
  | nil => exact Nat.le_trans le h
  | cons tag rest => exact ⟨Nat.le_trans le h.1, h.2⟩

/-- Tags lie between the place where reading starts and the place where it stops. -/
theorem Placed.le {pos last : Nat} {tags : List HtmlTag} (h : Placed pos last tags) :
    pos ≤ last := by
  induction tags generalizing pos with
  | nil => exact h
  | cons tag rest ih =>
    obtain ⟨first, inner, after⟩ := h
    have := ih after
    omega

theorem htmlTagsFrom_placed {fuel index : Nat} {t : Text} {tags : List HtmlTag}
    (h : htmlTagsFrom fuel index t = some tags) : Placed index (index + t.length) tags := by
  induction fuel generalizing index t tags with
  | zero =>
    cases t with
    | nil =>
      cases h
      exact Nat.le_refl _
    | cons c rest => cases h
  | succ fuel ih =>
    cases t with
    | nil =>
      cases h
      exact Nat.le_refl _
    | cons c rest =>
      unfold htmlTagsFrom at h
      split at h
      · have after := (ih h).weaken (Nat.le_succ index)
        rw [List.length_cons]
        rwa [show index + (rest.length + 1) = index + 1 + rest.length by omega]
      · split at h
        · cases h
        · next tag found =>
          obtain ⟨start, inner, inside⟩ := tagAt_bounds found
          obtain ⟨tags', later, rfl⟩ := Option.map_eq_some_iff.mp h
          have after := ih later
          rw [List.length_drop] at after
          rw [List.length_cons] at after ⊢
          refine ⟨Nat.le_of_eq start.symm, start ▸ inner, ?_⟩
          rwa [show tag.stop + (rest.length + 1 - (tag.stop - index)) = index + (rest.length + 1)
            by omega] at after

/-- The tags of a text are in their order and apart. -/
theorem htmlTags_placed {html : Text} {tags : List HtmlTag} (h : htmlTags html = some tags) :
    Placed 0 html.length tags := by
  have placed := htmlTagsFrom_placed h
  rwa [Nat.zero_add] at placed

/-! ## Positions in the document -/

/-- What the loop over the tags has found before `pos`. -/
structure TableScan.Before (s : TableScan) (pos : Nat) : Prop where
  stack : ∀ entry ∈ s.stack, entry.2 < pos
  rows : ∀ row ∈ s.rows, row.1 < row.2 ∧ row.2 ≤ pos
  insertion : ∀ i, s.insertion = some i → i ≤ pos
  tableClose : ∀ close, s.tableClose = some close → close.1 ≤ pos

theorem TableScan.Before.weaken {s : TableScan} {pos pos' : Nat} (h : s.Before pos)
    (le : pos ≤ pos') : s.Before pos' where
  stack entry mem := Nat.lt_of_lt_of_le (h.stack entry mem) le
  rows row mem := ⟨(h.rows row mem).1, Nat.le_trans (h.rows row mem).2 le⟩
  insertion i is := Nat.le_trans (h.insertion i is) le
  tableClose close is := Nat.le_trans (h.tableClose close is) le

/-- What has been read lies before the tag that is read next. -/
theorem TableScan.Before.opened {s s' : TableScan} {pos : Nat} {tag : HtmlTag} (h : s.Before pos)
    (after : pos ≤ tag.start) (inner : tag.start < tag.stop) (run : s.opened tag = some s') :
    s'.Before tag.stop := by
  have le : pos ≤ tag.stop := by omega
  unfold TableScan.opened at run
  split at run
  · cases run
  · split at run
    · cases run
      exact h.weaken le
    · cases run
      have weak := h.weaken le
      refine ⟨?_, weak.rows, weak.insertion, weak.tableClose⟩
      intro entry mem
      rcases List.mem_cons.mp mem with rfl | old
      · exact inner
      · exact weak.stack entry old

theorem TableScan.Before.closed {s s' : TableScan} {pos : Nat} {tag : HtmlTag} (h : s.Before pos)
    (after : pos ≤ tag.start) (inner : tag.start < tag.stop) (run : s.closed tag = some s') :
    s'.Before tag.stop := by
  have le : pos ≤ tag.stop := by omega
  have weak := h.weaken le
  unfold TableScan.closed at run
  split at run
  · cases run
  · next name opened stack is =>
    split at run
    · cases run
    · split at run
      · cases run
      · cases run
        have top : opened < pos := h.stack (name, opened) (by rw [is]; exact List.mem_cons_self)
        refine ⟨?_, ?_, ?_, ?_⟩
        · intro entry mem
          exact weak.stack entry (by rw [is]; exact List.mem_cons_of_mem _ mem)
        · intro row mem
          dsimp only at mem
          split at mem
          · rcases List.mem_append.mp mem with old | new
            · exact weak.rows row old
            · rw [List.mem_singleton.mp new]
              exact ⟨by show opened < tag.stop; omega, Nat.le_refl _⟩
          · exact weak.rows row mem
        · intro i is'
          dsimp only at is'
          split at is'
          · cases is'
            exact Nat.le_of_lt inner
          · exact weak.insertion i is'
        · intro close is'
          dsimp only at is'
          split at is'
          · cases is'
            exact Nat.le_of_lt inner
          · exact weak.tableClose close is'

/-- The same behind all tags. -/
theorem TableScan.Before.run {s s' : TableScan} {pos last : Nat} {tags : List HtmlTag}
    (h : s.Before pos) (placed : Placed pos last tags) (run : s.run tags = some s') :
    s'.Before last := by
  induction tags generalizing s pos with
  | nil =>
    cases run
    exact h.weaken placed
  | cons tag rest ih =>
    obtain ⟨after, inner, later⟩ := placed
    unfold TableScan.run at run
    split at run
    · exact ih (h.weaken (by omega)) later run
    · obtain ⟨next, opened, run⟩ := Option.bind_eq_some_iff.mp run
      exact ih (h.opened after inner opened) later run
    · obtain ⟨next, closed, run⟩ := Option.bind_eq_some_iff.mp run
      have before := h.closed after inner closed
      split at run
      · cases run
        exact before.weaken later.le
      · exact ih before later run

namespace TableDocument

/-- The positions of a document that was read. -/
structure Within (d : TableDocument) : Prop where
  rows : ∀ range ∈ d.rowRanges, range.1 < range.2 ∧ range.2 ≤ d.source.length
  insertion : d.insertion ≤ d.source.length

/-- A table that is read has its ranges inside of the text. -/
theorem parse_within {source : Text} {d : TableDocument} (h : parse source = some d) :
    d.source = source ∧ d.Within := by
  unfold parse at h
  split at h
  · cases h
  · cases h
  · next root rest tags =>
    split at h
    · cases h
    · obtain ⟨s, run, h⟩ := Option.bind_eq_some_iff.mp h
      have start : TableScan.start.Before 0 := by
        refine ⟨?_, ?_, ?_, ?_⟩
        · intro entry mem
          cases mem
        · intro row mem
          cases mem
        · intro i is
          cases is
        · intro close is
          cases is
      have before := start.run (htmlTags_placed tags) run
      split at h
      · cases h
      · next tableClose tableEnd is =>
        split at h
        · cases h
        · cases h
          refine ⟨rfl, ?_, ?_⟩
          · intro range mem
            exact before.rows range ((List.mem_insertionSort _).mp mem)
          · show s.insertion.getD tableClose ≤ source.length
            cases there : s.insertion with
            | none => exact before.tableClose _ is
            | some i => exact before.insertion i there

/-! ## What is left of the source -/

/-- The characters from `a` to `b` that lie in no removed range. -/
def remaining (source : Text) (removed : List (Nat × Nat)) (a b : Nat) : Text :=
  ((List.range' a (b - a)).filter fun i =>
    !removed.any fun range => decide (range.1 ≤ i) && decide (i < range.2)).filterMap (source[·]?)

/-- The ranges of the deleted rows. -/
def removed (d : TableDocument) (deleted : List Bool) : List (Nat × Nat) :=
  ((d.rowRanges.zip deleted).filter fun row => row.2).map Prod.fst

/-- The source without the deleted rows, and with the further ones at the insertion point. -/
def edited (d : TableDocument) (deleted : List Bool) (more : List TableRow) : Text :=
  remaining d.source (d.removed deleted) 0 d.insertion ++ appended more ++
    remaining d.source (d.removed deleted) d.insertion d.source.length

section Remaining

variable {source : Text} {gone : List (Nat × Nat)}

/-- What remains of a stretch, cut in two. -/
theorem remaining_append {a b c : Nat} (ab : a ≤ b) (bc : b ≤ c) :
    remaining source gone a b ++ remaining source gone b c = remaining source gone a c := by
  unfold remaining
  rw [← List.filterMap_append, ← List.filter_append]
  have ranges : List.range' a (b - a) ++ List.range' b (c - b) = List.range' a (c - a) := by
    have cut := List.range'_append_1 (s := a) (m := b - a) (n := c - b)
    rwa [show a + (b - a) = b by omega, show b - a + (c - b) = c - a by omega] at cut
  rw [ranges]

theorem filterMap_range' {n a : Nat} (le : a + n ≤ source.length) :
    (List.range' a n).filterMap (source[·]?) = (source.drop a).take n := by
  induction n generalizing a with
  | zero => rfl
  | succ n ih =>
    have lt : a < source.length := by omega
    rw [List.range'_succ, List.filterMap_cons, List.getElem?_eq_getElem lt, ih (by omega),
      List.drop_eq_getElem_cons lt, List.take_succ_cons]

theorem remaining_self (a : Nat) : remaining source gone a a = [] := by
  unfold remaining
  rw [Nat.sub_self]
  rfl

/-- Where nothing is removed, everything is left. -/
theorem remaining_eq_slice {a b : Nat} (ab : a ≤ b) (le : b ≤ source.length)
    (apart : ∀ range ∈ gone, range.2 ≤ a ∨ b ≤ range.1) :
    remaining source gone a b = (source.drop a).take (b - a) := by
  unfold remaining
  rw [← filterMap_range' (by omega)]
  congr 1
  rw [List.filter_eq_self]
  intro i mem
  have inside := List.mem_range'_1.mp mem
  rw [Bool.not_eq_true', List.any_eq_false]
  intro range there
  have := apart range there
  simp only [Bool.and_eq_true, decide_eq_true_eq, not_and, not_lt]
  omega

/-- Nothing is left of a removed range. -/
theorem remaining_eq_nil {a b : Nat} (there : (a, b) ∈ gone) : remaining source gone a b = [] := by
  unfold remaining
  have none_ : (List.range' a (b - a)).filter (fun i =>
      !gone.any fun range => decide (range.1 ≤ i) && decide (i < range.2)) = [] := by
    rw [List.filter_eq_nil_iff]
    intro i mem
    have inside := List.mem_range'_1.mp mem
    rw [Bool.not_eq_true', Bool.not_eq_false, List.any_eq_true]
    refine ⟨(a, b), there, ?_⟩
    simp only [Bool.and_eq_true, decide_eq_true_eq]
    omega
  rw [none_]
  rfl

end Remaining

/-! ## The writer -/

/-- The rows come one after the other, and the insertion point is inside none of them. -/
structure InOrder (d : TableDocument) : Prop where
  rows : d.rowRanges.Pairwise fun a b => a.2 ≤ b.1
  insertion : ∀ range ∈ d.rowRanges, ¬ (range.1 < d.insertion ∧ d.insertion < range.2)

/-- What lies ahead of the writer is in order. -/
structure Ahead (d : TableDocument) (w : Writer) (ranges : List (Nat × Nat)) : Prop where
  starts : ∀ range ∈ ranges, w.cursor ≤ range.1
  rows : ranges.Pairwise fun a b => a.2 ≤ b.1
  insertion : w.inserted = false → w.cursor ≤ d.insertion ∧
    ∀ range ∈ ranges, ¬ (range.1 < d.insertion ∧ d.insertion < range.2)

/-- The rows that are to be written, given the ranges that are removed. -/
structure Rows (d : TableDocument) (gone : List (Nat × Nat)) (w : Writer)
    (rows : List ((Nat × Nat) × TableRow)) : Prop where
  within : ∀ row ∈ rows, row.1.1 < row.1.2 ∧ row.1.2 ≤ d.source.length
  raw : ∀ row ∈ rows, row.2.raw = (d.source.drop row.1.1).take (row.1.2 - row.1.1)
  deleted : ∀ row ∈ rows, row.2.deleted = true → row.1 ∈ gone
  cut : ∀ range ∈ gone, range.2 ≤ w.cursor ∨ ∃ row ∈ rows, row.1 = range ∧ row.2.deleted = true

/-- What the writer has pushed. -/
structure Pushed (d : TableDocument) (gone : List (Nat × Nat)) (more : List TableRow) (w : Writer) :
    Prop where
  inside : w.cursor ≤ d.source.length
  behind : w.inserted = true → d.insertion ≤ w.cursor
  output : w.output =
    if w.inserted then remaining d.source gone 0 d.insertion ++ appended more ++
      remaining d.source gone d.insertion w.cursor
    else remaining d.source gone 0 w.cursor

variable {d : TableDocument} {gone : List (Nat × Nat)} {more : List TableRow} {w : Writer}

/-- The writer copies a stretch that no deleted row touches. -/
theorem slice_ok {a b : Nat} (ab : a ≤ b) (le : b ≤ d.source.length)
    (apart : ∀ range ∈ gone, range.2 ≤ a ∨ b ≤ range.1) :
    d.slice a b = .ok (remaining d.source gone a b) := by
  unfold slice
  rw [if_pos ⟨ab, le⟩, remaining_eq_slice ab le apart]

/-- It panics on a stretch that would go backwards. -/
theorem slice_panic {a b : Nat} (back : ¬ a ≤ b) : d.slice a b = .error .panic :=
  if_neg fun fits => back fits.1

section Step

variable {row : (Nat × Nat) × TableRow} {rest : List ((Nat × Nat) × TableRow)}

/-- Nothing is removed between the writer and the next row. -/
theorem Rows.gap (rows : Rows d gone w (row :: rest)) (ahead : Ahead d w ((row :: rest).map Prod.fst)) :
    ∀ range ∈ gone, range.2 ≤ w.cursor ∨ row.1.1 ≤ range.1 := by
  intro range mem
  rcases rows.cut range mem with behind | ⟨other, there, rfl, -⟩
  · exact .inl behind
  · right
    rcases List.mem_cons.mp there with rfl | later
    · exact Nat.le_refl _
    · have pairs := ahead.rows
      rw [List.map_cons, List.pairwise_cons] at pairs
      have first := rows.within row List.mem_cons_self
      have after := pairs.1 other.1 (List.mem_map_of_mem later)
      omega

/-- What is pushed for a row is what is left of it. -/
theorem Rows.push (rows : Rows d gone w (row :: rest))
    (ahead : Ahead d w ((row :: rest).map Prod.fst)) :
    (if row.2.deleted then [] else row.2.raw) = remaining d.source gone row.1.1 row.1.2 := by
  obtain ⟨inner, le⟩ := rows.within row List.mem_cons_self
  by_cases deleted : row.2.deleted = true
  · rw [if_pos deleted]
    exact (remaining_eq_nil (rows.deleted row List.mem_cons_self deleted)).symm
  · rw [if_neg deleted, rows.raw row List.mem_cons_self]
    refine (remaining_eq_slice (Nat.le_of_lt inner) le ?_).symm
    intro range mem
    rcases rows.cut range mem with behind | ⟨other, there, rfl, otherDeleted⟩
    · left
      have start := ahead.starts row.1 (List.mem_map_of_mem List.mem_cons_self)
      omega
    · right
      rcases List.mem_cons.mp there with rfl | later
      · exact absurd otherDeleted deleted
      · have pairs := ahead.rows
        rw [List.map_cons, List.pairwise_cons] at pairs
        exact pairs.1 other.1 (List.mem_map_of_mem later)

/-- After the row its range is behind. -/
theorem Rows.tail (rows : Rows d gone w (row :: rest))
    (ahead : Ahead d w ((row :: rest).map Prod.fst)) {w' : Writer} (cursor : w'.cursor = row.1.2) :
    Rows d gone w' rest where
  within other mem := rows.within other (List.mem_cons_of_mem row mem)
  raw other mem := rows.raw other (List.mem_cons_of_mem row mem)
  deleted other mem := rows.deleted other (List.mem_cons_of_mem row mem)
  cut range mem := by
    have start := ahead.starts row.1 (List.mem_map_of_mem List.mem_cons_self)
    have inner := (rows.within row List.mem_cons_self).1
    rcases rows.cut range mem with behind | ⟨other, there, rfl, deleted⟩
    · left
      omega
    · rcases List.mem_cons.mp there with rfl | later
      · exact .inl (Nat.le_of_eq cursor.symm)
      · exact .inr ⟨other, later, rfl, deleted⟩

/-- One turn writes the gap and the row. -/
theorem writeRow_ok (insertion : d.insertion ≤ d.source.length)
    (rows : Rows d gone w (row :: rest)) (ahead : Ahead d w ((row :: rest).map Prod.fst))
    (pushed : Pushed d gone more w) : ∃ w', d.writeRow more w row = .ok w' ∧
      w'.cursor = row.1.2 ∧ Pushed d gone more w' ∧ Ahead d w' (rest.map Prod.fst) := by
  have gap := rows.gap ahead
  have push := rows.push ahead
  obtain ⟨inner, le⟩ := rows.within row List.mem_cons_self
  have start := ahead.starts row.1 (List.mem_map_of_mem List.mem_cons_self)
  have pairs := ahead.rows
  rw [List.map_cons, List.pairwise_cons] at pairs
  obtain ⟨output, cursor, inserted⟩ := w
  have behind := pushed.behind
  have text_ := pushed.output
  dsimp only at gap start behind text_
  cases inserted with
  | true =>
    have after := behind rfl
    have run : d.writeRow more ⟨output, cursor, true⟩ row =
        .ok ⟨output ++ remaining d.source gone cursor row.1.1 ++
          remaining d.source gone row.1.1 row.1.2, row.1.2, true⟩ := by
      unfold writeRow insertBefore
      rw [if_neg (by simp), push]
      show (d.slice cursor row.1.1 >>= _) = _
      rw [slice_ok start (by omega) gap]
      rfl
    refine ⟨_, run, rfl, ⟨le, fun _ => ?_, ?_⟩, ⟨pairs.1, pairs.2, ?_⟩⟩
    · show d.insertion ≤ row.1.2
      omega
    · rw [text_]
      show _ = remaining d.source gone 0 d.insertion ++ appended more ++
        remaining d.source gone d.insertion row.1.2
      rw [← remaining_append after (show cursor ≤ row.1.2 by omega),
        ← remaining_append start (Nat.le_of_lt inner)]
      simp only [if_true, List.append_assoc]
    · intro no
      cases no
  | false =>
    obtain ⟨before, outside⟩ := ahead.insertion rfl
    dsimp only at before
    by_cases now : d.insertion ≤ row.1.1
    · have run : d.writeRow more ⟨output, cursor, false⟩ row =
          .ok ⟨output ++ remaining d.source gone cursor d.insertion ++ appended more ++
            remaining d.source gone d.insertion row.1.1 ++
            remaining d.source gone row.1.1 row.1.1 ++
            remaining d.source gone row.1.1 row.1.2, row.1.2, true⟩ := by
        unfold writeRow insertBefore
        rw [if_pos ⟨rfl, now⟩, push]
        show ((d.slice cursor d.insertion >>= _) >>= _) = _
        rw [slice_ok before insertion fun range mem => (gap range mem).imp_right (by omega)]
        show ((d.slice d.insertion row.1.1 >>= _) >>= _) = _
        rw [slice_ok now (by omega) fun range mem => (gap range mem).imp_left (by omega)]
        show (d.slice row.1.1 row.1.1 >>= _) = _
        rw [slice_ok (Nat.le_refl _) (by omega) fun range mem => (gap range mem).imp_left (by omega)]
        rfl
      refine ⟨_, run, rfl, ⟨le, fun _ => ?_, ?_⟩, ⟨pairs.1, pairs.2, ?_⟩⟩
      · show d.insertion ≤ row.1.2
        omega
      · rw [text_]
        show _ = remaining d.source gone 0 d.insertion ++ appended more ++
          remaining d.source gone d.insertion row.1.2
        rw [← remaining_append (Nat.zero_le cursor) before,
          ← remaining_append now (Nat.le_of_lt inner), remaining_self]
        simp only [Bool.false_eq_true, if_false, List.append_assoc, List.nil_append]
      · intro no
        cases no
    · have past : row.1.2 ≤ d.insertion := by
        have := outside row.1 (List.mem_map_of_mem List.mem_cons_self)
        omega
      have run : d.writeRow more ⟨output, cursor, false⟩ row =
          .ok ⟨output ++ remaining d.source gone cursor row.1.1 ++
            remaining d.source gone row.1.1 row.1.2, row.1.2, false⟩ := by
        unfold writeRow insertBefore
        rw [if_neg (fun here => now here.2), push]
        show (d.slice cursor row.1.1 >>= _) = _
        rw [slice_ok start (by omega) gap]
        rfl
      refine ⟨_, run, rfl, ⟨le, ?_, ?_⟩, ⟨pairs.1, pairs.2, fun _ => ⟨past, ?_⟩⟩⟩
      · intro no
        cases no
      · rw [text_]
        show _ = remaining d.source gone 0 row.1.2
        rw [← remaining_append (Nat.zero_le cursor) (show cursor ≤ row.1.2 by omega),
          ← remaining_append start (Nat.le_of_lt inner)]
        simp only [Bool.false_eq_true, if_false, List.append_assoc]
      · intro range mem
        exact outside range (List.mem_cons_of_mem _ mem)

end Step

/-- The end of the writer, when all rows are behind. -/
theorem finish_ok (insertion : d.insertion ≤ d.source.length) (pushed : Pushed d gone more w)
    (behind : ∀ range ∈ gone, range.2 ≤ w.cursor)
    (ahead : w.inserted = false → w.cursor ≤ d.insertion) :
    d.finish more w = .ok (remaining d.source gone 0 d.insertion ++ appended more ++
      remaining d.source gone d.insertion d.source.length) := by
  obtain ⟨output, cursor, inserted⟩ := w
  have inside := pushed.inside
  have text_ := pushed.output
  have after := pushed.behind
  dsimp only at behind ahead inside text_ after
  cases inserted with
  | true =>
    unfold finish insertLast
    rw [if_pos rfl]
    show (d.slice cursor d.source.length >>= _) = _
    rw [slice_ok inside (Nat.le_refl _) fun range mem => .inl (behind range mem), text_]
    show Except.ok _ = _
    rw [← remaining_append (after rfl) inside]
    simp only [if_true, List.append_assoc]
  | false =>
    have before := ahead rfl
    unfold finish insertLast
    rw [if_neg Bool.false_ne_true]
    show ((d.slice cursor d.insertion >>= _) >>= _) = _
    rw [slice_ok before insertion fun range mem => .inl (behind range mem)]
    show (d.slice d.insertion d.source.length >>= _) = _
    rw [slice_ok insertion (Nat.le_refl _) fun range mem => .inl ((behind range mem).trans before),
      text_]
    show Except.ok _ = _
    rw [← remaining_append (Nat.zero_le cursor) before]
    simp only [Bool.false_eq_true, if_false]

/-- In order, the writer writes what is left of the source, with the further rows. -/
theorem write_ok (insertion : d.insertion ≤ d.source.length)
    {rows : List ((Nat × Nat) × TableRow)} (these : Rows d gone w rows)
    (ahead : Ahead d w (rows.map Prod.fst)) (pushed : Pushed d gone more w) :
    (rows.foldlM (d.writeRow more) w >>= d.finish more) =
      .ok (remaining d.source gone 0 d.insertion ++ appended more ++
        remaining d.source gone d.insertion d.source.length) := by
  induction rows generalizing w with
  | nil =>
    apply finish_ok insertion pushed
    · intro range mem
      rcases these.cut range mem with behind | ⟨row, none_, -⟩
      · exact behind
      · cases none_
    · intro no
      exact (ahead.insertion no).1
  | cons row rest ih =>
    obtain ⟨w', run, cursor, pushed', ahead'⟩ := writeRow_ok insertion these ahead pushed
    rw [List.foldlM_cons, run]
    exact ih (these.tail ahead cursor) ahead' pushed'

theorem slice_cases (d : TableDocument) (a b : Nat) :
    d.slice a b = .error .panic ∨ a ≤ b ∧ ∃ t, d.slice a b = .ok t := by
  unfold slice
  by_cases fits : a ≤ b ∧ b ≤ d.source.length
  · exact .inr ⟨fits.1, _, if_pos fits⟩
  · exact .inl (if_neg fits)

/-- What is in order after a row, and before it, is in order from before it. -/
theorem Ahead.cons {w' : Writer} {range : Nat × Nat} {ranges : List (Nat × Nat)}
    (after : Ahead d w' ranges) (cursor : w'.cursor = range.2) (inner : range.1 < range.2)
    (start : w.cursor ≤ range.1)
    (insertion : w.inserted = false → w.cursor ≤ d.insertion ∧
      ∀ other ∈ range :: ranges, ¬ (other.1 < d.insertion ∧ d.insertion < other.2)) :
    Ahead d w (range :: ranges) := by
  have later : ∀ other ∈ ranges, range.2 ≤ other.1 := fun other mem =>
    cursor ▸ after.starts other mem
  refine ⟨?_, List.pairwise_cons.mpr ⟨later, after.rows⟩, insertion⟩
  intro other mem
  rcases List.mem_cons.mp mem with rfl | mem
  · exact start
  · have := later other mem
    omega

/-- Out of order, the writer panics. -/
theorem write_panic {rows : List ((Nat × Nat) × TableRow)}
    (within : ∀ row ∈ rows, row.1.1 < row.1.2) (not_ : ¬ Ahead d w (rows.map Prod.fst)) :
    (rows.foldlM (d.writeRow more) w >>= d.finish more) = .error .panic := by
  induction rows generalizing w with
  | nil =>
    obtain ⟨output, cursor, inserted⟩ := w
    cases inserted with
    | true =>
      refine absurd ⟨?_, .nil, ?_⟩ not_
      · intro range mem
        cases mem
      · intro no
        cases no
    | false =>
      have back : ¬ cursor ≤ d.insertion := by
        intro before
        refine not_ ⟨?_, .nil, fun _ => ⟨before, ?_⟩⟩
        · intro range mem
          cases mem
        · intro range mem
          cases mem
      show d.finish more _ = _
      unfold finish insertLast
      rw [if_neg Bool.false_ne_true]
      show ((d.slice cursor d.insertion >>= _) >>= _) = _
      rw [slice_panic back]
      rfl
  | cons row rest ih =>
    have inner := within row List.mem_cons_self
    have later : ∀ other ∈ rest, other.1.1 < other.1.2 := fun other mem =>
      within other (List.mem_cons_of_mem row mem)
    rw [List.foldlM_cons]
    obtain ⟨output, cursor, inserted⟩ := w
    unfold writeRow insertBefore
    cases inserted with
    | true =>
      rw [if_neg (by simp)]
      show ((d.slice cursor row.1.1 >>= _) >>= _) >>= _ = _
      rcases slice_cases d cursor row.1.1 with panic | ⟨start, t, run⟩
      · rw [panic]
        rfl
      · rw [run]
        apply ih later
        intro after
        refine not_ (after.cons rfl inner start ?_)
        intro no
        cases no
    | false =>
      by_cases now : d.insertion ≤ row.1.1
      · rw [if_pos ⟨rfl, now⟩]
        show (((d.slice cursor d.insertion >>= _) >>= _) >>= _) >>= _ = _
        rcases slice_cases d cursor d.insertion with panic | ⟨before, t, run⟩
        · rw [panic]
          rfl
        · rw [run]
          show (((d.slice d.insertion row.1.1 >>= _) >>= _) >>= _) >>= _ = _
          rcases slice_cases d d.insertion row.1.1 with panic | ⟨-, t', run'⟩
          · rw [panic]
            rfl
          · rw [run']
            show ((d.slice row.1.1 row.1.1 >>= _) >>= _) >>= _ = _
            rcases slice_cases d row.1.1 row.1.1 with panic | ⟨-, t'', run''⟩
            · rw [panic]
              rfl
            · rw [run'']
              apply ih later
              intro after
              refine not_ (after.cons rfl inner (show cursor ≤ row.1.1 by omega) ?_)
              intro _
              refine ⟨before, ?_⟩
              intro other mem
              rcases List.mem_cons.mp mem with rfl | mem
              · omega
              · have start : row.1.2 ≤ other.1 := after.starts other mem
                omega
      · rw [if_neg fun here => now here.2]
        show ((d.slice cursor row.1.1 >>= _) >>= _) >>= _ = _
        rcases slice_cases d cursor row.1.1 with panic | ⟨start, t, run⟩
        · rw [panic]
          rfl
        · rw [run]
          apply ih later
          intro after
          obtain ⟨past, outside⟩ := after.insertion rfl
          change row.1.2 ≤ d.insertion at past
          refine not_ (after.cons rfl inner start ?_)
          intro _
          refine ⟨show cursor ≤ d.insertion by omega, ?_⟩
          intro other mem
          rcases List.mem_cons.mp mem with rfl | mem
          · omega
          · exact outside other mem

/-! ## The whole document -/

/-- At the start the way ahead goes forward exactly if the ranges and the insertion point are in
order. -/
theorem ahead_start_iff : Ahead d ⟨[], 0, false⟩ d.rowRanges ↔ d.InOrder :=
  ⟨fun ahead => ⟨ahead.rows, (ahead.insertion rfl).2⟩, fun order =>
    ⟨fun _ _ => Nat.zero_le _, order.rows, fun _ => ⟨Nat.zero_le _, order.insertion⟩⟩⟩

/-- The ranges with their rows. -/
theorem zip_originals (d : TableDocument) (deleted : List Bool) :
    d.rowRanges.zip (d.originals deleted) = (d.rowRanges.zip deleted).map fun row =>
      (row.1, ⟨(d.source.drop row.1.1).take (row.1.2 - row.1.1), row.2⟩) := by
  unfold originals
  generalize d.rowRanges = ranges
  induction ranges generalizing deleted with
  | nil => rfl
  | cons range ranges ih =>
    cases deleted with
    | nil => rfl
    | cons flag deleted =>
      rw [List.zipWith_cons_cons, List.zip_cons_cons, List.zip_cons_cons, List.map_cons, ih]

/-- Each range comes with the row that it is the original of. -/
theorem rows_start (within : d.Within) (deleted : List Bool) :
    Rows d (d.removed deleted) ⟨[], 0, false⟩ (d.rowRanges.zip (d.originals deleted)) := by
  rw [zip_originals]
  refine ⟨?_, ?_, ?_, ?_⟩
  · intro row mem
    obtain ⟨pair, there, rfl⟩ := List.mem_map.mp mem
    exact within.rows pair.1 (List.of_mem_zip there).1
  · intro row mem
    obtain ⟨pair, there, rfl⟩ := List.mem_map.mp mem
    rfl
  · intro row mem flag
    obtain ⟨pair, there, rfl⟩ := List.mem_map.mp mem
    exact List.mem_map_of_mem (List.mem_filter.mpr ⟨there, flag⟩)
  · intro range mem
    obtain ⟨pair, there, rfl⟩ := List.mem_map.mp mem
    obtain ⟨inside, flag⟩ := List.mem_filter.mp there
    exact .inr ⟨_, List.mem_map_of_mem inside, rfl, flag⟩

/-- With nothing deleted and nothing further, the edited source is the source. -/
theorem edited_nothing (within : d.Within) :
    d.edited (List.replicate d.rowRanges.length false) [] = d.source := by
  have none_ : d.removed (List.replicate d.rowRanges.length false) = [] := by
    unfold removed
    rw [List.map_eq_nil_iff, List.filter_eq_nil_iff]
    intro pair mem flag
    rw [List.eq_of_mem_replicate (List.of_mem_zip mem).2] at flag
    cases flag
  unfold edited
  rw [none_]
  show _ ++ [] ++ _ = _
  rw [List.append_nil, remaining_append (Nat.zero_le _) within.insertion,
    remaining_eq_slice (Nat.zero_le _) (Nat.le_refl _) (by intro range mem; cases mem)]
  show List.take _ d.source = _
  exact List.take_length

/-- **A table is written back exactly if its rows come one after the other and the first `tbody` does
not close inside one of them**: then the result is the source without the deleted rows and with the
further ones at the insertion point, and without an edit it is the source. -/
theorem serialize_iff {source : Text} {d : TableDocument} (parsed : parse source = some d)
    (deleted : List Bool) (length : deleted.length = d.rowRanges.length) (more : List TableRow) :
    (d.serialize (d.originals deleted ++ more) = .ok (some (d.edited deleted more)) ↔ d.InOrder) ∧
      d.edited (List.replicate d.rowRanges.length false) [] = source := by
  obtain ⟨same, within⟩ := parse_within parsed
  refine ⟨?_, same ▸ edited_nothing within⟩
  have rows : (d.originals deleted).length = d.rowRanges.length := by
    unfold originals
    rw [List.length_zipWith, length, Nat.min_self]
  have zip : d.rowRanges.zip (d.originals deleted ++ more) =
      d.rowRanges.zip (d.originals deleted) := by
    have cut : (d.rowRanges ++ []).zip (d.originals deleted ++ more) =
        d.rowRanges.zip (d.originals deleted) ++ List.zip [] more := List.zip_append rows.symm
    rw [List.append_nil, List.zip_nil_left, List.append_nil] at cut
    exact cut
  have rest : (d.originals deleted ++ more).drop d.rowRanges.length = more := by
    rw [← rows, List.drop_left]
  have ranges : (d.rowRanges.zip (d.originals deleted)).map Prod.fst = d.rowRanges :=
    List.map_fst_zip (Nat.le_of_eq rows.symm)
  have these := rows_start within deleted
  have run : d.serialize (d.originals deleted ++ more) =
      (((d.rowRanges.zip (d.originals deleted)).foldlM (d.writeRow more) ⟨[], 0, false⟩ >>=
        d.finish more) >>= fun output => .ok (some output)) := by
    unfold serialize
    rw [if_neg (by rw [List.length_append]; omega), zip, rest, bind_assoc]
    rfl
  rw [run]
  constructor
  · intro ok
    by_contra disorder
    rw [write_panic (fun row mem => (these.within row mem).1)
      (by rw [ranges, ahead_start_iff]; exact disorder)] at ok
    cases ok
  · intro order
    have pushed : Pushed d (d.removed deleted) more ⟨[], 0, false⟩ := by
      refine ⟨Nat.zero_le _, ?_, (remaining_self 0).symm⟩
      intro no
      cases no
    rw [write_ok within.insertion these (by rw [ranges]; exact ahead_start_iff.mpr order) pushed]
    rfl

/-- A table whose first `tbody` closes inside a row. -/
def tbodyInCell : Text := text "<table><tr><td><tbody></tbody></td></tr></table>"

/-- Its state is built, and it cannot be written back, although nothing is edited. -/
theorem serialize_tbodyInCell : ∃ state, Usize.buildTableState (fun _ => none) tbodyInCell = .ok state ∧
    state.rows = state.document.originals [false] ∧
    state.document.serialize state.rows = .error .panic ∧
    state.document.edited [false] [] = tbodyInCell := by
  refine ⟨⟨⟨tbodyInCell, [(7, 40)], 22⟩, [⟨text "<tr><td><tbody></tbody></td></tr>", false⟩], 1,
    [⟨1, [1], [1], [[]], [[]]⟩], [(0, ⟨0, 1, 1⟩)], some ⟨0, 1, 1⟩, [1], ∅⟩, ?_, ?_, ?_, ?_⟩ <;>
    decide +kernel

/-- A table of two rows, with a `tbody`. -/
def plainTable : Text :=
  text "<table><tbody><tr><td>a</td></tr><tr><td>b</td></tr></tbody></table>"

/-- The first of two rows is kept, the second deleted, and a third one added. -/
theorem serialize_iff_plainTable : ∃ d, parse plainTable = some d ∧
    d.serialize (d.originals [false, true] ++ [⟨text "<tr><td>c</td></tr>", false⟩]) =
      .ok (some (d.edited [false, true] [⟨text "<tr><td>c</td></tr>", false⟩])) := by
  have parsed : parse plainTable = some ⟨plainTable, [(14, 33), (33, 52)], 52⟩ := by decide +kernel
  refine ⟨_, parsed, (serialize_iff parsed [false, true] rfl _).1.mpr ⟨?_, ?_⟩⟩ <;> decide

end TableDocument

end Mineru.Builders
