import Mineru.Vlm.Otsl

/-!
# OTSL encodes tables

A grid is tiled by rectangles with labels, and every place of the grid is written as one token.
While the places are read, `State` says which spans the cells have so far; at the end each span is
the one of its tile.

`otsl_html` reads the tokens one after another and corrects the spans of cells that it has already
written. So the induction is on the places in their order, and `State` has one case for each kind of
place: the corner of a tile, one further right, one further down, and one further on in both
directions (`State.turn_corner` to `State.turn_both`). The end of a row and the end of the table are
two more steps.

The theorem is about texts that encode a tiling. What the function makes of any other sequence of
tokens is not said.
-/

set_option autoImplicit false

namespace Mineru.Vlm

open Logic
open Matches (Free cut)

/-! ## Tokens -/

/-- The tokens, each with the text behind it. -/
abbrev Script := List (OtslToken × Text)

def render (script : Script) : Text := script.flatMap fun (token, t) => token.literal ++ t

/-- The tokens of a script, each with the text before it. -/
def shift : Text → Script → Matches.Pieces Char OtslToken
  | before, [] => ([], before)
  | before, (token, t) :: script => ((before, token) :: (shift t script).1, (shift t script).2)

theorem tokenAt_literal (token : OtslToken) (t : Text) :
    tokenAt (token.literal ++ t) = some (token, token.literal.length) := by
  cases token <;> rfl

theorem literal_tail (token : OtslToken) : ∀ c ∈ token.literal.tail, c ≠ '<' := by
  have all : token.literal.tail.all (fun c => c != '<') = true := by cases token <;> rfl
  intro c among
  simpa using List.all_eq_true.mp all c among

/-- A literal does not reach over the beginning of the next one. -/
theorem literal_behind (token : OtslToken) {u : Text} (nonempty : u ≠ []) (x : Text) :
    ((u ++ '<' :: x).take token.literal.length).map Char.toLower = token.literal ↔
      (u.take token.literal.length).map Char.toLower = token.literal := by
  by_cases short : token.literal.length ≤ u.length
  · rw [List.take_append_of_le_length short]
  · constructor
    · intro is
      obtain ⟨c, u, rfl⟩ := List.exists_cons_of_ne_nil nonempty
      have there := congrArg (fun t : Text => t[(c :: u).length]?) is
      have bracket : Char.toLower '<' = '<' := by decide
      rw [List.take_append, List.take_of_length_le (by omega)] at there
      obtain ⟨n, more⟩ : ∃ n, token.literal.length - (c :: u).length = n + 1 :=
        ⟨token.literal.length - (c :: u).length - 1, by omega⟩
      have place : (c :: u).length - (c.toLower :: u.map Char.toLower).length = 0 := by simp
      simp only [more, List.take_succ_cons, List.map_append, List.map_cons, bracket] at there
      rw [List.getElem?_append_right (by simp), place, List.getElem?_cons_zero] at there
      refine absurd rfl (literal_tail token '<' (List.mem_of_getElem? (i := u.length) ?_))
      rw [List.getElem?_tail]
      exact there.symm
    · intro is
      have size := congrArg List.length is
      rw [List.length_map, List.length_take] at size
      omega

/-- A token does not reach over the beginning of the next one. -/
theorem tokenAt_behind {u : Text} (nonempty : u ≠ []) (x : Text) :
    tokenAt (u ++ '<' :: x) = tokenAt u := by
  unfold tokenAt
  congr 1
  funext token
  simp only [literal_behind token nonempty x]

/-- A text in which no token begins. -/
def Tokenless (t : Text) : Prop := Free tokenAt t []

/-- A label cannot be mistaken for a token, nor together with the token behind it. -/
theorem free_of_tokenless {t x : Text} (tokenless : Tokenless t)
    (next : x = [] ∨ ∃ y, x = '<' :: y) : Free tokenAt t x := by
  rcases next with rfl | ⟨y, rfl⟩
  · exact tokenless
  · induction t with
    | nil => trivial
    | cons c t ih =>
      obtain ⟨none, rest⟩ := tokenless
      refine ⟨?_, ih rest⟩
      rw [← List.cons_append, tokenAt_behind (List.cons_ne_nil c t)]
      rwa [List.append_nil] at none

/-- The search finds the tokens of a script. -/
theorem cut_render {before : Text} {script : Script} (first : Tokenless before)
    (texts : ∀ e ∈ script, Tokenless e.2) :
    cut tokenAt 0 (before ++ render script) = shift before script := by
  induction script generalizing before with
  | nil =>
    rw [render, List.flatMap_nil, List.append_nil]
    exact Matches.cut_free first
  | cons e script ih =>
    obtain ⟨token, t⟩ := e
    have rest := ih (texts _ List.mem_cons_self)
      fun e among => texts e (List.mem_cons_of_mem _ among)
    have is : render ((token, t) :: script) = token.literal ++ (t ++ render script) := by
      simp [render]
    have next : token.literal ++ (t ++ render script) = [] ∨
        ∃ y, token.literal ++ (t ++ render script) = '<' :: y := Or.inr ⟨_, rfl⟩
    rw [is, Matches.cut_gap (free_of_tokenless first next),
      Matches.cut_match (tokenAt_literal token _) (by simp [OtslToken.literal]), rest, shift,
      Matches.before, List.append_nil]

/-! ## The loop -/

/-- The loop over the tokens, each with the text behind it. -/
def play (s : Otsl) (script : Script) : Otsl :=
  script.foldl (fun s e => (s.token e.1).textBefore e.2) s

theorem finish_nil (s : Otsl) : s.finish [] = (s.textBefore []).rows := by
  obtain ⟨rows, _ | ⟨row, column⟩⟩ := s <;> rfl

/-- The loop does the same when each text is read with the token before it. -/
theorem loop_eq_play (s : Otsl) (before : Text) (script : Script) (token : OtslToken) :
    ((shift before (script ++ [(token, [])])).1.foldl Otsl.next s).finish
        (shift before (script ++ [(token, [])])).2 =
      (play (s.textBefore before) (script ++ [(token, [])])).rows := by
  induction script generalizing s before with
  | nil => exact finish_nil _
  | cons e script ih => exact ih _ _

/-! ## Places -/

/-- The lengths of the rows. -/
def lengths (rows : Rows) : List Nat := rows.map List.length

/-- One cell is changed, and the others stay. -/
theorem cellAt_modifyCell (rows : Rows) (row column i j : Nat) (f : Cell → Cell) :
    cellAt (modifyCell rows row column f) i j =
      if i = row ∧ j = column then (cellAt rows i j).map f else cellAt rows i j := by
  unfold cellAt modifyCell
  rw [List.getElem?_modify]
  by_cases first : row = i
  · subst first
    cases found : rows[row]? with
    | none => simp
    | some cells =>
      by_cases second : column = j
      · subst second
        simp
      · simp [second, Ne.symm second]
  · simp [first, Ne.symm first]

/-- The shape of the rows stays when a cell is changed. -/
theorem lengths_modifyCell (rows : Rows) (row column : Nat) (f : Cell → Cell) :
    lengths (modifyCell rows row column f) = lengths rows := by
  unfold lengths modifyCell
  refine List.ext_getElem? fun i => ?_
  rw [List.getElem?_map, List.getElem?_map, List.getElem?_modify]
  by_cases same : row = i
  · cases rows[i]? <;> simp [same]
  · cases rows[i]? <;> simp [same]

theorem modifyCell_id (rows : Rows) (row column : Nat) : modifyCell rows row column id = rows := by
  have same : (fun cells : List Cell => cells.modify column id) = id :=
    funext fun cells => List.modify_id column cells
  rw [modifyCell, same, List.modify_id]

theorem lastLength_eq (rows : Rows) : lastLength rows = ((lengths rows).getLast?).getD 0 := by
  rw [lastLength, lengths, List.getLast?_map]

theorem exists_last {rows : Rows} {full : List Nat} {j : Nat} (shape : lengths rows = full ++ [j]) :
    ∃ above last, rows = above ++ [last] ∧ lengths above = full ∧ last.length = j := by
  obtain ⟨above, last, rfl, isFull, isLast⟩ := List.map_eq_append_iff.mp shape
  obtain ⟨cells, none, rfl, isLength, isNone⟩ := List.map_eq_cons_iff.mp isLast
  obtain rfl := List.map_eq_nil_iff.mp isNone
  exact ⟨above, cells, rfl, isFull, isLength⟩

theorem pushCell_eq (above : Rows) (last : List Cell) (cell : Cell) :
    pushCell (above ++ [last]) cell = above ++ [last ++ [cell]] := by
  unfold pushCell
  rw [List.length_append, List.length_singleton, Nat.add_sub_cancel, List.modify_eq_set_getElem?]
  simp

theorem lengths_pushCell {rows : Rows} {full : List Nat} {j : Nat}
    (shape : lengths rows = full ++ [j]) (cell : Cell) :
    lengths (pushCell rows cell) = full ++ [j + 1] := by
  obtain ⟨above, last, rfl, rfl, rfl⟩ := exists_last shape
  rw [pushCell_eq]
  simp [lengths]

/-- A new cell comes last in the last row. -/
theorem cellAt_pushCell {rows : Rows} {full : List Nat} {j : Nat}
    (shape : lengths rows = full ++ [j]) (cell : Cell) (i k : Nat) :
    cellAt (pushCell rows cell) i k =
      if i = full.length ∧ k = j then some cell else cellAt rows i k := by
  obtain ⟨above, last, rfl, rfl, rfl⟩ := exists_last shape
  rw [pushCell_eq, lengths, List.length_map]
  unfold cellAt
  by_cases lastRow : i = above.length
  · subst lastRow
    rw [List.getElem?_append_right (Nat.le_refl _), List.getElem?_append_right (Nat.le_refl _),
      Nat.sub_self, List.getElem?_cons_zero, List.getElem?_cons_zero, Option.bind_some,
      Option.bind_some, List.getElem?_append]
    by_cases new : k = last.length
    · simp [new]
    · by_cases old : k < last.length
      · simp [new, old]
      · have past : last.length < k := by omega
        simp [new, old]
        omega
  · rw [if_neg fun both => lastRow both.1]
    by_cases before : i < above.length
    · rw [List.getElem?_append_left before, List.getElem?_append_left before]
    · have past : ∀ last : List Cell, (above ++ [last])[i]? = none := fun last =>
        List.getElem?_eq_none (by rw [List.length_append, List.length_singleton]; omega)
      rw [past, past]

/-! ## Tilings -/

structure Tile where
  top : Nat
  left : Nat
  height : Nat
  width : Nat
  label : Text

def Tile.Covers (t : Tile) (i j : Nat) : Prop :=
  t.top ≤ i ∧ i < t.top + t.height ∧ t.left ≤ j ∧ j < t.left + t.width

/-- A grid of rectangles: each place has one, which lies in the grid and is the one of all its
places. -/
structure Tiling (r c : Nat) where
  tile : Nat → Nat → Tile
  covers : ∀ i j, i < r → j < c → (tile i j).Covers i j
  inside : ∀ i j, i < r → j < c →
    (tile i j).top + (tile i j).height ≤ r ∧ (tile i j).left + (tile i j).width ≤ c
  same : ∀ i j, i < r → j < c → ∀ i' j', (tile i j).Covers i' j' → tile i' j' = tile i j

/-- The token of a place, with the text behind it. -/
def Tile.entry (t : Tile) (i j : Nat) : OtslToken × Text :=
  if t.top = i then
    if t.left = j then if t.label = [] then (.ecel, []) else (.fcel, t.label)
    else (.lcel, [])
  else if t.left = j then (.ucel, [])
  else (.xcel, [])

variable {r c : Nat} (T : Tiling r c)

/-- The tiling, written row by row. -/
def Tiling.script : Script :=
  (List.range r).flatMap fun i =>
    (List.range c).map (fun j => (T.tile i j).entry i j) ++ [(.nl, [])]

def Tiling.encode : Text := render T.script

/-- The columns of a tile that have been read before the place `(i, j)`. -/
def Tile.columnsRead (t : Tile) (i j : Nat) : Nat :=
  if t.top = i then min j (t.left + t.width) - t.left else t.width

def Tile.rowsRead (t : Tile) (i j : Nat) : Nat :=
  min (i + if t.left < j then 1 else 0) (t.top + t.height) - t.top

/-- The cell at a place, when everything before `(i, j)` has been read. -/
def Tile.cell (t : Tile) (i j i' j' : Nat) : Cell :=
  if t.top = i' ∧ t.left = j' then ⟨t.label, t.columnsRead i j, t.rowsRead i j, false, none⟩
  else .hiddenBy (some (t.top, t.left))

/-- The place has been read. -/
def Before (c i j i' j' : Nat) : Prop := (i' < i ∧ j' < c) ∨ (i' = i ∧ j' < j)

/-- Everything before the place `(i, j)` has been read. -/
structure State (i j : Nat) (s : Otsl) : Prop where
  current : s.current = none
  shape : lengths s.rows = List.replicate i c ++ [j]
  cells : ∀ i' j', Before c i j i' j' → cellAt s.rows i' j' = some ((T.tile i' j').cell i j i' j')

variable {T}

section Turn

variable {i j : Nat} {s : Otsl} (state : State T i j s) (hi : i < r) (hj : j < c)

include state in
/-- The owner of a place is the corner of its tile. -/
theorem State.owner {i' j' : Nat} (before : Before c i j i' j') :
    ownerAt s.rows i' j' = some ((T.tile i' j').top, (T.tile i' j').left) := by
  rw [ownerAt, state.cells i' j' before, Option.bind_some, Tile.cell]
  by_cases corner : (T.tile i' j').top = i' ∧ (T.tile i' j').left = j'
  · rw [if_pos corner, corner.1, corner.2]
    rfl
  · rw [if_neg corner]
    rfl

/-- A cell that has grown by the place `(i, j)`. -/
def Tile.grown (t : Tile) (i j i' j' : Nat) (cell : Cell) : Cell :=
  if i' = t.top ∧ j' = t.left then
    { cell with
      colspan := cell.colspan + if t.top = i then 1 else 0
      rowspan := cell.rowspan + if t.left = j then 1 else 0 }
  else cell

include hi hj in
/-- The place `(i, j)` counts for its own tile alone. -/
theorem cell_advance {i' j' : Nat} (before : Before c i j i' j') :
    (T.tile i' j').cell i (j + 1) i' j' =
      (T.tile i j).grown i j i' j' ((T.tile i' j').cell i j i' j') := by
  have hi' : i' < r := by
    unfold Before at before
    omega
  have hj' : j' < c := by
    unfold Before at before
    omega
  have mine := T.covers i j hi hj
  have theirs := T.covers i' j' hi' hj'
  have single := T.same i' j' hi' hj' i j
  have sole := T.same i j hi hj i' j'
  unfold Before at before
  unfold Tile.Covers at mine theirs single sole
  by_cases corner : (T.tile i' j').top = i' ∧ (T.tile i' j').left = j'
  · by_cases own : i' = (T.tile i j).top ∧ j' = (T.tile i j).left
    · have is : T.tile i' j' = T.tile i j := sole (by omega)
      rw [is] at corner theirs ⊢
      unfold Tile.cell Tile.grown
      rw [if_pos corner, if_pos own, if_pos corner]
      simp only [Tile.columnsRead, Tile.rowsRead, Cell.mk.injEq, true_and, and_true]
      constructor
      · split_ifs <;> omega
      · split_ifs <;> omega
    · have apart : ¬ ((T.tile i' j').top ≤ i ∧ i < (T.tile i' j').top + (T.tile i' j').height ∧
          (T.tile i' j').left ≤ j ∧ j < (T.tile i' j').left + (T.tile i' j').width) := by
        intro covers
        rw [single covers] at own
        omega
      unfold Tile.cell Tile.grown
      rw [if_pos corner, if_neg own, if_pos corner]
      simp only [Tile.columnsRead, Tile.rowsRead, Cell.mk.injEq, true_and, and_true]
      constructor
      · split_ifs <;> omega
      · split_ifs <;> omega
  · have other : ¬ (i' = (T.tile i j).top ∧ j' = (T.tile i j).left) := by
      intro own
      rw [sole (by omega)] at corner
      omega
    unfold Tile.cell Tile.grown
    rw [if_neg corner, if_neg other, if_neg corner]

include state hi hj in
/-- A turn that adds the cell of the place and lets its tile grow. -/
theorem State.next {s' : Otsl} (current : s'.current = none)
    (shape : lengths s'.rows = List.replicate i c ++ [j + 1])
    (cells : ∀ i' j', cellAt s'.rows i' j' =
      if i' = i ∧ j' = j then some ((T.tile i j).cell i (j + 1) i j)
      else (cellAt s.rows i' j').map ((T.tile i j).grown i j i' j')) : State T i (j + 1) s' := by
  refine ⟨current, shape, fun i' j' before => ?_⟩
  rw [cells]
  by_cases here : i' = i ∧ j' = j
  · obtain ⟨rfl, rfl⟩ := here
    rw [if_pos ⟨rfl, rfl⟩]
  · have earlier : Before c i j i' j' := by
      unfold Before at before ⊢
      omega
    rw [if_neg here, state.cells i' j' earlier, Option.map_some, cell_advance hi hj earlier]

include state in
theorem State.length : s.rows.length = i + 1 := by
  have sizes := congrArg List.length state.shape
  rwa [lengths, List.length_map, List.length_append, List.length_replicate] at sizes

include state in
theorem State.lastLength : lastLength s.rows = j := by
  rw [lastLength_eq, state.shape, List.getLast?_append]
  rfl

theorem textBefore_nil {s : Otsl} (current : s.current = none) : s.textBefore [] = s := by
  obtain ⟨rows, _⟩ := s
  obtain rfl : _ = none := current
  rfl

include state in
theorem State.cellAt_push (cell : Cell) (i' j' : Nat) :
    cellAt (pushCell s.rows cell) i' j' =
      if i' = i ∧ j' = j then some cell else cellAt s.rows i' j' := by
  rw [cellAt_pushCell state.shape, List.length_replicate]

include hi hj in
/-- The first cell of a tile has a span of one so far. -/
theorem cell_corner (corner : (T.tile i j).top = i ∧ (T.tile i j).left = j) :
    (T.tile i j).cell i (j + 1) i j = .new (T.tile i j).label := by
  have mine := T.covers i j hi hj
  unfold Tile.Covers at mine
  unfold Tile.cell Tile.columnsRead Tile.rowsRead
  rw [if_pos corner, if_pos corner.1, if_pos (by omega)]
  simp only [Cell.new, Cell.mk.injEq, and_true, true_and]
  omega

include state hi hj in
/-- The corner of a tile is written as a cell with its label, and spans one place so far. -/
theorem State.turn_corner (corner : (T.tile i j).top = i ∧ (T.tile i j).left = j)
    (trimmed : trim (T.tile i j).label = (T.tile i j).label) :
    State T i (j + 1)
      ((s.token ((T.tile i j).entry i j).1).textBefore ((T.tile i j).entry i j).2) := by
  have still : ∀ i' j', ¬ (i' = i ∧ j' = j) →
      (cellAt s.rows i' j').map ((T.tile i j).grown i j i' j') = cellAt s.rows i' j' := by
    intro i' j' other
    have : (T.tile i j).grown i j i' j' = id := by
      funext cell
      rw [Tile.grown, if_neg (by omega)]
      rfl
    rw [this, Option.map_id, id]
  unfold Tile.entry
  rw [if_pos corner.1, if_pos corner.2]
  by_cases empty : (T.tile i j).label = []
  · rw [if_pos empty]
    have token : (s.token .ecel).textBefore [] = { s with rows := pushCell s.rows (.new []) } :=
      textBefore_nil (s := s.token .ecel) state.current
    dsimp only
    rw [token]
    refine state.next hi hj state.current (lengths_pushCell state.shape _) fun i' j' => ?_
    rw [state.cellAt_push, cell_corner hi hj corner, empty]
    split_ifs with here
    · rfl
    · rw [still i' j' here]
  · rw [if_neg empty]
    have token : (s.token .fcel).textBefore (T.tile i j).label =
        { rows := modifyCell (pushCell s.rows (.new [])) i j fun cell =>
            { cell with text := cell.text ++ (T.tile i j).label }
          current := none } := by
      unfold Otsl.token Otsl.textBefore
      dsimp only
      rw [state.length, state.lastLength, trimmed]
      rfl
    dsimp only
    rw [token]
    refine state.next hi hj rfl ?_ fun i' j' => ?_
    · rw [lengths_modifyCell, lengths_pushCell state.shape]
    · rw [cellAt_modifyCell, state.cellAt_push, cell_corner hi hj corner]
      split_ifs with here
      · rfl
      · rw [still i' j' here]

include state in
/-- A hidden cell behind cells of which one has changed. -/
theorem State.cellAt_hide (f : Cell → Cell) (owner : Nat × Nat) (i' j' : Nat) :
    cellAt (pushCell (modifyCell s.rows owner.1 owner.2 f) (.hiddenBy (some owner))) i' j' =
      if i' = i ∧ j' = j then some (.hiddenBy (some owner))
      else if i' = owner.1 ∧ j' = owner.2 then (cellAt s.rows i' j').map f
      else cellAt s.rows i' j' := by
  have shape : lengths (modifyCell s.rows owner.1 owner.2 f) = List.replicate i c ++ [j] := by
    rw [lengths_modifyCell, state.shape]
  rw [cellAt_pushCell shape, List.length_replicate, cellAt_modifyCell]

/-- Any other place of a tile is written as a cell that its corner hides. -/
theorem cell_hidden (other : ¬ ((T.tile i j).top = i ∧ (T.tile i j).left = j)) :
    (T.tile i j).cell i (j + 1) i j = .hiddenBy (some ((T.tile i j).top, (T.tile i j).left)) :=
  if_neg other

include state hi hj in
/-- A turn that hides the place and lets the corner of its tile grow. -/
theorem State.hide {s' : Otsl} {f : Cell → Cell}
    (other : ¬ ((T.tile i j).top = i ∧ (T.tile i j).left = j)) (current : s'.current = none)
    (rows : s'.rows = pushCell (modifyCell s.rows (T.tile i j).top (T.tile i j).left f)
      (.hiddenBy (some ((T.tile i j).top, (T.tile i j).left))))
    (grows : ∀ cell, f cell =
      (T.tile i j).grown i j (T.tile i j).top (T.tile i j).left cell) : State T i (j + 1) s' := by
  refine state.next hi hj current ?_ fun i' j' => ?_
  · rw [rows, lengths_pushCell]
    rw [lengths_modifyCell, state.shape]
  · rw [rows, state.cellAt_hide f ((T.tile i j).top, (T.tile i j).left), cell_hidden other]
    split_ifs with here own
    · rfl
    · obtain ⟨rfl, rfl⟩ := own
      rw [funext grows]
    · have same : (T.tile i j).grown i j i' j' = id := by
        funext cell
        exact if_neg own
      rw [same, Option.map_id, id]

include state hi hj in
/-- The place to the left belongs to the same tile, if the tile does not start here. -/
theorem State.leftOwner_eq (left : (T.tile i j).left ≠ j) :
    leftOwner s.rows = some ((T.tile i j).top, (T.tile i j).left) := by
  have mine := T.covers i j hi hj
  have sole := T.same i j hi hj i (j - 1)
  unfold Tile.Covers at mine sole
  unfold leftOwner
  rw [state.lastLength, if_neg (by omega), state.length, Nat.add_sub_cancel,
    state.owner (Or.inr ⟨rfl, by omega⟩), sole (by omega)]

include state hi hj in
/-- So does the place above. -/
theorem State.upOwner_eq (top : (T.tile i j).top ≠ i) :
    upOwner s.rows = some ((T.tile i j).top, (T.tile i j).left) := by
  have mine := T.covers i j hi hj
  have sole := T.same i j hi hj (i - 1) j
  unfold Tile.Covers at mine sole
  unfold upOwner
  rw [state.lastLength, state.length, if_neg (by omega), show i + 1 - 2 = i - 1 by omega,
    state.owner (Or.inl ⟨by omega, hj⟩), sole (by omega)]

include state hi hj in
/-- A place that belongs to the cell on its left. -/
theorem State.turn_left (top : (T.tile i j).top = i) (left : (T.tile i j).left ≠ j) :
    State T i (j + 1)
      ((s.token ((T.tile i j).entry i j).1).textBefore ((T.tile i j).entry i j).2) := by
  have token : (s.token .lcel).textBefore [] = { s with rows := extendLeft s.rows } :=
    textBefore_nil (s := s.token .lcel) state.current
  unfold Tile.entry
  rw [if_pos top, if_neg left]
  dsimp only
  rw [token]
  refine state.hide hi hj (f := fun cell => { cell with colspan := cell.colspan + 1 })
    (fun corner => left corner.2) state.current ?_ fun cell => ?_
  · unfold extendLeft
    dsimp only
    rw [state.leftOwner_eq hi hj left]
    rfl
  · rw [Tile.grown, if_pos ⟨rfl, rfl⟩, if_pos top, if_neg left]
    rfl

include state hi hj in
/-- A place that belongs to the cell above it. -/
theorem State.turn_up (top : (T.tile i j).top ≠ i) (left : (T.tile i j).left = j) :
    State T i (j + 1)
      ((s.token ((T.tile i j).entry i j).1).textBefore ((T.tile i j).entry i j).2) := by
  have token : (s.token .ucel).textBefore [] = { s with rows := extendUp s.rows } :=
    textBefore_nil (s := s.token .ucel) state.current
  unfold Tile.entry
  rw [if_neg top, if_pos left]
  dsimp only
  rw [token]
  refine state.hide hi hj (f := fun cell => { cell with rowspan := cell.rowspan + 1 })
    (fun corner => top corner.1) state.current ?_ fun cell => ?_
  · unfold extendUp
    dsimp only
    rw [state.upOwner_eq hi hj top]
    rfl
  · rw [Tile.grown, if_pos ⟨rfl, rfl⟩, if_neg top, if_pos left]
    rfl

include state hi hj in
/-- A place inside a tile: the owners on the left and above are the same. -/
theorem State.turn_both (top : (T.tile i j).top ≠ i) (left : (T.tile i j).left ≠ j) :
    State T i (j + 1)
      ((s.token ((T.tile i j).entry i j).1).textBefore ((T.tile i j).entry i j).2) := by
  have token : (s.token .xcel).textBefore [] = { s with rows := extendBoth s.rows } :=
    textBefore_nil (s := s.token .xcel) state.current
  unfold Tile.entry
  rw [if_neg top, if_neg left]
  dsimp only
  rw [token]
  refine state.hide hi hj (f := id) (fun corner => top corner.1) state.current ?_ fun cell => ?_
  · unfold extendBoth
    rw [state.leftOwner_eq hi hj left, state.upOwner_eq hi hj top]
    dsimp only
    rw [if_pos rfl, modifyCell_id]
  · rw [Tile.grown, if_pos ⟨rfl, rfl⟩, if_neg top, if_neg left]
    rfl

end Turn

/-- A place is read. -/
theorem State.turn {i j : Nat} {s : Otsl} (state : State T i j s) (hi : i < r) (hj : j < c)
    (trimmed : trim (T.tile i j).label = (T.tile i j).label) :
    State T i (j + 1)
      ((s.token ((T.tile i j).entry i j).1).textBefore ((T.tile i j).entry i j).2) := by
  by_cases top : (T.tile i j).top = i
  · by_cases left : (T.tile i j).left = j
    · exact state.turn_corner hi hj ⟨top, left⟩ trimmed
    · exact state.turn_left hi hj top left
  · by_cases left : (T.tile i j).left = j
    · exact state.turn_up hi hj top left
    · exact state.turn_both hi hj top left

/-- The spans at the end of a row. -/
theorem cell_row {i i' j' : Nat} (hi : i < r) (hi' : i' ≤ i) (hj' : j' < c) :
    (T.tile i' j').cell (i + 1) 0 i' j' = (T.tile i' j').cell i c i' j' := by
  have theirs := T.covers i' j' (by omega) hj'
  have inside := T.inside i' j' (by omega) hj'
  unfold Tile.Covers at theirs
  unfold Tile.cell
  by_cases corner : (T.tile i' j').top = i' ∧ (T.tile i' j').left = j'
  · rw [if_pos corner, if_pos corner]
    simp only [Tile.columnsRead, Tile.rowsRead, Cell.mk.injEq, true_and, and_true]
    constructor
    · split_ifs <;> omega
    · split_ifs <;> omega
  · rw [if_neg corner, if_neg corner]

/-- A row is read. -/
theorem State.row {i : Nat} {s : Otsl} (state : State T i 0 s) (hi : i < r)
    (trimmed : ∀ j, j < c → trim (T.tile i j).label = (T.tile i j).label) :
    State T (i + 1) 0
      (play s ((List.range c).map (fun j => (T.tile i j).entry i j) ++ [(.nl, [])])) := by
  have part : ∀ j, j ≤ c →
      State T i j (play s ((List.range j).map fun j => (T.tile i j).entry i j)) := by
    intro j
    induction j with
    | zero => exact fun _ => state
    | succ j ih =>
      intro le
      rw [List.range_succ, List.map_append, play, List.foldl_append]
      exact (ih (by omega)).turn hi (by omega) (trimmed j (by omega))
  have whole := part c le_rfl
  rw [play, List.foldl_append]
  change State T (i + 1) 0
    (((play s ((List.range c).map fun j => (T.tile i j).entry i j)).token .nl).textBefore [])
  rw [textBefore_nil (s := (play s _).token .nl) whole.current]
  refine ⟨whole.current, ?_, fun i' j' before => ?_⟩
  · change lengths (_ ++ [[]]) = _
    have shape := whole.shape
    unfold lengths at shape ⊢
    rw [List.map_append, shape, List.replicate_succ']
    rfl
  · have earlier : i' ≤ i ∧ j' < c := by
      unfold Before at before
      omega
    rw [cell_row hi earlier.1 earlier.2, ← whole.cells i' j' (by unfold Before; omega)]
    change cellAt (_ ++ [[]]) i' j' = _
    unfold cellAt
    rw [List.getElem?_append_left (by rw [whole.length]; omega)]

/-- The whole tiling is read. -/
theorem State.all (T : Tiling r c)
    (trimmed : ∀ i j, i < r → j < c → trim (T.tile i j).label = (T.tile i j).label) :
    State T r 0 (play ⟨[[]], none⟩ T.script) := by
  have part : ∀ i, i ≤ r → State T i 0 (play ⟨[[]], none⟩ ((List.range i).flatMap fun i =>
      (List.range c).map (fun j => (T.tile i j).entry i j) ++ [(.nl, [])])) := by
    intro i
    induction i with
    | zero =>
      refine fun _ => ⟨rfl, rfl, fun i' j' before => ?_⟩
      unfold Before at before
      omega
    | succ i ih =>
      intro le
      rw [List.range_succ, List.flatMap_append, List.flatMap_singleton, play, List.foldl_append]
      exact (ih (by omega)).row (by omega) fun j hj => trimmed i j (by omega) hj
  exact part r le_rfl

/-- The cell of a place in the finished table. -/
def Tile.finished (t : Tile) (i j : Nat) : Cell :=
  if t.top = i ∧ t.left = j then ⟨t.label, t.width, t.height, false, none⟩
  else .hiddenBy (some (t.top, t.left))

/-- At the end the corner of a tile spans all of it. -/
theorem cell_finished {i j : Nat} (hi : i < r) (hj : j < c) :
    (T.tile i j).cell r 0 i j = (T.tile i j).finished i j := by
  have theirs := T.covers i j hi hj
  have inside := T.inside i j hi hj
  unfold Tile.Covers at theirs
  unfold Tile.cell Tile.finished
  by_cases corner : (T.tile i j).top = i ∧ (T.tile i j).left = j
  · rw [if_pos corner, if_pos corner]
    simp only [Tile.columnsRead, Tile.rowsRead, Cell.mk.injEq, true_and, and_true]
    constructor
    · split_ifs <;> omega
    · split_ifs <;> omega
  · rw [if_neg corner, if_neg corner]

/-- The rows at the end. -/
theorem State.rows_eq {s : Otsl} (state : State T r 0 s) : s.rows =
    (List.range r).map (fun i => (List.range c).map fun j => (T.tile i j).finished i j) ++ [[]] := by
  obtain ⟨above, last, is, full, none⟩ := exists_last state.shape
  obtain rfl := List.length_eq_zero_iff.mp none
  have size : above.length = r := by
    have := congrArg List.length full
    rwa [lengths, List.length_map, List.length_replicate] at this
  rw [is]
  congr 1
  refine List.ext_getElem? fun i => ?_
  rw [List.getElem?_map]
  by_cases hi : i < r
  · have there : above[i]? = some above[i] := List.getElem?_eq_getElem (by omega)
    have width : above[i].length = c := by
      have := congrArg (fun l : List Nat => l[i]?) full
      rw [lengths, List.getElem?_map, there, Option.map_some,
        List.getElem?_replicate_of_lt hi] at this
      exact Option.some.inj this
    rw [there, List.getElem?_range hi, Option.map_some]
    refine congrArg some (List.ext_getElem? fun j => ?_)
    rw [List.getElem?_map]
    by_cases hj : j < c
    · have cell := state.cells i j (Or.inl ⟨hi, hj⟩)
      rw [cell_finished hi hj, is, cellAt, List.getElem?_append_left (by omega), there,
        Option.bind_some] at cell
      rw [cell, List.getElem?_range hj, Option.map_some]
    · rw [List.getElem?_eq_none (by omega), List.getElem?_eq_none (by simpa using hj),
        Option.map_none]
  · rw [List.getElem?_eq_none (by omega), List.getElem?_eq_none (by simpa using hi),
      Option.map_none]

/-! ## The table -/

/-- A trimmed text without a token and without the tag of an embedded image. -/
structure Label (t : Text) : Prop where
  trimmed : trim t = t
  tokenless : Tokenless t
  imageless : Free dataImageAt t []

theorem escapeCell_label {t : Text} (label : Label t) : escapeCell t = escapeAttr t := by
  unfold escapeCell
  rw [Matches.cut_free label.imageless]
  rfl

/-- The cell of a tile, at its corner. -/
def Tile.html (t : Tile) (i j : Nat) : Text :=
  if t.top = i ∧ t.left = j then tableData t.width t.height (escapeAttr t.label) else []

/-- The HTML of a finished cell is that of its tile, and nothing for the hidden ones. -/
theorem finished_html {t : Tile} (label : Label t.label) (i j : Nat) :
    (t.finished i j).html = t.html i j := by
  unfold Tile.finished Tile.html
  split_ifs
  · rw [Cell.html, if_neg Bool.false_ne_true, escapeCell_label label]
  · rfl

theorem entry_tokenless {t : Tile} (label : Tokenless t.label) (i j : Nat) :
    Tokenless (t.entry i j).2 := by
  unfold Tile.entry
  split_ifs
  · trivial
  · exact label
  · trivial
  · trivial
  · trivial

/-- The whole script is free of accidental tokens. -/
theorem script_tokenless (labels : ∀ i j, i < r → j < c → Tokenless (T.tile i j).label) :
    ∀ e ∈ T.script, Tokenless e.2 := by
  intro e among
  obtain ⟨i, hi, there⟩ := List.mem_flatMap.mp among
  rcases List.mem_append.mp there with place | last
  · obtain ⟨j, hj, rfl⟩ := List.mem_map.mp place
    exact entry_tokenless (labels i j (List.mem_range.mp hi) (List.mem_range.mp hj)) i j
  · rw [List.mem_singleton.mp last]
    trivial

/-- A script ends with the end of its last row. -/
theorem script_ends (T : Tiling r c) (hr : 0 < r) : ∃ script, T.script = script ++ [(.nl, [])] := by
  obtain ⟨r, rfl⟩ := Nat.exists_eq_succ_of_ne_zero (Nat.ne_of_gt hr)
  unfold Tiling.script
  rw [List.range_succ, List.flatMap_append, List.flatMap_singleton, ← List.append_assoc]
  exact ⟨_, rfl⟩

/-- **A tiling that is written as OTSL comes back as a table**: for each row the cells of the tiles
whose corner lies in it, from left to right, each with its spans and its escaped label. And each
tile has one corner, so it is written once. -/
theorem otslHtml_encode (T : Tiling r c) (hr : 0 < r) (hc : 0 < c)
    (labels : ∀ i j, i < r → j < c → Label (T.tile i j).label) :
    otslHtml T.encode = tableOf ((List.range r).flatMap fun i =>
        tableRow ((List.range c).flatMap fun j => (T.tile i j).html i j)) ∧
      ∀ i j, i < r → j < c → T.tile (T.tile i j).top (T.tile i j).left = T.tile i j := by
  refine ⟨?_, fun i j hi hj => T.same i j hi hj _ _ ?_⟩
  · have token : OtslToken.all.any (fun token => T.encode.tails.any token.literal.isPrefixOf) =
        true := by
      obtain ⟨script, is⟩ := script_ends T hr
      have ends : T.encode = render script ++ OtslToken.nl.literal := by
        rw [Tiling.encode, is]
        simp [render]
      refine List.any_eq_true.mpr ⟨.nl, by decide,
        List.any_eq_true.mpr ⟨OtslToken.nl.literal, ?_, ?_⟩⟩
      · rw [ends, List.mem_tails]
        exact List.suffix_append _ _
      · exact List.isPrefixOf_iff_prefix.mpr List.prefix_rfl
    have first : Tokenless [] := trivial
    have found : cut tokenAt 0 T.encode = shift [] T.script :=
      cut_render first (script_tokenless fun i j hi hj => (labels i j hi hj).tokenless)
    have rows : ((shift [] T.script).1.foldl Otsl.next ⟨[[]], none⟩).finish (shift [] T.script).2 =
        (List.range r).map (fun i => (List.range c).map fun j => (T.tile i j).finished i j) ++
          [[]] := by
      rw [← (State.all T fun i j hi hj => (labels i j hi hj).trimmed).rows_eq]
      obtain ⟨script, is⟩ := script_ends T hr
      rw [is]
      exact loop_eq_play _ [] script .nl
    unfold otslHtml
    rw [token, found]
    dsimp only
    rw [rows]
    have full : ((List.range r).map fun i => (List.range c).map fun j =>
        (T.tile i j).finished i j).filter (fun row => !row.isEmpty) =
        (List.range r).map fun i => (List.range c).map fun j => (T.tile i j).finished i j := by
      refine List.filter_eq_self.mpr fun row among => ?_
      obtain ⟨i, _, rfl⟩ := List.mem_map.mp among
      simpa using Nat.ne_of_gt hc
    rw [List.filter_append, full]
    have some : ((List.range r).map fun i => (List.range c).map fun j =>
        (T.tile i j).finished i j).isEmpty = false := by
      simpa using Nat.ne_of_gt hr
    have ends : ([[]] : Rows).filter (fun row => !row.isEmpty) = [] := rfl
    rw [ends, List.append_nil, some, List.flatMap_map]
    change tableOf _ = tableOf _
    congr 1
    refine List.flatMap_congr fun i hi => ?_
    rw [List.flatMap_map]
    congr 1
    exact List.flatMap_congr fun j hj =>
      finished_html (labels i j (List.mem_range.mp hi) (List.mem_range.mp hj)) i j
  · have := T.covers i j hi hj
    unfold Tile.Covers at this ⊢
    omega

/-- The tile of a place: a square of four places, and an empty one and a comparison beside it. -/
def mixedTile (i j : Nat) : Tile :=
  if j < 2 then ⟨0, 0, 2, 2, text "a"⟩ else ⟨i, 2, 1, 1, if i = 0 then [] else text "x < y"⟩

def mixedTiling : Tiling 2 3 where
  tile := mixedTile
  covers i j hi hj := by
    unfold mixedTile Tile.Covers
    split <;> dsimp only <;> omega
  inside i j hi hj := by
    unfold mixedTile
    split <;> dsimp only <;> omega
  same i j hi hj i' j' := by
    unfold mixedTile Tile.Covers
    split <;> dsimp only <;> intro inside
    · rw [if_pos (by omega)]
    · obtain rfl : i' = i := by omega
      rw [if_neg (by omega)]

theorem mixedTile_label (i j : Nat) : Label (mixedTile i j).label := by
  unfold mixedTile
  split
  · exact ⟨by decide, ⟨rfl, trivial⟩, ⟨rfl, trivial⟩⟩
  · dsimp only
    split
    · exact ⟨rfl, trivial, trivial⟩
    · exact ⟨by decide, ⟨rfl, rfl, rfl, rfl, rfl, trivial⟩, ⟨rfl, rfl, rfl, rfl, rfl, trivial⟩⟩

/-- A tile of two rows and two columns beside two small ones. -/
theorem otslHtml_encode_mixed : otslHtml mixedTiling.encode = text
    "<table><tr><td colspan=\"2\" rowspan=\"2\">a</td><td></td></tr><tr><td>x &lt; y</td></tr></table>" :=
  (otslHtml_encode mixedTiling (by decide) (by decide) fun i j _ _ => mixedTile_label i j).1.trans
    (by decide)

end Mineru.Vlm
