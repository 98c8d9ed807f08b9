import Mineru.Builders.Continuation
import Mineru.Builders.Middle
import Mineru.Laws.Builders.Compose
import Mineru.Laws.Builders.Paras

/-!
# What the merge of tables loses

The notes of a document are the lines of its footnotes, and of its captions and text leaves, as far
as they say something. A turn never makes one; what it loses is what the previous table had as
footnotes, and the captions of the current one that it clears. So the notes survive a run if and
only if no turn loses any, by counting each of them along the run.

`mergeTablesAt_notes` is the step: the notes before a turn are those behind it and the lost ones, in
some order. `mergeRun_notes` adds the turns of a run up. A count cannot recover once it has fallen,
because no turn adds a note, and this gives the converse.

The merged HTML of two tables is a parameter (`TableTools`), and so is the text of a block. Nothing
is said of rows or cells.
-/

set_option autoImplicit false

namespace Mineru.Builders

open Logic

variable (tools : TableTools)

/-- The text of the lines is blank. -/
def TableTools.blank (lines : List Line) : Bool := (trim (tools.text lines)).isEmpty

/-- The lines say more than that a table goes on. -/
def TableTools.tells (lines : List Line) : Bool :=
  !tools.blank lines && !isContinuationText tools.isAlphabetic (tools.text lines)

/-- The lines of the footnotes of a table. -/
def Node.footnoteLines : Node → List (List Line)
  | .visual kind _ _ footnotes _ _ _ => if kind = "table" then footnotes.map Block.lines else []
  | _ => []

/-- The lines of the captions of a table. -/
def Node.captionLines : Node → List (List Line)
  | .visual kind _ captions _ _ _ _ => if kind = "table" then captions.map Block.lines else []
  | _ => []

/-- The lines of a text leaf. -/
def Node.leafLines : Node → List (List Line)
  | .leaf block => if block.kind = "text" then [block.lines] else []
  | _ => []

/-- The footnotes that are not blank. -/
def footnoteNotes (nodes : List Node) : List (List Line) :=
  (nodes.flatMap Node.footnoteLines).filter fun lines => !tools.blank lines

/-- The captions and text leaves that say something. -/
def captionNotes (nodes : List Node) : List (List Line) :=
  (nodes.flatMap fun node => node.captionLines ++ node.leafLines).filter tools.tells

/-- Each note occurs as often in one document as in the other. -/
structure KeepsNotes (before after : Paras) : Prop where
  footnotes : (footnoteNotes tools before.flatten).Perm (footnoteNotes tools after.flatten)
  captions : (captionNotes tools before.flatten).Perm (captionNotes tools after.flatten)

/-! ## What a pair loses -/

/-- The footnotes that the previous table loses. -/
def lostFootnotes (previous : Node) : List (List Line) := footnoteNotes tools [previous]

/-- The captions that the current table loses. -/
def lostCaptions : Node → List (List Line)
  | .visual _ body captions _ _ _ _ =>
    ((captions.filter fun caption => !restores tools body caption).map Block.lines).filter
      tools.tells
  | _ => []

/-- Notes are counted node by node. -/
theorem footnoteNotes_append (nodes nodes' : List Node) :
    footnoteNotes tools (nodes ++ nodes') =
      footnoteNotes tools nodes ++ footnoteNotes tools nodes' := by
  unfold footnoteNotes
  rw [List.flatMap_append, List.filter_append]

theorem captionNotes_append (nodes nodes' : List Node) :
    captionNotes tools (nodes ++ nodes') =
      captionNotes tools nodes ++ captionNotes tools nodes' := by
  unfold captionNotes
  rw [List.flatMap_append, List.filter_append]

theorem footnoteNotes_perm {nodes nodes' : List Node} (perm : nodes.Perm nodes') :
    (footnoteNotes tools nodes).Perm (footnoteNotes tools nodes') :=
  (perm.flatMap_right _).filter _

theorem captionNotes_perm {nodes nodes' : List Node} (perm : nodes.Perm nodes') :
    (captionNotes tools nodes).Perm (captionNotes tools nodes') :=
  (perm.flatMap_right _).filter _

theorem blank_nil : tools.blank [] = true := by
  unfold TableTools.blank
  rw [tools.empty]
  rfl

theorem tells_nil : tools.tells [] = false := by
  unfold TableTools.tells
  rw [blank_nil]
  rfl

theorem cleared_filter {p : List Line → Bool} (nil : p [] = false) (blocks : List Block) :
    ((blocks.map Block.cleared).map Block.lines).filter p = [] := by
  rw [List.filter_eq_nil_iff]
  intro lines mem
  rw [List.map_map] at mem
  obtain ⟨block, -, rfl⟩ := List.mem_map.mp mem
  show ¬ p [] = true
  rw [nil]
  exact Bool.false_ne_true

/-- Footnotes that move to the merged table keep their lines. -/
theorem movedFootnotes_lines (index : Nat) (footnotes : List Block) :
    (movedFootnotes index footnotes).map Block.lines = footnotes.map Block.lines := by
  unfold movedFootnotes
  rw [List.map_map]
  show footnotes.zipIdx.map (Block.lines ∘ Prod.fst) = _
  rw [← List.map_map, List.zipIdx_map_fst]

/-- A caption that becomes a text of its own is still a note. -/
theorem restoredLeaf_notes (captions : List Block) :
    (captions.map restoredLeaf).flatMap (fun node => node.captionLines ++ node.leafLines) =
      captions.map Block.lines := by
  induction captions with
  | nil => rfl
  | cons caption rest ih =>
    rw [List.map_cons, List.flatMap_cons, ih]
    rfl

theorem restoredLeaf_footnotes (captions : List Block) :
    (captions.map restoredLeaf).flatMap Node.footnoteLines = [] := by
  rw [List.flatMap_eq_nil_iff]
  intro node mem
  obtain ⟨caption, -, rfl⟩ := List.mem_map.mp mem
  rfl

/-- A pair that is merged keeps its footnotes apart from the ones of the previous table, and its
captions apart from the ones that are cleared. -/
theorem mergePair_notes {previous current : Node} {merged : MergedPair}
    (is : mergePair tools previous current = some merged) :
    (footnoteNotes tools [previous] ++ footnoteNotes tools [current]).Perm
        (footnoteNotes tools [merged.previous] ++ (footnoteNotes tools [merged.current] ++
          footnoteNotes tools merged.restored) ++ lostFootnotes tools previous) ∧
      (captionNotes tools [previous] ++ captionNotes tools [current]).Perm
        (captionNotes tools [merged.previous] ++ (captionNotes tools [merged.current] ++
          captionNotes tools merged.restored) ++ lostCaptions tools current) := by
  unfold mergePair at is
  split at is
  · next kind body captions footnotes subType cellMerge subImages kind' body' captions' footnotes'
      subType' cellMerge' subImages' =>
    dsimp only at is
    split at is
    · cases is
    · next accepted =>
      obtain ⟨html, -, rfl⟩ := Option.map_eq_some_iff.mp is
      have table : kind = "table" := not_not.mp (not_or.mp accepted).1
      have table' : kind' = "table" := not_not.mp (not_or.mp (not_or.mp accepted).2).1
      subst table table'
      constructor
      · have before : footnoteNotes tools [.visual "table" body' captions' footnotes' subType'
            cellMerge' subImages'] = (footnotes'.map Block.lines).filter fun lines =>
              !tools.blank lines := by
          unfold footnoteNotes
          rw [List.flatMap_singleton]
          rfl
        have moved : footnoteNotes tools [.visual "table" { body with
            lines := setTableHtml html body.lines } captions
            (movedFootnotes body.index footnotes') subType cellMerge subImages] =
            (footnotes'.map Block.lines).filter fun lines => !tools.blank lines := by
          unfold footnoteNotes
          rw [List.flatMap_singleton]
          show ((movedFootnotes body.index footnotes').map Block.lines).filter _ = _
          rw [movedFootnotes_lines]
        have emptied : footnoteNotes tools [.visual "table" body'.cleared
            ((captions'.filter fun caption => !restores tools body' caption).map Block.cleared)
            (footnotes'.map Block.cleared) subType' cellMerge' subImages'] = [] := by
          unfold footnoteNotes
          rw [List.flatMap_singleton]
          exact cleared_filter (by rw [blank_nil]; rfl) footnotes'
        have leaves : footnoteNotes tools
            ((captions'.filter (restores tools body')).map restoredLeaf) = [] := by
          unfold footnoteNotes
          rw [restoredLeaf_footnotes]
          rfl
        dsimp only
        rw [before, moved, emptied, leaves, List.append_nil, List.append_nil]
        exact List.perm_append_comm
      · have before : captionNotes tools [.visual "table" body' captions' footnotes' subType'
            cellMerge' subImages'] = (captions'.map Block.lines).filter tools.tells := by
          unfold captionNotes
          rw [List.flatMap_singleton]
          show ((captions'.map Block.lines) ++ []).filter _ = _
          rw [List.append_nil]
        have emptied : captionNotes tools [.visual "table" body'.cleared
            ((captions'.filter fun caption => !restores tools body' caption).map Block.cleared)
            (footnotes'.map Block.cleared) subType' cellMerge' subImages'] = [] := by
          unfold captionNotes
          rw [List.flatMap_singleton]
          show (((captions'.filter _).map Block.cleared).map Block.lines ++ []).filter _ = _
          rw [List.append_nil]
          exact cleared_filter (tells_nil tools) _
        have leaves : captionNotes tools
            ((captions'.filter (restores tools body')).map restoredLeaf) =
            ((captions'.filter (restores tools body')).map Block.lines).filter tools.tells := by
          unfold captionNotes
          rw [restoredLeaf_notes]
        have parts : (((captions'.filter (restores tools body')).map Block.lines).filter tools.tells ++
            lostCaptions tools (.visual "table" body' captions' footnotes' subType' cellMerge'
              subImages')).Perm ((captions'.map Block.lines).filter tools.tells) := by
          unfold lostCaptions
          rw [← List.filter_append, ← List.map_append]
          exact ((List.filter_append_perm (restores tools body') captions').map _).filter _
        dsimp only
        rw [before, emptied, leaves, List.nil_append, List.append_assoc]
        exact List.Perm.append_left _ parts.symm
  · cases is

/-- The captions of a table that start above the bottom of its body. -/
def Node.captionsAbove : Node → List Block
  | .visual _ body captions _ _ _ _ =>
    captions.filter fun caption => decide (caption.bbox.top < body.bbox.bottom)
  | _ => []

/-- Nothing of a pair is lost when it is merged: the previous table has no footnote with text, and no
caption of the current one that tells something starts above the bottom of its body. -/
structure PairKeeps (previous current : Node) : Prop where
  footnotes : ∀ lines ∈ previous.footnoteLines, tools.blank lines = true
  captions : ∀ caption ∈ current.captionsAbove, tools.tells caption.lines = false

/-- Nothing is lost of a table whose footnotes are blank. -/
theorem lostFootnotes_iff (previous : Node) : lostFootnotes tools previous = [] ↔
    ∀ lines ∈ previous.footnoteLines, tools.blank lines = true := by
  unfold lostFootnotes footnoteNotes
  rw [List.flatMap_singleton, List.filter_eq_nil_iff]
  constructor
  · intro none lines mem
    simpa using none lines mem
  · intro blank lines mem
    rw [blank lines mem]
    exact Bool.false_ne_true

/-- Nothing is lost of a table without a caption that says something. -/
theorem lostCaptions_iff (current : Node) : lostCaptions tools current = [] ↔
    ∀ caption ∈ current.captionsAbove, tools.tells caption.lines = false := by
  cases current with
  | visual kind body captions footnotes subType cellMerge subImages =>
    unfold lostCaptions Node.captionsAbove
    dsimp only
    rw [List.filter_eq_nil_iff]
    have tells_marks : ∀ caption : Block, tools.tells caption.lines = true →
        tools.marks caption = false := by
      intro caption tells
      unfold TableTools.tells at tells
      rw [Bool.and_eq_true, Bool.not_eq_true'] at tells
      simpa [TableTools.marks] using tells.2
    constructor
    · intro none caption mem
      obtain ⟨inside, above⟩ := List.mem_filter.mp mem
      by_contra tells
      rw [Bool.not_eq_false] at tells
      refine none caption.lines (List.mem_map_of_mem (List.mem_filter.mpr ⟨inside, ?_⟩)) tells
      unfold restores
      rw [decide_eq_false (not_le.mpr (of_decide_eq_true above)), Bool.and_false]
      rfl
    · intro none lines mem tells
      obtain ⟨caption, there, rfl⟩ := List.mem_map.mp mem
      obtain ⟨inside, kept⟩ := List.mem_filter.mp there
      have above : caption.bbox.top < body.bbox.bottom := by
        by_contra below
        unfold restores at kept
        rw [tells_marks caption tells, decide_eq_true (not_lt.mp below)] at kept
        cases kept
      rw [none caption (List.mem_filter.mpr ⟨inside, decide_eq_true above⟩)] at tells
      cases tells
  | leaf | list | tombstone => exact ⟨fun _ _ mem => absurd mem List.not_mem_nil, fun _ => rfl⟩

/-! ## A turn -/

/-- A turn keeps the notes of the pair that it merges. -/
def TurnKeeps (paras : Paras) (page : Nat) : Prop :=
  ∀ previous current merged, pairAt paras page = some (previous, current) →
    mergePair tools previous current = some merged → PairKeeps tools previous current

theorem modify_split {α : Type} (front back : List α) (a : α) (f : α → α) :
    (front ++ a :: back).modify front.length f = front ++ f a :: back := by
  induction front with
  | nil => rfl
  | cons b front ih =>
    show b :: (front ++ a :: back).modify front.length f = _
    rw [ih]
    rfl

/-- The pages of a pair. -/
theorem pairAt_split {paras : Paras} {page : Nat} {previous current : Node} (pos : 0 < page)
    (is : pairAt paras page = some (previous, current)) :
    ∃ front before rest back, front.length = page - 1 ∧
      paras = front ++ (before ++ [previous]) :: (current :: rest) :: back := by
  unfold pairAt at is
  obtain ⟨previous', last, is⟩ := Option.bind_eq_some_iff.mp is
  obtain ⟨current', first, same⟩ := Option.map_eq_some_iff.mp is
  cases same
  obtain ⟨nodes, there, last⟩ := Option.bind_eq_some_iff.mp last
  obtain ⟨nodes', there', first⟩ := Option.bind_eq_some_iff.mp first
  obtain ⟨front, back, shape, length⟩ := exists_split there
  have next : (nodes :: back)[1]? = some nodes' := by
    rw [shape, show page = front.length + 1 by omega,
      List.getElem?_append_right (Nat.le_add_right _ _), Nat.add_sub_cancel_left] at there'
    exact there'
  obtain ⟨back', rfl⟩ := exists_cons (show back[0]? = some nodes' from next)
  obtain ⟨before, rfl⟩ := List.getLast?_eq_some_iff.mp last
  obtain ⟨rest, rfl⟩ := List.head?_eq_some_iff.mp first
  exact ⟨front, before, rest, back', length, shape⟩

/-- What a pair loses is what its document loses, whatever is counted. -/
theorem turn_perm {α : Type} [DecidableEq α] {notes : List Node → List α}
    (append : ∀ nodes nodes', notes (nodes ++ nodes') = notes nodes ++ notes nodes')
    (perm : ∀ nodes nodes', nodes.Perm nodes' → (notes nodes).Perm (notes nodes'))
    (front back : Paras) (before rest : List Node) {previous current : Node} {merged : MergedPair}
    {lost : List α}
    (pair : (notes [previous] ++ notes [current]).Perm (notes [merged.previous] ++
      (notes [merged.current] ++ notes merged.restored) ++ lost)) :
    (notes (front ++ (before ++ [previous]) :: (current :: rest) :: back).flatten).Perm
      (notes (front ++ (before ++ [merged.previous]) ::
        ((merged.current :: (rest ++ merged.restored)).insertionSort
          fun a b => nodeIndex a ≤ nodeIndex b) :: back).flatten ++ lost) := by
  have sorted : (notes ((merged.current :: (rest ++ merged.restored)).insertionSort
      fun a b => nodeIndex a ≤ nodeIndex b)).Perm
        (notes [merged.current] ++ (notes rest ++ notes merged.restored)) := by
    refine (perm _ _ (List.perm_insertionSort _ _)).trans ?_
    rw [← append, ← append]
    rfl
  rw [List.flatten_append, List.flatten_append, List.flatten_cons, List.flatten_cons,
    List.flatten_cons, List.flatten_cons, ← List.singleton_append (x := current)]
  simp only [append]
  rw [List.perm_iff_count] at pair sorted ⊢
  intro a
  have here := pair a
  have there := sorted a
  simp only [List.count_append] at here there ⊢
  omega

/-- A turn makes no notes, and it keeps them all if and only if it loses none. -/
theorem mergeTablesAt_notes (paras : Paras) {page : Nat} (pos : 0 < page) :
    ∃ footnotes captions,
      (footnoteNotes tools paras.flatten).Perm
        (footnoteNotes tools (mergeTablesAt tools paras page).flatten ++ footnotes) ∧
      (captionNotes tools paras.flatten).Perm
        (captionNotes tools (mergeTablesAt tools paras page).flatten ++ captions) ∧
      (TurnKeeps tools paras page ↔ footnotes = [] ∧ captions = []) := by
  cases run : (pairAt paras page).bind fun pair => mergePair tools pair.1 pair.2 with
  | none =>
    have same : mergeTablesAt tools paras page = paras := by
      unfold mergeTablesAt
      rw [run]
    rw [same]
    refine ⟨[], [], by rw [List.append_nil], by rw [List.append_nil], ?_⟩
    refine ⟨fun _ => ⟨rfl, rfl⟩, fun _ previous current merged pair is => ?_⟩
    rw [pair] at run
    rw [show mergePair tools previous current = none from run] at is
    cases is
  | some merged =>
    obtain ⟨⟨previous, current⟩, pair, is⟩ := Option.bind_eq_some_iff.mp run
    obtain ⟨front, before, rest, back, length, shape⟩ := pairAt_split pos pair
    have at_ : page = (front ++ [before ++ [merged.previous]]).length := by
      rw [List.length_append]
      show page = front.length + 1
      omega
    have after : mergeTablesAt tools paras page = front ++ (before ++ [merged.previous]) ::
        ((merged.current :: (rest ++ merged.restored)).insertionSort
          fun a b => nodeIndex a ≤ nodeIndex b) :: back := by
      unfold mergeTablesAt
      rw [run]
      dsimp only
      rw [shape, ← length, modify_split, List.dropLast_concat, List.append_cons, at_, modify_split,
        ← List.append_cons]
      rfl
    obtain ⟨footnotes, captions⟩ := mergePair_notes tools is
    refine ⟨lostFootnotes tools previous, lostCaptions tools current, ?_, ?_, ?_⟩
    · rw [after, shape]
      exact turn_perm (footnoteNotes_append tools) (fun _ _ => footnoteNotes_perm tools) front back
        before rest footnotes
    · rw [after, shape]
      exact turn_perm (captionNotes_append tools) (fun _ _ => captionNotes_perm tools) front back
        before rest captions
    · rw [lostFootnotes_iff, lostCaptions_iff]
      constructor
      · intro keeps
        have kept := keeps previous current merged pair is
        exact ⟨kept.footnotes, kept.captions⟩
      · intro kept previous' current' merged' pair' _
        rw [pair] at pair'
        cases pair'
        exact ⟨kept.1, kept.2⟩

/-! ## The run -/

/-- Every turn of a run keeps the notes of the pair that it merges. -/
def RunKeeps : List Nat → Paras → Prop
  | [], _ => True
  | page :: rest, paras =>
    TurnKeeps tools paras page ∧ RunKeeps rest (mergeTablesAt tools paras page)

theorem mergeRun_notes (check : Nat → Nat) {expired : Nat → Bool} {pages : List Nat}
    {paras after : Paras} (pos : ∀ page ∈ pages, 0 < page)
    (is : pages.foldlM (fun paras page => do
      checkDeadline expired (check page)
      return mergeTablesAt tools paras page) paras = (.ok after : Checked VlmError Paras)) :
    ∃ footnotes captions,
      (footnoteNotes tools paras.flatten).Perm (footnoteNotes tools after.flatten ++ footnotes) ∧
      (captionNotes tools paras.flatten).Perm (captionNotes tools after.flatten ++ captions) ∧
      (RunKeeps tools pages paras ↔ footnotes = [] ∧ captions = []) := by
  induction pages generalizing paras with
  | nil =>
    cases is
    refine ⟨[], [], by rw [List.append_nil], by rw [List.append_nil], ?_⟩
    exact ⟨fun _ => ⟨rfl, rfl⟩, fun _ => trivial⟩
  | cons page rest ih =>
    rw [List.foldlM_cons] at is
    obtain ⟨next, turn, is⟩ := bind_ok is
    obtain ⟨⟨⟩, -, turn⟩ := bind_ok turn
    cases turn
    obtain ⟨footnotes, captions, first, second, keeps⟩ :=
      mergeTablesAt_notes tools paras (pos page List.mem_cons_self)
    obtain ⟨footnotes', captions', first', second', keeps'⟩ :=
      ih (fun p mem => pos p (List.mem_cons_of_mem _ mem)) is
    refine ⟨footnotes' ++ footnotes, captions' ++ captions, ?_, ?_, ?_⟩
    · rw [← List.append_assoc]
      exact first.trans (first'.append_right _)
    · rw [← List.append_assoc]
      exact second.trans (second'.append_right _)
    · unfold RunKeeps
      rw [keeps, keeps', List.append_eq_nil_iff, List.append_eq_nil_iff]
      tauto

/-- With the lost notes counted, none is missing exactly when there are no lost ones. -/
theorem perm_append_iff {α : Type} {as bs cs : List α} (perm : as.Perm (bs ++ cs)) :
    as.Perm bs ↔ cs = [] := by
  constructor
  · intro same
    have lengths := perm.length_eq
    rw [same.length_eq, List.length_append] at lengths
    exact List.length_eq_zero_iff.mp (by omega)
  · intro none
    rw [none, List.append_nil] at perm
    exact perm

/-- The loop over the tables keeps the notes if and only if each of its turns does. -/
theorem mergeTables_notes {expired : Nat → Bool} {paras after : Paras}
    (is : mergeTables tools expired paras = .ok after) :
    KeepsNotes tools paras after ↔ RunKeeps tools (tablePages paras) paras := by
  unfold mergeTables at is
  have pos : ∀ page ∈ tablePages paras, 0 < page := by
    intro page mem
    have range := List.mem_range'_1.mp (List.mem_reverse.mp mem)
    exact range.1
  obtain ⟨footnotes, captions, first, second, keeps⟩ :=
    mergeRun_notes tools (fun page => 2 * paras.length + page) pos is
  rw [keeps, ← perm_append_iff first, ← perm_append_iff second]
  exact ⟨fun kept => ⟨kept.footnotes, kept.captions⟩, fun both => ⟨both.1, both.2⟩⟩

theorem mergeTablesAt_length (paras : Paras) (page : Nat) :
    (mergeTablesAt tools paras page).length = paras.length := by
  unfold mergeTablesAt
  split
  · rfl
  · rw [List.length_modify, List.length_modify]

theorem mergeTables_length {expired : Nat → Bool} {before after : Paras}
    (is : mergeTables tools expired before = .ok after) : after.length = before.length := by
  unfold mergeTables at is
  generalize tablePages before = pages at is
  suffices run : ∀ (now : Paras), pages.foldlM (fun now page => do
      checkDeadline expired (2 * before.length + page)
      return mergeTablesAt tools now page) now = (.ok after : Checked VlmError Paras) →
        after.length = now.length from run before is
  clear is
  induction pages with
  | nil =>
    intro now is
    cases is
    rfl
  | cons page rest ih =>
    intro now is
    rw [List.foldlM_cons] at is
    obtain ⟨next, turn, is⟩ := bind_ok is
    obtain ⟨⟨⟩, -, turn⟩ := bind_ok turn
    cases turn
    exact (ih _ is).trans (mergeTablesAt_length tools now page)

/-- The loop as the writer of the middle document takes it. -/
def continuationMerge (expired : Nat → Bool) : TableMerge where
  run := mergeTables tools expired
  length _ _ := mergeTables_length tools

/-! ## The document -/

theorem kept_footnotes {a b : Node} (h : Node.Kept a b) : b.footnoteLines = a.footnoteLines := by
  cases h <;> rfl

/-- The passes over texts and lists leave notes as they are, also where a node becomes a
tombstone. -/
theorem kept_captions {a b : Node} (h : Node.Kept a b) : b.captionLines = a.captionLines := by
  cases h <;> rfl

theorem flatMap_kept {β : Type} {f : Node → List β} {before after : Paras}
    (same : ∀ a b, Node.Kept a b → f b = f a)
    (kept : List.Forall₂ (List.Forall₂ Node.Kept) before after) :
    after.flatten.flatMap f = before.flatten.flatMap f := by
  induction kept with
  | nil => rfl
  | cons page _ ih =>
    rw [List.flatten_cons, List.flatten_cons, List.flatMap_append, List.flatMap_append, ih]
    congr 1
    induction page with
    | nil => rfl
    | cons node _ ih' => rw [List.flatMap_cons, List.flatMap_cons, same _ _ node, ih']

/-- **Which merges keep captions and footnotes.** The merges of texts and lists leave a document with
the same captions and footnotes at its tables. From there on each footnote that is not blank, and each
caption or text leaf that says something, stays as often as it was, if and only if each pair of tables
that is merged keeps its own: its previous table has no footnote with text, and no caption of its
current one that says something starts above the bottom of its body. A turn whose pair is not merged
changes nothing. -/
theorem mergeDocumentParas_notes (r : Renderer) (expired : Nat → Bool) (paras after : Paras)
    (is : mergeDocumentParas r expired (mergeTables tools expired) true paras = .ok after) :
    ∃ now, mergeDocumentParas r expired (mergeTables tools expired) false paras = .ok now ∧
      now.flatten.flatMap Node.footnoteLines = paras.flatten.flatMap Node.footnoteLines ∧
      now.flatten.flatMap Node.captionLines = paras.flatten.flatMap Node.captionLines ∧
      (KeepsNotes tools now after ↔ RunKeeps tools (tablePages now) now) ∧
      ∀ (doc : Paras) (page : Nat),
        ((pairAt doc page).bind fun pair => mergePair tools pair.1 pair.2) = none →
          mergeTablesAt tools doc page = doc := by
  unfold mergeDocumentParas at is
  obtain ⟨first, texts, is⟩ := bind_ok is
  obtain ⟨now, lists, is⟩ := bind_ok is
  have merged := allTexts_merged r expired paras
  rw [texts] at merged
  have merged' := allLists_merged expired first
  rw [lists] at merged'
  have kept := (Merged.trans merged merged').nodes
  refine ⟨now, ?_, flatMap_kept (fun _ _ => kept_footnotes) kept,
    flatMap_kept (fun _ _ => kept_captions) kept, mergeTables_notes tools is, ?_⟩
  · unfold mergeDocumentParas
    rw [texts]
    show ((List.range first.length).foldlM (mergeLists expired) first >>= _) = _
    rw [lists]
    rfl
  · intro paras page none
    unfold mergeTablesAt
    rw [none]

/-! ## Two pages -/

/-- Lines say their texts; each pair of tables is put into one, where they may be merged. -/
def noteTools : TableTools where
  text lines := lines.flatMap fun line => line.spans.flatMap fun span => match span with
    | .text content => content
    | _ => []
  empty := rfl
  mergedHtml _ _ := some (text "<table><tr><td>a</td></tr><tr><td>b</td></tr></table>")
  isAlphabetic := Char.isAlpha

def noteRenderer : Renderer := ⟨fun _ => [], fun _ => false⟩

def noteBlock (kind : String) (span : Span) (bbox : Bbox) (index : Nat) : Block where
  kind
  bbox
  angle := 0
  lines := [⟨bbox, [span]⟩]
  index
  mergePrev := none
  subType := none
  guessLang := none
  imagePath := none
  cellMerge := none
  crossPage := false
  linesDeleted := false

/-- A table with its captions and footnotes. -/
def noteTable (html : String) (index : Nat) (captions footnotes : List Block) : Node :=
  .visual "table" (noteBlock "table_body" (.table (text html)) ⟨10, 20, 90, 60⟩ index)
    captions footnotes none none []

def firstTable (footnotes : List Block) : Node :=
  noteTable "<table><tr><td>a</td></tr></table>" 0 [] footnotes

/-- The table of the second page, with the caption that continues it. -/
def secondTable : Node :=
  noteTable "<table><tr><td>b</td></tr></table>" 1
    [noteBlock "caption" (.text (text "(continued)")) ⟨10, 10, 90, 18⟩ 0] []

def sourceNote : Block :=
  noteBlock "footnote" (.text (text "Source: census")) ⟨10, 62, 90, 70⟩ 1

/-- A table without footnotes that is continued on the next page keeps the notes of both. -/
theorem mergeDocumentParas_notes_continued : ∃ after,
    mergeDocumentParas noteRenderer (fun _ => false) (mergeTables noteTools fun _ => false) true
      [[firstTable []], [secondTable]] = .ok after ∧
    KeepsNotes noteTools [[firstTable []], [secondTable]] after := by
  obtain ⟨after, is⟩ : ∃ after, mergeDocumentParas noteRenderer (fun _ => false)
    (mergeTables noteTools fun _ => false) true [[firstTable []], [secondTable]] = .ok after :=
      ⟨_, rfl⟩
  obtain ⟨now, first, -, -, keeps, -⟩ := mergeDocumentParas_notes noteTools noteRenderer
    (fun _ => false) [[firstTable []], [secondTable]] after is
  have same : mergeDocumentParas noteRenderer (fun _ => false)
    (mergeTables noteTools fun _ => false) false [[firstTable []], [secondTable]] =
      .ok [[firstTable []], [secondTable]] := rfl
  rw [same] at first
  cases first
  refine ⟨after, is, keeps.mpr ⟨?_, trivial⟩⟩
  intro previous current merged pair _
  have found : pairAt [[firstTable []], [secondTable]] 1 = some (firstTable [], secondTable) := rfl
  rw [found] at pair
  cases pair
  exact ⟨fun _ mem => absurd mem List.not_mem_nil, by decide +kernel⟩

/-- The footnote of the first page is lost when the second page goes on with its table. -/
theorem mergeDocumentParas_loses : ∃ after,
    mergeDocumentParas noteRenderer (fun _ => false) (mergeTables noteTools fun _ => false) true
      [[firstTable [sourceNote]], [secondTable]] = .ok after ∧
    footnoteNotes noteTools [firstTable [sourceNote], secondTable] = [sourceNote.lines] ∧
    footnoteNotes noteTools after.flatten = [] ∧ captionNotes noteTools after.flatten = [] :=
  ⟨_, rfl, by decide +kernel, by decide +kernel, by decide +kernel⟩

end Mineru.Builders
