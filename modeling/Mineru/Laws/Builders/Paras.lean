import Mineru.Builders.Paras

/-!
# Merging loses nothing

Every turn of `merge_document_paras` moves the lines of a text leaf, or the items of a reference
list, to the end of an earlier one with nothing of the kind between them. So the lines and the items
of the document stay as they were, in document order. `Merged` says this of two documents; it holds
of one turn, and it composes.

A turn finds two nodes, far apart perhaps, and writes both. `exists_node_split` and `set_two` cut
the document at these two places, after which the turn is a fact about lists. The loops check the
deadline: every statement holds for the document that a loop returns and, by `EnsuresOr`, leaves
open where it was stopped.

The third loop, over the tables, has laws of its own in another module; here it is given.
-/

set_option autoImplicit false

namespace Mineru.Builders

open Logic
open Logic.Checked (EnsuresOr)

/-! ## What is kept -/

/-- The lines of a text leaf. -/
def Node.textLines : Node → List Line
  | .leaf block => if block.kind = "text" then block.lines else []
  | _ => []

/-- A block apart from its mark. -/
def Block.unmarked (block : Block) : Block := { block with crossPage := false }

/-- The items of a list, apart from their marks. -/
def Node.items : Node → List Block
  | .list _ items => items.map Block.unmarked
  | _ => []

def docLines (paras : Paras) : List Line := paras.flatten.flatMap Node.textLines

def docItems (paras : Paras) : List Block := paras.flatten.flatMap Node.items

/-- What may become of a node: a text leaf has other lines, a reference list other items, or it was
emptied and is a tombstone with its own index. -/
inductive Node.Kept : Node → Node → Prop
  | same (node : Node) : Node.Kept node node
  | text (block : Block) (lines : List Line) (kind : block.kind = "text") :
    Node.Kept (.leaf block) (.leaf { block with lines })
  | list (marker : Block) (items items' : List Block) (refText : marker.subType = some "ref_text")
    (before : items ≠ []) (after : items' ≠ []) :
    Node.Kept (.list marker items) (.list marker items')
  | emptied (marker : Block) (items : List Block) (refText : marker.subType = some "ref_text")
    (before : items ≠ []) :
    Node.Kept (.list marker items)
      (.tombstone "list" marker.bbox marker.angle marker.index marker.subType)

/-- Nothing is lost or reordered from one document to the other. -/
structure Merged (before after : Paras) : Prop where
  nodes : List.Forall₂ (List.Forall₂ Node.Kept) before after
  indexes : after.map (List.map nodeIndex) = before.map (List.map nodeIndex)
  lines : docLines after = docLines before
  items : docItems after = docItems before

theorem Node.Kept.trans {a b c : Node} (first : Node.Kept a b) (second : Node.Kept b c) :
    Node.Kept a c := by
  cases first with
  | same => exact second
  | text block lines kind =>
    cases second with
    | same => exact .text block lines kind
    | text _ lines' => exact .text block lines' kind
  | list marker items items' refText before after =>
    cases second with
    | same => exact .list marker items items' refText before after
    | list _ _ items'' _ _ after' => exact .list marker items items'' refText before after'
    | emptied => exact .emptied marker items refText before
  | emptied marker items refText before =>
    cases second
    exact .emptied marker items refText before

theorem Node.Kept.index {a b : Node} (h : Node.Kept a b) : nodeIndex b = nodeIndex a := by
  cases h <;> rfl

/-! ## Lists, pointwise -/

section Pointwise

variable {α : Type} {R : α → α → Prop}

theorem forall₂_same (refl : ∀ a, R a a) (as : List α) : List.Forall₂ R as as := by
  induction as with
  | nil => exact .nil
  | cons a as ih => exact .cons (refl a) ih

/-- Two relations on lists compose where the relations on their elements do. -/
theorem forall₂_trans (trans : ∀ a b c, R a b → R b c → R a c) {as bs cs : List α}
    (first : List.Forall₂ R as bs) (second : List.Forall₂ R bs cs) : List.Forall₂ R as cs := by
  induction first generalizing cs with
  | nil =>
    cases second
    exact .nil
  | cons h _ ih =>
    cases second with
    | cons h' rest => exact .cons (trans _ _ _ h h') (ih rest)

theorem forall₂_replace (refl : ∀ a, R a a) (pre post : List α) {a b : α} (h : R a b) :
    List.Forall₂ R (pre ++ a :: post) (pre ++ b :: post) :=
  List.rel_append (forall₂_same refl pre) (.cons h (forall₂_same refl post))

theorem exists_split {as : List α} {i : Nat} {a : α} (found : as[i]? = some a) :
    ∃ pre post, as = pre ++ a :: post ∧ pre.length = i := by
  obtain ⟨lt, rfl⟩ := List.getElem?_eq_some_iff.mp found
  refine ⟨as.take i, as.drop (i + 1), ?_, List.length_take_of_le (Nat.le_of_lt lt)⟩
  rw [List.cons_getElem_drop_succ, List.take_append_drop]

theorem set_split (pre post : List α) (a b : α) :
    (pre ++ a :: post).set pre.length b = pre ++ b :: post := by
  rw [List.set_append_right _ _ (Nat.le_refl _), Nat.sub_self]
  rfl

/-- The element behind two known ones and all between them. -/
theorem getElem?_past {front between back : List α} {a : α} {i : Nat}
    (length : front.length + 1 + between.length = i) :
    (front ++ a :: (between ++ back))[i]? = back[0]? := by
  have cut : front ++ a :: (between ++ back) = (front ++ a :: between) ++ back := by simp
  have whole : (front ++ a :: between).length = i := by
    rw [← length, List.length_append, List.length_cons]
    omega
  rw [cut, List.getElem?_append_right (Nat.le_of_eq whole), whole, Nat.sub_self]

theorem exists_cons {as : List α} {a : α} (found : as[0]? = some a) : ∃ rest, as = a :: rest := by
  obtain ⟨pre, post, rfl, empty⟩ := exists_split found
  rw [List.length_eq_zero_iff.mp empty]
  exact ⟨post, rfl⟩

/-- Two elements are replaced, and what they carry together, with what is between them, stays. -/
theorem flatMap_replace {β : Type} {f : α → List β} (pre mid post : List α) {a b a' b' : α}
    (moved : f a' ++ mid.flatMap f ++ f b' = f a ++ mid.flatMap f ++ f b) :
    (pre ++ a' :: (mid ++ b' :: post)).flatMap f = (pre ++ a :: (mid ++ b :: post)).flatMap f := by
  simp only [List.flatMap_append, List.flatMap_cons]
  rw [← List.append_assoc (f a'), ← List.append_assoc (f a' ++ _), moved, List.append_assoc,
    List.append_assoc]

end Pointwise

theorem kept_trans {a b c : Paras} (first : List.Forall₂ (List.Forall₂ Node.Kept) a b)
    (second : List.Forall₂ (List.Forall₂ Node.Kept) b c) :
    List.Forall₂ (List.Forall₂ Node.Kept) a c :=
  forall₂_trans (R := List.Forall₂ Node.Kept)
    (fun _ _ _ => forall₂_trans (R := Node.Kept) fun _ _ _ => Node.Kept.trans) first second

theorem Merged.refl (paras : Paras) : Merged paras paras :=
  ⟨forall₂_same (forall₂_same .same) paras, rfl, rfl, rfl⟩

/-- Two turns, one after the other. -/
theorem Merged.trans {a b c : Paras} (first : Merged a b) (second : Merged b c) : Merged a c where
  nodes := kept_trans first.nodes second.nodes
  indexes := second.indexes.trans first.indexes
  lines := second.lines.trans first.lines
  items := second.items.trans first.items

/-- Nodes that are kept have the same indexes. -/
theorem indexes_eq {before after : Paras}
    (nodes : List.Forall₂ (List.Forall₂ Node.Kept) before after) :
    after.map (List.map nodeIndex) = before.map (List.map nodeIndex) := by
  induction nodes with
  | nil => rfl
  | cons page _ ih =>
    rw [List.map_cons, List.map_cons, ih]
    congr 1
    induction page with
    | nil => rfl
    | cons node _ ih => rw [List.map_cons, List.map_cons, node.index, ih]

/-- Two nodes of a document are replaced. -/
theorem Merged.of_flatten {before after : Paras} {pre between post : List Node}
    {a b a' b' : Node} (nodes : List.Forall₂ (List.Forall₂ Node.Kept) before after)
    (was : before.flatten = pre ++ a :: (between ++ b :: post))
    (is : after.flatten = pre ++ a' :: (between ++ b' :: post))
    (lines : a'.textLines ++ between.flatMap Node.textLines ++ b'.textLines =
      a.textLines ++ between.flatMap Node.textLines ++ b.textLines)
    (items : a'.items ++ between.flatMap Node.items ++ b'.items =
      a.items ++ between.flatMap Node.items ++ b.items) : Merged before after := by
  refine ⟨nodes, indexes_eq nodes, ?_, ?_⟩
  · unfold docLines
    rw [was, is]
    exact flatMap_replace pre between post lines
  · unfold docItems
    rw [was, is]
    exact flatMap_replace pre between post items

/-! ## Documents, cut at a node -/

/-- The document around a node, in pages and nodes. -/
theorem exists_node_split {paras : Paras} {page index : Nat} {node : Node}
    (found : nodeAt paras page index = some node) : ∃ front back pre post,
      paras = front ++ (pre ++ node :: post) :: back ∧ front.length = page ∧ pre.length = index := by
  obtain ⟨nodes, there, inside⟩ := Option.bind_eq_some_iff.mp found
  obtain ⟨front, back, rfl, frontLength⟩ := exists_split there
  obtain ⟨pre, post, rfl, preLength⟩ := exists_split inside
  exact ⟨front, back, pre, post, rfl, frontLength, preLength⟩

theorem setNode_split (front back : Paras) (pre post : List Node) (a b : Node) :
    setNode (front ++ (pre ++ a :: post) :: back) front.length pre.length b =
      front ++ (pre ++ b :: post) :: back := by
  unfold setNode
  rw [List.modify_eq_set_getElem?]
  simp

theorem kept_replace (front back : Paras) (pre post : List Node) {a b : Node}
    (h : Node.Kept a b) : List.Forall₂ (List.Forall₂ Node.Kept)
      (front ++ (pre ++ a :: post) :: back) (front ++ (pre ++ b :: post) :: back) :=
  forall₂_replace (forall₂_same .same) front back (forall₂_replace .same pre post h)

/-! ## Lists -/

/-- A reference list has items and the subtype of references. An empty one does not count. -/
theorem isRefList_iff (node : Node) : isRefList node = true ↔ ∃ marker items,
    node = .list marker items ∧ items ≠ [] ∧ marker.subType = some "ref_text" := by
  constructor
  · intro h
    unfold isRefList at h
    split at h
    · next marker items =>
      simp only [Bool.and_eq_true, Bool.not_eq_true', List.isEmpty_eq_false_iff, beq_iff_eq] at h
      exact ⟨marker, items, rfl, h.1, h.2⟩
    · cases h
  · rintro ⟨marker, items, rfl, some, refText⟩
    simp [isRefList, some, refText]

theorem unmarked_marked (items : List Block) :
    (items.map fun item => { item with crossPage := true }).map Block.unmarked =
      items.map Block.unmarked := by
  rw [List.map_map]
  rfl

/-- The items are moved to a list with none between. -/
theorem moveItems_merged {E : VlmError → Prop} {paras : Paras}
    {page index previousPage previousIndex : Nat} {marker previousMarker : Block}
    {items previousItems : List Block}
    (there : nodeAt paras page index = some (.list marker items))
    (earlier : nodeAt paras previousPage previousIndex = some (.list previousMarker previousItems))
    (refText : marker.subType = some "ref_text") (some_ : items ≠ [])
    (previousRefText : previousMarker.subType = some "ref_text") (previousSome : previousItems ≠ [])
    (pre between post : List Node)
    (was : paras.flatten =
      pre ++ .list previousMarker previousItems :: (between ++ .list marker items :: post))
    (replaced : ∀ a b, Node.Kept (.list previousMarker previousItems) a →
      Node.Kept (.list marker items) b →
      let after := setNode (setNode paras previousPage previousIndex a) page index b
      List.Forall₂ (List.Forall₂ Node.Kept) paras after ∧
        after.flatten = pre ++ a :: (between ++ b :: post))
    (none_ : between.flatMap Node.items = []) :
    EnsuresOr E (moveItems paras page index previousPage previousIndex) (Merged paras) := by
  obtain ⟨new, is⟩ : ∃ new, new = if previousPage = page then items
    else items.map fun item => { item with crossPage := true } := ⟨_, rfl⟩
  have run : moveItems paras page index previousPage previousIndex =
      .ok (setNode (setNode paras previousPage previousIndex
        (.list previousMarker (previousItems ++ new))) page index
        (.tombstone "list" marker.bbox marker.angle marker.index marker.subType)) := by
    rw [is]
    unfold moveItems
    rw [there, earlier]
    rfl
  have same : new.map Block.unmarked = items.map Block.unmarked := by
    rw [is]
    by_cases within : previousPage = page
    · rw [if_pos within]
    · rw [if_neg within, unmarked_marked]
  obtain ⟨nodes, flat⟩ := replaced _ _
    (.list previousMarker previousItems (previousItems ++ new) previousRefText previousSome
      (by simp [previousSome]))
    (.emptied marker items refText some_)
  rw [run]
  apply Merged.of_flatten nodes was flat
  · rfl
  · rw [none_]
    show (previousItems ++ new).map Block.unmarked ++ [] ++ [] =
      previousItems.map Block.unmarked ++ [] ++ items.map Block.unmarked
    rw [List.map_append, same]
    simp only [List.append_nil]

/-- Within a page the previous list is the node before. -/
theorem moveItems_within {E : VlmError → Prop} {paras : Paras} {page index : Nat}
    {marker previousMarker : Block} {items previousItems : List Block}
    (there : nodeAt paras page (index + 1) = some (.list marker items))
    (earlier : nodeAt paras page index = some (.list previousMarker previousItems))
    (refText : marker.subType = some "ref_text") (some_ : items ≠ [])
    (previousRefText : previousMarker.subType = some "ref_text")
    (previousSome : previousItems ≠ []) :
    EnsuresOr E (moveItems paras page (index + 1) page index) (Merged paras) := by
  obtain ⟨front, back, pre, post, rfl, rfl, rfl⟩ := exists_node_split earlier
  have next : post[0]? = some (.list marker items) := by
    have inside := there
    simp only [nodeAt, List.getElem?_append_right (Nat.le_refl _), Nat.sub_self,
      List.getElem?_cons_zero, Option.bind_some] at inside
    rw [List.getElem?_append_right (Nat.le_succ _), Nat.succ_eq_add_one,
      Nat.add_sub_cancel_left] at inside
    exact inside
  obtain ⟨post', rfl⟩ := exists_cons next
  apply moveItems_merged there earlier refText some_ previousRefText previousSome
    (front.flatten ++ pre) [] (post' ++ back.flatten)
  · simp
  · intro a b keptA keptB
    have second := setNode_split front back (pre ++ [a]) post' (.list marker items) b
    have kept := kept_replace front back (pre ++ [a]) post' keptB
    simp only [List.length_append, List.length_singleton, List.append_assoc,
      List.singleton_append] at second kept
    dsimp only
    rw [setNode_split, second]
    refine ⟨kept_trans (kept_replace front back pre _ keptA) kept, ?_⟩
    simp
  · rfl

theorem items_eq_nil {node : Node} (empty : nodeIsEmpty node = true) : node.items = [] := by
  cases node with
  | list marker items =>
    cases List.isEmpty_iff.mp empty
    rfl
  | leaf | visual | tombstone => rfl

/-- Empty nodes have no items that could be lost between two lists. -/
theorem flatMap_items_eq_nil {nodes : List Node} (empty : ∀ node ∈ nodes, nodeIsEmpty node = true) :
    nodes.flatMap Node.items = [] :=
  List.flatMap_eq_nil_iff.mpr fun node mem => items_eq_nil (empty node mem)

/-- Nothing was found from the end, so no node of the page has the property. -/
theorem rposition_none {p : Node → Bool} {nodes : List Node} (none_ : rposition p nodes = none) :
    ∀ node ∈ nodes, p node = false := by
  induction nodes with
  | nil =>
    intro node mem
    cases mem
  | cons node rest ih =>
    unfold rposition at none_
    cases later : rposition p rest with
    | some i =>
      rw [later] at none_
      cases none_
    | none =>
      rw [later] at none_
      dsimp only at none_
      split at none_
      · cases none_
      · next fails =>
        intro other mem
        rcases List.mem_cons.mp mem with rfl | mem
        · exact Bool.eq_false_of_not_eq_true fails
        · exact ih later other mem

/-- The last node with a property: the ones after it do not have it. -/
theorem rposition_some {p : Node → Bool} {nodes : List Node} {index : Nat}
    (found : rposition p nodes = some index) : ∃ pre node post,
      nodes = pre ++ node :: post ∧ pre.length = index ∧ p node = true ∧
        ∀ other ∈ post, p other = false := by
  induction nodes generalizing index with
  | nil => cases found
  | cons node rest ih =>
    unfold rposition at found
    cases later : rposition p rest with
    | some i =>
      rw [later] at found
      cases found
      obtain ⟨pre, last, post, rfl, rfl, holds, after⟩ := ih later
      exact ⟨node :: pre, last, post, rfl, rfl, holds, after⟩
    | none =>
      rw [later] at found
      dsimp only at found
      split at found
      · next holds =>
        cases found
        exact ⟨[], node, rest, rfl, rfl, holds, rposition_none later⟩
      · cases found

/-- Between the last surviving node and the page all nodes are empty. -/
theorem lastSurvivingNode_some {paras : Paras} {page previousPage previousIndex : Nat}
    (le : page ≤ paras.length) (found : lastSurvivingNode paras page =
      some (previousPage, previousIndex)) :
    ∃ front pre node post between back,
      paras = front ++ (pre ++ node :: post) :: (between ++ back) ∧
      front.length = previousPage ∧ pre.length = previousIndex ∧
      front.length + 1 + between.length = page ∧
      ∀ other ∈ post ++ between.flatten, nodeIsEmpty other = true := by
  induction page with
  | zero => cases found
  | succ page ih =>
    have there : paras[page]? = some paras[page] := List.getElem?_eq_getElem le
    generalize paras[page] = nodes at there
    unfold lastSurvivingNode at found
    rw [there] at found
    cases position : rposition (fun node => !nodeIsEmpty node) nodes with
    | some index =>
      rw [Option.bind_some, position] at found
      cases found
      obtain ⟨front, back, was, length⟩ := exists_split there
      obtain ⟨pre, node, post, split, rfl, -, after⟩ := rposition_some position
      refine ⟨front, pre, node, post, [], back, ?_, length, rfl, ?_, ?_⟩
      · rw [← split]
        exact was
      · rw [length]
        rfl
      · intro other mem
        rw [List.flatten_nil, List.append_nil] at mem
        simpa using after other mem
    | none =>
      rw [Option.bind_some, position] at found
      obtain ⟨front, pre, node, post, between, back, was, frontLength, preLength, length, empty⟩ :=
        ih (Nat.le_of_succ_le le) found
      have next : back[0]? = some nodes := by
        rw [was, getElem?_past length] at there
        exact there
      obtain ⟨back', rfl⟩ := exists_cons next
      refine ⟨front, pre, node, post, between ++ [nodes], back', ?_, frontLength, preLength,
        ?_, ?_⟩
      · rw [List.append_assoc]
        exact was
      · rw [List.length_append, List.length_singleton]
        omega
      · intro other mem
        rw [List.flatten_append, List.flatten_singleton, ← List.append_assoc] at mem
        rcases List.mem_append.mp mem with old | new
        · exact empty other old
        · simpa using rposition_none position other new

/-- Across pages the previous list is the last surviving node, and the current one comes first. -/
theorem moveItems_across {E : VlmError → Prop} {paras : Paras}
    {page previousPage previousIndex : Nat} {marker previousMarker : Block}
    {items previousItems : List Block} (le : page ≤ paras.length)
    (there : nodeAt paras page 0 = some (.list marker items))
    (last : lastSurvivingNode paras page = some (previousPage, previousIndex))
    (earlier : nodeAt paras previousPage previousIndex = some (.list previousMarker previousItems))
    (refText : marker.subType = some "ref_text") (some_ : items ≠ [])
    (previousRefText : previousMarker.subType = some "ref_text")
    (previousSome : previousItems ≠ []) :
    EnsuresOr E (moveItems paras page 0 previousPage previousIndex) (Merged paras) := by
  obtain ⟨front, pre, node, post, between, back, rfl, rfl, rfl, length, empty⟩ :=
    lastSurvivingNode_some le last
  have node_eq : node = .list previousMarker previousItems := by
    have inside := earlier
    simp only [nodeAt, List.getElem?_append_right (Nat.le_refl _), Nat.sub_self,
      List.getElem?_cons_zero, Option.bind_some] at inside
    exact Option.some.inj inside
  subst node_eq
  have next : ∃ rest back', back = (.list marker items :: rest) :: back' := by
    obtain ⟨nodes, found, inside⟩ := Option.bind_eq_some_iff.mp there
    rw [getElem?_past length] at found
    obtain ⟨back', rfl⟩ := exists_cons found
    obtain ⟨rest, rfl⟩ := exists_cons inside
    exact ⟨rest, back', rfl⟩
  obtain ⟨rest, back', rfl⟩ := next
  apply moveItems_merged there earlier refText some_ previousRefText previousSome
    (front.flatten ++ pre) (post ++ between.flatten) (rest ++ back'.flatten)
  · simp
  · intro a b keptA keptB
    have second := setNode_split (front ++ (pre ++ a :: post) :: between) back' [] rest
      (.list marker items) b
    have kept := kept_replace (front ++ (pre ++ a :: post) :: between) back' [] rest keptB
    simp only [List.length_append, List.length_cons, List.append_assoc, List.nil_append,
      List.cons_append, List.length_nil] at second kept
    rw [show front.length + (between.length + 1) = page by omega] at second
    dsimp only
    rw [setNode_split, second]
    refine ⟨kept_trans (kept_replace front _ pre post keptA) kept, ?_⟩
    simp
  · exact flatMap_items_eq_nil empty

/-- The node that is found, and that all nodes between it and the page are empty. -/
theorem lastSurvivingNode_found {paras : Paras} {page previousPage previousIndex : Nat}
    (le : page ≤ paras.length) (last : lastSurvivingNode paras page =
      some (previousPage, previousIndex)) :
    ∃ node, nodeAt paras previousPage previousIndex = some node := by
  obtain ⟨front, pre, node, post, between, back, rfl, rfl, rfl, -, -⟩ :=
    lastSurvivingNode_some le last
  refine ⟨node, ?_⟩
  simp only [nodeAt, List.getElem?_append_right (Nat.le_refl _), Nat.sub_self,
    List.getElem?_cons_zero, Option.bind_some]

/-- In front of a node that is not the first of its page there is another one. -/
theorem exists_nodeAt_before {paras : Paras} {page index : Nat} {node : Node}
    (there : nodeAt paras page (index + 1) = some node) :
    ∃ previous, nodeAt paras page index = some previous := by
  obtain ⟨nodes, found, inside⟩ := Option.bind_eq_some_iff.mp there
  have lt := (List.getElem?_eq_some_iff.mp inside).1
  refine ⟨nodes[index], ?_⟩
  rw [nodeAt, found, Option.bind_some]
  exact List.getElem?_eq_getElem (Nat.lt_of_succ_lt lt)

/-- A turn of the second loop. The items go to a list with only empty nodes in between, so they keep
their place in the document. -/
theorem mergeListAt_merged {E : VlmError → Prop} {paras : Paras} {page index : Nat} {node : Node}
    (there : nodeAt paras page index = some node) :
    EnsuresOr E (mergeListAt page paras index) (Merged paras) := by
  have le : page ≤ paras.length := by
    obtain ⟨nodes, found, -⟩ := Option.bind_eq_some_iff.mp there
    exact Nat.le_of_lt (List.getElem?_eq_some_iff.mp found).1
  unfold mergeListAt
  rw [there]
  dsimp only
  by_cases ref : isRefList node = true
  · rw [if_neg (by simp [ref])]
    obtain ⟨marker, items, rfl, some_, refText⟩ := (isRefList_iff node).mp ref
    cases index with
    | zero =>
      rw [if_neg (Nat.lt_irrefl 0)]
      cases last : lastSurvivingNode paras page with
      | none => exact Merged.refl paras
      | some position =>
        obtain ⟨previousPage, previousIndex⟩ := position
        obtain ⟨previous, earlier⟩ := lastSurvivingNode_found le last
        dsimp only
        rw [earlier]
        dsimp only
        by_cases previousRef : isRefList previous = true
        · rw [if_neg (by simp [previousRef])]
          obtain ⟨previousMarker, previousItems, rfl, previousSome, previousRefText⟩ :=
            (isRefList_iff previous).mp previousRef
          exact moveItems_across le there last earlier refText some_ previousRefText previousSome
        · rw [if_pos (by simp [previousRef])]
          exact Merged.refl paras
    | succ index =>
      rw [if_pos (Nat.zero_lt_succ index)]
      obtain ⟨previous, earlier⟩ := exists_nodeAt_before there
      dsimp only
      rw [Nat.add_sub_cancel, earlier]
      dsimp only
      by_cases previousRef : isRefList previous = true
      · rw [if_neg (by simp [previousRef])]
        obtain ⟨previousMarker, previousItems, rfl, previousSome, previousRefText⟩ :=
          (isRefList_iff previous).mp previousRef
        exact moveItems_within there earlier refText some_ previousRefText previousSome
      · rw [if_pos (by simp [previousRef])]
        exact Merged.refl paras
  · rw [if_pos (by simp [ref])]
    exact Merged.refl paras

theorem Merged.pageLength {before after : Paras} (h : Merged before after) (page : Nat) :
    pageLength after page = pageLength before page := by
  have lengths := congrArg (List.map List.length) h.indexes
  simp only [List.map_map] at lengths
  have at_ := congrArg (fun l : List Nat => l[page]?) lengths
  simp only [List.getElem?_map] at at_
  unfold Builders.pageLength
  cases found : after[page]? <;> cases found' : before[page]? <;> simp_all

theorem Merged.length {before after : Paras} (h : Merged before after) :
    after.length = before.length := h.nodes.length_eq.symm

theorem exists_nodeAt {paras : Paras} {page index : Nat} (lt : index < pageLength paras page) :
    ∃ node, nodeAt paras page index = some node := by
  unfold pageLength at lt
  unfold nodeAt
  cases found : paras[page]? with
  | none =>
    rw [found] at lt
    exact absurd lt (Nat.not_lt_zero index)
  | some nodes =>
    rw [found] at lt
    exact ⟨nodes.get ⟨index, lt⟩, List.getElem?_eq_getElem lt⟩

/-! ## Text -/

/-- The leaf before that is continued: between the two there are only visuals. -/
theorem previousText_some {r : Renderer} {nodes : List Node} {current : Block} {index found : Nat}
    (is : previousText r nodes current index = some found) : found < index ∧
      (∃ block, nodes[found]? = some (.leaf block) ∧ block.kind = "text" ∧
        canMergeText r current block = true) ∧
      ∀ i, found < i → i < index → ∀ node, nodes[i]? = some node →
        ∃ kind body captions footnotes subType cellMerge subImages,
          node = .visual kind body captions footnotes subType cellMerge subImages := by
  induction index with
  | zero => cases is
  | succ index ih =>
    unfold previousText at is
    split at is
    · next kind body captions footnotes subType cellMerge subImages there =>
      obtain ⟨lt, leaf, between⟩ := ih is
      refine ⟨Nat.lt_succ_of_lt lt, leaf, ?_⟩
      intro i after before node at_
      by_cases last : i = index
      · rw [last, there] at at_
        cases at_
        exact ⟨kind, body, captions, footnotes, subType, cellMerge, subImages, rfl⟩
      · exact between i after (by omega) node at_
    · next block there =>
      split_ifs at is with text can
      cases is
      exact ⟨Nat.lt_succ_self _, ⟨block, there, text, can⟩, by intros; omega⟩
    · cases is

/-- Two places of a list. -/
theorem exists_split_two {α : Type} {as : List α} {i j : Nat} {a b : α} (first : as[i]? = some a)
    (second : as[j]? = some b) (lt : i < j) : ∃ pre mid post,
      as = pre ++ a :: (mid ++ b :: post) ∧ pre.length = i ∧ i + 1 + mid.length = j := by
  obtain ⟨pre, rest, rfl, rfl⟩ := exists_split first
  have inside : rest[j - (pre.length + 1)]? = some b := by
    rw [List.getElem?_append_right (Nat.le_of_lt lt)] at second
    rw [show j - pre.length = (j - (pre.length + 1)) + 1 by omega] at second
    exact second
  obtain ⟨mid, post, rfl, length⟩ := exists_split inside
  exact ⟨pre, mid, post, rfl, rfl, by omega⟩

/-- Two nodes of a page are written at once. -/
theorem set_two {α : Type} (pre mid post : List α) (a b a' b' : α) :
    ((pre ++ a :: (mid ++ b :: post)).set pre.length a').set (pre.length + 1 + mid.length) b' =
      pre ++ a' :: (mid ++ b' :: post) := by
  rw [set_split]
  have second := set_split (pre ++ a' :: mid) post b b'
  simp only [List.length_append, List.length_cons, List.append_assoc, List.cons_append] at second
  rw [show pre.length + 1 + mid.length = pre.length + (mid.length + 1) by omega]
  exact second

/-- The lines go to the earlier leaf, past nodes without any. -/
theorem mergeLeaves {nodes : List Node} {i j : Nat} {previous current : Block}
    (first : nodes[i]? = some (.leaf previous)) (second : nodes[j]? = some (.leaf current))
    (lt : i < j) (previousText : previous.kind = "text") (currentText : current.kind = "text")
    (between : ∀ k, i < k → k < j → ∀ node, nodes[k]? = some node → node.textLines = []) :
    Merged [nodes] [(nodes.set i (.leaf { previous with
      lines := previous.lines ++ current.lines })).set j (.leaf { current with lines := [] })] := by
  obtain ⟨pre, mid, post, rfl, rfl, rfl⟩ := exists_split_two first second lt
  have silent : mid.flatMap Node.textLines = [] := by
    apply List.flatMap_eq_nil_iff.mpr
    intro node mem
    obtain ⟨k, there⟩ := List.getElem?_of_mem mem
    have inside := (List.getElem?_eq_some_iff.mp there).1
    apply between (pre.length + 1 + k) (by omega) (by omega) node
    rw [List.getElem?_append_right (by omega),
      show pre.length + 1 + k - pre.length = k + 1 by omega, List.getElem?_cons_succ,
      List.getElem?_append_left inside]
    exact there
  rw [set_two]
  have keptFirst := forall₂_replace (R := Node.Kept) .same pre (mid ++ .leaf current :: post)
    (.text previous (previous.lines ++ current.lines) previousText)
  have keptSecond := forall₂_replace (R := Node.Kept) .same
    (pre ++ .leaf { previous with lines := previous.lines ++ current.lines } :: mid) post
    (.text current [] currentText)
  simp only [List.append_assoc, List.cons_append] at keptSecond
  apply Merged.of_flatten (kept_trans (.cons keptFirst .nil) (.cons keptSecond .nil))
    (List.flatten_singleton ..) (List.flatten_singleton ..)
  · rw [silent]
    unfold Node.textLines
    simp [previousText, currentText]
  · rfl

/-- A turn of the first loop. Between the two leaves there are only visuals, so no line of text is
passed over. -/
theorem mergeTextAt_merged {E : VlmError → Prop} (r : Renderer) {nodes : List Node} {index : Nat}
    (lt : index < nodes.length) :
    EnsuresOr E (mergeTextAt r nodes index) fun after => Merged [nodes] [after] := by
  unfold mergeTextAt
  split
  · next past =>
    have le := List.getElem?_eq_none_iff.mp past
    omega
  · next current there =>
    by_cases text : current.kind = "text" ∧ current.mergePrev = some true
    · rw [if_pos text]
      cases is : previousText r nodes current index with
      | none => exact Merged.refl [nodes]
      | some found =>
        obtain ⟨before, ⟨previous, earlier, kind, -⟩, between⟩ := previousText_some is
        dsimp only
        rw [earlier]
        refine mergeLeaves earlier there before kind text.1 fun i after before node at_ => ?_
        obtain ⟨_, _, _, _, _, _, _, rfl⟩ := between i after before node at_
        rfl
    · rw [if_neg text]
      exact Merged.refl [nodes]
  · exact Merged.refl [nodes]

theorem Merged.page_length {before after : List Node} (h : Merged [before] [after]) :
    after.length = before.length := h.pageLength 0

/-- All turns of the first loop on one page. -/
theorem mergeParaText_merged {E : VlmError → Prop} (r : Renderer) (nodes : List Node) :
    EnsuresOr E (mergeParaText r nodes) fun after => Merged [nodes] [after] := by
  unfold mergeParaText
  apply EnsuresOr.foldlM (P := fun after => Merged [nodes] [after]) (Merged.refl [nodes])
  intro now index mem merged
  have lt : index < now.length := by
    rw [merged.page_length]
    exact List.mem_range.mp (List.mem_reverse.mp mem)
  exact (mergeTextAt_merged r lt).weaken fun after next => merged.trans next

/-- A page is merged within its document. -/
theorem Merged.within {nodes nodes' : List Node} (h : Merged [nodes] [nodes'])
    (front back : Paras) : Merged (front ++ nodes :: back) (front ++ nodes' :: back) := by
  have page : List.Forall₂ Node.Kept nodes nodes' := by
    cases h.nodes with
    | cons page _ => exact page
  have kept := forall₂_replace (R := List.Forall₂ Node.Kept) (forall₂_same .same) front back page
  have lines := h.lines
  have items := h.items
  unfold docLines at lines
  unfold docItems at items
  rw [List.flatten_singleton, List.flatten_singleton] at lines items
  refine ⟨kept, indexes_eq kept, ?_, ?_⟩
  · unfold docLines
    simp only [List.flatten_append, List.flatten_cons, List.flatMap_append, lines]
  · unfold docItems
    simp only [List.flatten_append, List.flatten_cons, List.flatMap_append, items]

/-! ## The document -/

/-- The deadline ended the merge. -/
def Expired (expired : Nat → Bool) (e : VlmError) : Prop :=
  e = .timeout "official PDF" ∧ ∃ check, expired check = true

/-- A check of the deadline either goes on or ends the call with the error of the deadline. -/
theorem checkDeadline_ends (expired : Nat → Bool) (check : Nat) :
    EnsuresOr (Expired expired) (checkDeadline expired check) fun _ => True := by
  unfold checkDeadline
  split
  · next late => exact ⟨rfl, check, late⟩
  · trivial

/-- The first loop at one page: what is ensured of the page is put into the document. -/
theorem mergeTexts_ensures (r : Renderer) (expired : Nat → Bool) {paras : Paras} {page : Nat}
    (lt : page < paras.length) {P : List Node → List Node → Prop}
    (turns : ∀ nodes, EnsuresOr (Expired expired) (mergeParaText r nodes) (P nodes)) :
    EnsuresOr (Expired expired) (mergeTexts r expired paras page) fun after =>
      ∃ front nodes nodes' back, paras = front ++ nodes :: back ∧ after = front ++ nodes' :: back ∧
        P nodes nodes' := by
  unfold mergeTexts
  refine (checkDeadline_ends expired page).bind fun _ _ => ?_
  obtain ⟨front, back, was, length⟩ := exists_split (List.getElem?_eq_getElem lt)
  rw [List.getElem?_eq_getElem lt]
  refine (turns paras[page]).bind fun nodes' holds => ?_
  refine ⟨front, paras[page], nodes', back, was, ?_, holds⟩
  rw [← set_split front back paras[page], ← was, length]

theorem mergeTexts_merged (r : Renderer) (expired : Nat → Bool) {paras : Paras} {page : Nat}
    (lt : page < paras.length) :
    EnsuresOr (Expired expired) (mergeTexts r expired paras page) (Merged paras) := by
  refine (mergeTexts_ensures r expired lt (mergeParaText_merged r)).weaken ?_
  rintro _ ⟨front, nodes, nodes', back, rfl, rfl, merged⟩
  exact merged.within front back

/-- All turns of the second loop on one page. -/
theorem mergeLists_merged (expired : Nat → Bool) (paras : Paras) (page : Nat) :
    EnsuresOr (Expired expired) (mergeLists expired paras page) (Merged paras) := by
  unfold mergeLists
  refine (checkDeadline_ends expired _).bind fun _ _ => ?_
  apply EnsuresOr.foldlM (Merged.refl paras)
  intro now index mem merged
  have lt : index < pageLength now page := by
    rw [merged.pageLength]
    exact List.mem_range.mp mem
  obtain ⟨node, there⟩ := exists_nodeAt lt
  exact (mergeListAt_merged there).weaken fun after next => merged.trans next

/-- The first loop over the pages. -/
theorem allTexts_merged (r : Renderer) (expired : Nat → Bool) (paras : Paras) :
    EnsuresOr (Expired expired) ((List.range paras.length).foldlM (mergeTexts r expired) paras)
      (Merged paras) := by
  apply EnsuresOr.foldlM (Merged.refl paras)
  intro now page mem merged
  have lt : page < now.length := by
    rw [merged.length]
    exact List.mem_range.mp mem
  exact (mergeTexts_merged r expired lt).weaken fun after next => merged.trans next

/-- The second loop over the pages. -/
theorem allLists_merged (expired : Nat → Bool) (paras : Paras) :
    EnsuresOr (Expired expired) ((List.range paras.length).foldlM (mergeLists expired) paras)
      (Merged paras) := by
  apply EnsuresOr.foldlM (Merged.refl paras)
  intro now page _ merged
  exact (mergeLists_merged expired now page).weaken fun after next => merged.trans next

/-- **Merging neither loses nor reorders text.** Without the merge of tables the result is the
document with the same lines and the same items in document order, whose other nodes are as they were
and whose emptied lists are tombstones at their own index; and only the deadline stops it. -/
theorem mergeDocumentParas_merged (r : Renderer) (expired : Nat → Bool)
    (mergeTables : Paras → Checked VlmError Paras) (paras : Paras) :
    EnsuresOr (Expired expired) (mergeDocumentParas r expired mergeTables false paras)
      (Merged paras) := by
  unfold mergeDocumentParas
  refine (allTexts_merged r expired paras).bind fun now merged => ?_
  refine (allLists_merged expired now).bind fun next merged' => ?_
  exact merged.trans merged'

end Mineru.Builders
