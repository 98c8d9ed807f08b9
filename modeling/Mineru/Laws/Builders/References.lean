import Mineru.Laws.Builders.Paras

/-!
# Which reference lists are joined

The pass over the reference lists sees of a node only its `Shape`. A list is joined to the one
before it when it stands at an odd place of its chain, since the list before an even place has just
become a tombstone. A run of lists, tombstones and empty lists becomes one list exactly when at most
one of its lists stands at an even place.

The second loop is followed on shapes alone: a turn of the source is a turn of `joinAt`
(`mergeListAt_shapes`), and the turns of all pages settle each shape by its place (`joinPages`). The
first loop, which merges texts, runs before it and moves no list; what it does to the other shapes
is lost in `blur`, under which the places are the same (`documentPlaces_alike`). So the condition
can be read on the document before the call.

What becomes of the items of a joined list is not asked here.
-/

set_option autoImplicit false

namespace Mineru.Builders

open Logic
open Logic.Checked (EnsuresOr)

/-! ## Shapes -/

/-- A tombstone, or a list left empty. -/
def isGap : Node → Bool
  | .tombstone .. => true
  | .list _ items => items.isEmpty
  | _ => false

/-- What the pass sees of a node: a reference list with items, a tombstone or an empty list, another
node that is empty, or anything else. -/
inductive Shape where
  | ref
  | gap
  | blank
  | other
  deriving DecidableEq, Repr

def shape (node : Node) : Shape :=
  if isRefList node then .ref
  else if isGap node then .gap
  else if nodeIsEmpty node then .blank
  else .other

def shapes (paras : Paras) : List (List Shape) := paras.map (List.map shape)

/-- The shape tells whether a node is a reference list, and `shape_eq_gap` whether it is a
tombstone. -/
theorem shape_eq_ref {node : Node} : shape node = .ref ↔ isRefList node = true := by
  unfold shape
  split_ifs <;> simp_all

theorem shape_eq_gap {node : Node} : shape node = .gap ↔ isGap node = true := by
  unfold shape
  cases node with
  | list marker items =>
    cases items
    · simp [isRefList, isGap]
    · by_cases refText : marker.subType = some "ref_text" <;>
        simp [isRefList, isGap, nodeIsEmpty, refText]
  | leaf block =>
    by_cases empty : nodeIsEmpty (.leaf block) = true <;> simp [isRefList, isGap, empty]
  | visual => simp [isRefList, isGap, nodeIsEmpty]
  | tombstone => simp [isRefList, isGap]

/-- An empty node is a tombstone or a list without items. -/
theorem nodeIsEmpty_iff {node : Node} :
    nodeIsEmpty node = true ↔ shape node = .gap ∨ shape node = .blank := by
  rw [shape_eq_gap]
  unfold shape
  cases node with
  | list marker items =>
    cases items
    · simp [isRefList, isGap, nodeIsEmpty]
    · by_cases refText : marker.subType = some "ref_text" <;>
        simp [isRefList, isGap, nodeIsEmpty, refText]
  | leaf block =>
    by_cases empty : nodeIsEmpty (.leaf block) = true <;> simp [isRefList, isGap, empty]
  | visual => simp [isRefList, isGap, nodeIsEmpty]
  | tombstone => simp [isGap, nodeIsEmpty]

/-! ## Places -/

/-- Each node of a page, with whether it is a reference list at an odd place of its chain. The chain
that begins the page may begin at an odd place. -/
def places : Bool → List Shape → List (Shape × Bool)
  | _, [] => []
  | odd, s :: rest =>
    if s = .ref then (s, odd) :: places (!odd) rest else (s, false) :: places false rest

/-- The last node that is not empty is a reference list. -/
def endsWithRef : Bool → List Shape → Bool
  | before, [] => before
  | before, s :: rest =>
    endsWithRef (if s = .ref then true else if s = .other then false else before) rest

/-- The places of a document: the first chain of a page begins at an odd place when the last node
before the page that is not empty is a reference list. -/
def documentPlaces : Bool → List (List Shape) → List (List (Shape × Bool))
  | _, [] => []
  | before, page :: pages => places before page :: documentPlaces (endsWithRef before page) pages

/-- What becomes of a node. -/
def settle (place : Shape × Bool) : Shape := if place.2 then .gap else place.1

/-- The flag behind a part of a page. -/
def nextPlace : Bool → List Shape → Bool
  | odd, [] => odd
  | odd, s :: rest => nextPlace (if s = .ref then !odd else false) rest

/-- The places of a chain that is cut in two: the second part starts where the first has stopped. -/
theorem places_append (odd : Bool) (a b : List Shape) :
    places odd (a ++ b) = places odd a ++ places (nextPlace odd a) b := by
  induction a generalizing odd with
  | nil => rfl
  | cons s a ih =>
    rw [List.cons_append, places, places, nextPlace]
    split_ifs <;> rw [ih, List.cons_append]

/-- Behind a list at an even place the next one is at an odd place, and behind any other node at an
even one. -/
theorem nextPlace_concat (odd : Bool) (a : List Shape) (s : Shape) :
    nextPlace odd (a ++ [s]) = (decide (s = .ref) && !nextPlace odd a) := by
  induction a generalizing odd with
  | nil => by_cases ref : s = .ref <;> simp [nextPlace, ref]
  | cons t a ih =>
    rw [List.cons_append, nextPlace, ih, nextPlace]

theorem length_places (odd : Bool) (a : List Shape) : (places odd a).length = a.length := by
  induction a generalizing odd with
  | nil => rfl
  | cons s a ih =>
    rw [places]
    split_ifs <;> simp [ih]

/-- A list is at an odd place when the node before it has stayed a list. -/
theorem nextPlace_iff (odd : Bool) (a : List Shape) (s : Shape) :
    nextPlace odd (a ++ [s]) = true ↔
      ((places odd (a ++ [s])).map settle).getLast? = some .ref := by
  rw [nextPlace_concat, places_append, places, List.map_append]
  by_cases ref : s = .ref
  · cases nextPlace odd a <;> simp [ref, settle, places]
  · simp [ref, settle, places]

theorem endsWithRef_append (before : Bool) (a b : List Shape) :
    endsWithRef before (a ++ b) = endsWithRef (endsWithRef before a) b := by
  induction a generalizing before with
  | nil => rfl
  | cons s a ih => exact ih _

/-- Empty nodes do not change what the last surviving node is. -/
theorem endsWithRef_empty {before : Bool} {a : List Shape}
    (empty : ∀ s ∈ a, s = .gap ∨ s = .blank) : endsWithRef before a = before := by
  induction a with
  | nil => rfl
  | cons s a ih =>
    have rest : ∀ t ∈ a, t = .gap ∨ t = .blank := fun t mem => empty t (List.mem_cons_of_mem s mem)
    rw [endsWithRef]
    rcases empty s List.mem_cons_self with rfl | rfl <;> exact ih rest

/-- A joined list stands behind a list that stays, so the last node is a list as before. -/
theorem endsWithRef_settled {odd before : Bool} (follows : odd = true → before = true)
    (a : List Shape) :
    endsWithRef before ((places odd a).map settle) = endsWithRef before a := by
  induction a generalizing odd before with
  | nil => rfl
  | cons s a ih =>
    rw [places]
    by_cases ref : s = .ref
    · subst ref
      cases odd with
      | true =>
        obtain rfl := follows rfl
        exact ih (by simp)
      | false => exact ih fun _ => rfl
    · rw [if_neg ref, List.map_cons, endsWithRef, endsWithRef]
      exact ih (by simp)

/-! ## The pass -/

/-- One turn of the loop, on shapes: the list is joined to the one before. -/
def joinAt (page : Nat) (pages : List (List Shape)) (index : Nat) : List (List Shape) :=
  let nodes := (pages[page]?).getD []
  let follows :=
    if index = 0 then endsWithRef false (pages.take page).flatten
    else decide (nodes[index - 1]? = some .ref)
  if nodes[index]? = some .ref ∧ follows then pages.set page (nodes.set index .gap) else pages

theorem shapes_setNode {paras : Paras} {page index : Nat} {nodes : List Shape} (node : Node)
    (there : (shapes paras)[page]? = some nodes) :
    shapes (setNode paras page index node) =
      (shapes paras).set page (nodes.set index (shape node)) := by
  unfold shapes at there ⊢
  rw [List.getElem?_map, Option.map_eq_some_iff] at there
  obtain ⟨inner, found, rfl⟩ := there
  rw [setNode, List.modify_eq_set_getElem?, found]
  simp [List.map_set]

theorem nodeAt_shape {paras : Paras} {page index : Nat} {node : Node}
    (there : nodeAt paras page index = some node) :
    ∃ nodes, (shapes paras)[page]? = some nodes ∧ nodes[index]? = some (shape node) := by
  obtain ⟨nodes, found, inside⟩ := Option.bind_eq_some_iff.mp there
  exact ⟨nodes.map shape, by simp [shapes, found], by simp [inside]⟩

theorem set_same {α : Type} {as : List α} {i : Nat} {a : α} (there : as[i]? = some a) :
    as.set i a = as := by
  obtain ⟨lt, rfl⟩ := List.getElem?_eq_some_iff.mp there
  exact List.set_getElem_self lt

theorem shapes_empty {nodes : List Node} (empty : ∀ node ∈ nodes, nodeIsEmpty node = true) :
    ∀ s ∈ nodes.map shape, s = .gap ∨ s = .blank := by
  intro s mem
  obtain ⟨node, among, rfl⟩ := List.mem_map.mp mem
  exact nodeIsEmpty_iff.mp (empty node among)

/-- No node survives before the page, so all of them are empty. -/
theorem lastSurvivingNode_none {paras : Paras} {page : Nat} (le : page ≤ paras.length)
    (none_ : lastSurvivingNode paras page = none) :
    ∀ node ∈ (paras.take page).flatten, nodeIsEmpty node = true := by
  induction page with
  | zero => simp
  | succ page ih =>
    have there : paras[page]? = some paras[page] := List.getElem?_eq_getElem le
    unfold lastSurvivingNode at none_
    rw [there, Option.bind_some] at none_
    cases position : rposition (fun node => !nodeIsEmpty node) paras[page] with
    | some index =>
      rw [position] at none_
      cases none_
    | none =>
      rw [position] at none_
      intro node mem
      rw [List.take_add_one, there] at mem
      rw [List.flatten_append, List.mem_append] at mem
      rcases mem with old | new
      · exact ih (Nat.le_of_succ_le le) none_ node old
      · simpa using rposition_none position node (by simpa using new)

/-- The node that is found is not empty, and only empty ones follow it before the page. -/
theorem lastSurvivingNode_full {paras : Paras} {page previousPage previousIndex : Nat}
    (found : lastSurvivingNode paras page = some (previousPage, previousIndex)) :
    ∃ node, nodeAt paras previousPage previousIndex = some node ∧ nodeIsEmpty node = false := by
  induction page with
  | zero => cases found
  | succ page ih =>
    unfold lastSurvivingNode at found
    cases position : paras[page]?.bind (rposition fun node => !nodeIsEmpty node) with
    | some index =>
      rw [position] at found
      cases found
      obtain ⟨nodes, there, inside⟩ := Option.bind_eq_some_iff.mp position
      obtain ⟨pre, node, post, rfl, rfl, holds, -⟩ := rposition_some inside
      refine ⟨node, ?_, by simpa using holds⟩
      rw [nodeAt, there, Option.bind_some, List.getElem?_append_right (Nat.le_refl _), Nat.sub_self,
        List.getElem?_cons_zero]
    | none =>
      rw [position] at found
      exact ih found

theorem shapes_before (paras : Paras) (page : Nat) :
    ((shapes paras).take page).flatten = ((paras.take page).flatten).map shape := by
  rw [shapes, ← List.map_take, List.map_flatten]

/-- The last surviving node is the last one before the page that is not empty. -/
theorem lastSurvivingNode_ref {paras : Paras} {page previousPage previousIndex : Nat}
    (le : page ≤ paras.length)
    (found : lastSurvivingNode paras page = some (previousPage, previousIndex)) :
    ∃ node, nodeAt paras previousPage previousIndex = some node ∧
      endsWithRef false ((shapes paras).take page).flatten = isRefList node := by
  obtain ⟨front, pre, node, post, between, back, rfl, rfl, rfl, rfl, empty⟩ :=
    lastSurvivingNode_some le found
  refine ⟨node, ?_, ?_⟩
  · simp only [nodeAt, List.getElem?_append_right (Nat.le_refl _), Nat.sub_self,
      List.getElem?_cons_zero, Option.bind_some]
  · have cut : front ++ (pre ++ node :: post) :: (between ++ back) =
        (front ++ (pre ++ node :: post) :: between) ++ back := by simp
    have length : front.length + 1 + between.length =
        (front ++ (pre ++ node :: post) :: between).length := by
      simp only [List.length_append, List.length_cons]
      omega
    have flat : (front ++ (pre ++ node :: post) :: between).flatten =
        (front.flatten ++ pre) ++ node :: (post ++ between.flatten) := by simp
    have full : shape node = .ref ∨ shape node = .other := by
      obtain ⟨node', there, some_⟩ := lastSurvivingNode_full found
      simp only [nodeAt, List.getElem?_append_right (Nat.le_refl _), Nat.sub_self,
        List.getElem?_cons_zero, Option.bind_some, Option.some_inj] at there
      rw [← there, ← Bool.not_eq_true, nodeIsEmpty_iff] at some_
      cases is : shape node <;> simp_all
    rw [shapes_before, cut, length, List.take_left, flat, List.map_append, List.map_cons,
      endsWithRef_append, endsWithRef, endsWithRef_empty (shapes_empty empty)]
    rcases full with ref | other
    · rw [if_pos ref, shape_eq_ref.mp ref]
    · have plain : isRefList node = false := by
        rw [← Bool.not_eq_true, ← shape_eq_ref, other]
        simp
      rw [other, plain]
      rfl

/-- The items go to a list that stays a list. -/
theorem moveItems_shapes {E : VlmError → Prop} {paras : Paras}
    {page index previousPage previousIndex : Nat} {node previous : Node} {nodes : List Shape}
    (there : nodeAt paras page index = some node)
    (earlier : nodeAt paras previousPage previousIndex = some previous)
    (ref : isRefList node = true) (previousRef : isRefList previous = true)
    (found : (shapes paras)[page]? = some nodes) :
    EnsuresOr E (moveItems paras page index previousPage previousIndex) fun after =>
      shapes after = (shapes paras).set page (nodes.set index .gap) := by
  obtain ⟨marker, items, rfl, _, refText⟩ := (isRefList_iff node).mp ref
  obtain ⟨previousMarker, previousItems, rfl, previousSome, previousRefText⟩ :=
    (isRefList_iff previous).mp previousRef
  unfold moveItems
  rw [there, earlier]
  obtain ⟨previousNodes, previousFound, inside⟩ := nodeAt_shape earlier
  have stays : ∀ moved, shapes (setNode paras previousPage previousIndex
      (.list previousMarker (previousItems ++ moved))) = shapes paras := by
    intro moved
    have still : shape (.list previousMarker (previousItems ++ moved)) = .ref := by
      rw [shape_eq_ref]
      simp [isRefList, previousRefText, previousSome]
    rw [shapes_setNode _ previousFound, still, ← shape_eq_ref.mpr previousRef, set_same inside,
      set_same previousFound]
  show shapes (setNode (setNode _ _ _ _) _ _ _) = _
  rw [shapes_setNode _ ((stays _).symm ▸ found), stays]
  rfl

/-- One turn of the source is one turn on the shapes, whether it joins or not. -/
theorem mergeListAt_shapes {E : VlmError → Prop} {paras : Paras} {page index : Nat} {node : Node}
    (there : nodeAt paras page index = some node) :
    EnsuresOr E (mergeListAt page paras index) fun after =>
      shapes after = joinAt page (shapes paras) index := by
  have le : page ≤ paras.length := by
    obtain ⟨nodes, found, -⟩ := Option.bind_eq_some_iff.mp there
    exact Nat.le_of_lt (List.getElem?_eq_some_iff.mp found).1
  obtain ⟨nodes, found, inside⟩ := nodeAt_shape there
  unfold mergeListAt joinAt
  rw [there, found, Option.getD_some]
  dsimp only
  rw [inside]
  by_cases ref : isRefList node = true
  · rw [if_neg (by simp [ref]), shape_eq_ref.mpr ref]
    -- The node before is a list that is joined, or it is not.
    have turn : ∀ {previousPage previousIndex : Nat} {previous : Node},
        nodeAt paras previousPage previousIndex = some previous →
        EnsuresOr E (if (!isRefList previous) = true then .ok paras
          else moveItems paras page index previousPage previousIndex) fun after =>
            shapes after = if some Shape.ref = some .ref ∧ isRefList previous = true then
              (shapes paras).set page (nodes.set index .gap) else shapes paras := by
      intro previousPage previousIndex previous earlier
      by_cases previousRef : isRefList previous = true
      · rw [if_neg (by simp [previousRef]), if_pos ⟨rfl, previousRef⟩]
        exact moveItems_shapes there earlier ref previousRef found
      · rw [if_pos (by simp [previousRef]), if_neg (by simp [previousRef])]
        exact rfl
    cases index with
    | zero =>
      rw [if_neg (Nat.lt_irrefl 0), if_pos rfl]
      cases last : lastSurvivingNode paras page with
      | none =>
        rw [shapes_before, endsWithRef_empty (shapes_empty (lastSurvivingNode_none le last))]
        exact rfl
      | some position =>
        obtain ⟨previousPage, previousIndex⟩ := position
        obtain ⟨previous, earlier, same⟩ := lastSurvivingNode_ref le last
        dsimp only
        rw [earlier, same]
        exact turn earlier
    | succ index =>
      rw [if_pos (Nat.zero_lt_succ index), if_neg (Nat.succ_ne_zero index)]
      obtain ⟨previous, earlier⟩ := exists_nodeAt_before there
      obtain ⟨nodes', found', before⟩ := nodeAt_shape earlier
      obtain rfl := Option.some.inj (found.symm.trans found')
      dsimp only
      rw [Nat.add_sub_cancel, earlier, before]
      have same : decide (some (shape previous) = some .ref) = isRefList previous := by
        rw [Bool.eq_iff_iff, decide_eq_true_iff, Option.some_inj, shape_eq_ref]
      rw [same]
      exact turn earlier
  · have plain : ¬ (some (shape node) = some .ref) := by
      rw [Option.some_inj, shape_eq_ref]
      exact ref
    rw [if_pos (by simp [ref]), if_neg fun both => plain both.1]
    exact rfl

/-! ## Whole pages and documents -/

/-- A turn in the middle of a page: the nodes before it are settled, those behind it are as they
were. -/
theorem joinAt_split (front back : List (List Shape)) (done rest : List Shape) (s : Shape) :
    joinAt front.length
        (front ++ ((places (endsWithRef false front.flatten) done).map settle ++ s :: rest) :: back)
        done.length =
      front ++ ((places (endsWithRef false front.flatten) (done ++ [s])).map settle ++ rest) ::
        back := by
  generalize before : endsWithRef false front.flatten = odd
  have settled : ((places odd done).map settle).length = done.length := by
    rw [List.length_map, length_places]
  have here : ((places odd done).map settle ++ s :: rest)[done.length]? = some s := by
    rw [List.getElem?_append_right (by omega), settled, Nat.sub_self, List.getElem?_cons_zero]
  have follows : (if done.length = 0 then odd
      else decide (((places odd done).map settle ++ s :: rest)[done.length - 1]? = some .ref)) =
      nextPlace odd done := by
    rcases List.eq_nil_or_concat done with rfl | ⟨earlier, last, rfl⟩
    · rfl
    · rw [List.concat_eq_append] at settled ⊢
      have positive : 0 < (earlier ++ [last]).length := by simp
      rw [if_neg (Nat.ne_of_gt positive), List.getElem?_append_left (by omega), Bool.eq_iff_iff,
        decide_eq_true_iff, nextPlace_iff, List.getLast?_eq_getElem?, settled]
  unfold joinAt
  rw [List.getElem?_append_right (Nat.le_refl _), Nat.sub_self, List.getElem?_cons_zero,
    Option.getD_some, List.take_left]
  dsimp only
  rw [here, before, follows, places_append, places]
  by_cases ref : s = .ref
  · subst ref
    cases joined : nextPlace odd done with
    | true =>
      have emptied : ((places odd done).map settle ++ .ref :: rest).set done.length .gap =
          (places odd done).map settle ++ .gap :: rest := by
        rw [← settled, set_split]
      rw [if_pos ⟨rfl, rfl⟩, if_pos rfl, set_split, emptied]
      simp [places, settle]
    | false =>
      rw [if_neg (by simp), if_pos rfl]
      simp [places, settle]
  · rw [if_neg fun both => ref (Option.some.inj both.1), if_neg ref]
    simp [places, settle]

/-- The turns of one page. -/
theorem joinAt_page (front back : List (List Shape)) (nodes : List Shape) :
    (List.range nodes.length).foldl (joinAt front.length) (front ++ nodes :: back) =
      front ++ (places (endsWithRef false front.flatten) nodes).map settle :: back := by
  have part : ∀ done rest, nodes = done ++ rest →
      (List.range done.length).foldl (joinAt front.length) (front ++ nodes :: back) =
        front ++ ((places (endsWithRef false front.flatten) done).map settle ++ rest) :: back := by
    intro done
    induction done using List.reverseRecOn with
    | nil =>
      rintro rest rfl
      rfl
    | append_singleton done s ih =>
      intro rest is
      rw [List.length_append, List.length_singleton, List.range_succ, List.foldl_append,
        ih (s :: rest) (by simpa using is), List.foldl_cons, List.foldl_nil, joinAt_split]
  simpa using part nodes [] (List.append_nil nodes).symm

/-- The turns of one page of a document. -/
def joinPage (pages : List (List Shape)) (page : Nat) : List (List Shape) :=
  (List.range ((pages[page]?.map List.length).getD 0)).foldl (joinAt page) pages

/-- All turns of all pages. The induction carries whether the pages before end with a list. -/
theorem joinPages (front pages : List (List Shape)) :
    (List.range' front.length pages.length).foldl joinPage (front ++ pages) =
      front ++ (documentPlaces (endsWithRef false front.flatten) pages).map (List.map settle) := by
  induction pages generalizing front with
  | nil => simp [documentPlaces]
  | cons page pages ih =>
    have turn : joinPage (front ++ page :: pages) front.length =
        front ++ (places (endsWithRef false front.flatten) page).map settle :: pages := by
      unfold joinPage
      rw [List.getElem?_append_right (Nat.le_refl _), Nat.sub_self, List.getElem?_cons_zero,
        Option.map_some, Option.getD_some, joinAt_page]
    have next := ih (front ++ [(places (endsWithRef false front.flatten) page).map settle])
    rw [List.length_append, List.length_singleton, List.append_assoc, List.singleton_append,
      List.flatten_append, List.flatten_singleton, endsWithRef_append,
      endsWithRef_settled fun h => h] at next
    rw [List.length_cons, List.range'_succ, List.foldl_cons, turn, next, documentPlaces]
    simp

/-- A loop of the program that a loop on another view of the state follows. -/
theorem foldlM_follows {β γ ι : Type} {E : VlmError → Prop} {f : β → ι → Checked VlmError β}
    {g : γ → ι → γ} {v : β → γ} {P : γ → Prop} {l : List ι}
    (step : ∀ b, P (v b) → ∀ i ∈ l, EnsuresOr E (f b i) fun a => v a = g (v b) i)
    (keeps : ∀ c, P c → ∀ i ∈ l, P (g c i)) {b : β} (start : P (v b)) :
    EnsuresOr E (l.foldlM f b) fun a => v a = l.foldl g (v b) := by
  induction l generalizing b with
  | nil => exact rfl
  | cons i l ih =>
    rw [List.foldlM_cons, List.foldl_cons]
    refine (step b start i List.mem_cons_self).bind fun a is => ?_
    rw [← is]
    refine ih (fun b ok j mem => step b ok j (List.mem_cons_of_mem i mem))
      (fun c ok j mem => keeps c ok j (List.mem_cons_of_mem i mem)) ?_
    rw [is]
    exact keeps _ start i List.mem_cons_self

theorem pageLength_shapes (paras : Paras) (page : Nat) :
    ((shapes paras)[page]?.map List.length).getD 0 = pageLength paras page := by
  unfold shapes pageLength
  rw [List.getElem?_map, Option.map_map]
  congr 2
  funext nodes
  exact List.length_map _

theorem length_joinAt (page : Nat) (pages : List (List Shape)) (index : Nat) :
    (joinAt page pages index).map List.length = pages.map List.length := by
  have emptied : (pages.set page (((pages[page]?).getD []).set index .gap)).map List.length =
      pages.map List.length := by
    cases found : pages[page]? with
    | none => rw [List.set_eq_of_length_le (List.getElem?_eq_none_iff.mp found)]
    | some nodes =>
      rw [List.map_set, Option.getD_some, List.length_set]
      exact set_same (by rw [List.getElem?_map, found, Option.map_some])
  unfold joinAt
  dsimp only
  generalize (if index = 0 then endsWithRef false (pages.take page).flatten
    else decide (((pages[page]?).getD [])[index - 1]? = some .ref)) = follows
  split_ifs
  · exact emptied
  · rfl

/-- The loop over one page, followed on shapes. It stops early only at the deadline. -/
theorem mergeLists_shapes (expired : Nat → Bool) (paras : Paras) (page : Nat) :
    EnsuresOr (Expired expired) (mergeLists expired paras page) fun after =>
      shapes after = joinPage (shapes paras) page := by
  unfold mergeLists joinPage
  refine (checkDeadline_ends expired _).bind fun _ _ => ?_
  rw [pageLength_shapes]
  refine foldlM_follows (v := shapes)
    (P := fun pages => pages.map List.length = (shapes paras).map List.length)
    (fun now lengths index mem => ?_)
    (fun pages lengths index _ => (length_joinAt page pages index).trans lengths) rfl
  have lt : index < pageLength now page := by
    have same := congrArg (fun sizes : List Nat => sizes[page]?) lengths
    simp only [List.getElem?_map] at same
    rw [← pageLength_shapes, same, pageLength_shapes]
    exact List.mem_range.mp mem
  obtain ⟨node, there⟩ := exists_nodeAt lt
  exact mergeListAt_shapes there

/-- The second loop joins the lists at odd places. -/
theorem allLists_shapes (expired : Nat → Bool) (paras : Paras) :
    EnsuresOr (Expired expired) ((List.range paras.length).foldlM (mergeLists expired) paras)
      fun after => shapes after = (documentPlaces false (shapes paras)).map (List.map settle) := by
  have follows := foldlM_follows (E := Expired expired) (f := mergeLists expired) (g := joinPage)
    (v := shapes) (P := fun _ => True) (l := List.range paras.length) (b := paras)
    (fun now _ page _ => mergeLists_shapes expired now page) (fun _ _ _ _ => trivial) trivial
  refine follows.weaken fun after is => ?_
  have whole := joinPages [] (shapes paras)
  rw [shapes, List.length_map] at whole
  rw [is, List.range_eq_range']
  exact whole

/-! ## Runs -/

/-- Between two reference lists with items there is always a node that is neither a tombstone nor a
list left empty. -/
def FullyJoined (paras : Paras) : Prop :=
  ∀ pre a mid b post, paras.flatten = pre ++ a :: (mid ++ b :: post) → isRefList a = true →
    isRefList b = true → ∃ node ∈ mid, isGap node = false

/-- In a run of reference lists, tombstones and empty lists no two lists stand at even places. -/
def OneEven (marked : List (Shape × Bool)) : Prop :=
  ∀ pre mid post, marked = pre ++ (.ref, false) :: (mid ++ (.ref, false) :: post) →
    ∃ x ∈ mid, x.1 = .blank ∨ x.1 = .other

/-- The lists at odd places are joined to the one before, and that leaves one list of every run. -/
def Joinable (paras : Paras) : Prop := OneEven (documentPlaces false (shapes paras)).flatten

/-- Two reference lists of a list of shapes. -/
theorem fullyJoined_iff_shapes {paras : Paras} : FullyJoined paras ↔
    ∀ pre mid post, paras.flatten.map shape = pre ++ .ref :: (mid ++ .ref :: post) →
      ∃ s ∈ mid, s ≠ .gap := by
  constructor
  · intro joined pre mid post is
    obtain ⟨pre', rest₁, was, rfl, tail₁⟩ := List.map_eq_append_iff.mp is
    obtain ⟨a, rest₂, rfl, first, tail₂⟩ := List.map_eq_cons_iff.mp tail₁
    obtain ⟨mid', rest₃, rfl, rfl, tail₃⟩ := List.map_eq_append_iff.mp tail₂
    obtain ⟨b, post', rfl, second, rfl⟩ := List.map_eq_cons_iff.mp tail₃
    obtain ⟨node, among, no⟩ := joined pre' a mid' b post' was (shape_eq_ref.mp first)
      (shape_eq_ref.mp second)
    refine ⟨shape node, List.mem_map_of_mem among, ?_⟩
    rw [Ne, shape_eq_gap, no]
    exact Bool.false_ne_true
  · intro joined pre a mid b post is first second
    have mapped : paras.flatten.map shape =
        pre.map shape ++ .ref :: (mid.map shape ++ .ref :: post.map shape) := by
      simp [is, shape_eq_ref.mpr first, shape_eq_ref.mpr second]
    obtain ⟨s, among, no⟩ := joined _ _ _ mapped
    obtain ⟨node, inside, rfl⟩ := List.mem_map.mp among
    rw [Ne, shape_eq_gap] at no
    exact ⟨node, inside, Bool.eq_false_of_not_eq_true no⟩

/-- Only lists stand at odd places. -/
def Valid (marked : List (Shape × Bool)) : Prop := ∀ x ∈ marked, x.2 = true → x.1 = .ref

theorem settle_eq_ref {x : Shape × Bool} (valid : x.2 = true → x.1 = .ref) :
    settle x = .ref ↔ x = (.ref, false) := by
  obtain ⟨s, joined⟩ := x
  cases joined <;> simp [settle]

/-- After the pass two lists stand in one run exactly when two were at even places in it. -/
theorem fullyJoined_iff {paras : Paras} {marked : List (Shape × Bool)} (valid : Valid marked)
    (settled : paras.flatten.map shape = marked.map settle) :
    FullyJoined paras ↔ OneEven marked := by
  rw [fullyJoined_iff_shapes, settled]
  constructor
  · -- By induction on what is between: a list at an even place between them comes closer.
    intro joined pre mid
    induction size : mid.length using Nat.strong_induction_on generalizing mid with
    | _ n ih =>
      intro post is
      have mapped : marked.map settle =
          pre.map settle ++ .ref :: (mid.map settle ++ .ref :: post.map settle) := by
        rw [is]
        simp [settle]
      obtain ⟨s, among, no⟩ := joined _ _ _ mapped
      obtain ⟨⟨s, odd⟩, inside, rfl⟩ := List.mem_map.mp among
      cases s with
      | blank => exact ⟨_, inside, Or.inl rfl⟩
      | other => exact ⟨_, inside, Or.inr rfl⟩
      | gap => cases odd <;> exact absurd rfl no
      | ref =>
        cases odd with
        | true => exact absurd rfl no
        | false =>
          obtain ⟨first, second, rfl⟩ := List.append_of_mem inside
          obtain ⟨x, there, free⟩ := ih first.length (by rw [← size]; simp) first rfl
            (second ++ (.ref, false) :: post) (by rw [is]; simp)
          exact ⟨x, List.mem_append_left _ there, free⟩
  · intro even pre mid post is
    obtain ⟨pre', rest₁, was, rfl, tail₁⟩ := List.map_eq_append_iff.mp is
    obtain ⟨a, rest₂, rfl, first, tail₂⟩ := List.map_eq_cons_iff.mp tail₁
    obtain ⟨mid', rest₃, rfl, rfl, tail₃⟩ := List.map_eq_append_iff.mp tail₂
    obtain ⟨b, post', rfl, second, rfl⟩ := List.map_eq_cons_iff.mp tail₃
    rw [settle_eq_ref (valid a (by simp [was]))] at first
    rw [settle_eq_ref (valid b (by simp [was]))] at second
    subst first
    subst second
    obtain ⟨x, among, free⟩ := even _ _ _ was
    refine ⟨settle x, List.mem_map_of_mem among, ?_⟩
    obtain ⟨s, odd⟩ := x
    have list := valid (s, odd) (by simp [was, among])
    cases odd with
    | true =>
      obtain rfl : s = .ref := list rfl
      simp at free
    | false => rcases free with rfl | rfl <;> simp [settle]

theorem valid_places (odd : Bool) (nodes : List Shape) : Valid (places odd nodes) := by
  induction nodes generalizing odd with
  | nil => intro x among; cases among
  | cons s rest ih =>
    rw [places]
    split_ifs with ref
    · exact List.forall_mem_cons.mpr ⟨fun _ => ref, ih _⟩
    · exact List.forall_mem_cons.mpr ⟨fun h => absurd h Bool.false_ne_true, ih _⟩

theorem valid_documentPlaces (before : Bool) (pages : List (List Shape)) :
    Valid (documentPlaces before pages).flatten := by
  induction pages generalizing before with
  | nil => intro x among; cases among
  | cons page pages ih =>
    rw [documentPlaces, List.flatten_cons]
    exact List.forall_mem_append.mpr ⟨valid_places before page, ih _⟩

/-! ## Text -/

/-- A shape, as far as it matters between two lists. -/
def blur (s : Shape) : Shape := if s = .blank then .other else s

/-- Leaves may have been emptied, none of which was the last node that is not empty. -/
structure Alike (nodes nodes' : List Shape) : Prop where
  blurred : nodes.map blur = nodes'.map blur
  last : ∀ before, endsWithRef before nodes = endsWithRef before nodes'

theorem Alike.refl (nodes : List Shape) : Alike nodes nodes := ⟨rfl, fun _ => rfl⟩

theorem Alike.trans {a b c : List Shape} (first : Alike a b) (second : Alike b c) : Alike a c :=
  ⟨first.blurred.trans second.blurred, fun before => (first.last before).trans (second.last before)⟩

/-- The places depend on which nodes are lists, and on nothing else that `blur` forgets. -/
theorem places_blur (odd : Bool) (nodes : List Shape) :
    (places odd nodes).map (Prod.map blur id) = places odd (nodes.map blur) := by
  induction nodes generalizing odd with
  | nil => rfl
  | cons s rest ih =>
    cases s <;> simp [places, blur, ih]

/-- The merge of texts leaves the places as they are. -/
theorem documentPlaces_alike {before : Bool} {pages pages' : List (List Shape)}
    (alike : List.Forall₂ Alike pages pages') :
    (documentPlaces before pages).flatten.map (Prod.map blur id) =
      (documentPlaces before pages').flatten.map (Prod.map blur id) := by
  induction alike generalizing before with
  | nil => rfl
  | cons page _ ih =>
    rw [documentPlaces, documentPlaces, List.flatten_cons, List.flatten_cons, List.map_append,
      List.map_append, places_blur, places_blur, page.blurred, page.last, ih]

theorem OneEven.blurred {marked marked' : List (Shape × Bool)}
    (same : marked.map (Prod.map blur id) = marked'.map (Prod.map blur id))
    (even : OneEven marked) : OneEven marked' := by
  rintro pre mid post rfl
  rw [List.map_append, List.map_cons, List.map_append, List.map_cons] at same
  obtain ⟨pre', rest₁, was, _, tail₁⟩ := List.map_eq_append_iff.mp same
  obtain ⟨a, rest₂, rfl, first, tail₂⟩ := List.map_eq_cons_iff.mp tail₁
  obtain ⟨mid', rest₃, rfl, between, tail₃⟩ := List.map_eq_append_iff.mp tail₂
  obtain ⟨b, post', rfl, second, _⟩ := List.map_eq_cons_iff.mp tail₃
  have list : ∀ x : Shape × Bool, Prod.map blur id x = Prod.map blur id (.ref, false) →
      x = (.ref, false) := by
    rintro ⟨s, odd⟩ is
    cases s <;> simp_all [blur]
  obtain rfl := list a first
  obtain rfl := list b second
  obtain ⟨x, among, free⟩ := even _ _ _ was
  have image : Prod.map blur id x ∈ mid.map (Prod.map blur id) :=
    between ▸ List.mem_map_of_mem among
  obtain ⟨y, inside, is⟩ := List.mem_map.mp image
  refine ⟨y, inside, ?_⟩
  obtain ⟨s, odd⟩ := x
  obtain ⟨s', odd'⟩ := y
  cases s' <;> rcases free with rfl | rfl <;> simp_all [blur]

/-- The condition may be read before the merge of texts or behind it. -/
theorem joinable_of_alike {paras paras' : Paras}
    (alike : List.Forall₂ Alike (shapes paras) (shapes paras')) :
    Joinable paras ↔ Joinable paras' :=
  ⟨OneEven.blurred (documentPlaces_alike alike), OneEven.blurred (documentPlaces_alike alike).symm⟩

/-- A leaf that is emptied behind another one, past nodes that are not empty. -/
theorem alike_emptied (pre mid post : List Shape) (visuals : ∀ s ∈ mid, s = .other) :
    Alike (pre ++ .other :: (mid ++ .other :: post))
      (pre ++ .other :: (mid ++ .blank :: post)) := by
  refine ⟨by simp [blur], fun before => ?_⟩
  have past : endsWithRef false mid = false := by
    clear pre post
    induction mid with
    | nil => rfl
    | cons s mid ih =>
      obtain rfl := visuals s List.mem_cons_self
      exact ih fun t mem => visuals t (List.mem_cons_of_mem _ mem)
  rw [endsWithRef_append, endsWithRef_append, endsWithRef, endsWithRef, if_neg (by simp),
    if_pos rfl, endsWithRef_append, endsWithRef_append, past]
  rfl

/-- Two leaves that can be merged are not empty, whatever is appended to the first. -/
theorem canMergeText_full {r : Renderer} {current previous : Block}
    (can : canMergeText r current previous = true) :
    shape (.leaf current) = .other ∧
      ∀ lines, shape (.leaf { previous with lines := previous.lines ++ lines }) = .other := by
  unfold canMergeText at can
  split at can
  · next first last head tail =>
    have full : first.spans.isEmpty = false ∧ last.spans.isEmpty = false := by
      simp only [Bool.and_eq_true, Bool.not_eq_true'] at can
      exact ⟨can.1.1.1.1.1.1.1.1.1, can.1.1.1.1.1.1.1.1.2⟩
    have among : last ∈ previous.lines := List.mem_of_getLast? tail
    have leads : first ∈ current.lines := List.mem_of_head? head
    refine ⟨?_, fun lines => ?_⟩
    · have : nodeIsEmpty (.leaf current) = false := by
        rw [nodeIsEmpty, List.all_eq_false]
        exact ⟨first, leads, by simp [full.1]⟩
      simp [shape, isRefList, isGap, this]
    · have : nodeIsEmpty (.leaf { previous with lines := previous.lines ++ lines }) = false := by
        rw [nodeIsEmpty, List.all_eq_false]
        exact ⟨last, List.mem_append_left _ among, by simp [full.2]⟩
      simp [shape, isRefList, isGap, this]
  · cases can

/-- A turn of the first loop empties a leaf or changes one that stays, and never a list. -/
theorem mergeTextAt_alike {E : VlmError → Prop} (r : Renderer) {nodes : List Node} {index : Nat}
    (lt : index < nodes.length) :
    EnsuresOr E (mergeTextAt r nodes index) fun after =>
      Alike (nodes.map shape) (after.map shape) := by
  unfold mergeTextAt
  split
  · next past =>
    have le := List.getElem?_eq_none_iff.mp past
    omega
  · next current there =>
    split_ifs with text
    · cases is : previousText r nodes current index with
      | none => exact Alike.refl _
      | some found =>
        obtain ⟨before, ⟨previous, earlier, -, can⟩, between⟩ := previousText_some is
        dsimp only
        rw [earlier]
        obtain ⟨pre, mid, post, rfl, rfl, rfl⟩ := exists_split_two earlier there before
        obtain ⟨currentFull, previousFull⟩ := canMergeText_full can
        have visuals : ∀ s ∈ mid.map shape, s = .other := by
          intro s mem
          obtain ⟨node, among, rfl⟩ := List.mem_map.mp mem
          obtain ⟨k, at_⟩ := List.getElem?_of_mem among
          have inside := (List.getElem?_eq_some_iff.mp at_).1
          obtain ⟨_, _, _, _, _, _, _, rfl⟩ := between (pre.length + 1 + k) (by omega) (by omega)
            node (by
              rw [List.getElem?_append_right (by omega),
                show pre.length + 1 + k - pre.length = k + 1 by omega, List.getElem?_cons_succ,
                List.getElem?_append_left inside]
              exact at_)
          rfl
        have was : shape (.leaf previous) = .other := by
          have := previousFull []
          rwa [List.append_nil] at this
        have emptied : shape (.leaf { current with lines := [] }) = .blank := rfl
        show Alike _ (List.map shape (List.set (List.set _ _ _) _ _))
        rw [set_two]
        simp only [List.map_append, List.map_cons, was, previousFull, currentFull, emptied]
        exact alike_emptied _ _ _ visuals
    · exact Alike.refl _
  · exact Alike.refl _

theorem Alike.length_eq {nodes nodes' : List Shape} (alike : Alike nodes nodes') :
    nodes.length = nodes'.length := by
  simpa using congrArg List.length alike.blurred

theorem mergeParaText_alike {E : VlmError → Prop} (r : Renderer) (nodes : List Node) :
    EnsuresOr E (mergeParaText r nodes) fun after => Alike (nodes.map shape) (after.map shape) := by
  unfold mergeParaText
  refine EnsuresOr.foldlM (P := fun after : List Node => Alike (nodes.map shape) (after.map shape))
    (Alike.refl _) ?_
  intro now index mem alike
  have lt : index < now.length := by
    have same := alike.length_eq
    rw [List.length_map, List.length_map] at same
    rw [← same]
    exact List.mem_range.mp (List.mem_reverse.mp mem)
  exact (mergeTextAt_alike r lt).weaken fun after next => alike.trans next

theorem mergeTexts_alike (r : Renderer) (expired : Nat → Bool) {paras : Paras} {page : Nat}
    (lt : page < paras.length) :
    EnsuresOr (Expired expired) (mergeTexts r expired paras page) fun after =>
      List.Forall₂ Alike (shapes paras) (shapes after) := by
  refine (mergeTexts_ensures r expired lt (mergeParaText_alike r)).weaken ?_
  rintro _ ⟨front, nodes, nodes', back, rfl, rfl, alike⟩
  simp only [shapes, List.map_append, List.map_cons]
  exact forall₂_replace Alike.refl _ _ alike

/-- The first loop over all pages. The nodes keep their pages and their order. -/
theorem allTexts_alike (r : Renderer) (expired : Nat → Bool) (paras : Paras) :
    EnsuresOr (Expired expired) ((List.range paras.length).foldlM (mergeTexts r expired) paras)
      fun after => List.Forall₂ Alike (shapes paras) (shapes after) := by
  refine EnsuresOr.foldlM
    (P := fun after : Paras => List.Forall₂ Alike (shapes paras) (shapes after))
    (forall₂_same Alike.refl _) ?_
  intro now page mem alike
  have lt : page < now.length := by
    have same := alike.length_eq
    rw [shapes, shapes, List.length_map, List.length_map] at same
    rw [← same]
    exact List.mem_range.mp mem
  exact (mergeTexts_alike r expired lt).weaken fun after next =>
    forall₂_trans (R := Alike) (fun _ _ _ => Alike.trans) alike next

/-- **The reference lists of a run become one exactly when at most one of them stands at an even
place.** A list behind one that has just been joined finds a tombstone before it, and stays. The
places are counted in the document before the call. -/
theorem references_joined_iff (r : Renderer) (expired : Nat → Bool)
    (mergeTables : Paras → Checked VlmError Paras) {paras after : Paras}
    (run : mergeDocumentParas r expired mergeTables false paras = .ok after) :
    FullyJoined after ↔ Joinable paras := by
  have ends : EnsuresOr (Expired expired) (mergeDocumentParas r expired mergeTables false paras)
      fun after => FullyJoined after ↔ Joinable paras := by
    unfold mergeDocumentParas
    refine (allTexts_alike r expired paras).bind fun now alike => ?_
    refine (allLists_shapes expired now).bind fun next joined => ?_
    have settled : next.flatten.map shape =
        (documentPlaces false (shapes now)).flatten.map settle := by
      rw [List.map_flatten, List.map_flatten, ← joined]
      rfl
    exact (fullyJoined_iff (valid_documentPlaces _ _) settled).trans (joinable_of_alike alike).symm
  rw [run] at ends
  exact ends

def referenceBlock : Block where
  kind := "ref_text"
  bbox := ⟨0, 0, 1, 1⟩
  angle := 0
  lines := []
  index := 0
  mergePrev := none
  subType := some "ref_text"
  guessLang := none
  imagePath := none
  cellMerge := none
  crossPage := false
  linesDeleted := false

/-- A reference list of so many items. -/
def referenceList (items : Nat) : Node := .list referenceBlock (List.replicate items referenceBlock)

def plainRenderer : Renderer := ⟨fun _ => [], Char.isUpper⟩

/-- Two lists in a row become one. -/
theorem references_joined_two : FullyJoined
    [[referenceList 2, .tombstone "list" ⟨0, 0, 1, 1⟩ 0 0 (some "ref_text")]] ↔
      Joinable [[referenceList 1, referenceList 1]] :=
  references_joined_iff plainRenderer (fun _ => false) .ok rfl

/-- Of three lists in a row the third one stays. -/
theorem third_list_stays : ¬ ∀ (r : Renderer) (expired : Nat → Bool)
    (mergeTables : Paras → Checked VlmError Paras) (paras after : Paras),
    mergeDocumentParas r expired mergeTables false paras = .ok after → FullyJoined after := by
  intro joined
  obtain ⟨node, among, no⟩ := joined plainRenderer (fun _ => false) .ok
    [[referenceList 1, referenceList 1, referenceList 1]]
    [[referenceList 2, .tombstone "list" ⟨0, 0, 1, 1⟩ 0 0 (some "ref_text"), referenceList 1]] rfl
    [] (referenceList 2) [.tombstone "list" ⟨0, 0, 1, 1⟩ 0 0 (some "ref_text")] (referenceList 1) []
    rfl rfl rfl
  rw [List.mem_singleton.mp among] at no
  cases no

end Mineru.Builders
