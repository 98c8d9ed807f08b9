import Mineru.Builders.Compose

/-!
# Composing a page conserves its blocks

The passes share one list of consumed indexes. `Captured` says what the list pass has consumed: the
items of its lists and the markers. Each later pass consumes blocks of kinds that no earlier one
takes, so the consumed indexes are distinct, and the leftovers are what is missing to the whole
page.

Before the passes, `caption_fallbacks` may change the kind of a text into a caption. It keeps each
block at its place and with its index (`Fallbacks`), so that the conservation can be told in the
blocks of the snapshot. Absorbed images are not nodes: they go to the sub-images of their container,
and `composePage_conserves` counts them there.

The numbers that the passes compare by may overflow (`Overflow`). Which parent a block finds depends
on them, and whether it is conserved does not.
-/

set_option autoImplicit false

namespace Mineru.Builders

open Logic

/-! ## Lists of distinct keys -/

section Keys

variable {α κ : Type} [DecidableEq κ]

/-- The elements, grouped by distinct keys that cover them. -/
theorem group_perm {keys : List κ} (nodup : keys.Nodup) (key : α → κ) (as : List α)
    (covered : ∀ a ∈ as, key a ∈ keys) :
    (keys.flatMap fun k => as.filter fun a => key a = k).Perm as := by
  induction keys generalizing as with
  | nil =>
    cases as with
    | nil => exact .nil
    | cons a as => exact absurd (covered a List.mem_cons_self) List.not_mem_nil
  | cons k keys ih =>
    obtain ⟨fresh, nodup⟩ := List.nodup_cons.mp nodup
    rw [List.flatMap_cons]
    have rest := ih nodup (as.filter fun a => ¬ key a = k) (by
      intro a mem
      obtain ⟨inside, other⟩ := List.mem_filter.mp mem
      exact (List.mem_cons.mp (covered a inside)).resolve_left (of_decide_eq_true other))
    have same : (keys.flatMap fun j => (as.filter fun a => ¬ key a = k).filter fun a => key a = j) =
        keys.flatMap fun j => as.filter fun a => key a = j := by
      apply List.flatMap_congr
      intro j mem
      rw [List.filter_filter]
      apply List.filter_congr
      intro a _
      by_cases here : key a = j
      · have other : ¬ key a = k := by
          rintro rfl
          exact fresh (here ▸ mem)
        simp [here, here ▸ other]
      · simp [here]
    rw [same] at rest
    refine (List.Perm.append_left _ rest).trans ?_
    have parts := List.filter_append_perm (fun a => decide (key a = k)) as
    simpa using parts

end Keys

theorem index_inj {blocks : List Block} (distinct : (blocks.map Block.index).Nodup) {b c : Block}
    (hb : b ∈ blocks) (hc : c ∈ blocks) (same : b.index = c.index) : b = c :=
  List.inj_on_of_nodup_map distinct hb hc same

theorem nodup_filter {blocks : List Block} (distinct : (blocks.map Block.index).Nodup)
    (p : Block → Bool) : ((blocks.filter p).map Block.index).Nodup :=
  distinct.sublist (List.filter_sublist.map _)

/-! ## What the nodes hold -/

/-- The blocks in a node, apart from the root of a list. -/
def Node.members : Node → List Block
  | .leaf block => [block]
  | .list _ items => items
  | .visual _ body captions footnotes _ _ _ => body :: (captions ++ footnotes)
  | .tombstone .. => []

def memberIndexes (nodes : List Node) : List Nat := (nodes.flatMap Node.members).map Block.index

theorem memberIndexes_append (nodes nodes' : List Node) :
    memberIndexes (nodes ++ nodes') = memberIndexes nodes ++ memberIndexes nodes' := by
  unfold memberIndexes
  rw [List.flatMap_append, List.map_append]

theorem memberIndexes_perm {nodes nodes' : List Node} (h : nodes.Perm nodes') :
    (memberIndexes nodes).Perm (memberIndexes nodes') :=
  (h.flatMap_right _).map _

/-! ## The list pass -/

/-- The loop over the candidates of one marker takes those that are free and inside of it, and
consumes just these. -/
theorem captureItems_eq (marker : Block) (consumed : List Nat) (candidates items : List Block) :
    ∃ new, candidates.foldl (fun (s : List Nat × List Block) candidate =>
        if candidate.index ∈ s.1 ∨ overlapRatio candidate.bbox marker.bbox < 4 / 5 then s
        else (s.1 ++ [candidate.index], s.2 ++ [candidate])) (consumed, items) =
      (consumed ++ new.map Block.index, items ++ new) ∧ (∀ b ∈ new, b ∈ candidates) ∧
      (consumed.Nodup → (consumed ++ new.map Block.index).Nodup) := by
  induction candidates generalizing consumed items with
  | nil => exact ⟨[], by simp, by simp, by simp⟩
  | cons candidate rest ih =>
    rw [List.foldl_cons]
    by_cases skip : candidate.index ∈ consumed ∨ overlapRatio candidate.bbox marker.bbox < 4 / 5
    · rw [if_pos skip]
      obtain ⟨new, run, inside, nodup⟩ := ih consumed items
      exact ⟨new, run, fun b mem => List.mem_cons_of_mem _ (inside b mem), nodup⟩
    · rw [if_neg skip]
      obtain ⟨new, run, inside, nodup⟩ := ih (consumed ++ [candidate.index]) (items ++ [candidate])
      refine ⟨candidate :: new, ?_, ?_, ?_⟩
      · rw [run]
        simp
      · intro b mem
        rcases List.mem_cons.mp mem with rfl | mem
        · exact List.mem_cons_self
        · exact List.mem_cons_of_mem _ (inside b mem)
      · intro before
        have fresh : candidate.index ∉ consumed := fun mem => skip (.inl mem)
        have after := nodup (before.append (List.nodup_singleton _) (by
          intro i mem single
          exact fresh (List.mem_singleton.mp single ▸ mem)))
        simpa using after

/-- What the list pass has consumed and built, when the markers in `done` were looked at. -/
structure Captured (candidates done : List Block) (s : List Nat × List Node) : Prop where
  consumed : s.1.Perm (memberIndexes s.2 ++ done.map Block.index)
  nodup : s.1.Nodup
  kinds : ∀ i ∈ s.1, (∃ b ∈ candidates, b.index = i) ∨ i ∈ done.map Block.index
  lists : ∀ node ∈ s.2, ∃ m ∈ done, ∃ items, items ≠ [] ∧ (∀ b ∈ items, b ∈ candidates) ∧
    node = .list { m with subType := majorityKind items } items
  roots : (s.2.map nodeIndex).Sublist (done.map Block.index)

theorem captured_start (candidates : List Block) : Captured candidates [] ([], []) where
  consumed := .nil
  nodup := .nil
  kinds _ mem := absurd mem List.not_mem_nil
  lists _ mem := absurd mem List.not_mem_nil
  roots := .refl _

/-- One marker of the list pass: its items are new to the consumed ones, and so is the marker. -/
theorem Captured.step {candidates done : List Block} {s : List Nat × List Node}
    (h : Captured candidates done s) {marker : Block}
    (fresh : marker.index ∉ done.map Block.index)
    (other : ∀ b ∈ candidates, b.index ≠ marker.index) :
    Captured candidates (done ++ [marker]) (captureList candidates s marker) := by
  obtain ⟨new, run, inside, nodup⟩ := captureItems_eq marker s.1 candidates []
  have run' : captureItems marker s.1 candidates = (s.1 ++ new.map Block.index, new) := run
  have nodup := nodup h.nodup
  have kinds : ∀ i ∈ s.1 ++ new.map Block.index,
      (∃ b ∈ candidates, b.index = i) ∨ i ∈ done.map Block.index := by
    intro i mem
    rcases List.mem_append.mp mem with old | mem
    · exact h.kinds i old
    · obtain ⟨b, there, rfl⟩ := List.mem_map.mp mem
      exact .inl ⟨b, inside b there, rfl⟩
  have free : marker.index ∉ s.1 ++ new.map Block.index := by
    intro mem
    rcases kinds _ mem with ⟨b, there, same⟩ | there
    · exact other b there same
    · exact fresh there
  have nodup' : (s.1 ++ new.map Block.index ++ [marker.index]).Nodup :=
    nodup.append (List.nodup_singleton _) (by
      intro i mem single
      exact free (List.mem_singleton.mp single ▸ mem))
  have kinds' : ∀ i ∈ s.1 ++ new.map Block.index ++ [marker.index],
      (∃ b ∈ candidates, b.index = i) ∨ i ∈ (done ++ [marker]).map Block.index := by
    intro i mem
    rw [List.map_append]
    rcases List.mem_append.mp mem with old | mem
    · exact (kinds i old).imp_right (List.mem_append_left _)
    · exact .inr (List.mem_append_right _ mem)
  unfold captureList
  rw [run']
  dsimp only
  by_cases none_ : new = []
  · rw [if_pos none_]
    subst none_
    refine ⟨?_, nodup', kinds', ?_, ?_⟩
    · have old := h.consumed.append_right [marker.index]
      simpa using old
    · intro node mem
      obtain ⟨m, there, rest⟩ := h.lists node mem
      exact ⟨m, List.mem_append_left _ there, rest⟩
    · rw [List.map_append]
      exact h.roots.trans (List.sublist_append_left _ _)
  · rw [if_neg none_]
    refine ⟨?_, nodup', kinds', ?_, ?_⟩
    · dsimp only
      rw [memberIndexes_append, List.map_append]
      have added : memberIndexes [.list { marker with subType := majorityKind new } new] =
          new.map Block.index := by
        simp [memberIndexes, Node.members]
      rw [added]
      have old := (h.consumed.append_right (new.map Block.index)).append_right [marker.index]
      refine old.trans ?_
      simp only [List.append_assoc, List.map_cons, List.map_nil]
      refine List.Perm.append_left _ ?_
      rw [← List.append_assoc, ← List.append_assoc]
      exact List.perm_append_comm.append_right _
    · intro node mem
      rcases List.mem_append.mp mem with old | mem
      · obtain ⟨m, there, rest⟩ := h.lists node old
        exact ⟨m, List.mem_append_left _ there, rest⟩
      · refine ⟨marker, List.mem_append_right _ (List.mem_singleton.mpr rfl), new, none_, inside, ?_⟩
        exact List.mem_singleton.mp mem
    · rw [List.map_append, List.map_append]
      exact h.roots.append (.refl _)

/-- The whole list pass. -/
theorem Captured.run {candidates done markers : List Block} {s : List Nat × List Node}
    (h : Captured candidates done s) (distinct : ((done ++ markers).map Block.index).Nodup)
    (other : ∀ m ∈ markers, ∀ b ∈ candidates, b.index ≠ m.index) :
    Captured candidates (done ++ markers) (markers.foldl (captureList candidates) s) := by
  induction markers generalizing done s with
  | nil =>
    rw [List.append_nil]
    exact h
  | cons marker rest ih =>
    have fresh : marker.index ∉ done.map Block.index := by
      rw [List.map_append, List.map_cons] at distinct
      intro mem
      exact List.disjoint_of_nodup_append distinct mem List.mem_cons_self
    have next := h.step fresh (other marker List.mem_cons_self)
    rw [List.append_cons] at distinct ⊢
    exact ih next distinct fun m mem => other m (List.mem_cons_of_mem _ mem)

/-! ## Members and children -/

theorem minBy_mem {α : Type} {less : α → α → Bool} {as : List α} {a : α}
    (is : minBy less as = some a) : a ∈ as := by
  cases as with
  | nil => cases is
  | cons b rest =>
    have found : ∀ (rest : List α) (best : α), rest.foldl (fun best b => if less b best then b else best)
        best ∈ best :: rest := by
      intro rest
      induction rest with
      | nil =>
        intro best
        exact List.mem_cons_self
      | cons c rest ih =>
        intro best
        rw [List.foldl_cons]
        have next := ih (if less c best then c else best)
        rcases List.mem_cons.mp next with same | mem
        · rw [same]
          split <;> simp
        · exact List.mem_cons_of_mem _ (List.mem_cons_of_mem _ mem)
    cases is
    exact found rest b

/-- The parent that is found is one of those that were offered. -/
theorem bestVisualParent_mem {overflow : Overflow} {child parent : Block} {parents blocks : List Block}
    (is : bestVisualParent overflow child parents blocks = some parent) : parent ∈ parents := by
  have closest : ∀ (p q : Block → Bool), parent ∈ (parents.filter p).filter q → parent ∈ parents :=
    fun p q mem => (List.mem_filter.mp (List.mem_filter.mp mem).1).1
  unfold bestVisualParent at is
  dsimp only at is
  split at is
  · cases is
  · split at is
    · exact closest _ _ (List.mem_of_mem_head? is)
    · split at is
      · exact closest _ _ (minBy_mem is)
      · split at is
        · exact closest _ _ (minBy_mem is)
        · split at is
          · exact closest _ _ (minBy_mem is)
          · exact closest _ _ (minBy_mem is)

theorem fst_filterMap {α β : Type} (g : α → Option β) (as : List α) :
    ((as.filterMap fun a => (g a).map fun b => (a, b)).map Prod.fst) =
      as.filter fun a => (g a).isSome := by
  induction as with
  | nil => rfl
  | cons a rest ih => cases found : g a <;> simp [found, ih]

/-- An absorbed image is the body of an image or a chart, and its container that of an image block.
Both are among the parents of the page. -/
theorem absorb_spec {overflow : Overflow} {parents : List Block} {pair : Block × Block}
    (mem : pair ∈ absorb overflow parents) :
    (pair.1 ∈ parents ∧ (pair.1.kind = "image_body" ∨ pair.1.kind = "chart_body")) ∧
      pair.2 ∈ parents ∧ pair.2.kind = "image_block_body" := by
  obtain ⟨member, inside, found⟩ := List.mem_filterMap.mp mem
  obtain ⟨container, best, rfl⟩ := Option.map_eq_some_iff.mp found
  have there := (List.mem_filter.mp (minBy_mem best)).1
  simp only [List.mem_filter, decide_eq_true_eq] at inside there
  exact ⟨inside, there⟩

theorem absorb_nodup (overflow : Overflow) {parents : List Block}
    (distinct : (parents.map Block.index).Nodup) :
    ((absorb overflow parents).map fun pair => pair.1.index).Nodup := by
  have fst := fst_filterMap
    (bestContainer overflow (parents.filter fun b => b.kind = "image_block_body"))
    (parents.filter fun b => b.kind = "image_body" ∨ b.kind = "chart_body")
  have same : ((absorb overflow parents).map fun pair => pair.1.index) =
      ((absorb overflow parents).map Prod.fst).map Block.index := by
    rw [List.map_map]
    rfl
  rw [same]
  unfold absorb
  dsimp only
  rw [fst]
  exact nodup_filter (nodup_filter distinct _) _

/-- A child goes to a parent that was offered. -/
theorem attach_spec {overflow : Overflow} {children parents relation : List Block}
    {pair : Block × Block} (mem : pair ∈ attach overflow children parents relation) : pair.1 ∈ children ∧ pair.2 ∈ parents := by
  obtain ⟨child, inside, found⟩ := List.mem_filterMap.mp mem
  obtain ⟨parent, best, rfl⟩ := Option.map_eq_some_iff.mp found
  exact ⟨inside, bestVisualParent_mem best⟩

/-- Each child is attached once at most, in the order of the page. -/
theorem attach_sublist (overflow : Overflow) (children parents relation : List Block) :
    ((attach overflow children parents relation).map Prod.fst).Sublist children := by
  unfold attach
  rw [fst_filterMap]
  exact List.filter_sublist

/-- The captions and footnotes of a parent are the children that it was given. -/
theorem childrenOf_perm (attached : List (Block × Block)) (parent : Block) :
    (childrenOf attached parent (fun b => b.kind = "caption") ++
      childrenOf attached parent (fun b => b.kind ≠ "caption")).Perm
      ((attached.filter fun pair => pair.2.index = parent.index).map Prod.fst) := by
  unfold childrenOf
  refine ((List.perm_insertionSort _ _).append (List.perm_insertionSort _ _)).trans ?_
  have parts := List.filter_append_perm (fun b : Block => decide (b.kind = "caption"))
    ((attached.filter fun pair => pair.2.index = parent.index).map Prod.fst)
  simpa using parts

/-- The visuals hold their bodies and all attached children. -/
theorem visuals_perm {parents : List Block} (distinct : (parents.map Block.index).Nodup)
    (absorbed : List (Block × Block)) {attached : List (Block × Block)}
    (inside : ∀ pair ∈ attached, pair.2 ∈ parents) :
    (memberIndexes (parents.map (visualNode absorbed attached))).Perm
      (parents.map Block.index ++ attached.map fun pair => pair.1.index) := by
  have members : ((parents.map (visualNode absorbed attached)).flatMap Node.members).Perm
      (parents ++ attached.map Prod.fst) := by
    rw [List.flatMap_map]
    have bodies := List.map_append_flatMap_perm parents id fun parent =>
      childrenOf attached parent (fun b => b.kind = "caption") ++
        childrenOf attached parent fun b => b.kind ≠ "caption"
    rw [List.map_id] at bodies
    refine bodies.symm.trans (List.Perm.append_left _ ?_)
    have grouped := (group_perm distinct (fun pair : Block × Block => pair.2.index) attached
      fun pair mem => List.mem_map_of_mem (inside pair mem)).map Prod.fst
    rw [List.flatMap_map, List.map_flatMap] at grouped
    refine List.Perm.trans ?_ grouped
    exact List.Perm.flatMap_left _ fun parent _ => childrenOf_perm attached parent
  have indexes := members.map Block.index
  rw [List.map_append, List.map_map] at indexes
  exact indexes

/-- Children come in the order of their indexes. -/
theorem childrenOf_sorted {attached : List (Block × Block)}
    (distinct : ((attached.map Prod.fst).map Block.index).Nodup) (parent : Block)
    (p : Block → Bool) :
    (childrenOf attached parent p).Pairwise fun a b => a.index < b.index := by
  unfold childrenOf
  generalize taken : ((attached.filter fun pair => pair.2.index = parent.index).map
    Prod.fst).filter p = children
  have nodup : (children.map Block.index).Nodup := by
    rw [← taken]
    exact distinct.sublist ((List.filter_sublist.trans (List.filter_sublist.map _)).map _)
  have sorted : (children.insertionSort fun a b => a.index ≤ b.index).Pairwise
      fun a b => a.index ≤ b.index :=
    List.pairwise_insertionSort _ _
  have apart : (children.insertionSort fun a b => a.index ≤ b.index).Pairwise
      fun a b => a.index ≠ b.index := by
    have perm := ((List.perm_insertionSort (fun a b : Block => a.index ≤ b.index)
      children).map Block.index).symm
    exact List.pairwise_map.mp (perm.nodup nodup)
  exact (sorted.and apart).imp fun both => Nat.lt_of_le_of_ne both.1 both.2

/-! ## The page -/

/-- The body of a visual. -/
def Node.body : Node → Option Block
  | .visual _ body _ _ _ _ _ => some body
  | _ => none

/-- Nothing of the page is lost or duplicated; `absorbed` pairs the absorbed members with their
containers. -/
structure Conserves (blocks : List Block) (absorbed : List (Block × Block)) (nodes : List Node)
    (discarded : List Block) : Prop where
  once : (memberIndexes nodes ++ absorbed.map fun pair => pair.1.index).Perm
    ((blocks.filter fun b => !isChrome b.kind && decide (b.kind ≠ "list")).map Block.index)
  members : ∀ node ∈ nodes, ∀ b ∈ node.members, ∃ c ∈ blocks, b = c ∨ b = leafOf c
  chrome : discarded = blocks.filter fun b => isChrome b.kind
  lists : ∀ marker items, Node.list marker items ∈ nodes → items ≠ [] ∧
    ∃ m ∈ blocks, m.kind = "list" ∧ marker = { m with subType := majorityKind items }
  visuals : ∀ kind body captions footnotes subType cellMerge subImages,
    Node.visual kind body captions footnotes subType cellMerge subImages ∈ nodes →
      subImages = ((absorbed.filter fun pair => pair.2.index = body.index).map fun pair =>
        subImage pair.1 pair.2) ∧
      (captions.Pairwise fun a b => a.index < b.index) ∧
      footnotes.Pairwise fun a b => a.index < b.index
  containers : ∀ pair ∈ absorbed, pair.1 ∈ blocks ∧
    (pair.1.kind = "image_body" ∨ pair.1.kind = "chart_body") ∧
    pair.2.kind = "image_block_body" ∧ ∃ node ∈ nodes, node.body = some pair.2
  order : nodes.Pairwise fun a b => nodeIndex a < nodeIndex b

theorem leafOf_index (b : Block) : (leafOf b).index = b.index := by
  unfold leafOf
  split <;> rfl

/-- What is left over becomes leaves, one for each block. -/
theorem leaves_indexes (blocks : List Block) :
    memberIndexes (blocks.map fun b => Node.leaf (leafOf b)) = blocks.map Block.index := by
  unfold memberIndexes
  rw [List.flatMap_map]
  induction blocks with
  | nil => rfl
  | cons b rest ih =>
    rw [List.flatMap_cons, List.map_append, ih]
    show [(leafOf b).index] ++ _ = _
    rw [leafOf_index]
    rfl

/-- Of distinct blocks, the consumed ones and the others. -/
theorem split_perm {blocks : List Block} (distinct : (blocks.map Block.index).Nodup)
    {consumed : List Nat} (nodup : consumed.Nodup) (p : Block → Bool)
    (inside : ∀ i ∈ consumed, ∃ b ∈ blocks, b.index = i ∧ p b = true) :
    ((blocks.filter p).map Block.index).Perm (consumed ++
      (blocks.filter fun b => decide (b.index ∉ consumed) && p b).map Block.index) := by
  rw [List.perm_ext_iff_of_nodup (nodup_filter distinct p)]
  · intro i
    rw [List.mem_append]
    constructor
    · intro mem
      obtain ⟨b, there, rfl⟩ := List.mem_map.mp mem
      obtain ⟨hb, pb⟩ := List.mem_filter.mp there
      by_cases taken : b.index ∈ consumed
      · exact .inl taken
      · refine .inr (List.mem_map_of_mem (List.mem_filter.mpr ⟨hb, ?_⟩))
        rw [Bool.and_eq_true, decide_eq_true_eq]
        exact ⟨taken, pb⟩
    · intro mem
      rcases mem with taken | mem
      · obtain ⟨b, hb, rfl, pb⟩ := inside i taken
        exact List.mem_map_of_mem (List.mem_filter.mpr ⟨hb, pb⟩)
      · obtain ⟨b, there, rfl⟩ := List.mem_map.mp mem
        obtain ⟨hb, both⟩ := List.mem_filter.mp there
        rw [Bool.and_eq_true] at both
        exact List.mem_map_of_mem (List.mem_filter.mpr ⟨hb, both.2⟩)
  · refine nodup.append (nodup_filter distinct _) ?_
    intro i taken mem
    obtain ⟨b, there, rfl⟩ := List.mem_map.mp mem
    have both := (List.mem_filter.mp there).2
    rw [Bool.and_eq_true, decide_eq_true_eq] at both
    exact both.1 taken

/-- Nodes with distinct indexes are sorted strictly. -/
theorem sorted_nodes {nodes : List Node} (nodup : (nodes.map nodeIndex).Nodup) :
    (nodes.insertionSort fun a b => nodeIndex a ≤ nodeIndex b).Pairwise
      fun a b => nodeIndex a < nodeIndex b := by
  have sorted : (nodes.insertionSort fun a b => nodeIndex a ≤ nodeIndex b).Pairwise
      fun a b => nodeIndex a ≤ nodeIndex b := List.pairwise_insertionSort _ _
  have apart : (nodes.insertionSort fun a b => nodeIndex a ≤ nodeIndex b).Pairwise
      fun a b => nodeIndex a ≠ nodeIndex b := by
    have perm := ((List.perm_insertionSort (fun a b : Node => nodeIndex a ≤ nodeIndex b)
      nodes).map nodeIndex).symm
    exact List.pairwise_map.mp (perm.nodup nodup)
  exact (sorted.and apart).imp fun both => Nat.lt_of_le_of_ne both.1 both.2

/-- The kinds of blocks, by the pass that consumes them. -/
inductive Taken (b : Block) : Prop where
  | item (kind : b.kind = "text" ∨ b.kind = "ref_text")
  | marker (kind : b.kind = "list")
  | child (kind : b.kind = "caption" ∨ b.kind = "footnote")
  | visual (kind : isVisualBody b.kind = true)

theorem Taken.not_chrome {b : Block} (h : Taken b) : isChrome b.kind = false := by
  cases h with
  | item kind | child kind => rcases kind with kind | kind <;> rw [kind] <;> decide
  | marker kind => rw [kind]; decide
  | visual kind =>
    unfold isVisualBody at kind
    simp only [List.contains_iff_mem, List.mem_cons, List.not_mem_nil, or_false] at kind
    rcases kind with kind | kind | kind | kind | kind <;> rw [kind] <;> decide

/-- The body of a visual has a kind of its own, so the list pass has not taken it. -/
theorem visual_ne {b : Block} (h : isVisualBody b.kind = true) :
    b.kind ≠ "text" ∧ b.kind ≠ "ref_text" ∧ b.kind ≠ "list" ∧ b.kind ≠ "caption" ∧
      b.kind ≠ "footnote" := by
  unfold isVisualBody at h
  simp only [List.contains_iff_mem, List.mem_cons, List.not_mem_nil, or_false] at h
  rcases h with kind | kind | kind | kind | kind <;> rw [kind] <;> decide

/-- The index of a block with a property. -/
def HasIndex (blocks : List Block) (P : Block → Prop) (i : Nat) : Prop :=
  ∃ b ∈ blocks, b.index = i ∧ P b

/-- Two blocks with one index are the same block, with the properties of both. This is how the
consumed lists are told apart. -/
theorem HasIndex.elim {blocks : List Block} (distinct : (blocks.map Block.index).Nodup)
    {P Q : Block → Prop} {i : Nat} (h : HasIndex blocks P i) (h' : HasIndex blocks Q i) :
    ∃ b, P b ∧ Q b := by
  obtain ⟨b, hb, rfl, pb⟩ := h
  obtain ⟨c, hc, same, qc⟩ := h'
  cases index_inj distinct hb hc same.symm
  exact ⟨b, pb, qc⟩

/-- What the passes before the leftovers have consumed: list items with their markers, absorbed
members, attached children and visual bodies. -/
structure Consumed (blocks : List Block) (lists : List Node) (items absorbed attached parents :
    List Nat) : Prop where
  itemsPerm : items.Perm (memberIndexes lists ++
    (blocks.filter fun b => b.kind = "list").map Block.index)
  itemsNodup : items.Nodup
  itemsKind : ∀ i ∈ items, HasIndex blocks
    (fun b => (b.kind = "text" ∨ b.kind = "ref_text") ∨ b.kind = "list") i
  absorbedNodup : absorbed.Nodup
  absorbedKind : ∀ i ∈ absorbed, HasIndex blocks (fun b => isVisualBody b.kind = true) i
  attachedNodup : attached.Nodup
  attachedKind : ∀ i ∈ attached, HasIndex blocks
    (fun b => b.kind = "caption" ∨ b.kind = "footnote") i
  parentsNodup : parents.Nodup
  parentsKind : ∀ i ∈ parents, HasIndex blocks (fun b => isVisualBody b.kind = true) i
  parentsFree : ∀ i ∈ parents, i ∉ absorbed

section Totals

variable {blocks : List Block} {lists : List Node} {items absorbed attached parents : List Nat}

/-- The consumed indexes are distinct. -/
theorem Consumed.nodup (h : Consumed blocks lists items absorbed attached parents)
    (distinct : (blocks.map Block.index).Nodup) :
    (items ++ absorbed ++ attached ++ parents).Nodup := by
  have itemVisual : ∀ i, HasIndex blocks
      (fun b => (b.kind = "text" ∨ b.kind = "ref_text") ∨ b.kind = "list") i →
      ¬ HasIndex blocks (fun b => isVisualBody b.kind = true) i := by
    intro i item visual
    obtain ⟨b, kind, body⟩ := item.elim distinct visual
    obtain ⟨a, b', c, -⟩ := visual_ne body
    rcases kind with (kind | kind) | kind <;> contradiction
  have itemChild : ∀ i, HasIndex blocks
      (fun b => (b.kind = "text" ∨ b.kind = "ref_text") ∨ b.kind = "list") i →
      ¬ HasIndex blocks (fun b => b.kind = "caption" ∨ b.kind = "footnote") i := by
    intro i item child
    obtain ⟨b, kind, kind'⟩ := item.elim distinct child
    rcases kind with (kind | kind) | kind <;> rcases kind' with kind' | kind' <;>
      exact absurd (kind.symm.trans kind') (by decide)
  have childVisual : ∀ i, HasIndex blocks (fun b => b.kind = "caption" ∨ b.kind = "footnote") i →
      ¬ HasIndex blocks (fun b => isVisualBody b.kind = true) i := by
    intro i child visual
    obtain ⟨b, kind, body⟩ := child.elim distinct visual
    obtain ⟨-, -, -, a, b'⟩ := visual_ne body
    rcases kind with kind | kind <;> contradiction
  have two : (items ++ absorbed).Nodup := h.itemsNodup.append h.absorbedNodup fun i mem mem' =>
    itemVisual i (h.itemsKind i mem) (h.absorbedKind i mem')
  have three : (items ++ absorbed ++ attached).Nodup := by
    refine two.append h.attachedNodup fun i mem mem' => ?_
    rcases List.mem_append.mp mem with item | member
    · exact itemChild i (h.itemsKind i item) (h.attachedKind i mem')
    · exact childVisual i (h.attachedKind i mem') (h.absorbedKind i member)
  refine three.append h.parentsNodup fun i mem mem' => ?_
  rcases List.mem_append.mp mem with mem | child
  · rcases List.mem_append.mp mem with item | member
    · exact itemVisual i (h.itemsKind i item) (h.parentsKind i mem')
    · exact h.parentsFree i mem' member
  · exact childVisual i (h.attachedKind i child) (h.parentsKind i mem')

/-- They are indexes of blocks that are no chrome. -/
theorem Consumed.inside (h : Consumed blocks lists items absorbed attached parents) :
    ∀ i ∈ items ++ absorbed ++ attached ++ parents,
      ∃ b ∈ blocks, b.index = i ∧ (!isChrome b.kind) = true := by
  have taken : ∀ i, HasIndex blocks Taken i →
      ∃ b ∈ blocks, b.index = i ∧ (!isChrome b.kind) = true := by
    intro i there
    obtain ⟨b, hb, same, kind⟩ := there
    exact ⟨b, hb, same, by rw [kind.not_chrome]; rfl⟩
  intro i mem
  apply taken
  rcases List.mem_append.mp mem with mem | mem
  · rcases List.mem_append.mp mem with mem | mem
    · rcases List.mem_append.mp mem with mem | mem
      · obtain ⟨b, hb, same, kind⟩ := h.itemsKind i mem
        exact ⟨b, hb, same, kind.elim .item .marker⟩
      · obtain ⟨b, hb, same, kind⟩ := h.absorbedKind i mem
        exact ⟨b, hb, same, .visual kind⟩
    · obtain ⟨b, hb, same, kind⟩ := h.attachedKind i mem
      exact ⟨b, hb, same, .child kind⟩
  · obtain ⟨b, hb, same, kind⟩ := h.parentsKind i mem
    exact ⟨b, hb, same, .visual kind⟩

/-- The blocks that are no chrome are the list markers and the others. -/
theorem markers_perm (blocks : List Block) :
    ((blocks.filter fun b => !isChrome b.kind).map Block.index).Perm
      ((blocks.filter fun b => !isChrome b.kind && decide (b.kind ≠ "list")).map Block.index ++
        (blocks.filter fun b => b.kind = "list").map Block.index) := by
  have parts := (List.filter_append_perm (fun b : Block => decide (b.kind ≠ "list"))
    (blocks.filter fun b => !isChrome b.kind)).symm.map Block.index
  rw [List.map_append, List.filter_filter, List.filter_filter] at parts
  have first : (blocks.filter fun b => decide (b.kind ≠ "list") && !isChrome b.kind) =
      blocks.filter fun b => !isChrome b.kind && decide (b.kind ≠ "list") :=
    List.filter_congr fun b _ => Bool.and_comm _ _
  have second : (blocks.filter fun b => !decide (b.kind ≠ "list") && !isChrome b.kind) =
      blocks.filter fun b => b.kind = "list" := by
    apply List.filter_congr
    intro b _
    by_cases kind : b.kind = "list"
    · rw [kind]
      decide
    · simp [kind]
  rw [first, second] at parts
  exact parts

/-- The members of the nodes, with the absorbed ones, are the blocks that are neither chrome nor
markers. -/
theorem Consumed.once (h : Consumed blocks lists items absorbed attached parents)
    (distinct : (blocks.map Block.index).Nodup) {visuals : List Nat}
    (visual : visuals.Perm (parents ++ attached)) :
    (memberIndexes lists ++ visuals ++
      (blocks.filter fun b => decide (b.index ∉ items ++ absorbed ++ attached ++ parents) &&
        !isChrome b.kind).map Block.index ++ absorbed).Perm
      ((blocks.filter fun b => !isChrome b.kind && decide (b.kind ≠ "list")).map Block.index) := by
  have whole := split_perm distinct (h.nodup distinct) _ h.inside
  have markers := markers_perm blocks
  rw [List.perm_iff_count]
  intro i
  have whole := whole.count_eq i
  have markers := markers.count_eq i
  have items := h.itemsPerm.count_eq i
  have visual := visual.count_eq i
  simp only [List.count_append] at *
  omega

end Totals

/-- The passes conserve the blocks. -/
theorem composeBlocks_conserves (overflow : Overflow) {blocks : List Block}
    (distinct : (blocks.map Block.index).Nodup) : ∃ absorbed,
      Conserves blocks absorbed (composeBlocks overflow blocks).1 (composeBlocks overflow blocks).2 := by
  have other : ∀ m ∈ blocks.filter (fun b => decide (b.kind = "list")),
      ∀ b ∈ blocks.filter (fun b => decide (b.kind = "text" ∨ b.kind = "ref_text")),
        b.index ≠ m.index := by
    intro m hm b hb same
    simp only [List.mem_filter, decide_eq_true_eq] at hm hb
    cases index_inj distinct hb.1 hm.1 same
    rcases hb.2 with kind | kind <;> exact absurd (kind.symm.trans hm.2) (by decide)
  have captured := (captured_start
    (blocks.filter fun b => decide (b.kind = "text" ∨ b.kind = "ref_text"))).run
    (by rw [List.nil_append]; exact nodup_filter distinct _) other
  rw [List.nil_append] at captured
  unfold composeBlocks captureLists
  dsimp only
  generalize (blocks.filter fun b => decide (b.kind = "list")).foldl
    (captureList (blocks.filter fun b => decide (b.kind = "text" ∨ b.kind = "ref_text")))
    ([], []) = s at captured ⊢
  obtain ⟨items, lists⟩ := s
  dsimp only at captured ⊢
  generalize bodies : (blocks.filter fun b => isVisualBody b.kind) = parents
  have parentsDistinct : (parents.map Block.index).Nodup := bodies ▸ nodup_filter distinct _
  have isBody : ∀ b ∈ parents, b ∈ blocks ∧ isVisualBody b.kind = true := by
    intro b mem
    rw [← bodies] at mem
    exact List.mem_filter.mp mem
  generalize members : absorb overflow parents = absorbed
  have absorbedSpec : ∀ pair ∈ absorbed, _ := fun pair mem =>
    absorb_spec (show pair ∈ absorb overflow parents from members ▸ mem)
  generalize first : items ++ absorbed.map (fun pair => pair.1.index) = consumed
  generalize kept : (parents.filter fun b => decide (b.index ∉ consumed)) = roots
  have isRoot : ∀ b ∈ roots, b ∈ parents ∧ b.index ∉ consumed := by
    intro b mem
    rw [← kept] at mem
    simpa using mem
  generalize (blocks.filter fun b => decide (b.index ∉ consumed)) = relation
  generalize taken : attach overflow (blocks.filter fun b =>
    decide (b.kind = "caption" ∨ b.kind = "footnote")) roots relation = attached
  have attachedSpec : ∀ pair ∈ attached, (pair.1 ∈ blocks ∧
      (pair.1.kind = "caption" ∨ pair.1.kind = "footnote")) ∧ pair.2 ∈ roots := by
    intro pair mem
    rw [← taken] at mem
    obtain ⟨child, parent⟩ := attach_spec mem
    simp only [List.mem_filter, decide_eq_true_eq] at child
    exact ⟨child, parent⟩
  have attachedDistinct : ((attached.map Prod.fst).map Block.index).Nodup := by
    rw [← taken]
    exact (nodup_filter distinct _).sublist ((attach_sublist overflow _ _ _).map _)
  have rootsDistinct : (roots.map Block.index).Nodup := by
    rw [← kept]
    exact nodup_filter parentsDistinct _
  have totals : Consumed blocks lists items (absorbed.map fun pair => pair.1.index)
      (attached.map fun pair => pair.1.index) (roots.map Block.index) := by
    refine ⟨captured.consumed, captured.nodup, ?_, ?_, ?_, ?_, ?_, rootsDistinct, ?_, ?_⟩
    · intro i mem
      rcases captured.kinds i mem with ⟨b, there, same⟩ | there
      · simp only [List.mem_filter, decide_eq_true_eq] at there
        exact ⟨b, there.1, same, .inl there.2⟩
      · obtain ⟨b, there, same⟩ := List.mem_map.mp there
        simp only [List.mem_filter, decide_eq_true_eq] at there
        exact ⟨b, there.1, same, .inr there.2⟩
    · rw [← members]
      exact absorb_nodup overflow parentsDistinct
    · intro i mem
      obtain ⟨pair, there, same⟩ := List.mem_map.mp mem
      obtain ⟨inside, body⟩ := isBody pair.1 (absorbedSpec pair there).1.1
      exact ⟨pair.1, inside, same, body⟩
    · rw [List.map_map] at attachedDistinct
      exact attachedDistinct
    · intro i mem
      obtain ⟨pair, there, same⟩ := List.mem_map.mp mem
      exact ⟨pair.1, (attachedSpec pair there).1.1, same, (attachedSpec pair there).1.2⟩
    · intro i mem
      obtain ⟨b, there, same⟩ := List.mem_map.mp mem
      obtain ⟨inside, body⟩ := isBody b (isRoot b there).1
      exact ⟨b, inside, same, body⟩
    · intro i mem member
      obtain ⟨b, there, rfl⟩ := List.mem_map.mp mem
      apply (isRoot b there).2
      rw [← first]
      exact List.mem_append_right _ member
  have visual := visuals_perm rootsDistinct absorbed fun pair mem => (attachedSpec pair mem).2
  have once := totals.once distinct visual
  rw [first] at once
  generalize leftovers : (blocks.filter fun b => decide (b.index ∉ consumed ++
    attached.map (fun pair => pair.1.index) ++ roots.map Block.index) && !isChrome b.kind) =
    rest at once
  have left : (blocks.filter fun b => decide (b.index ∉ consumed ++
      attached.map (fun pair => pair.1.index) ++ roots.map Block.index ∧
      ¬ isChrome b.kind = true)) = rest := by
    rw [← leftovers]
    apply List.filter_congr
    intro b _
    by_cases chrome : isChrome b.kind = true <;> simp [chrome]
  rw [left]
  have isRest : ∀ b ∈ rest, b ∈ blocks ∧ b.index ∉ consumed ++
      attached.map (fun pair => pair.1.index) ++ roots.map Block.index := by
    intro b mem
    rw [← leftovers] at mem
    obtain ⟨inside, both⟩ := List.mem_filter.mp mem
    rw [Bool.and_eq_true, decide_eq_true_eq] at both
    exact ⟨inside, both.1⟩
  have restDistinct : (rest.map Block.index).Nodup := by
    rw [← leftovers]
    exact nodup_filter distinct _
  have isNode : ∀ node, node ∈ (lists ++ roots.map (visualNode absorbed attached) ++
      rest.map fun b => Node.leaf (leafOf b)).insertionSort
        (fun a b => nodeIndex a ≤ nodeIndex b) ↔
      node ∈ lists ∨ (∃ b ∈ roots, visualNode absorbed attached b = node) ∨
        ∃ b ∈ rest, Node.leaf (leafOf b) = node := by
    intro node
    rw [List.mem_insertionSort, List.mem_append, List.mem_append, List.mem_map, List.mem_map,
      or_assoc]
  refine ⟨absorbed, ?_, ?_, rfl, ?_, ?_, ?_, ?_⟩
  · refine List.Perm.trans (List.Perm.append_right _ ?_) once
    refine (memberIndexes_perm (List.perm_insertionSort _ _)).trans ?_
    rw [memberIndexes_append, memberIndexes_append, leaves_indexes]
  · intro node mem b inside
    rcases (isNode node).mp mem with list | ⟨root, there, rfl⟩ | ⟨leaf, there, rfl⟩
    · obtain ⟨m, -, items', -, candidates, rfl⟩ := captured.lists node list
      exact ⟨b, (List.mem_filter.mp (candidates b inside)).1, .inl rfl⟩
    · rcases List.mem_cons.mp inside with rfl | child
      · exact ⟨b, (isBody b (isRoot b there).1).1, .inl rfl⟩
      · have given := (childrenOf_perm attached root).mem_iff.mp child
        obtain ⟨pair, chosen, rfl⟩ := List.mem_map.mp given
        exact ⟨pair.1, (attachedSpec pair (List.mem_filter.mp chosen).1).1.1, .inl rfl⟩
    · exact ⟨leaf, (isRest leaf there).1, .inr (List.mem_singleton.mp inside)⟩
  · intro marker items' mem
    rcases (isNode _).mp mem with list | ⟨root, there, same⟩ | ⟨leaf, there, same⟩
    · obtain ⟨m, there, items'', some_, -, same⟩ := captured.lists _ list
      cases same
      simp only [List.mem_filter, decide_eq_true_eq] at there
      exact ⟨some_, m, there.1, there.2, rfl⟩
    · cases same
    · cases same
  · intro kind body captions footnotes subType cellMerge subImages mem
    rcases (isNode _).mp mem with list | ⟨root, there, same⟩ | ⟨leaf, there, same⟩
    · obtain ⟨m, -, items', -, -, same⟩ := captured.lists _ list
      cases same
    · cases same
      exact ⟨rfl, childrenOf_sorted attachedDistinct _ _, childrenOf_sorted attachedDistinct _ _⟩
    · cases same
  · intro pair mem
    obtain ⟨⟨member, kind⟩, container, kind'⟩ := absorbedSpec pair mem
    refine ⟨(isBody _ member).1, kind, kind', visualNode absorbed attached pair.2, ?_, rfl⟩
    refine (isNode _).mpr (.inr (.inl ⟨pair.2, ?_, rfl⟩))
    rw [← kept, List.mem_filter]
    refine ⟨container, decide_eq_true ?_⟩
    rw [← first]
    intro there
    rcases List.mem_append.mp there with item | absorbed'
    · obtain ⟨b, kind, rfl⟩ := (totals.itemsKind _ item).elim distinct
        ⟨pair.2, (isBody _ container).1, rfl, rfl⟩
      rw [kind'] at kind
      revert kind
      decide
    · obtain ⟨pair', there', same⟩ := List.mem_map.mp absorbed'
      obtain ⟨⟨member', kind''⟩, -⟩ := absorbedSpec pair' there'
      have equal := index_inj distinct (isBody _ member').1 (isBody _ container).1 same
      rw [equal, kind'] at kind''
      revert kind''
      decide
  · apply sorted_nodes
    rw [List.map_append, List.map_append, List.map_map, List.map_map]
    have visualsIndex : roots.map (nodeIndex ∘ visualNode absorbed attached) =
        roots.map Block.index := rfl
    have leavesIndex : rest.map (nodeIndex ∘ fun b => Node.leaf (leafOf b)) =
        rest.map Block.index := List.map_congr_left fun b _ => leafOf_index b
    rw [visualsIndex, leavesIndex]
    have consumedRoot : ∀ i ∈ lists.map nodeIndex, i ∈ items := fun i mem =>
      totals.itemsPerm.mem_iff.mpr (List.mem_append_right _ (captured.roots.subset mem))
    have listsDistinct : (lists.map nodeIndex).Nodup :=
      (nodup_filter distinct _).sublist captured.roots
    refine (listsDistinct.append rootsDistinct ?_).append restDistinct ?_
    · intro i mem mem'
      obtain ⟨b, there, rfl⟩ := List.mem_map.mp mem'
      apply (isRoot b there).2
      rw [← first]
      exact List.mem_append_left _ (consumedRoot _ mem)
    · intro i mem mem'
      obtain ⟨b, there, rfl⟩ := List.mem_map.mp mem'
      apply (isRest b there).2
      rcases List.mem_append.mp mem with mem | mem
      · rw [← first]
        exact List.mem_append_left _ (List.mem_append_left _
          (List.mem_append_left _ (consumedRoot _ mem)))
      · exact List.mem_append_right _ mem

/-! ## The fallbacks -/

/-- A fallback may make a caption of a text or a footnote. -/
def Reclassified (a b : Block) : Prop :=
  b = a ∨ ((a.kind = "text" ∨ a.kind = "footnote") ∧ b = a.asCaption)

theorem Reclassified.trans {a b c : Block} (first : Reclassified a b) (second : Reclassified b c) :
    Reclassified a c := by
  rcases first with rfl | ⟨kind, rfl⟩
  · exact second
  · rcases second with rfl | ⟨-, rfl⟩
    · exact .inr ⟨kind, rfl⟩
    · exact .inr ⟨kind, rfl⟩

theorem Reclassified.index {a b : Block} (h : Reclassified a b) : b.index = a.index := by
  rcases h with rfl | ⟨-, rfl⟩ <;> rfl

/-- Blocks that are the same but for the fallbacks. -/
abbrev Fallbacks (before after : List Block) : Prop := List.Forall₂ Reclassified before after

theorem Fallbacks.refl (blocks : List Block) : Fallbacks blocks blocks := by
  induction blocks with
  | nil => exact .nil
  | cons b rest ih => exact .cons (.inl rfl) ih

theorem Fallbacks.trans {a b c : List Block} (first : Fallbacks a b) (second : Fallbacks b c) :
    Fallbacks a c := by
  induction first generalizing c with
  | nil =>
    cases second
    exact .nil
  | cons h _ ih =>
    cases second with
    | cons h' rest => exact .cons (h.trans h') (ih rest)

/-- A text or footnote may become a caption. -/
theorem Fallbacks.set {blocks : List Block} {index : Nat} {block : Block}
    (there : blocks[index]? = some block) (kind : block.kind = "text" ∨ block.kind = "footnote") :
    Fallbacks blocks (blocks.set index block.asCaption) := by
  induction blocks generalizing index with
  | nil => cases there
  | cons b rest ih =>
    cases index with
    | zero =>
      cases there
      exact .cons (.inr ⟨kind, rfl⟩) (Fallbacks.refl rest)
    | succ index => exact .cons (.inl rfl) (ih there)

/-- Many such steps, in whatever order the loop takes them. -/
theorem Fallbacks.foldl {f : List Block → Nat → List Block}
    (step : ∀ blocks index, Fallbacks blocks (f blocks index)) (indexes : List Nat)
    (blocks : List Block) : Fallbacks blocks (indexes.foldl f blocks) := by
  induction indexes generalizing blocks with
  | nil => exact .refl blocks
  | cons index rest ih => exact (step blocks index).trans (ih (f blocks index))

theorem captionBetween_fallbacks (overflow : Overflow) (blocks : List Block) (index : Nat) :
    Fallbacks blocks (captionBetween overflow blocks index) := by
  unfold captionBetween
  split
  · next before block after there _ =>
    split
    · next fits => exact .set (by assumption) (.inl fits.1)
    · exact .refl blocks
  · exact .refl blocks

theorem captionsAbove_fallbacks (overflow : Overflow) (table : Block) (saw : Bool)
    (blocks : List Block) (index : Nat) :
    Fallbacks blocks (captionsAbove overflow table saw blocks index) := by
  induction index generalizing saw blocks with
  | zero =>
    unfold captionsAbove
    exact .refl blocks
  | succ index ih =>
    unfold captionsAbove
    split
    · exact .refl blocks
    · next block there =>
      split
      · exact .refl blocks
      · split
        · exact ih true blocks
        · split
          · next fits => exact (Fallbacks.set there fits.2.1).trans (ih saw _)
          · exact ih saw blocks

theorem captionsOfTable_fallbacks (overflow : Overflow) (renderBlock : Block → Text)
    (blocks : List Block) (tableIndex : Nat) :
    Fallbacks blocks (captionsOfTable overflow renderBlock blocks tableIndex) := by
  unfold captionsOfTable
  split
  · exact .refl blocks
  · next table _ =>
    split
    · exact .refl blocks
    · have above := captionsAbove_fallbacks overflow table false blocks tableIndex
      dsimp only
      split
      · exact above
      · split
        · exact above
        · next block there =>
          split
          · next fits => exact above.trans (.set there (.inl fits.2.1))
          · exact above

/-- The fallbacks of all tables. Texts and footnotes change their kinds, and the page keeps its
blocks. -/
theorem captionFallbacks_fallbacks (overflow : Overflow) (renderBlock : Block → Text)
    (blocks : List Block) : Fallbacks blocks (captionFallbacks overflow renderBlock blocks) := by
  unfold captionFallbacks
  exact (Fallbacks.foldl (captionBetween_fallbacks overflow) _ blocks).trans
    (Fallbacks.foldl (captionsOfTable_fallbacks overflow renderBlock) _ _)

theorem Fallbacks.indexes {before after : List Block} (h : Fallbacks before after) :
    after.map Block.index = before.map Block.index := by
  induction h with
  | nil => rfl
  | cons same _ ih => rw [List.map_cons, List.map_cons, same.index, ih]

/-! ## The whole pass -/

theorem rawBlock_index {raw : RawBlock} {index : Nat} {block : Block}
    (is : rawBlock raw index = .ok block) : block.index = index := by
  unfold rawBlock at is
  obtain ⟨bbox, -, is⟩ := bind_ok is
  obtain ⟨angle, -, is⟩ := bind_ok is
  obtain ⟨kind, -, is⟩ := bind_ok is
  obtain ⟨lines, -, is⟩ := bind_ok is
  obtain ⟨imagePath, -, is⟩ := bind_ok is
  cases is
  rfl

/-- Each block of the snapshot has its position as its index. -/
theorem rawBlocks_index {snapshot : List RawBlock} {n : Nat} {blocks : List Block}
    (is : (snapshot.zipIdx n).mapM (fun (raw, index) => rawBlock raw index) = .ok blocks) :
    blocks.map Block.index = List.range' n snapshot.length := by
  induction snapshot generalizing n blocks with
  | nil =>
    cases is
    rfl
  | cons raw rest ih =>
    rw [List.zipIdx_cons, List.mapM_cons] at is
    obtain ⟨block, first, is⟩ := bind_ok is
    obtain ⟨blocks', others, is⟩ := bind_ok is
    cases is
    rw [List.map_cons, rawBlock_index first, ih others, List.length_cons, List.range'_succ]

/-- What a composed page is made of: its blocks are composed as they are after the fallbacks. -/
theorem composePage_ok {overflow : Overflow} {renderBlock : Block → Text} {snapshot : List RawBlock}
    {composed : List Node × List Block}
    (is : composePage overflow renderBlock snapshot = .ok composed) : ∃ raw,
      snapshot.zipIdx.mapM (fun (raw, index) => rawBlock raw index) = .ok raw ∧
      composed = composeBlocks overflow (captionFallbacks overflow renderBlock raw) := by
  unfold composePage at is
  obtain ⟨raw, made, is⟩ := bind_ok is
  refine ⟨raw, Checked.ofExcept_ok.mp made, ?_⟩
  split at is
  · cases is
  · exact (Except.ok.inj is).symm

/-- **Composing a page conserves its blocks.** Of a page that is composed, each block that is neither
chrome nor a list marker is in one node or absorbed by one container, and once; chrome is discarded;
markers are the roots of lists with items; and the nodes and the children of visuals are in the
order of their indexes. The boxes may be exact integers, or those of a build that panics or wraps
where a result does not fit. -/
theorem composePage_conserves (overflow : Overflow) (renderBlock : Block → Text)
    (snapshot : List RawBlock) (nodes : List Node) (discarded : List Block)
    (composed : composePage overflow renderBlock snapshot = .ok (nodes, discarded)) :
    ∃ raw blocks absorbed,
      snapshot.zipIdx.mapM (fun (raw, index) => rawBlock raw index) = .ok raw ∧
      raw.map Block.index = List.range snapshot.length ∧
      List.Forall₂ Reclassified raw blocks ∧ Conserves blocks absorbed nodes discarded := by
  obtain ⟨raw, made, same⟩ := composePage_ok composed
  have indexes := rawBlocks_index made
  have fallbacks := captionFallbacks_fallbacks overflow renderBlock raw
  have distinct : ((captionFallbacks overflow renderBlock raw).map Block.index).Nodup := by
    rw [fallbacks.indexes, indexes]
    exact List.nodup_range'
  obtain ⟨absorbed, conserves⟩ := composeBlocks_conserves overflow distinct
  rw [← same] at conserves
  refine ⟨raw, _, absorbed, made, ?_, fallbacks, conserves⟩
  rw [indexes, List.range_eq_range']

/-- A raw block with one line of text. -/
def plainBlock (blockType : String) (bbox : Bbox) (content : Option Text) : RawBlock where
  blockType
  bbox := .ok bbox
  angle := .ok 0
  content
  lines := .ok [⟨bbox, content.toList.map Span.text⟩]
  imagePath := .ok none
  mergePrev := none
  subType := none
  guessLang := none
  cellMerge := none

/-- A page with a header, a list of one reference, and an image with a caption. -/
def smallPage : List RawBlock := [
  plainBlock "header" ⟨0, 0, 100, 10⟩ (some (text "Title")),
  plainBlock "list" ⟨0, 20, 100, 40⟩ none,
  plainBlock "ref_text" ⟨0, 22, 100, 38⟩ (some (text "[1]")),
  plainBlock "image" ⟨0, 50, 100, 80⟩ none,
  plainBlock "image_caption" ⟨0, 82, 100, 90⟩ (some (text "Figure 1"))]

/-- A page of five blocks. -/
theorem composePage_conserves_smallPage : ∃ nodes discarded raw blocks absorbed,
    composePage .exact (fun _ => []) smallPage = .ok (nodes, discarded) ∧
      raw.map Block.index = [0, 1, 2, 3, 4] ∧ List.Forall₂ Reclassified raw blocks ∧
      Conserves blocks absorbed nodes discarded := by
  obtain ⟨⟨nodes, discarded⟩, composed⟩ :
    ∃ result, composePage .exact (fun _ => []) smallPage = .ok result := ⟨_, rfl⟩
  obtain ⟨raw, blocks, absorbed, -, indexes, fallbacks, conserves⟩ :=
    composePage_conserves .exact (fun _ => []) smallPage nodes discarded composed
  exact ⟨nodes, discarded, raw, blocks, absorbed, composed, indexes, fallbacks, conserves⟩

end Mineru.Builders
