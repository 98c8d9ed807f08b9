import Mineru.Vlm.Candidates

/-!
# Absorbed images

The loop over the tables only changes the metadata of the images that it marks, and the loop over
the candidates takes the first blocks that are asked about (`candidates_eq`). An image is marked by
every table that covers it and embedded by each of these tables that is among the first.

Coverage and kinds can be read before and after the marking, since neither is changed by it
(`absorbedIds_same`, `any_native`). So the condition speaks of the blocks of the page as they come
in, their boxes and kinds, and of the cap on the number of candidates.

What is done with an embedded image, and whether it is seen under its mask, belongs to the laws
about images.
-/

set_option autoImplicit false

namespace Mineru.Vlm

open Layout (VlmLayoutBlock)

/-! ## Marks -/

/-- The two blocks differ at most in their metadata. -/
structure SameBlock (e e' : Indexed) : Prop where
  index : e'.1 = e.1
  kind : e'.2.kind = e.2.kind
  bbox : e'.2.bbox = e.2.bbox

theorem SameBlock.refl (e : Indexed) : SameBlock e e := ⟨rfl, rfl, rfl⟩

theorem SameBlock.trans {a b c : Indexed} (first : SameBlock a b) (second : SameBlock b c) :
    SameBlock a c :=
  ⟨second.index.trans first.index, second.kind.trans first.kind, second.bbox.trans first.bbox⟩

/-- What marking does to a block. -/
def Skips (block : ContentBlock) : Prop :=
  Value.find block.metadata (text "_skip_asset") = some (.bool true) ∧
    Metadata.containsKey block.metadata "_absorbed_by_table" = true

theorem markAbsorbed_skips (table : Nat) (block : ContentBlock) :
    Skips (markAbsorbed table block) := by
  constructor
  · exact (Value.find_insert _ _ _ _).trans (if_pos rfl)
  · have other : text "_absorbed_by_table" ≠ text "_skip_asset" := by decide
    unfold Metadata.containsKey markAbsorbed Metadata.insert
    rw [Value.find_insert, if_neg other, Value.find_insert, if_pos rfl]
    rfl

/-- The images of a table are marked, and nothing else changes. -/
theorem mark_ids (table : Nat) (ids : List Nat) (native : List Indexed) (i : Nat) (e : Indexed)
    (at' : native[i]? = some e) :
    ∃ e', (ids.foldl (fun native image =>
        native.modify image fun e => (e.1, markAbsorbed table e.2)) native)[i]? = some e' ∧
      SameBlock e e' ∧ (i ∈ ids → Skips e'.2) ∧ (i ∉ ids → e' = e) ∧ (Skips e.2 → Skips e'.2) := by
  induction ids generalizing native e with
  | nil => exact ⟨e, at', SameBlock.refl e, fun mem => absurd mem List.not_mem_nil, fun _ => rfl, id⟩
  | cons image rest ih =>
    rw [List.foldl_cons]
    by_cases here : image = i
    · subst here
      have marked : (native.modify image fun e => (e.1, markAbsorbed table e.2))[image]? =
          some (e.1, markAbsorbed table e.2) := by
        rw [List.getElem?_modify_eq, at']
        rfl
      obtain ⟨e', is, same, -, -, keeps⟩ := ih _ _ marked
      have skips := keeps (markAbsorbed_skips table e.2)
      have first : SameBlock e (e.1, markAbsorbed table e.2) := ⟨rfl, rfl, rfl⟩
      exact ⟨e', is, first.trans same, fun _ => skips,
        fun out => absurd List.mem_cons_self out, fun _ => skips⟩
    · have kept : (native.modify image fun e => (e.1, markAbsorbed table e.2))[i]? = some e := by
        rw [List.getElem?_modify, at']
        exact congrArg some (if_neg here)
      obtain ⟨e', is, same, inside, outside, keeps⟩ := ih _ _ kept
      refine ⟨e', is, same, fun mem => inside ?_, fun out => outside ?_, keeps⟩
      · exact (List.mem_cons.mp mem).resolve_left fun eq => here eq.symm
      · exact fun mem => out (List.mem_cons_of_mem _ mem)

theorem length_mark (table : Nat) (ids : List Nat) (native : List Indexed) :
    (ids.foldl (fun native image =>
      native.modify image fun e => (e.1, markAbsorbed table e.2)) native).length = native.length := by
  induction ids generalizing native with
  | nil => rfl
  | cons image rest ih => rw [List.foldl_cons, ih, List.length_modify]

/-- A table that takes images. -/
def Takes (prompts : List String) (block : ContentBlock) : Prop :=
  block.kind = "table" ∧ suppressed prompts "table" = false

instance (prompts : List String) (block : ContentBlock) : Decidable (Takes prompts block) :=
  inferInstanceAs (Decidable (_ ∧ _))

/-- The loop over the tables, up to a position. -/
structure Absorbing (prompts : List String) (native : List Indexed) (n : Nat) (s : Absorption) :
    Prop where
  length : s.native.length = native.length
  kept : ∀ i e, native[i]? = some e → ∃ e', s.native[i]? = some e' ∧ SameBlock e e' ∧
    ((∃ t ids, (t, ids) ∈ s.tableImages ∧ i ∈ ids) → Skips e'.2) ∧
    ((¬ ∃ t ids, (t, ids) ∈ s.tableImages ∧ i ∈ ids) → e' = e)
  images : ∀ t ids, (t, ids) ∈ s.tableImages ↔
    t < n ∧ ∃ e, native[t]? = some e ∧ Takes prompts e.2 ∧ ids = absorbedIds native e.2
  nodup : (s.tableImages.map Prod.fst).Nodup

/-- The same images are inside a box before and after marking. -/
theorem absorbedIds_same {native native' : List Indexed} (length : native'.length = native.length)
    (kept : ∀ (i : Nat) (e : Indexed), native[i]? = some e →
      ∃ e', native'[i]? = some e' ∧ SameBlock e e')
    {t t' : ContentBlock} (bbox : t'.bbox = t.bbox) :
    absorbedIds native' t' = absorbedIds native t := by
  unfold absorbedIds
  rw [length]
  apply List.filter_congr
  intro i mem
  have inside : i < native.length := List.mem_range.mp mem
  obtain ⟨e', is, same⟩ := kept i native[i] (List.getElem?_eq_getElem inside)
  simp only [is, List.getElem?_eq_getElem inside, Option.any_some, same.kind, same.bbox, bbox]

theorem absorbing_step {prompts : List String} {native : List Indexed} {n : Nat} {s : Absorption}
    (inv : Absorbing prompts native n s) (le : n < native.length) :
    Absorbing prompts native (n + 1) (absorbAt prompts s n) := by
  obtain ⟨t', isT, sameT, -, -⟩ := inv.kept n native[n] (List.getElem?_eq_getElem le)
  have atN : native[n]? = some native[n] := List.getElem?_eq_getElem le
  unfold absorbAt
  rw [isT]
  dsimp only
  by_cases skip : t'.2.kind ≠ "table" ∨ suppressed prompts "table" = true
  · rw [if_pos skip]
    have none : ¬ Takes prompts native[n].2 := by
      rintro ⟨kind, free⟩
      rcases skip with other | taken
      · exact other (sameT.kind.trans kind)
      · rw [free] at taken
        exact nomatch taken
    refine ⟨inv.length, inv.kept, fun t ids => ?_, inv.nodup⟩
    rw [inv.images]
    constructor
    · exact fun ⟨lt, rest⟩ => ⟨Nat.lt_succ_of_lt lt, rest⟩
    · rintro ⟨lt, e, is, takes, rfl⟩
      rcases Nat.lt_succ_iff_lt_or_eq.mp lt with below | rfl
      · exact ⟨below, e, is, takes, rfl⟩
      · rw [atN] at is
        exact absurd (Option.some.inj is ▸ takes) none
  · rw [if_neg skip]
    have kind : t'.2.kind = "table" := by
      by_contra other
      exact skip (Or.inl other)
    have free : suppressed prompts "table" = false := by
      by_contra taken
      exact skip (Or.inr (Bool.not_eq_false _ ▸ taken))
    have takes : Takes prompts native[n].2 := ⟨sameT.kind.symm.trans kind, free⟩
    have ids : absorbedIds s.native t'.2 = absorbedIds native native[n].2 :=
      absorbedIds_same inv.length
        (fun i e is => (inv.kept i e is).imp fun _ h => ⟨h.1, h.2.1⟩) sameT.bbox
    rw [ids]
    refine ⟨(length_mark _ _ _).trans inv.length, fun i e is => ?_, fun t more => ?_, ?_⟩
    · obtain ⟨e', is', same, inside, outside⟩ := inv.kept i e is
      obtain ⟨e'', is'', same', marks, unmarked, keeps⟩ := mark_ids n _ _ i e' is'
      refine ⟨e'', is'', same.trans same', ?_, ?_⟩
      · rintro ⟨t, more, mem, isIn⟩
        rcases List.mem_append.mp mem with old | new
        · exact keeps (inside ⟨t, more, old, isIn⟩)
        · rw [List.mem_singleton.mp new |> Prod.mk.inj |>.2] at isIn
          exact marks isIn
      · intro none
        have first := outside fun ⟨t, more, mem, isIn⟩ =>
          none ⟨t, more, List.mem_append_left _ mem, isIn⟩
        have second := unmarked fun isIn =>
          none ⟨n, _, List.mem_append_right _ (List.mem_singleton.mpr rfl), isIn⟩
        exact second.trans first
    · rw [List.mem_append, inv.images, List.mem_singleton]
      constructor
      · rintro (⟨lt, rest⟩ | new)
        · exact ⟨Nat.lt_succ_of_lt lt, rest⟩
        · obtain ⟨rfl, rfl⟩ := Prod.mk.inj new
          exact ⟨Nat.lt_succ_self _, native[t], atN, takes, rfl⟩
      · rintro ⟨lt, e, is, takes', rfl⟩
        rcases Nat.lt_succ_iff_lt_or_eq.mp lt with below | rfl
        · exact Or.inl ⟨below, e, is, takes', rfl⟩
        · rw [atN] at is
          rw [Option.some.inj is]
          exact Or.inr rfl
    · rw [List.map_append, List.nodup_append]
      refine ⟨inv.nodup, List.nodup_singleton _, ?_⟩
      intro a mem b new
      obtain ⟨⟨t, more⟩, isIn, rfl⟩ := List.mem_map.mp mem
      rw [List.mem_singleton.mp new]
      exact Nat.ne_of_lt ((inv.images t more).mp isIn).1

theorem absorbing_absorb (prompts : List String) (native : List Indexed) :
    Absorbing prompts native native.length (absorb prompts native) := by
  have run : ∀ n, n ≤ native.length →
      Absorbing prompts native n ((List.range n).foldl (absorbAt prompts) ⟨native, []⟩) := by
    intro n
    induction n with
    | zero =>
      intro _
      refine ⟨rfl, fun i e is => ⟨e, is, SameBlock.refl e, ?_, fun _ => rfl⟩, fun t ids => ?_,
        List.nodup_nil⟩
      · exact fun ⟨_, _, mem, _⟩ => absurd mem List.not_mem_nil
      · exact ⟨fun mem => absurd mem List.not_mem_nil, fun h => absurd h.1 (Nat.not_lt_zero _)⟩
    | succ n ih =>
      intro le
      rw [List.range_succ, List.foldl_append]
      exact absorbing_step (ih (Nat.le_of_succ_le le)) le
  exact run native.length (Nat.le_refl _)

/-! ## Candidates -/

/-- The loop takes the blocks that are not skipped, as long as there is room. -/
theorem collect_eq (prompts : List String) (analyze : Bool) (s : Absorption) (cap : Nat)
    (entries : List (Indexed × Nat)) (found : List SemanticCandidate) (room : found.length ≤ cap) :
    (collect prompts analyze s cap entries found).1 = found ++
      ((entries.filter fun e => !isSkipped prompts analyze s.native e.1.2).take
        (cap - found.length)).map fun e => candidateAt s e.2 e.1 := by
  induction entries generalizing found with
  | nil => simp [collect]
  | cons e rest ih =>
    obtain ⟨entry, index⟩ := e
    rw [collect]
    by_cases skip : isSkipped prompts analyze s.native entry.2 = true
    · rw [if_pos skip, ih found room, List.filter_cons_of_neg (by simpa using skip)]
    · rw [if_neg skip, List.filter_cons_of_pos (by simpa using skip)]
      by_cases full : found.length ≥ cap
      · rw [if_pos full, Nat.sub_eq_zero_of_le full]
        simp
      · rw [if_neg full, ih _ (by rw [List.length_append, List.length_singleton]; omega)]
        obtain ⟨k, left⟩ : ∃ k, cap - found.length = k + 1 := ⟨cap - found.length - 1, by omega⟩
        rw [left, List.take_succ_cons, List.map_cons, List.append_assoc, List.length_append,
          List.length_singleton, show cap - (found.length + 1) = k by omega]
        rfl

/-- The blocks that are left when the covered captions are dropped. -/
def keptNatives (blocks : List VlmLayoutBlock) : List Indexed :=
  let native := natives blocks
  native.filter fun e => !isCoveredCaption native e.2

/-- A table takes the image in. -/
def takesIn (prompts : List String) (image table : ContentBlock) : Bool :=
  image.kind = "image" && decide (Takes prompts table) && coveredBy image.bbox table.bbox

/-- A block of the page that the model is asked about, if there is room: it is not a caption that
is dropped, no image that a table takes in, and not skipped for what it is. -/
def asked (prompts : List String) (analyze : Bool) (blocks : List VlmLayoutBlock)
    (block : ContentBlock) : Bool :=
  !((keptNatives blocks).any fun table => takesIn prompts block table.2) &&
    !isSkipped prompts analyze (keptNatives blocks) block

/-- The blocks that there is room for. -/
def inReach (prompts : List String) (analyze : Bool) (cap : Nat) (blocks : List VlmLayoutBlock) :
    List Indexed :=
  ((keptNatives blocks).filter fun e => asked prompts analyze blocks e.2).take cap

/-- The loop over the tables marks an image exactly if a table takes it in. -/
theorem marked_iff {prompts : List String} {native : List Indexed} {n : Nat} {s : Absorption}
    (inv : Absorbing prompts native native.length s) {e : Indexed} (at' : native[n]? = some e) :
    (∃ t ids, (t, ids) ∈ s.tableImages ∧ n ∈ ids) ↔
      (native.any fun table => takesIn prompts e.2 table.2) = true := by
  have inside (table : ContentBlock) : n ∈ absorbedIds native table ↔
      (e.2.kind = "image" ∧ coveredBy e.2.bbox table.bbox = true) := by
    unfold absorbedIds
    rw [List.mem_filter, at', Option.any_some, Bool.and_eq_true, decide_eq_true_iff,
      List.mem_range]
    exact and_iff_right (List.getElem?_eq_some_iff.mp at').1
  rw [List.any_eq_true]
  constructor
  · rintro ⟨t, ids, mem, isIn⟩
    obtain ⟨-, table, isTable, takes, rfl⟩ := (inv.images t ids).mp mem
    obtain ⟨kind, covers⟩ := (inside table.2).mp isIn
    refine ⟨table, List.mem_of_getElem? isTable, ?_⟩
    rw [takesIn, decide_eq_true kind, decide_eq_true takes, covers]
    rfl
  · rintro ⟨table, mem, takes⟩
    obtain ⟨t, isTable⟩ := List.mem_iff_getElem?.mp mem
    rw [takesIn, Bool.and_eq_true, Bool.and_eq_true, decide_eq_true_iff, decide_eq_true_iff] at takes
    exact ⟨t, _, (inv.images t _).mpr ⟨(List.getElem?_eq_some_iff.mp isTable).1, table, isTable,
      takes.1.2, rfl⟩, (inside table.2).mpr ⟨takes.1.1, takes.2⟩⟩

section Page

variable (prompts : List String) (analyze : Bool) (cap : Nat) (blocks : List VlmLayoutBlock)

theorem absorbing_page : Absorbing prompts (keptNatives blocks) (keptNatives blocks).length
    (absorption prompts blocks) :=
  absorbing_absorb prompts (keptNatives blocks)

/-- What has become of the block at a position. -/
def markedAt (p : Indexed × Nat) : Indexed := ((absorption prompts blocks).native[p.2]?).getD p.1

variable {prompts analyze cap blocks}

variable (prompts) in
theorem markedAt_spec {p : Indexed × Nat} (mem : (keptNatives blocks)[p.2]? = some p.1) :
    (absorption prompts blocks).native[p.2]? = some (markedAt prompts blocks p) ∧
      SameBlock p.1 (markedAt prompts blocks p) ∧
      (((keptNatives blocks).any fun table => takesIn prompts p.1.2 table.2) = true →
        Skips (markedAt prompts blocks p).2) ∧
      (((keptNatives blocks).any fun table => takesIn prompts p.1.2 table.2) = false →
        markedAt prompts blocks p = p.1) := by
  have inv := absorbing_page prompts blocks
  obtain ⟨e', is, same, inside, outside⟩ := inv.kept p.2 p.1 mem
  have value : markedAt prompts blocks p = e' := by
    rw [markedAt, is, Option.getD_some]
  rw [value, ← marked_iff inv mem]
  refine ⟨is, same, inside, fun out => outside fun marked => ?_⟩
  rw [(marked_iff inv mem).mp marked] at out
  exact nomatch out

variable (prompts blocks) in
theorem native_zipIdx : (absorption prompts blocks).native.zipIdx =
    (keptNatives blocks).zipIdx.map fun p => (markedAt prompts blocks p, p.2) := by
  apply List.ext_getElem?
  intro i
  rw [List.getElem?_map, List.getElem?_zipIdx, List.getElem?_zipIdx, Nat.zero_add]
  cases at' : (keptNatives blocks)[i]? with
  | none =>
    have out := List.getElem?_eq_none_iff.mp at'
    rw [← (absorbing_page prompts blocks).length] at out
    rw [List.getElem?_eq_none_iff.mpr out]
    rfl
  | some e =>
    have spec := markedAt_spec prompts (p := (e, i)) at'
    rw [spec.1]
    rfl

variable (prompts) in
/-- A condition on kinds and boxes holds of some block before and after marking. -/
theorem any_native (q : String → Builders.NormalizedBbox → Bool) :
    ((absorption prompts blocks).native.any fun e => q e.2.kind e.2.bbox) =
      (keptNatives blocks).any fun e => q e.2.kind e.2.bbox := by
  have fst : (absorption prompts blocks).native =
      (keptNatives blocks).zipIdx.map fun p => markedAt prompts blocks p := by
    have both := congrArg (List.map Prod.fst) (native_zipIdx prompts blocks)
    rw [List.zipIdx_map_fst, List.map_map] at both
    exact both
  conv_rhs => rw [← List.zipIdx_map_fst 0 (keptNatives blocks)]
  rw [fst, List.any_map, List.any_map, Bool.eq_iff_iff, List.any_eq_true, List.any_eq_true]
  have step (p : Indexed × Nat) (mem : p ∈ (keptNatives blocks).zipIdx) :
      q (markedAt prompts blocks p).2.kind (markedAt prompts blocks p).2.bbox =
        q p.1.2.kind p.1.2.bbox := by
    have same := (markedAt_spec prompts (List.mem_zipIdx_iff_getElem?.mp mem)).2.1
    rw [same.kind, same.bbox]
  constructor
  · rintro ⟨p, mem, holds⟩
    exact ⟨p, mem, (step p mem).symm.trans holds⟩
  · rintro ⟨p, mem, holds⟩
    exact ⟨p, mem, (step p mem).trans holds⟩

/-- The loop asks about a block exactly if it is `asked`. -/
theorem isSkipped_native {p : Indexed × Nat} (mem : (keptNatives blocks)[p.2]? = some p.1) :
    (!isSkipped prompts analyze (absorption prompts blocks).native (markedAt prompts blocks p).2) =
      asked prompts analyze blocks p.1.2 := by
  obtain ⟨-, -, inside, outside⟩ := markedAt_spec prompts mem
  unfold asked
  cases taken : (keptNatives blocks).any fun table => takesIn prompts p.1.2 table.2 with
  | true =>
    have skip := (inside taken).1
    unfold isSkipped
    rw [skip]
    rfl
  | false =>
    rw [outside taken]
    unfold isSkipped
    rw [any_native prompts fun kind bbox => kind = "image_block" && coveredBy p.1.2.bbox bbox]
    rfl

/-- The blocks that there is room for, with their positions. -/
def reached (prompts : List String) (analyze : Bool) (cap : Nat) (blocks : List VlmLayoutBlock) :
    List (Indexed × Nat) :=
  ((keptNatives blocks).zipIdx.filter fun p => asked prompts analyze blocks p.1.2).take cap

theorem reached_fst : (reached prompts analyze cap blocks).map Prod.fst =
    inReach prompts analyze cap blocks := by
  unfold reached inReach
  conv_rhs => rw [← List.zipIdx_map_fst 0 (keptNatives blocks)]
  rw [List.filter_map, List.map_take]
  rfl

theorem mem_reached {p : Indexed × Nat} (mem : p ∈ reached prompts analyze cap blocks) :
    (keptNatives blocks)[p.2]? = some p.1 ∧ asked prompts analyze blocks p.1.2 = true := by
  obtain ⟨inside, isAsked⟩ := List.mem_filter.mp (List.mem_of_mem_take mem)
  exact ⟨List.mem_zipIdx_iff_getElem?.mp inside, isAsked⟩

/-- The candidate of a block within reach. -/
def candidateOf (prompts : List String) (blocks : List VlmLayoutBlock) (p : Indexed × Nat) :
    SemanticCandidate :=
  candidateAt (absorption prompts blocks) p.2 (markedAt prompts blocks p)

/-- The candidates are those of the first blocks that are asked about. -/
theorem candidates_eq : (semanticCandidatesTruncated prompts analyze cap blocks).2.1 =
    (reached prompts analyze cap blocks).map (candidateOf prompts blocks) := by
  have run := collect_eq prompts analyze (absorption prompts blocks) cap
    (absorption prompts blocks).native.zipIdx [] (Nat.zero_le cap)
  rw [List.nil_append, List.length_nil, Nat.sub_zero, native_zipIdx, List.filter_map,
    ← List.map_take, List.map_map] at run
  have same : (keptNatives blocks).zipIdx.filter
      ((fun e : Indexed × Nat => !isSkipped prompts analyze (absorption prompts blocks).native e.1.2) ∘
        fun p => (markedAt prompts blocks p, p.2)) =
      (keptNatives blocks).zipIdx.filter fun p => asked prompts analyze blocks p.1.2 :=
    List.filter_congr fun p mem => isSkipped_native (List.mem_zipIdx_iff_getElem?.mp mem)
  rw [same] at run
  rw [← native_zipIdx prompts blocks] at run
  exact run

theorem candidate_index {p : Indexed × Nat} (mem : p ∈ reached prompts analyze cap blocks) :
    (candidateOf prompts blocks p).originalIndex = p.1.1 :=
  (markedAt_spec prompts (mem_reached mem).1).2.1.index

/-- The indexes on the page go up. -/
theorem keptNatives_sorted (blocks : List VlmLayoutBlock) :
    ((keptNatives blocks).map Prod.fst).Pairwise (· < ·) := by
  have all : (natives blocks).map Prod.fst = List.range blocks.length := by
    unfold natives
    rw [List.map_map]
    exact List.zipIdx_map_snd 0 blocks |>.trans List.range_eq_range'.symm
  have sub : ((keptNatives blocks).map Prod.fst).Sublist ((natives blocks).map Prod.fst) :=
    List.Sublist.map _ List.filter_sublist
  rw [all] at sub
  exact List.pairwise_lt_range.sublist sub

theorem keptNatives_below {e : Indexed} (mem : e ∈ keptNatives blocks) : e.1 < blocks.length := by
  obtain ⟨isIn, -⟩ := List.mem_filter.mp mem
  obtain ⟨p, there, rfl⟩ := List.mem_map.mp isIn
  exact List.snd_lt_of_mem_zipIdx there |>.trans_eq (Nat.add_zero _)

/-- The images that are absorbed by a candidate, which is a table. -/
theorem mem_absorbed {p : Indexed × Nat} (mem : p ∈ reached prompts analyze cap blocks)
    {image : Indexed × Nat} (at' : (keptNatives blocks)[image.2]? = some image.1) :
    ((candidateOf prompts blocks p).block.kind = "table" ∧
      (markedAt prompts blocks image).2 ∈ (candidateOf prompts blocks p).absorbed) ↔
      takesIn prompts image.1.2 p.1.2 = true := by
  obtain ⟨there, isAsked⟩ := mem_reached mem
  obtain ⟨-, same, -, -⟩ := markedAt_spec prompts there
  obtain ⟨isImage, sameImage, -, -⟩ := markedAt_spec prompts at'
  have inv := absorbing_page prompts blocks
  have kind : (candidateOf prompts blocks p).block.kind = p.1.2.kind := same.kind
  rw [kind]
  by_cases table : p.1.2.kind = "table"
  · have free : suppressed prompts "table" = false := by
      unfold asked isSkipped at isAsked
      rw [table] at isAsked
      cases free : suppressed prompts "table" with
      | false => rfl
      | true =>
        rw [free] at isAsked
        simp at isAsked
    have takes : Takes prompts p.1.2 := ⟨table, free⟩
    have entry : (p.2, absorbedIds (keptNatives blocks) p.1.2) ∈
        (absorption prompts blocks).tableImages :=
      (inv.images _ _).mpr ⟨(List.getElem?_eq_some_iff.mp there).1, p.1, there, takes, rfl⟩
    have found : (absorption prompts blocks).tableImages.find? (fun t => t.1 = p.2) =
        some (p.2, absorbedIds (keptNatives blocks) p.1.2) := by
      cases is : (absorption prompts blocks).tableImages.find? (fun t => t.1 = p.2) with
      | none => exact absurd (List.find?_eq_none.mp is _ entry) (by simp)
      | some other =>
        have key := List.find?_some is
        rw [decide_eq_true_iff] at key
        obtain ⟨-, e, atE, -, ids⟩ := (inv.images other.1 other.2).mp (List.mem_of_find?_eq_some is)
        rw [key, there] at atE
        rw [← Option.some.inj atE] at ids
        exact congrArg some (Prod.ext key ids)
    have absorbed : (candidateOf prompts blocks p).absorbed =
        (absorbedIds (keptNatives blocks) p.1.2).filterMap fun i =>
          (absorption prompts blocks).native[i]?.map Prod.snd := by
      unfold candidateOf candidateAt
      dsimp only
      rw [if_pos (same.kind.trans table), found]
      rfl
    rw [absorbed, List.mem_filterMap, takesIn, decide_eq_true takes, Bool.and_true,
      Bool.and_eq_true, decide_eq_true_iff]
    constructor
    · rintro ⟨-, j, isIn, value⟩
      obtain ⟨marked, isMarked, sameValue⟩ := Option.map_eq_some_iff.mp value
      obtain ⟨low, holds⟩ := List.mem_filter.mp isIn
      obtain ⟨e, atJ, isKind⟩ := (Option.any_eq_true _ _).mp holds
      obtain ⟨isJ, sameJ, -, -⟩ := markedAt_spec prompts (p := (e, j)) atJ
      -- equal blocks are of one kind and in one place
      rw [isJ] at isMarked
      have equal : (markedAt prompts blocks (e, j)).2 = (markedAt prompts blocks image).2 :=
        (congrArg Prod.snd (Option.some.inj isMarked)).trans sameValue
      have sameKind : image.1.2.kind = e.2.kind := by
        rw [← sameImage.kind, ← equal, sameJ.kind]
      have sameBox : image.1.2.bbox = e.2.bbox := by
        rw [← sameImage.bbox, ← equal, sameJ.bbox]
      rw [sameKind, sameBox]
      rwa [Bool.and_eq_true, decide_eq_true_iff] at isKind
    · rintro ⟨isKind, covers⟩
      refine ⟨table, image.2, ?_, ?_⟩
      · refine List.mem_filter.mpr ⟨List.mem_range.mpr (List.getElem?_eq_some_iff.mp at').1, ?_⟩
        rw [at', Option.any_some, decide_eq_true isKind, covers]
        rfl
      · rw [isImage]
        rfl
  · refine iff_of_false (fun h => table h.1) fun takes => ?_
    rw [takesIn, Bool.and_eq_true, Bool.and_eq_true, decide_eq_true_iff, decide_eq_true_iff] at takes
    exact table takes.1.2.1

/-- The block at a position of the page that a table has marked as absorbed. -/
def Marked (prompts : List String) (blocks : List VlmLayoutBlock) (block : Indexed) : Prop :=
  ∃ i t ids, (absorption prompts blocks).native[i]? = some block ∧
    (t, ids) ∈ (absorption prompts blocks).tableImages ∧ i ∈ ids

theorem set_native (entries : List Indexed) (nodup : (entries.map Prod.fst).Nodup)
    (blocks : List VlmLayoutBlock) {e : Indexed} (mem : e ∈ entries) (inside : e.1 < blocks.length) :
    (entries.foldl (fun blocks e => blocks.set e.1 (toVlm e.2)) blocks)[e.1]? =
      some (toVlm e.2) := by
  have later (entries : List Indexed) (blocks : List VlmLayoutBlock) (i : Nat)
      (absent : i ∉ entries.map Prod.fst) :
      (entries.foldl (fun blocks e => blocks.set e.1 (toVlm e.2)) blocks)[i]? = blocks[i]? := by
    induction entries generalizing blocks with
    | nil => rfl
    | cons first rest ih =>
      rw [List.map_cons, List.mem_cons, not_or] at absent
      rw [List.foldl_cons, ih _ absent.2, List.getElem?_set_ne (Ne.symm absent.1)]
  induction entries generalizing blocks with
  | nil => exact absurd mem List.not_mem_nil
  | cons first rest ih =>
    rw [List.map_cons, List.nodup_cons] at nodup
    rw [List.foldl_cons]
    rcases List.mem_cons.mp mem with rfl | behind
    · rw [later rest _ _ nodup.1, List.getElem?_set_self inside]
    · exact ih nodup.2 _ behind (by rw [List.length_set]; exact inside)

/-- The page that comes back holds the marked block, with the mark for which it is dropped later. -/
theorem marked_on_page {block : Indexed} (marked : Marked prompts blocks block) :
    (semanticCandidatesTruncated prompts analyze cap blocks).1[block.1]? = some (toVlm block.2) ∧
      Metadata.containsKey block.2.metadata "_absorbed_by_table" = true := by
  obtain ⟨i, t, ids, isBlock, entry, isIn⟩ := marked
  have inv := absorbing_page prompts blocks
  have inside : i < (keptNatives blocks).length := by
    rw [← inv.length]
    exact (List.getElem?_eq_some_iff.mp isBlock).1
  obtain ⟨e, at'⟩ : ∃ e, (keptNatives blocks)[i]? = some e := ⟨_, List.getElem?_eq_getElem inside⟩
  obtain ⟨is, same, skips, -⟩ := markedAt_spec prompts (p := (e, i)) at'
  rw [isBlock] at is
  obtain rfl := Option.some.inj is
  refine ⟨?_, (skips ((marked_iff inv at').mp ⟨t, ids, entry, isIn⟩)).2⟩
  have firsts : (absorption prompts blocks).native.map Prod.fst = (keptNatives blocks).map Prod.fst := by
    have both := congrArg (List.map fun p => p.1.1)
      (native_zipIdx prompts blocks)
    rw [List.map_map] at both
    have left : (absorption prompts blocks).native.zipIdx.map (fun p => p.1.1) =
        (absorption prompts blocks).native.map Prod.fst := by
      conv_rhs => rw [← List.zipIdx_map_fst 0 (absorption prompts blocks).native, List.map_map]
      rfl
    have right : (keptNatives blocks).zipIdx.map
        ((fun p : Indexed × Nat => p.1.1) ∘ fun p => (markedAt prompts blocks p, p.2)) =
        (keptNatives blocks).map Prod.fst := by
      conv_rhs => rw [← List.zipIdx_map_fst 0 (keptNatives blocks), List.map_map]
      exact List.map_congr_left fun p mem =>
        (markedAt_spec prompts (List.mem_zipIdx_iff_getElem?.mp mem)).2.1.index
    rw [← left, both, right]
  have nodup : ((absorption prompts blocks).native.map Prod.fst).Nodup := by
    rw [firsts]
    exact (keptNatives_sorted blocks).imp Nat.ne_of_lt
  have captions (l : List Nat) (page : List VlmLayoutBlock) :
      (markCaptions page l).length = page.length := by
    unfold markCaptions
    induction l generalizing page with
    | nil => rfl
    | cons index rest ih => rw [List.foldl_cons, ih, List.length_modify]
  refine set_native _ nodup _ (List.mem_of_getElem? isBlock) ?_
  rw [captions, same.index]
  exact keptNatives_below (List.mem_of_getElem? at')

/-- The candidates are in the order of the page and no more than the cap, and every marked image is
absorbed by exactly one of them, which is a table. -/
structure EmbeddedOnce (prompts : List String) (analyze : Bool) (cap : Nat)
    (blocks : List VlmLayoutBlock) : Prop where
  sorted : (((semanticCandidatesTruncated prompts analyze cap blocks).2.1).map
    SemanticCandidate.originalIndex).Pairwise (· < ·)
  inRange : ∀ c ∈ (semanticCandidatesTruncated prompts analyze cap blocks).2.1,
    c.originalIndex < blocks.length
  capped : (semanticCandidatesTruncated prompts analyze cap blocks).2.1.length ≤ cap
  once : ∀ image, Marked prompts blocks image →
    ∃! c, c ∈ (semanticCandidatesTruncated prompts analyze cap blocks).2.1 ∧
      c.block.kind = "table" ∧ image.2 ∈ c.absorbed

theorem existsUnique_map {α β γ : Type} {l : List α} {f : α → β} {g : α → γ} {P : β → Prop}
    {Q : γ → Prop} (same : ∀ a ∈ l, P (f a) ↔ Q (g a)) (injF : Set.InjOn f {a | a ∈ l})
    (injG : Set.InjOn g {a | a ∈ l}) : (∃! b, b ∈ l.map f ∧ P b) ↔ ∃! c, c ∈ l.map g ∧ Q c := by
  constructor
  · rintro ⟨b, ⟨mem, holds⟩, unique⟩
    obtain ⟨a, isIn, rfl⟩ := List.mem_map.mp mem
    refine ⟨g a, ⟨List.mem_map_of_mem isIn, (same a isIn).mp holds⟩, ?_⟩
    rintro c ⟨memC, holdsC⟩
    obtain ⟨a', isIn', rfl⟩ := List.mem_map.mp memC
    have equal := unique (f a') ⟨List.mem_map_of_mem isIn', (same a' isIn').mpr holdsC⟩
    rw [injF isIn' isIn equal]
  · rintro ⟨c, ⟨mem, holds⟩, unique⟩
    obtain ⟨a, isIn, rfl⟩ := List.mem_map.mp mem
    refine ⟨f a, ⟨List.mem_map_of_mem isIn, (same a isIn).mpr holds⟩, ?_⟩
    rintro b ⟨memB, holdsB⟩
    obtain ⟨a', isIn', rfl⟩ := List.mem_map.mp memB
    have equal := unique (g a') ⟨List.mem_map_of_mem isIn', (same a' isIn').mp holdsB⟩
    rw [injG isIn' isIn equal]

/-- A block within reach is known by its index on the page. -/
theorem reached_injective : Set.InjOn (fun p : Indexed × Nat => p.1.1)
    {p | p ∈ reached prompts analyze cap blocks} := by
  intro p mem q mem' same
  have atP := (mem_reached mem).1
  have atQ := (mem_reached mem').1
  have sorted := keptNatives_sorted blocks
  have indexes : p.2 = q.2 := by
    have left : ((keptNatives blocks).map Prod.fst)[p.2]? = some p.1.1 := by
      rw [List.getElem?_map, atP]
      rfl
    have right : ((keptNatives blocks).map Prod.fst)[q.2]? = some p.1.1 := by
      rw [List.getElem?_map, atQ]
      exact congrArg some same.symm
    exact (List.getElem?_inj (List.getElem?_eq_some_iff.mp left).1
      (sorted.imp Nat.ne_of_lt)).mp (left.trans right.symm)
  rw [indexes, atQ] at atP
  exact Prod.ext (Option.some.inj atP).symm indexes

/-- **Every marked image is embedded once** exactly if, of the tables that take it in, one is among
the blocks that there is room for. Without such a table the image is dropped from the page and shown
nowhere; with two of them it is shown twice. -/
theorem absorbed_once_iff (prompts : List String) (analyze : Bool) (cap : Nat)
    (blocks : List VlmLayoutBlock) :
    EmbeddedOnce prompts analyze cap blocks ↔
      ∀ image ∈ keptNatives blocks,
        ((keptNatives blocks).any fun table => takesIn prompts image.2 table.2) = true →
        ∃! table, table ∈ inReach prompts analyze cap blocks ∧
          takesIn prompts image.2 table.2 = true := by
  have byIndex : Set.InjOn (candidateOf prompts blocks)
      {p | p ∈ reached prompts analyze cap blocks} := by
    intro p mem q mem' same
    apply reached_injective mem mem'
    dsimp only
    rw [← candidate_index mem, ← candidate_index mem', same]
  have byBlock : Set.InjOn (Prod.fst : Indexed × Nat → Indexed)
      {p | p ∈ reached prompts analyze cap blocks} :=
    fun p mem q mem' same => reached_injective mem mem' (congrArg Prod.fst same)
  have once (image : Indexed × Nat) (at' : (keptNatives blocks)[image.2]? = some image.1) :
      (∃! c, c ∈ (semanticCandidatesTruncated prompts analyze cap blocks).2.1 ∧
        c.block.kind = "table" ∧ (markedAt prompts blocks image).2 ∈ c.absorbed) ↔
      ∃! table, table ∈ inReach prompts analyze cap blocks ∧
        takesIn prompts image.1.2 table.2 = true := by
    rw [candidates_eq, ← reached_fst]
    exact existsUnique_map (fun p mem => mem_absorbed mem at') byIndex byBlock
  have inv := absorbing_page prompts blocks
  constructor
  · intro embedded image mem taken
    obtain ⟨i, at'⟩ := List.mem_iff_getElem?.mp mem
    refine (once (image, i) at').mp (embedded.once _ ?_)
    obtain ⟨t, ids, entry, isIn⟩ := (marked_iff inv at').mpr taken
    exact ⟨i, t, ids, (markedAt_spec prompts (p := (image, i)) at').1, entry, isIn⟩
  · intro holds
    have indexes : ((semanticCandidatesTruncated prompts analyze cap blocks).2.1).map
        SemanticCandidate.originalIndex = (inReach prompts analyze cap blocks).map Prod.fst := by
      rw [candidates_eq, ← reached_fst, List.map_map, List.map_map]
      exact List.map_congr_left fun p mem => candidate_index mem
    have sub : (inReach prompts analyze cap blocks).Sublist (keptNatives blocks) :=
      (List.take_sublist _ _).trans List.filter_sublist
    refine ⟨?_, ?_, ?_, ?_⟩
    · rw [indexes]
      exact (keptNatives_sorted blocks).sublist (sub.map _)
    · intro c mem
      have isIndex := List.mem_map_of_mem (f := SemanticCandidate.originalIndex) mem
      rw [indexes] at isIndex
      obtain ⟨e, isIn, same⟩ := List.mem_map.mp isIndex
      rw [← same]
      exact keptNatives_below (sub.subset isIn)
    · rw [candidates_eq, List.length_map]
      exact (List.length_take_le _ _)
    · rintro image ⟨i, t, ids, isImage, entry, isIn⟩
      have inside : i < (keptNatives blocks).length := by
        rw [← inv.length]
        exact (List.getElem?_eq_some_iff.mp isImage).1
      obtain ⟨e, at'⟩ : ∃ e, (keptNatives blocks)[i]? = some e :=
        ⟨_, List.getElem?_eq_getElem inside⟩
      have marked := (markedAt_spec prompts (p := (e, i)) at').1
      rw [isImage] at marked
      rw [Option.some.inj marked]
      exact (once (e, i) at').mpr
        (holds e (List.mem_of_getElem? at') ((marked_iff inv at').mp ⟨t, ids, entry, isIn⟩))

end Page

/-- An image in two tables that lie on each other. -/
def doubleTable : List VlmLayoutBlock :=
  [⟨"table", ⟨0, 0, 1, 1⟩, none, none, none, []⟩, ⟨"table", ⟨0, 0, 1, 1⟩, none, none, none, []⟩,
    ⟨"image", ⟨1 / 4, 1 / 4, 3 / 4, 3 / 4⟩, none, none, none, []⟩]

/-- Two tables that cover one image both embed it. -/
theorem double_table_embeds_twice : ¬ EmbeddedOnce [] false 10 doubleTable := by
  intro embedded
  have image : ((2 : Nat), fromVlm ⟨"image", ⟨1 / 4, 1 / 4, 3 / 4, 3 / 4⟩, none, none, none, []⟩) ∈
      keptNatives doubleTable :=
    List.mem_filter.mpr ⟨List.mem_of_getElem? (i := 2) rfl, rfl⟩
  have unique := (absorbed_once_iff [] false 10 doubleTable).mp embedded _ image (by decide +kernel)
  have reach : (inReach [] false 10 doubleTable).map (fun table => (table.1, takesIn [] (fromVlm
      ⟨"image", ⟨1 / 4, 1 / 4, 3 / 4, 3 / 4⟩, none, none, none, []⟩) table.2)) =
      [(0, true), (1, true)] := by decide +kernel
  obtain ⟨first, rest, is, isFirst, more⟩ := List.map_eq_cons_iff.mp reach
  obtain ⟨second, _, rfl, isSecond, -⟩ := List.map_eq_cons_iff.mp more
  rw [is] at unique
  obtain ⟨firstIndex, firstTakes⟩ := Prod.mk.inj isFirst
  obtain ⟨secondIndex, secondTakes⟩ := Prod.mk.inj isSecond
  have same := unique.unique ⟨List.mem_cons_self, firstTakes⟩
    ⟨List.mem_cons_of_mem _ List.mem_cons_self, secondTakes⟩
  rw [same, secondIndex] at firstIndex
  exact nomatch firstIndex

end Mineru.Vlm
