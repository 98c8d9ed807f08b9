import Mineru.Logic.Origins
import Mineru.Vlm.PostProcess
import Mineru.Laws.Vlm.Containers
import Mineru.Laws.Vlm.Equation

/-!
# The metadata of the caller

What a block carries through the post-processing is its envelope, perhaps the index it had, internal
keys, and the two entries that a class comes with (`Carries`). The envelope gives the caller's
entries back, and the index stays behind when there is no list to put back.

The passes are taken one by one. Each of them changes the kind, the content or the box of a block
and lets its entries be (`…_recast`, `…_keeps`), or it drops blocks; so the blocks that come out are
a sublist of those that went in, with `Carries` between the two. The condition is about the
configuration and the kinds of the input, because these decide whether lists are taken out and put
back.

Nothing is said of the content of the blocks: the passes are there to change it.
-/

set_option autoImplicit false

namespace Mineru.Vlm

open Logic
open Layout (VlmLayoutBlock)

/-! ## Entries -/

namespace Metadata

/-- The entries that are kept are found as before, and the others not at all. -/
theorem find_retainKeys (p : Text → Bool) (m : Metadata) (k : Text) :
    Value.find (m.retainKeys p) k = if p k then Value.find m k else none := by
  induction m with
  | nil => cases p k <;> rfl
  | cons e m ih =>
    obtain ⟨key, v⟩ := e
    rw [retainKeys, List.filter_cons, Value.find_cons]
    rw [retainKeys] at ih
    by_cases keeps : p key = true
    · rw [if_pos keeps, Value.find_cons, ih]
      by_cases same : k = key
      · rw [if_pos same, if_pos same, same, if_pos keeps]
      · rw [if_neg same, if_neg same]
    · rw [if_neg keeps, ih]
      by_cases same : k = key
      · rw [same, if_neg keeps, if_neg keeps]
      · rw [if_neg same]

theorem find_remove (m : Metadata) (key : String) (k : Text) :
    Value.find (m.remove key) k = if k = text key then none else Value.find m k := by
  rw [remove, find_retainKeys]
  by_cases same : k = text key
  · rw [if_pos same, if_neg (by simp [same])]
  · rw [if_neg same, if_pos (by simp [same])]

theorem find_insert (m : Metadata) (key : String) (v : Value) (k : Text) :
    Value.find (m.insert key v) k = if k = text key then some v else Value.find m k :=
  Value.find_insert _ _ _ _

/-- Entries of a map win over those that were there. -/
theorem find_extend (m more : Metadata) (isMap : (more.map Prod.fst).Nodup) (k : Text) :
    Value.find (m.extend more) k = (Value.find more k).or (Value.find m k) := by
  induction more generalizing m with
  | nil => rfl
  | cons e more ih =>
    obtain ⟨key, v⟩ := e
    have ⟨fresh, rest⟩ := List.nodup_cons.mp isMap
    rw [extend, List.foldl_cons, ← extend, ih _ rest, Value.find_insert, Value.find_cons]
    by_cases same : k = key
    · subst same
      have absent : Value.find more k = none :=
        List.lookup_eq_none_iff.mpr fun e mem => by
          have other : e.1 ≠ k := fun eq => fresh (List.mem_map.mpr ⟨e, mem, eq⟩)
          simpa using Ne.symm other
      rw [absent, if_pos rfl, if_pos rfl]
      rfl
    · rw [if_neg same, if_neg same]

end Metadata

/-- What a class adds to the metadata. -/
def Derived (k : Text) (v : Value) : Prop :=
  (k = text "caption" ∨ k = text "sub_type") ∧ ∃ s, v = .string s

/-- The entries are the same but for what a class adds. -/
def Adds (m m' : Metadata) : Prop :=
  ∀ k, Value.find m' k = Value.find m k ∨ ∃ v, Derived k v ∧ Value.find m' k = some v

theorem Adds.refl (m : Metadata) : Adds m m := fun _ => .inl rfl

/-- A class adds entries of its own, under keys that no caller's entry is found by. -/
theorem Adds.insert {m m' : Metadata} (adds : Adds m m') {key : String} {s : Text}
    (derived : Derived (text key) (.string s)) : Adds m (m'.insert key (.string s)) := by
  intro k
  rw [Metadata.find_insert]
  by_cases same : k = text key
  · rw [if_pos same]
    exact .inr ⟨_, same ▸ derived, rfl⟩
  · rw [if_neg same]
    exact adds k

/-! ## Cleaning -/

/-- A block that is changed in its kind, its content and the entries of a class. -/
structure Recast (b b' : ContentBlock) : Prop where
  bbox : b'.bbox = b.bbox
  angle : b'.angle = b.angle
  mergePrevious : b'.mergePrevious = b.mergePrevious
  adds : Adds b.metadata b'.metadata
  list : b'.kind = "list" → b.kind = "list"

theorem Recast.refl (b : ContentBlock) : Recast b b := ⟨rfl, rfl, rfl, Adds.refl _, id⟩

theorem captionBlock_recast (caption : Option Text) (block : ContentBlock) :
    Recast block (captionBlock caption block) := by
  unfold captionBlock
  split
  · exact ⟨rfl, rfl, rfl, (Adds.refl _).insert ⟨.inl rfl, _, rfl⟩, id⟩
  · exact Recast.refl block

theorem classBlock_recast (className : Text) (subClass : Option Text) {block block' : ContentBlock}
    (recast : Recast block block') : Recast block (classBlock className subClass block') := by
  obtain ⟨bbox, angle, mergePrevious, adds, -⟩ := recast
  unfold classBlock
  split_ifs
  · exact ⟨bbox, angle, mergePrevious, adds, fun h => absurd h (show "table" ≠ "list" by decide)⟩
  · exact ⟨bbox, angle, mergePrevious, adds, fun h => absurd h (show "equation" ≠ "list" by decide)⟩
  · split
    · exact ⟨bbox, angle, mergePrevious, adds.insert ⟨.inr rfl, _, rfl⟩,
        fun h => absurd h (show "chart" ≠ "list" by decide)⟩
    · exact ⟨bbox, angle, mergePrevious, adds, fun h => absurd h (show "chart" ≠ "list" by decide)⟩
  · exact ⟨bbox, angle, mergePrevious, adds, fun h => absurd h (show "image" ≠ "list" by decide)⟩

/-- The answer of the classifier changes the kind, and adds what a class comes with. -/
theorem classify_recast (block : ContentBlock) (answer : Text) :
    Recast block (classify block answer).1 := by
  unfold classify
  split_ifs
  · cases parseVlmClassOutput answer with
    | none => exact Recast.refl block
    | some output => exact classBlock_recast _ _ (captionBlock_recast output.caption block)
  · exact Recast.refl block

/-- No pass makes a list of another block, so the lists of the result are lists of the input. -/
theorem rekind_list {kind : String} {marker : Text} (list : rekind kind marker = "list") :
    kind = "list" := by
  unfold rekind at list
  dsimp only at list
  split_ifs at list <;> first | exact list | exact absurd list (by decide)

theorem itemText_list {kind : String} {answer : Text} (list : (itemText kind answer).1 = "list") :
    kind = "list" := by
  unfold itemText at list
  split_ifs at list
  · exact absurd list (show "text" ≠ "list" by decide)
  · exact list

/-- The cleaning of a block by its answer keeps the entries, for every kind. -/
theorem cleanBlock_recast (w : WordChars) (block : ContentBlock) (response : Text) :
    Recast block (cleanBlock w block response) := by
  obtain ⟨bbox, angle, mergePrevious, adds, list⟩ :=
    classify_recast block (replaceText (text "<|im_end|>") [] response)
  refine ⟨bbox, angle, mergePrevious, adds, fun isList => list ?_⟩
  exact rekind_list (itemText_list isList)

theorem clean_recast (w : WordChars) (block : ContentBlock) : Recast block (clean w block) := by
  unfold clean
  cases block.content with
  | none => exact Recast.refl block
  | some content => exact cleanBlock_recast w block content

/-! ## What a block carries -/

/-- The block of the page that a block is. -/
structure Placed (a : VlmLayoutBlock) (b : ContentBlock) : Prop where
  bbox : b.bbox = a.bbox
  angle : b.angle = a.angle
  mergePrevious : b.mergePrevious = a.mergePrev.getD false

/-- The caller's entries of a block. -/
def external (a : VlmLayoutBlock) : Metadata := Metadata.retainKeys (fun key => !isInternal key) a.metadata

structure Carries (a : VlmLayoutBlock) (order : Option Nat) (b : ContentBlock) : Prop where
  placed : Placed a b
  envelope : Value.find b.metadata (text externalMetadata) =
    if (external a).isEmpty then none else some (.object (external a))
  order : Value.find b.metadata (text postProcessOrder) = order.map fun n => .number (.unsigned n)
  rest : ∀ k v, Value.find b.metadata k = some v → k = text externalMetadata ∨
    k = text postProcessOrder ∨ isInternal k = true ∨ Derived k v

/-- What is derived does not hide an entry of the caller, the envelope or the index. -/
theorem Derived.other {k : Text} {v : Value} (derived : Derived k v) :
    k ≠ text externalMetadata ∧ k ≠ text postProcessOrder ∧ isInternal k = false ∧
      k.head? ≠ some '_' := by
  obtain ⟨rfl | rfl, -⟩ := derived <;> decide

namespace Carries

variable {a : VlmLayoutBlock} {order : Option Nat} {b b' : ContentBlock}

/-- A step that keeps the place and adds entries of a class. -/
theorem recast (carries : Carries a order b) (step : Recast b b') : Carries a order b' := by
  obtain ⟨⟨bbox, angle, mergePrevious⟩, envelope, index, rest⟩ := carries
  have same (k : Text) (other : ∀ v, ¬ Derived k v) :
      Value.find b'.metadata k = Value.find b.metadata k := by
    rcases step.adds k with same | ⟨v, derived, -⟩
    · exact same
    · exact absurd derived (other v)
  refine ⟨⟨step.bbox.trans bbox, step.angle.trans angle, step.mergePrevious.trans mergePrevious⟩,
    ?_, ?_, fun k v is => ?_⟩
  · rw [same _ fun v derived => derived.other.1 rfl, envelope]
  · rw [same _ fun v derived => derived.other.2.1 rfl, index]
  · rcases step.adds k with same | ⟨v', derived, is'⟩
    · exact rest k v (same ▸ is)
    · obtain rfl : v' = v := Option.some.inj (is'.symm.trans is)
      exact .inr (.inr (.inr derived))

/-- A step that drops keys of its own. -/
theorem retain (carries : Carries a order b) {p : Text → Bool}
    (keepsEnvelope : p (text externalMetadata) = true)
    (keepsOrder : p (text postProcessOrder) = true) :
    Carries a order (b.setMetadata (b.metadata.retainKeys p)) := by
  obtain ⟨placed, envelope, index, rest⟩ := carries
  refine ⟨⟨placed.bbox, placed.angle, placed.mergePrevious⟩, ?_, ?_, fun k v is => ?_⟩
  · exact (Metadata.find_retainKeys _ _ _).trans ((if_pos keepsEnvelope).trans envelope)
  · exact (Metadata.find_retainKeys _ _ _).trans ((if_pos keepsOrder).trans index)
  · have kept := (Metadata.find_retainKeys p b.metadata k).symm.trans is
    split_ifs at kept
    exact rest k v kept

theorem setOrder (carries : Carries a order b) (n : Nat) :
    Carries a (some n) (b.setMetadata
      (b.metadata.insert postProcessOrder (.number (.unsigned n)))) := by
  obtain ⟨placed, envelope, -, rest⟩ := carries
  refine ⟨⟨placed.bbox, placed.angle, placed.mergePrevious⟩, ?_, ?_, fun k v is => ?_⟩
  · exact (Metadata.find_insert _ _ _ _).trans ((if_neg (by decide)).trans envelope)
  · exact (Metadata.find_insert _ _ _ _).trans (if_pos rfl)
  · have found := (Metadata.find_insert _ _ _ k).symm.trans is
    split_ifs at found with same
    · exact .inr (.inl same)
    · exact rest k v found

theorem dropOrder (carries : Carries a order b) :
    Carries a none (b.setMetadata (b.metadata.remove postProcessOrder)) := by
  obtain ⟨placed, envelope, -, rest⟩ := carries
  refine ⟨⟨placed.bbox, placed.angle, placed.mergePrevious⟩, ?_, ?_, fun k v is => ?_⟩
  · exact (Metadata.find_remove _ _ _).trans ((if_neg (by decide)).trans envelope)
  · exact (Metadata.find_remove _ _ _).trans (if_pos rfl)
  · have found := (Metadata.find_remove _ _ k).symm.trans is
    split_ifs at found
    exact rest k v found

end Carries

/-- The metadata of a caller is a map without the keys of the order and the envelope. -/
structure CallersMetadata (m : Metadata) : Prop where
  isMap : (m.map Prod.fst).Nodup
  order : m.containsKey postProcessOrder = false
  envelope : m.containsKey externalMetadata = false

theorem not_find {m : Metadata} {key : String} (absent : m.containsKey key = false) :
    Value.find m (text key) = none := Option.isNone_iff_eq_none.mp (by
  rw [← Option.not_isSome, Bool.not_eq_true']
  exact absent)

/-- What is found in an envelope: the caller's entries are one value, and the internal ones stay
outside of it. -/
theorem find_envelop (m : Metadata) (k : Text) : Value.find (envelop m) k =
    let external := m.retainKeys fun key => !isInternal key
    if k = text externalMetadata ∧ external.isEmpty = false then some (.object external)
    else if isInternal k then Value.find m k else none := by
  unfold envelop
  dsimp only
  generalize m.retainKeys (fun key => !isInternal key) = external
  cases external.isEmpty with
  | true =>
    rw [if_pos rfl, Metadata.find_retainKeys, if_neg (c := _ ∧ _) fun h => Bool.noConfusion h.2]
  | false =>
    rw [if_neg Bool.false_ne_true, Metadata.find_insert, Metadata.find_retainKeys]
    simp only [and_true]

theorem internal_other {k : Text} (internal : isInternal k = true) :
    k ≠ text externalMetadata ∧ k ≠ text postProcessOrder := by
  constructor <;> rintro rfl <;> exact absurd internal (by decide)

theorem find_envelop_internal (m : Metadata) {k : Text} (internal : isInternal k = true) :
    Value.find (envelop m) k = Value.find m k := by
  rw [find_envelop]
  exact (if_neg fun h => (internal_other internal).1 h.1).trans (if_pos internal)

/-- The first loop. -/
theorem carries_envelop (a : VlmLayoutBlock) :
    Carries a none ((fromVlm a).setMetadata (envelop (fromVlm a).metadata)) := by
  refine ⟨⟨rfl, rfl, rfl⟩, (find_envelop _ _).trans ?_, (find_envelop _ _).trans ?_,
    fun k v is => ?_⟩
  · by_cases empty : (external a).isEmpty = true
    · rw [if_pos empty]
      exact (if_neg fun h => Bool.noConfusion (empty.symm.trans h.2)).trans (if_neg (by decide))
    · rw [if_neg empty]
      exact if_pos ⟨rfl, Bool.not_eq_true _ ▸ empty⟩
  · exact (if_neg fun h => absurd h.1 (by decide)).trans (if_neg (by decide))
  · have found := (find_envelop _ k).symm.trans is
    dsimp only at found
    split_ifs at found with envelope internal
    · exact .inl envelope.1
    · exact .inr (.inr (.inl internal))

/-- The internal keys are removed at the end, and with them nothing else. -/
theorem find_removeAll (keys : List String) (m : Metadata) (k : Text) :
    Value.find (keys.foldl (fun (m : Metadata) key => m.remove key) m) k =
      if (keys.map text).contains k then none else Value.find m k := by
  induction keys generalizing m with
  | nil => rfl
  | cons key keys ih =>
    rw [List.foldl_cons, ih, Metadata.find_remove, List.map_cons, List.contains_cons]
    by_cases same : k = text key
    · simp [same]
    · simp [same]

/-- What the envelope gives back. -/
theorem find_unwrap {a : VlmLayoutBlock} {order : Option Nat} {b : ContentBlock}
    (carries : Carries a order b) (isMap : (a.metadata.map Prod.fst).Nodup) (k : Text) :
    Value.find (unwrap b.metadata) k =
      if isInternal k then none
      else (Value.find a.metadata k).or
        (if k = text externalMetadata then none else Value.find b.metadata k) := by
  unfold unwrap
  dsimp only
  rw [find_removeAll, ← isInternal, carries.envelope]
  by_cases internal : isInternal k = true
  · rw [if_pos internal, if_pos internal]
  rw [if_neg internal, if_neg internal]
  have found : Value.find (external a) k = Value.find a.metadata k := by
    rw [external, Metadata.find_retainKeys, if_pos (by rw [Bool.not_eq_true] at internal; simp [internal])]
  have isMap' : ((external a).map Prod.fst).Nodup :=
    (List.filter_sublist.map Prod.fst).nodup isMap
  cases empty : (external a).isEmpty with
  | true =>
    have none : Value.find a.metadata k = none := by
      rw [← found, List.isEmpty_iff.mp empty]
      rfl
    rw [if_pos rfl, none, Option.none_or]
    exact Metadata.find_remove _ _ _
  | false =>
    rw [if_neg Bool.false_ne_true]
    dsimp only
    rw [Metadata.find_extend _ _ isMap', found, Metadata.find_remove]

/-- The caller's entries are back, and nothing else is there but what a class adds. -/
structure Restored (m m' : Metadata) : Prop where
  external : ∀ k v, isInternal k = false → Value.find m k = some v → Value.find m' k = some v
  others : ∀ k v, Value.find m' k = some v →
    isInternal k = false ∧ Value.find m k = some v ∨ Derived k v
  cleared : ∀ key ∈ postProcessOrder :: externalMetadata :: internalKeys, m'.containsKey key = false

/-- The index is gone when the caller's own metadata has none. -/
theorem order_cleared {a : VlmLayoutBlock} {order : Option Nat} {b : ContentBlock}
    (carries : Carries a order b) (callers : CallersMetadata a.metadata)
    (cleared : (unwrap b.metadata).containsKey postProcessOrder = false) : order = none := by
  have gone := not_find cleared
  rw [find_unwrap carries callers.isMap, if_neg (by decide), not_find callers.order, Option.none_or,
    if_neg (by decide), carries.order] at gone
  exact Option.map_eq_none_iff.mp gone

/-- The entries are back exactly when the index has been taken out. -/
theorem restored_iff {a : VlmLayoutBlock} {order : Option Nat} {b : ContentBlock}
    (carries : Carries a order b) (callers : CallersMetadata a.metadata) :
    Restored a.metadata (unwrap b.metadata) ↔ order = none := by
  have find := find_unwrap carries callers.isMap
  constructor
  · exact fun restored =>
      order_cleared carries callers (restored.cleared postProcessOrder List.mem_cons_self)
  · rintro rfl
    refine ⟨fun k v outer is => ?_, fun k v is => ?_, fun key mem => ?_⟩
    · rw [find, if_neg (by rw [outer]; exact Bool.false_ne_true), is]
      rfl
    · rw [find] at is
      split_ifs at is with internal envelope
      · rw [Option.or_none] at is
        exact .inl ⟨Bool.not_eq_true _ ▸ internal, is⟩
      · rcases Option.or_eq_some_iff.mp is with own | ⟨-, kept⟩
        · exact .inl ⟨Bool.not_eq_true _ ▸ internal, own⟩
        · rcases carries.rest k v kept with same | same | inner | derived
          · exact absurd same envelope
          · subst same
            rw [carries.order] at kept
            exact nomatch kept
          · exact absurd inner internal
          · exact .inr derived
    · rw [Metadata.containsKey, find]
      rcases List.mem_cons.mp mem with rfl | mem
      · rw [if_neg (by decide), not_find callers.order, Option.none_or, if_neg (by decide),
          carries.order]
        rfl
      rcases List.mem_cons.mp mem with rfl | mem
      · rw [if_neg (by decide), not_find callers.envelope, Option.none_or, if_pos rfl]
        rfl
      · have internal : isInternal (text key) = true :=
          List.contains_iff_mem.mpr (List.mem_map_of_mem mem)
        rw [if_pos internal]
        rfl

/-! ## The stages -/

/-- A step keeps what a block carries. -/
def Keeps (b b' : ContentBlock) : Prop := ∀ a order, Carries a order b → Carries a order b'

/-- The preparation drops blocks and envelops the others. -/
theorem prepared_carries (w : WordChars) (blocks : List VlmLayoutBlock) :
    List.SublistForall₂ (fun b a => Carries a none b) (prepared w blocks) blocks := by
  have first : List.SublistForall₂ (fun b a => Carries a none b)
      ((blocks.map fromVlm).map fun block => block.setMetadata (envelop block.metadata)) blocks := by
    apply Origins.map (Origins.of_map fromVlm blocks)
    rintro _ a rfl
    exact carries_envelop a
  have second : List.SublistForall₂ (fun b a => Carries a none b)
      (((blocks.map fromVlm).map fun block => block.setMetadata (envelop block.metadata)).map
        fun block => if isImageLike block.kind then clean w block else block) blocks := by
    refine Origins.map first fun b a carries => ?_
    split_ifs
    · exact carries.recast (clean_recast w b)
    · exact carries
  exact Origins.weaken (Origins.filter second _) fun _ _ h => h.1

/-- What is filtered together with its answers is a sublist of what was there. -/
theorem zip_filter_sublist {α β : Type} (p : α × β → Bool) (xs : List α) (ys : List β) :
    (((xs.zip ys).filter p).map Prod.fst).Sublist xs := by
  induction xs generalizing ys with
  | nil => exact List.nil_sublist _
  | cons x xs ih =>
    cases ys with
    | nil => exact List.nil_sublist _
    | cons y ys =>
      rw [List.zip_cons_cons, List.filter_cons]
      split_ifs
      · exact (ih ys).cons_cons x
      · exact (ih ys).cons x

/-- A pass that keeps the frame of a block keeps what it carries. -/
theorem Carries.of_frame {a : VlmLayoutBlock} {order : Option Nat} {b b' : ContentBlock}
    (frame : b'.frame = b.frame) (carries : Carries a order b) : Carries a order b' := by
  have metadata : b'.metadata = b.metadata := congrArg (fun f => f.2.2.2) frame
  obtain ⟨⟨bbox, angle, mergePrevious⟩, envelope, index, rest⟩ := carries
  have bbox' : b'.bbox = b.bbox := congrArg (fun f => f.1) frame
  have angle' : b'.angle = b.angle := congrArg (fun f => f.2.1) frame
  have mergePrevious' : b'.mergePrevious = b.mergePrevious := congrArg (fun f => f.2.2.1) frame
  refine ⟨⟨bbox'.trans bbox, angle'.trans angle, mergePrevious'.trans mergePrevious⟩, ?_, ?_, ?_⟩
  · rw [metadata, envelope]
  · rw [metadata, index]
  · rw [metadata]
    exact rest

/-- The passes over the prepared blocks drop some of them and keep the entries of the others. -/
theorem postProcess_keeps (w : WordChars) (native : List ContentBlock) :
    List.SublistForall₂ (fun b' b => Keeps b b') (postProcess w native) native := by
  have cleaned : List.SublistForall₂ (fun b' b => Keeps b b') (native.map (clean w)) native := by
    apply Origins.weaken (Origins.of_map (clean w) native)
    rintro _ b rfl a order carries
    exact carries.recast (clean_recast w b)
  have resolved : List.SublistForall₂ (fun b' b => b'.frame = b.frame)
      (retained (resolveContainers (native.map (clean w)))) (native.map (clean w)) :=
    Origins.of_sublist (zip_filter_sublist _ _ _)
      (Origins.of_map_eq (inOrder (native.map (clean w))).2.2)
  have kept : List.SublistForall₂ (fun b' b => Keeps b b')
      (retained (resolveContainers (native.map (clean w)))) native :=
    Origins.comp resolved cleaned fun _ _ _ frame keeps a order carries =>
      (keeps a order carries).of_frame frame
  exact Origins.map kept fun _ _ keeps a order carries =>
    (keeps a order carries).retain (by decide) (by decide)

theorem renameKind_keeps (kind kind' : String) (b : ContentBlock) :
    Keeps b (renameKind kind kind' b) := by
  intro a order carries
  unfold renameKind
  split_ifs
  · exact carries.of_frame (b := b) rfl
  · exact carries

/-! ## Lists -/

/-- A block with its index in the metadata. -/
def setIndex (e : Nat × ContentBlock) : ContentBlock :=
  e.2.setMetadata (e.2.metadata.insert postProcessOrder (.number (.unsigned e.1)))

/-- The blocks of a page with their indexes. -/
def indexed (native : List ContentBlock) : List (Nat × ContentBlock) := native.zipIdx.map Prod.swap

theorem mem_indexed {native : List ContentBlock} {e : Nat × ContentBlock} :
    e ∈ indexed native ↔ native[e.1]? = some e.2 := by
  rw [indexed, List.mem_map_swap, List.mem_zipIdx_iff_getElem?]

theorem indexed_keys (native : List ContentBlock) :
    ((indexed native).map Prod.fst).Pairwise (· < ·) := by
  rw [indexed, List.map_map, show Prod.fst ∘ Prod.swap = (Prod.snd : ContentBlock × Nat → Nat) from rfl,
    List.zipIdx_map_snd]
  exact List.pairwise_lt_range'

/-- The blocks that came from blocks with an index give it back. -/
theorem mapM_ordered {bs : List ContentBlock} {es : List (Nat × ContentBlock)}
    (origin : List.SublistForall₂ (fun b e => Keeps (setIndex e) b) bs es)
    (carried : ∀ e ∈ es, ∃ a, Carries a none e.2) :
    ∃ pairs, bs.mapM ordered = .ok pairs ∧ List.SublistForall₂ (fun p e => p.1 = e.1 ∧
      ∀ a, Carries a none e.2 → Carries a none p.2) pairs es := by
  induction origin with
  | nil => exact ⟨[], rfl, .nil⟩
  | @cons b e bs es keeps _ ih =>
    obtain ⟨pairs, run, rest⟩ := ih fun e mem => carried e (List.mem_cons_of_mem _ mem)
    obtain ⟨a, carries⟩ := carried e List.mem_cons_self
    have here : ordered b = .ok (e.1, b.setMetadata (b.metadata.remove postProcessOrder)) := by
      unfold ordered
      rw [(keeps a _ (carries.setOrder e.1)).order]
      rfl
    refine ⟨(e.1, b.setMetadata (b.metadata.remove postProcessOrder)) :: pairs, ?_,
      .cons ⟨rfl, fun a carries => ?_⟩ rest⟩
    · rw [List.mapM_cons, here, run]
      rfl
    · exact (keeps a _ (carries.setOrder e.1)).dropOrder
  | cons_right _ ih =>
    obtain ⟨pairs, run, rest⟩ := ih fun e mem => carried e (List.mem_cons_of_mem _ mem)
    exact ⟨pairs, run, .cons_right rest⟩

/-- The sorted list stands in the order of the page. -/
theorem sorted_carries {native : List ContentBlock} {pairs lists : List (Nat × ContentBlock)}
    {isList : Nat × ContentBlock → Bool} (isLists : lists = (indexed native).filter isList)
    (others : List.SublistForall₂ (fun p e => p.1 = e.1 ∧
      ∀ a, Carries a none e.2 → Carries a none p.2) pairs
      ((indexed native).filter fun e => !isList e)) :
    List.SublistForall₂ (fun b b' => ∀ a, Carries a none b' → Carries a none b)
      (((pairs ++ lists).insertionSort fun a b => a.1 ≤ b.1).map Prod.snd) native := by
  have keys := indexed_keys native
  have pairKeys : (pairs.map Prod.fst).Sublist
      (((indexed native).filter fun e => !isList e).map Prod.fst) :=
    Origins.keys_sublist others fun _ _ h => h.1
  have nodup : ((pairs ++ lists).map Prod.fst).Nodup := by
    have all : ((indexed native).map Prod.fst).Nodup := keys.imp fun lt => Nat.ne_of_lt lt
    rw [List.map_append, List.nodup_append']
    refine ⟨pairKeys.nodup ((List.filter_sublist.map _).nodup all), ?_, fun i first second => ?_⟩
    · rw [isLists]
      exact (List.filter_sublist.map _).nodup all
    · obtain ⟨d, memD, rfl⟩ := List.mem_map.mp (pairKeys.subset first)
      rw [isLists] at second
      obtain ⟨e, memE, same⟩ := List.mem_map.mp second
      have ⟨inD, notList⟩ := List.mem_filter.mp memD
      have ⟨inE, list⟩ := List.mem_filter.mp memE
      obtain rfl : e = d := List.inj_on_of_nodup_map all inE inD same
      rw [list] at notList
      exact nomatch notList
  have perm := List.perm_insertionSort (fun a b : Nat × ContentBlock => a.1 ≤ b.1) (pairs ++ lists)
  have increasing : ((pairs ++ lists).insertionSort fun a b => a.1 ≤ b.1).Pairwise
      fun d e => d.1 < e.1 := by
    have sorted := List.pairwise_insertionSort (fun a b : Nat × ContentBlock => a.1 ≤ b.1)
      (pairs ++ lists)
    have distinct := List.pairwise_map.mp ((perm.map Prod.fst).nodup_iff.mpr nodup)
    exact (sorted.and distinct).imp fun h => Nat.lt_of_le_of_ne h.1 h.2
  apply Origins.of_indexes 0 increasing
  intro e mem
  rcases List.mem_append.mp (perm.mem_iff.mp mem) with first | second
  · obtain ⟨d, memD, same, carries⟩ := Origins.exists_origin others first
    exact ⟨e.1, d.2, (Nat.zero_add _).symm,
      same ▸ mem_indexed.mp (List.mem_filter.mp memD).1, carries⟩
  · rw [isLists] at second
    exact ⟨e.1, e.2, (Nat.zero_add _).symm, mem_indexed.mp (List.mem_filter.mp second).1,
      fun _ carries => carries⟩

/-- The shared cleaner, between the two loops that rename containers. -/
theorem cleaner_keeps (w : WordChars) (handles : Bool) (native : List ContentBlock) :
    List.SublistForall₂ (fun b' b => Keeps b b')
      ((postProcess w (if handles then native
        else native.map (renameKind "equation_block" "_mineru_equation_block"))).map
          (renameKind "_mineru_equation_block" "equation_block")) native := by
  have before : List.SublistForall₂ (fun b' b => Keeps b b') (if handles then native
      else native.map (renameKind "equation_block" "_mineru_equation_block")) native := by
    split_ifs
    · exact Origins.weaken (List.Sublist.refl native).sublistForall₂ (R := fun b' b => b' = b)
        fun _ _ eq a order carries => eq ▸ carries
    · apply Origins.weaken (Origins.of_map _ native)
      rintro _ b rfl
      exact renameKind_keeps _ _ b
  have cleaned : List.SublistForall₂ (fun b' b => Keeps b b') (postProcess w (if handles then native
      else native.map (renameKind "equation_block" "_mineru_equation_block"))) native :=
    Origins.comp (postProcess_keeps w _) before fun _ _ _ second first a order carries =>
      second a order (first a order carries)
  exact Origins.map cleaned fun b _ keeps a order carries =>
    renameKind_keeps _ _ b a order (keeps a order carries)

/-- The lists are taken out with their indexes, and the rest stays in order. -/
theorem takeLists_eq (native : List ContentBlock) : takeLists native =
    ((indexed native).filter (fun e => decide (e.2.kind = "list")),
      ((indexed native).filter fun e => !decide (e.2.kind = "list")).map setIndex) := by
  unfold takeLists
  have negated : (fun e : Nat × ContentBlock => decide (e.2.kind ≠ "list")) =
      fun e => !decide (e.2.kind = "list") := by
    funext e
    exact decide_not
  dsimp only
  rw [negated]
  rfl

/-- The branch without `simple_post_process` leaves the index in the metadata when it was set and no
list is put back. -/
theorem full_carries (w : WordChars) (config : VlmConfig) {native : List ContentBlock}
    {blocks : List VlmLayoutBlock}
    (origin : List.SublistForall₂ (fun b a => Carries a none b) native blocks) :
    ∃ out, fullPostProcess w config native = .ok out ∧
      List.SublistForall₂ (fun b a => ∃ order, Carries a order b ∧
        (order = none ↔ config.abandonList = true ∨ ∃ b ∈ native, b.kind = "list")) out blocks := by
  unfold fullPostProcess
  by_cases abandons : config.abandonList = true
  · rw [if_pos abandons]
    refine ⟨_, if_pos rfl, ?_⟩
    exact Origins.comp (cleaner_keeps w _ native) origin fun _ _ a keeps carries =>
      ⟨none, keeps a none carries, iff_of_true rfl (.inl abandons)⟩
  rw [if_neg abandons, takeLists_eq]
  dsimp only
  have carried : ∀ b ∈ native, ∃ a, Carries a none b := fun b mem =>
    have ⟨a, _, carries⟩ := Origins.exists_origin origin mem
    ⟨a, carries⟩
  have cleaned := cleaner_keeps w config.handleEquationBlock
    (((indexed native).filter fun e => !decide (e.2.kind = "list")).map setIndex)
  rw [List.sublistForall₂_map_right_iff] at cleaned
  by_cases none : (indexed native).filter (fun e => decide (e.2.kind = "list")) = []
  · -- The index stays, since the loop that takes it out is skipped.
    refine ⟨_, by rw [putBack, none]; rfl, ?_⟩
    have noList : ∀ b ∈ native, b.kind ≠ "list" := by
      intro b mem kind
      obtain ⟨i, is⟩ := List.getElem?_of_mem mem
      have inside : (i, b) ∈ indexed native := mem_indexed.mpr is
      have among : (i, b) ∈ (indexed native).filter fun e => decide (e.2.kind = "list") :=
        List.mem_filter.mpr ⟨inside, decide_eq_true kind⟩
      rw [none] at among
      exact absurd among List.not_mem_nil
    have all : List.SublistForall₂ (fun e b => e.2 = b)
        ((indexed native).filter fun e => !decide (e.2.kind = "list")) native := by
      have swapped : (indexed native).map Prod.snd = native := by
        rw [indexed, List.map_map]
        exact List.zipIdx_map_fst 0 native
      exact Origins.of_sublist List.filter_sublist
        (Origins.of_map_eq (f := id) (swapped.trans (List.map_id native).symm))
    have start : List.SublistForall₂ (fun e a => Carries a (some e.1) (setIndex e))
        ((indexed native).filter fun e => !decide (e.2.kind = "list")) blocks :=
      Origins.comp all origin fun e _ _ eq carries => (eq ▸ carries : Carries _ _ e.2).setOrder e.1
    refine Origins.comp cleaned start fun _ e a keeps carries =>
      ⟨some e.1, keeps a _ carries, iff_of_false (Option.some_ne_none _) ?_⟩
    rintro (abandoned | ⟨b, mem, kind⟩)
    · exact abandons abandoned
    · exact noList b mem kind
  · have list : ∃ b ∈ native, b.kind = "list" := by
      obtain ⟨e, mem⟩ := List.exists_mem_of_ne_nil _ none
      have ⟨among, kind⟩ := List.mem_filter.mp mem
      exact ⟨e.2, List.mem_of_getElem? (mem_indexed.mp among), of_decide_eq_true kind⟩
    obtain ⟨pairs, run, others⟩ := mapM_ordered cleaned fun e mem =>
      carried e.2 (List.mem_of_getElem? (mem_indexed.mp (List.mem_filter.mp mem).1))
    refine ⟨_, ?_, Origins.comp (sorted_carries rfl others) origin fun _ _ a keeps carries =>
      ⟨Option.none, keeps a carries, iff_of_true rfl (.inr list)⟩⟩
    rw [putBack, if_neg fun empty => none (List.isEmpty_iff.mp empty), run]
    rfl

/-! ## The whole post-processing -/

/-- A list that is not marked as a covered caption. -/
def isKeptList (a : VlmLayoutBlock) : Bool :=
  a.blockType = "list" && !Metadata.containsKey a.metadata coveredImageCaption

/-- Whether there is a list to put back can be told from the input. -/
theorem prepared_list (w : WordChars) (blocks : List VlmLayoutBlock) :
    (∃ b ∈ prepared w blocks, b.kind = "list") ↔ blocks.any isKeptList = true := by
  have covered (a : VlmLayoutBlock) :
      Metadata.containsKey (envelop a.metadata) coveredImageCaption =
        Metadata.containsKey a.metadata coveredImageCaption := by
    unfold Metadata.containsKey
    rw [find_envelop_internal _ (by decide)]
  have other : isImageLike "list" = false := by decide
  unfold prepared
  dsimp only
  rw [List.any_eq_true]
  constructor
  · rintro ⟨b, mem, kind⟩
    rw [List.mem_filter, List.map_map, List.map_map, List.mem_map] at mem
    obtain ⟨⟨a, among, rfl⟩, uncovered⟩ := mem
    refine ⟨a, among, ?_⟩
    dsimp only [Function.comp] at kind uncovered
    split_ifs at kind uncovered with image
    · have list := (clean_recast w _).list kind
      rw [list, other] at image
      exact nomatch image
    · rw [isKeptList, Bool.and_eq_true, decide_eq_true_eq]
      exact ⟨kind, covered a ▸ uncovered⟩
  · rintro ⟨a, among, kept⟩
    rw [isKeptList, Bool.and_eq_true, decide_eq_true_eq] at kept
    have plain : ¬ isImageLike ((fromVlm a).setMetadata (envelop (fromVlm a).metadata)).kind = true := by
      rw [show ((fromVlm a).setMetadata (envelop (fromVlm a).metadata)).kind = "list" from kept.1,
        other]
      exact Bool.false_ne_true
    refine ⟨(fromVlm a).setMetadata (envelop (fromVlm a).metadata), ?_, kept.1⟩
    rw [List.mem_filter, List.map_map, List.map_map, List.mem_map]
    exact ⟨⟨a, among, if_neg plain⟩, (covered a).symm ▸ kept.2⟩

/-- The end of a block's way: its entries are the caller's again, with an index where the
configuration and the lists leave one. -/
theorem Carries.unwrapped {a : VlmLayoutBlock} {order : Option Nat} {b : ContentBlock}
    (config : VlmConfig) (carries : Carries a order b) :
    let b' := unwrapEquations config (b.setMetadata (unwrap b.metadata))
    Placed a b' ∧ b'.metadata = unwrap b.metadata := by
  obtain ⟨bbox, angle, mergePrevious⟩ := carries.placed
  unfold unwrapEquations
  dsimp only
  split_ifs <;> exact ⟨⟨bbox, angle, mergePrevious⟩, rfl⟩

/-- The indexes are out of the metadata in the end. -/
def OrderTaken (config : VlmConfig) (blocks : List VlmLayoutBlock) : Prop :=
  config.simplePostProcess = true ∨ config.abandonList = true ∨ blocks.any isKeptList = true

/-- The post-processing from its beginning to its end. It never fails, and drops blocks without
moving any. -/
theorem processed_carries (w : WordChars) (config : VlmConfig) (blocks : List VlmLayoutBlock) :
    ∃ out, processed w config blocks = .ok out ∧
      List.SublistForall₂ (fun c a => ∃ order b, Carries a order b ∧ Placed a c ∧
        c.metadata = unwrap b.metadata ∧ (order = none ↔ OrderTaken config blocks)) out blocks := by
  have origin := prepared_carries w blocks
  unfold processed
  dsimp only
  by_cases simple : config.simplePostProcess = true
  · rw [if_pos simple]
    refine ⟨_, rfl, ?_⟩
    have filtered := Origins.weaken (Origins.filter origin (isReturned config)) fun _ _ h => h.1
    have cleaned : List.SublistForall₂ (fun b a => Carries a none b)
        (if config.simplePostProcess then ((prepared w blocks).filter (isReturned config)).map (clean w)
          else (prepared w blocks).filter (isReturned config)) blocks := by
      rw [if_pos simple]
      exact Origins.map filtered fun b a carries => carries.recast (clean_recast w b)
    exact Origins.map cleaned fun b a carries =>
      have ⟨placed, metadata⟩ := carries.unwrapped config
      ⟨none, b, carries, placed, metadata, iff_of_true rfl (.inl simple)⟩
  · obtain ⟨native, run, carried⟩ := full_carries w config origin
    rw [if_neg simple, run]
    refine ⟨_, rfl, ?_⟩
    have filtered := Origins.weaken (Origins.filter carried (isReturned config)) fun _ _ h => h.1
    rw [if_neg simple]
    refine Origins.map filtered fun b a ⟨order, carries, taken⟩ =>
      have ⟨placed, metadata⟩ := carries.unwrapped config
      ⟨order, b, carries, placed, metadata, taken.trans ?_⟩
    rw [prepared_list, OrderTaken]
    exact (or_iff_right simple).symm

/-- A block of the page as it is returned. -/
structure Returned (a b : VlmLayoutBlock) : Prop where
  bbox : b.bbox = a.bbox
  angle : b.angle = a.angle
  mergePrev : b.mergePrev = some (a.mergePrev.getD false)

/-- The blocks come back in their order, each with the metadata of its caller. -/
def MetadataReturned (w : WordChars) (config : VlmConfig) (blocks : List VlmLayoutBlock) : Prop :=
  ∃ out, config.postProcess w blocks = .ok out ∧
    List.SublistForall₂ (fun b a => Returned a b ∧ Restored a.metadata b.metadata) out blocks

/-- The post-processing does not fail and keeps the order of the blocks. Each block that it returns has
the metadata of its caller back exactly when the indexes have been taken out, and so have all of them
unless nothing is returned. -/
theorem metadata_returned_iff (w : WordChars) (config : VlmConfig) (blocks : List VlmLayoutBlock)
    (callers : ∀ a ∈ blocks, CallersMetadata a.metadata) :
    ∃ out, config.postProcess w blocks = .ok out ∧
      List.SublistForall₂ (fun b a => Returned a b ∧
        (Restored a.metadata b.metadata ↔ OrderTaken config blocks)) out blocks ∧
      (MetadataReturned w config blocks ↔ OrderTaken config blocks ∨ out = []) := by
  obtain ⟨native, run, carried⟩ := processed_carries w config blocks
  have blockwise : List.SublistForall₂ (fun b a => Returned a b ∧
      (Restored a.metadata b.metadata ↔ OrderTaken config blocks) ∧
      (Metadata.containsKey b.metadata postProcessOrder = false → OrderTaken config blocks))
      (native.map toVlm) blocks := by
    apply Origins.map (Origins.with_mem carried)
    rintro c a ⟨⟨order, b, carries, placed, metadata, taken⟩, mem⟩
    refine ⟨⟨placed.bbox, placed.angle, congrArg some placed.mergePrevious⟩, ?_, fun cleared => ?_⟩
    · rw [← taken, ← restored_iff carries (callers a mem), ← metadata]
      rfl
    · exact taken.mp (order_cleared carries (callers a mem) (metadata ▸ cleared))
  refine ⟨native.map toVlm, congrArg (Except.map _) run,
    Origins.weaken blockwise fun _ _ h => ⟨h.1, h.2.1⟩, ?_⟩
  constructor
  · rintro ⟨out, same, restored⟩
    obtain rfl : native.map toVlm = out :=
      Except.ok.inj ((congrArg (Except.map _) run).symm.trans same)
    by_contra neither
    rw [not_or] at neither
    obtain ⟨b, mem⟩ := List.exists_mem_of_ne_nil _ neither.2
    obtain ⟨_, -, -, back⟩ := Origins.exists_origin restored mem
    obtain ⟨_, -, -, -, taken⟩ := Origins.exists_origin blockwise mem
    exact neither.1 (taken (back.cleared postProcessOrder List.mem_cons_self))
  · rintro (taken | empty)
    · exact ⟨_, congrArg (Except.map _) run,
        Origins.weaken blockwise fun _ _ h => ⟨h.1, h.2.1.mpr taken⟩⟩
    · refine ⟨native.map toVlm, congrArg (Except.map _) run, ?_⟩
      rw [empty]
      exact .nil

/-- `VlmConfig::default`. -/
def defaultConfig : VlmConfig where
  simplePostProcess := false
  handleEquationBlock := true
  abandonList := false
  abandonParatext := false
  enableTableFormulaEqWrap := false

def pageBlock (kind : String) : VlmLayoutBlock where
  blockType := kind
  bbox := ⟨0, 0, 1, 1⟩
  angle := none
  content := some (text "a")
  mergePrev := none
  metadata := [(text "source", .string (text "scan"))]

theorem pageBlock_callers (kinds : List String) :
    ∀ a ∈ kinds.map pageBlock, CallersMetadata a.metadata := by
  intro a mem
  obtain ⟨kind, -, rfl⟩ := List.mem_map.mp mem
  change CallersMetadata [(text "source", .string (text "scan"))]
  exact ⟨List.nodup_singleton _, by decide, by decide⟩

/-- A page with a list beside its text gets everything back. -/
theorem metadata_returned_list :
    MetadataReturned asciiWords defaultConfig (["text", "list"].map pageBlock) := by
  obtain ⟨out, -, -, returned⟩ := metadata_returned_iff asciiWords defaultConfig
    (["text", "list"].map pageBlock) (pageBlock_callers _)
  exact returned.mpr (.inl (.inr (.inr (by decide))))

/-- Whether a block is returned with its index. -/
def keepsIndex (run : Checked VlmError (List VlmLayoutBlock)) : Bool :=
  match run with
  | .ok out => out.any fun b => Metadata.containsKey b.metadata postProcessOrder
  | .error _ => false

/-- A page of one text keeps its index under the default configuration. -/
theorem index_stays :
    ¬ MetadataReturned asciiWords defaultConfig (["text"].map pageBlock) := by
  rintro ⟨out, run, returned⟩
  have kept : keepsIndex (defaultConfig.postProcess asciiWords (["text"].map pageBlock)) = true := by
    decide +kernel
  rw [run] at kept
  obtain ⟨b, mem, holds⟩ := List.any_eq_true.mp kept
  obtain ⟨a, -, -, restored⟩ := Logic.Origins.exists_origin returned mem
  rw [restored.cleared postProcessOrder List.mem_cons_self] at holds
  exact nomatch holds

end Mineru.Vlm
