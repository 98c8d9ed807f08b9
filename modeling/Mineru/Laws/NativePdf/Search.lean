import Mineru.NativePdf.Images

/-!
# What the search for page images sees

The search returns `Ok(false)` exactly on a legible document: every path of its graph that the
search can see ends within the depth, and everything on it can be read and shows no image
(`search_iff`). The cache does not matter, and neither do the sets of seen objects, since a path
that repeats an object never ends.

The two directions have a relation each. `Reports` says what an answer of a part of the search tells
about the document, and `Silent` that the search finds nothing there; both are closed under the
combinators that the source is written with. A place of the search is an object or a dictionary of
resources, and `Leads` goes from one to the next.

What the search calls an image is a matter of the entries of a dictionary. Pictures that are drawn
in other ways are not looked for by the source, and not here.
-/

set_option autoImplicit false

namespace Mineru.NativePdf

/-! ## References -/

def Object.isReference : Object → Bool
  | .reference _ => true
  | _ => false

/-- The object behind a number of references. -/
inductive Deref (document : Document) : Nat → Object → Object → Prop
  | here {object : Object} : object.isReference = false → Deref document 0 object object
  | step {n : Nat} {id : ObjectId} {object value : Object} : document.getObject id = some object →
      Deref document n object value → Deref document (n + 1) (.reference id) value

/-- The object that is meant. -/
def Resolves (document : Document) (object value : Object) : Prop := ∃ n, Deref document n object value

section

variable {document : Document}

/-- An object is dereferenced in one way. -/
theorem Deref.unique {n m : Nat} {object v w : Object} (first : Deref document n object v)
    (second : Deref document m object w) : n = m ∧ v = w := by
  induction first generalizing m with
  | here direct =>
    cases second with
    | here _ => exact ⟨rfl, rfl⟩
    | step _ _ => cases direct
  | step found _ ih =>
    cases second with
    | here direct => cases direct
    | step again rest =>
      obtain rfl := Option.some.inj (found.symm.trans again)
      obtain ⟨rfl, rfl⟩ := ih rest
      exact ⟨rfl, rfl⟩

/-- No number with a property is reached if each leads to a smaller one. -/
theorem no_descent {p : Nat → Prop} (descend : ∀ k, p k → ∃ j < k, p j) (k : Nat) : ¬ p k := by
  induction k using Nat.strong_induction_on with
  | _ k ih =>
    intro held
    obtain ⟨j, less, held⟩ := descend k held
    exact ih j less held

/-- A dictionary that is resolved is what the object refers to, in as many steps as there was
room. -/
theorem deref_of_resolveDictionary {room : Nat} {object : Object} {seen : List ObjectId}
    {entries : Dictionary} (h : resolveDictionary document room object seen = some entries) :
    ∃ n ≤ room, Deref document n object (.dictionary entries) := by
  induction room generalizing object seen with
  | zero =>
    unfold resolveDictionary at h
    split at h
    · split at h
      · cases h
      · obtain ⟨_, _, none⟩ := Option.bind_eq_some_iff.mp h
        cases none
    · cases h
      exact ⟨0, le_rfl, .here rfl⟩
    · cases h
  | succ room ih =>
    unfold resolveDictionary at h
    split at h
    · split at h
      · cases h
      · obtain ⟨object, found, rest⟩ := Option.bind_eq_some_iff.mp h
        obtain ⟨n, le, chain⟩ := ih rest
        exact ⟨n + 1, Nat.succ_le_succ le, .step found chain⟩
    · cases h
      exact ⟨0, Nat.zero_le _, .here rfl⟩
    · cases h

/-- The seen objects are no obstacle, if each that leads to a dictionary leads there over this object. -/
theorem resolveDictionary_of_deref {room n : Nat} {object : Object} {seen : List ObjectId}
    {entries : Dictionary} (le : n ≤ room) (chain : Deref document n object (.dictionary entries))
    (above : ∀ id ∈ seen, ∀ m, Deref document m (.reference id) (.dictionary entries) → n < m) :
    resolveDictionary document room object seen = some entries := by
  induction n generalizing room object seen with
  | zero =>
    cases chain
    cases room <;> rfl
  | succ n ih =>
    cases chain with
    | @step _ id object _ found rest =>
      have fresh : id ∉ seen := fun mem => (above id mem _ (.step found rest)).false
      obtain ⟨room, rfl⟩ : ∃ r, room = r + 1 := ⟨room - 1, by omega⟩
      rw [resolveDictionary, if_neg fresh, found]
      refine ih (Nat.le_of_succ_le_succ le) rest fun other mem m longer => ?_
      rcases List.mem_cons.mp mem with rfl | mem
      · obtain ⟨rfl, -⟩ := longer.unique (.step found rest)
        exact Nat.lt_succ_self _
      · exact (Nat.lt_succ_self n).trans (above other mem m longer)

end

/-! ## Legible documents -/

/-- A place of the search. -/
inductive Node where
  | object (o : Object)
  | resources (o : Object)

/-- Every path from a node that the search sees ends within the room, and everything on it can be read
and shows no image. -/
inductive Quiet (document : Document) : Nat → Node → Prop
  | reference {room : Nat} {id : ObjectId} {object : Object} :
      document.getObject id = some object → Quiet document room (.object object) →
      Quiet document (room + 1) (.object (.reference id))
  | other {room : Nat} {dict : Dictionary} {content : Option (List Text)} :
      subtype dict ≠ some (text "Image") → subtype dict ≠ some (text "Form") →
      Quiet document room (.object (.stream dict content))
  | form {room : Nat} {dict : Dictionary} {content : Option (List Text)} :
      subtype dict = some (text "Form") → inlineImages dict content = some false →
      Dictionary.get dict (text "Resources") = none →
      Quiet document room (.object (.stream dict content))
  | nested {room : Nat} {dict : Dictionary} {content : Option (List Text)} {resources : Object} :
      subtype dict = some (text "Form") → inlineImages dict content = some false →
      Dictionary.get dict (text "Resources") = some resources →
      Quiet document room (.resources resources) →
      Quiet document (room + 1) (.object (.stream dict content))
  | empty {room n : Nat} {object : Object} {dict : Dictionary} :
      Deref document n object (.dictionary dict) → n ≤ room →
      Dictionary.get dict (text "XObject") = none → Quiet document room (.resources object)
  | entries {room n m : Nat} {object xobjects : Object} {dict entries : Dictionary} :
      Deref document n object (.dictionary dict) → n ≤ room + 1 →
      Dictionary.get dict (text "XObject") = some xobjects →
      Deref document m xobjects (.dictionary entries) → m ≤ room →
      (∀ entry ∈ entries, Quiet document room (.object entry.2)) →
      Quiet document (room + 1) (.resources object)

/-- The resources that the search finds over the references to the parents are quiet. -/
inductive PageQuiet (document : Document) : Nat → ObjectId → Prop
  | own {room : Nat} {pageId : ObjectId} {page : Dictionary} {resources : Object} :
      document.getObject pageId = some (.dictionary page) →
      Dictionary.get page (text "Resources") = some resources →
      Quiet document room (.resources resources) → PageQuiet document room pageId
  | bare {room : Nat} {pageId : ObjectId} {page : Dictionary} :
      document.getObject pageId = some (.dictionary page) →
      Dictionary.get page (text "Resources") = none →
      (∀ parent, Dictionary.get page (text "Parent") ≠ some (.reference parent)) →
      PageQuiet document room pageId
  | inherited {room : Nat} {pageId parent : ObjectId} {page : Dictionary} :
      document.getObject pageId = some (.dictionary page) →
      Dictionary.get page (text "Resources") = none →
      Dictionary.get page (text "Parent") = some (.reference parent) →
      PageQuiet document room parent → PageQuiet document (room + 1) pageId

/-- The content of a page can be read and has no inline image. -/
def PlainContent (content : Option (List Text)) : Prop :=
  ∃ operators, content = some operators ∧ hasInlineImage operators = false

def Legible (document : Document) : Prop :=
  ∀ pageId ∈ document.pages, PlainContent (document.pageContent pageId) ∧
    PageQuiet document maxResourceDepth pageId

/-! ## The cache -/

/-- Every result of the cache is that of its form. -/
def SoundCache (document : Document) (cache : ImageScanCache) : Prop :=
  ∀ id result, cache.lookup id = some result →
    ∃ dict content, document.getObject id = some (.stream dict content) ∧
      result = inlineImages dict content

/-- When a part of the search returns `false`, `Q` holds. -/
def Reports (document : Document) (x : Scan Bool) (Q : Prop) : Prop :=
  ∀ cache cache', SoundCache document cache → x cache = some (false, cache') →
    Q ∧ SoundCache document cache'

/-- A part of the search returns `false`. -/
def Silent (document : Document) (x : Scan Bool) : Prop :=
  ∀ cache, SoundCache document cache → ∃ cache', x cache = some (false, cache') ∧ SoundCache document cache'

section

variable {document : Document}

theorem Reports.false : Reports document (pure false) True := by
  rintro cache cache' sound run
  cases run
  exact ⟨trivial, sound⟩

theorem Reports.true {Q : Prop} : Reports document (pure true) Q := by
  rintro cache cache' sound run
  cases run

theorem Reports.failure {Q : Prop} : Reports document failure Q := by
  rintro cache cache' sound run
  cases run

theorem Reports.weaken {x : Scan Bool} {P Q : Prop} (h : Reports document x P) (imp : P → Q) :
    Reports document x Q := fun cache cache' sound run =>
  ⟨imp (h cache cache' sound run).1, (h cache cache' sound run).2⟩

/-- A part that needs a value. -/
theorem Reports.lift {α : Type} {o : Option α} {f : α → Scan Bool} {Q : Prop}
    (h : ∀ a, o = some a → Reports document (f a) Q) :
    Reports document ((o : Scan α) >>= f) Q := by
  cases o with
  | none =>
    rintro cache cache' sound run
    cases run
  | some a => exact h a rfl

/-- A loop over entries that finds nothing has found nothing at each of them. -/
theorem Reports.anyM {α : Type} {as : List α} {f : α → Scan Bool} {Q : α → Prop}
    (h : ∀ a ∈ as, Reports document (f a) (Q a)) : Reports document (as.anyM f) (∀ a ∈ as, Q a) := by
  induction as with
  | nil => exact Reports.false.weaken fun _ _ mem => absurd mem List.not_mem_nil
  | cons a as ih =>
    rintro cache cache' sound run
    obtain ⟨⟨found, next⟩, first, rest⟩ := Option.bind_eq_some_iff.mp run
    cases found with
    | true => cases rest
    | false =>
      obtain ⟨here, soundNext⟩ := h a List.mem_cons_self cache next sound first
      obtain ⟨others, soundLast⟩ :=
        ih (fun b mem => h b (List.mem_cons_of_mem a mem)) next cache' soundNext rest
      exact ⟨List.forall_mem_cons.mpr ⟨here, others⟩, soundLast⟩

theorem Silent.false : Silent document (pure false) := fun cache sound => ⟨cache, rfl, sound⟩

theorem Silent.lift {α : Type} {o : Option α} {a : α} {f : α → Scan Bool} (is : o = some a)
    (h : Silent document (f a)) : Silent document ((o : Scan α) >>= f) := by
  rw [is]
  exact h

/-- A loop over entries that show nothing finds nothing. -/
theorem Silent.anyM {α : Type} {as : List α} {f : α → Scan Bool}
    (h : ∀ a ∈ as, Silent document (f a)) : Silent document (as.anyM f) := by
  induction as with
  | nil => exact Silent.false
  | cons a as ih =>
    intro cache sound
    obtain ⟨next, first, soundNext⟩ := h a List.mem_cons_self cache sound
    obtain ⟨last, rest, soundLast⟩ := ih (fun b mem => h b (List.mem_cons_of_mem a mem)) next soundNext
    refine ⟨last, ?_, soundLast⟩
    rw [List.anyM]
    exact (congrArg (Option.bind · _) first).trans rest

/-- With a sound cache the result for a form is the one of its content. -/
theorem formStream_run {dict : Dictionary} {content : Option (List Text)} {objectId : Option ObjectId}
    (named : ∀ id, objectId = some id → document.getObject id = some (.stream dict content))
    {cache : ImageScanCache} (sound : SoundCache document cache) :
    ∃ cache', SoundCache document cache' ∧ formStreamHasInlineImage dict content objectId cache =
      (inlineImages dict content).map fun found => (found, cache') := by
  cases objectId with
  | none =>
    refine ⟨cache, sound, ?_⟩
    show (inlineImages dict content).bind (fun a => some (a, cache)) = _
    cases inlineImages dict content <;> rfl
  | some id =>
    cases known : cache.lookup id with
    | some result =>
      obtain ⟨dict', content', found, rfl⟩ := sound id result known
      obtain ⟨rfl, rfl⟩ := Object.stream.inj (Option.some.inj (found.symm.trans (named id rfl)))
      refine ⟨cache, sound, ?_⟩
      unfold formStreamHasInlineImage
      simp only [bind, StateT.bind, get, getThe, MonadStateOf.get, StateT.get, pure, Option.bind,
        known]
      cases inlineImages dict' content' <;> rfl
    | none =>
      refine ⟨(id, inlineImages dict content) :: cache, ?_, ?_⟩
      · intro other result is
        rw [List.lookup_cons] at is
        split at is
        · rename_i same
          cases is
          exact ⟨dict, content, named other (congrArg some (beq_iff_eq.mp same).symm), rfl⟩
        · exact sound other result is
      · unfold formStreamHasInlineImage
        simp only [bind, StateT.bind, get, getThe, MonadStateOf.get, StateT.get, pure, Option.bind,
          known]
        cases inlineImages dict content <;> rfl

end

/-! ## The search and the graph -/

/-- From `b` fewer steps are left than from `a`. -/
def Leads (document : Document) (a b : Node) : Prop :=
  ∀ k, Quiet document k a → ∃ j < k, Quiet document j b

/-- The seen objects are above a node, and none of them leads to a dictionary. -/
def Below (document : Document) (seen : List ObjectId) (node : Node) : Prop :=
  ∀ id ∈ seen, Leads document (.object (.reference id)) node ∧
    ∀ n entries, ¬ Deref document n (.reference id) (.dictionary entries)

section

variable {document : Document}

theorem Leads.reference {id : ObjectId} {object : Object} (found : document.getObject id = some object) :
    Leads document (.object (.reference id)) (.object object) := by
  intro k quiet
  cases quiet with
  | @reference room _ _ again quiet =>
    obtain rfl := Option.some.inj (found.symm.trans again)
    exact ⟨room, Nat.lt_succ_self room, quiet⟩

/-- A form leads to its resources. -/
theorem Leads.form {dict : Dictionary} {content : Option (List Text)} {resources : Object}
    (isForm : subtype dict = some (text "Form"))
    (found : Dictionary.get dict (text "Resources") = some resources) :
    Leads document (.object (.stream dict content)) (.resources resources) := by
  intro k quiet
  cases quiet with
  | other _ notForm => exact absurd isForm notForm
  | form _ _ none => rw [found] at none; cases none
  | @nested room _ _ _ _ _ again quiet =>
    obtain rfl := Option.some.inj (found.symm.trans again)
    exact ⟨room, Nat.lt_succ_self room, quiet⟩

/-- A dictionary of objects leads to each of its entries. -/
theorem Leads.entry {object xobjects : Object} {dict entries : Dictionary} {n m : Nat}
    (isDict : Deref document n object (.dictionary dict))
    (found : Dictionary.get dict (text "XObject") = some xobjects)
    (isEntries : Deref document m xobjects (.dictionary entries)) {entry : Text × Object}
    (mem : entry ∈ entries) : Leads document (.resources object) (.object entry.2) := by
  intro k quiet
  cases quiet with
  | empty again _ none =>
    obtain ⟨-, same⟩ := isDict.unique again
    cases same
    rw [found] at none
    cases none
  | @entries room _ _ _ _ _ _ again _ foundAgain entriesAgain _ all =>
    obtain ⟨-, same⟩ := isDict.unique again
    cases same
    obtain rfl := Option.some.inj (found.symm.trans foundAgain)
    obtain ⟨-, same⟩ := isEntries.unique entriesAgain
    cases same
    exact ⟨room, Nat.lt_succ_self room, all entry mem⟩

/-- One step further on a path, where the seen objects are still those above. -/
theorem Below.step {seen : List ObjectId} {a b : Node} (below : Below document seen a)
    (leads : Leads document a b) : Below document seen b := fun id mem =>
  ⟨fun k quiet => by
    obtain ⟨j, less, quiet⟩ := (below id mem).1 k quiet
    obtain ⟨i, lesser, quiet⟩ := leads j quiet
    exact ⟨i, lesser.trans less, quiet⟩, (below id mem).2⟩

/-- What is quiet as an object is no dictionary. -/
theorem Quiet.not_dictionary {room : Nat} {object : Object} (quiet : Quiet document room (.object object))
    (n : Nat) (entries : Dictionary) : ¬ Deref document n object (.dictionary entries) := by
  generalize place : Node.object object = node at quiet
  induction quiet generalizing object n with
  | reference found _ ih =>
    cases place
    intro chain
    cases chain with
    | step again rest =>
      obtain rfl := Option.some.inj (found.symm.trans again)
      exact ih _ rfl rest
  | other | form | nested => cases place; rintro ⟨⟩
  | empty | entries => cases place

/-- A quiet reference is not seen, and it goes above its object. -/
theorem Below.reference {seen : List ObjectId} {room : Nat} {id : ObjectId} {object : Object}
    (below : Below document seen (.object (.reference id)))
    (found : document.getObject id = some object) (quiet : Quiet document room (.object object)) :
    id ∉ seen ∧ Below document (id :: seen) (.object object) := by
  have here := Quiet.reference found quiet
  refine ⟨fun mem => no_descent (below id mem).1 _ here, fun other mem => ?_⟩
  rcases List.mem_cons.mp mem with rfl | mem
  · exact ⟨.reference found, here.not_dictionary⟩
  · exact below.step (.reference found) other mem

/-- The search for the content of a form. -/
theorem Reports.form {dict : Dictionary} {content : Option (List Text)} {objectId : Option ObjectId}
    {f : Bool → Scan Bool} {Q : Prop}
    (named : ∀ id, objectId = some id → document.getObject id = some (.stream dict content))
    (rest : ∀ found, inlineImages dict content = some found → Reports document (f found) Q) :
    Reports document (formStreamHasInlineImage dict content objectId >>= f) Q := by
  intro cache cache' sound run
  obtain ⟨next, soundNext, first⟩ := formStream_run named sound
  obtain ⟨⟨found, middle⟩, isFirst, last⟩ := Option.bind_eq_some_iff.mp run
  rw [first] at isFirst
  obtain ⟨_, isResult, same⟩ := Option.map_eq_some_iff.mp isFirst
  cases same
  exact rest found isResult next cache' soundNext last

theorem Silent.form {dict : Dictionary} {content : Option (List Text)} {objectId : Option ObjectId}
    {f : Bool → Scan Bool} {found : Bool}
    (named : ∀ id, objectId = some id → document.getObject id = some (.stream dict content))
    (is : inlineImages dict content = some found) (rest : Silent document (f found)) :
    Silent document (formStreamHasInlineImage dict content objectId >>= f) := by
  intro cache sound
  obtain ⟨next, soundNext, first⟩ := formStream_run named sound
  obtain ⟨last, run, soundLast⟩ := rest next soundNext
  refine ⟨last, ?_, soundLast⟩
  rw [is] at first
  exact (congrArg (Option.bind · _) first).trans run

theorem form_not_image {dict : Dictionary} (isForm : subtype dict = some (text "Form")) :
    subtype dict ≠ some (text "Image") := by
  rw [isForm]
  decide

/-- Where the search returns `false` it has seen everything that it can see, by induction on the room. -/
theorem search_reports (document : Document) (room : Nat) :
    (∀ object seen, Reports document (resourceObjectHasImages document room object seen)
      (Quiet document room (.resources object))) ∧
    ∀ object seen objectId, (∀ id, objectId = some id → document.getObject id = some object) →
      Reports document (objectHasImage document room object seen objectId)
        (Quiet document room (.object object)) := by
  induction room using Nat.strong_induction_on with
  | _ room ih =>
    constructor
    · intro object seen
      rw [resourceObjectHasImages]
      refine Reports.lift fun dict resolved => ?_
      obtain ⟨n, le, isDict⟩ := deref_of_resolveDictionary resolved
      cases found : Dictionary.get dict (text "XObject") with
      | none => exact Reports.false.weaken fun _ => .empty isDict le found
      | some xobjects =>
        cases room with
        | zero => exact Reports.failure
        | succ room =>
          refine Reports.lift fun entries resolved => ?_
          obtain ⟨m, near, isEntries⟩ := deref_of_resolveDictionary resolved
          have each : ∀ entry ∈ entries, Reports document
              (objectHasImage document room entry.2 seen none) (Quiet document room (.object entry.2)) :=
            fun entry _ => (ih room (Nat.lt_succ_self room)).2 entry.2 seen none nofun
          exact (Reports.anyM each).weaken fun all => .entries isDict le found isEntries near all
    · intro object seen objectId named
      cases object with
      | reference id =>
        rw [objectHasImage]
        split
        · exact Reports.failure
        refine Reports.lift fun object found => ?_
        cases room with
        | zero => exact Reports.failure
        | succ room =>
          have inner := (ih room (Nat.lt_succ_self room)).2 object (id :: seen) (some id)
            fun _ same => Option.some.inj same ▸ found
          exact inner.weaken (.reference found)
      | stream dict content =>
        rw [objectHasImage]
        split
        · exact Reports.true
        rename_i notImage
        split
        · rename_i isForm
          refine Reports.form named fun found isFound => ?_
          cases found with
          | true => exact Reports.true
          | false =>
            simp only [Bool.false_eq_true, if_false]
            cases isResources : Dictionary.get dict (text "Resources") with
            | none => exact Reports.false.weaken fun _ => .form isForm isFound isResources
            | some resources =>
              cases room with
              | zero => exact Reports.failure
              | succ room =>
                exact ((ih room (Nat.lt_succ_self room)).1 resources seen).weaken
                  (.nested isForm isFound isResources)
        · exact Reports.false.weaken fun _ => .other notImage ‹_›
      | _ =>
        simp only [objectHasImage]
        exact Reports.failure

/-- On what is quiet the search returns `false`, since it goes down from the seen objects. -/
theorem search_silent (document : Document) (room : Nat) :
    (∀ object seen, Quiet document room (.resources object) → Below document seen (.resources object) →
      Silent document (resourceObjectHasImages document room object seen)) ∧
    ∀ object seen objectId, (∀ id, objectId = some id → document.getObject id = some object) →
      Quiet document room (.object object) → Below document seen (.object object) →
      Silent document (objectHasImage document room object seen objectId) := by
  induction room using Nat.strong_induction_on with
  | _ room ih =>
    constructor
    · intro object seen quiet below
      have above {dict : Dictionary} {n : Nat} : ∀ id ∈ seen, ∀ m,
          Deref document m (.reference id) (.dictionary dict) → n < m :=
        fun id mem m chain => absurd chain ((below id mem).2 m dict)
      rw [resourceObjectHasImages]
      cases quiet with
      | empty isDict le none =>
        refine Silent.lift (resolveDictionary_of_deref le isDict above) ?_
        rw [none]
        exact Silent.false
      | @entries room _ _ _ _ _ _ isDict le found isEntries near all =>
        refine Silent.lift (resolveDictionary_of_deref le isDict above) ?_
        rw [found]
        refine Silent.lift (resolveDictionary_of_deref near isEntries above) ?_
        refine Silent.anyM fun entry mem => ?_
        exact (ih room (Nat.lt_succ_self room)).2 entry.2 seen none nofun (all entry mem)
          (below.step (.entry isDict found isEntries mem))
    · intro object seen objectId named quiet below
      cases quiet with
      | @reference room id object found inner =>
        obtain ⟨fresh, lower⟩ := below.reference found inner
        rw [objectHasImage, if_neg fresh]
        refine Silent.lift found ?_
        exact (ih room (Nat.lt_succ_self room)).2 object (id :: seen) (some id)
          (fun _ same => Option.some.inj same ▸ found) inner lower
      | other notImage notForm =>
        rw [objectHasImage, if_neg notImage, if_neg notForm]
        exact Silent.false
      | form isForm plain none =>
        rw [objectHasImage, if_neg (form_not_image isForm), if_pos isForm]
        refine Silent.form named plain ?_
        simp only [Bool.false_eq_true, if_false]
        rw [none]
        exact Silent.false
      | @nested room _ _ resources isForm plain found inner =>
        rw [objectHasImage, if_neg (form_not_image isForm), if_pos isForm]
        refine Silent.form named plain ?_
        simp only [Bool.false_eq_true, if_false]
        rw [found]
        exact (ih room (Nat.lt_succ_self room)).1 resources seen inner (below.step (.form isForm found))

/-- The loop over the parents. -/
theorem pages_reports (document : Document) (room : Nat) (pageId : ObjectId) (seen : List ObjectId) :
    Reports document (pageResourcesHaveImages document room pageId seen)
      (PageQuiet document room pageId) := by
  induction room using Nat.strong_induction_on generalizing pageId seen with
  | _ room ih =>
    rw [pageResourcesHaveImages]
    split
    · exact Reports.failure
    refine Reports.lift fun object found => Reports.lift fun page isDict => ?_
    have isPage : document.getObject pageId = some (.dictionary page) := by
      cases object <;> cases isDict
      exact found
    cases isResources : Dictionary.get page (text "Resources") with
    | some resources =>
      exact ((search_reports document room).1 resources []).weaken (.own isPage isResources)
    | none =>
      dsimp only
      split
      · rename_i parent isParent
        cases room with
        | zero => exact Reports.failure
        | succ room =>
          exact (ih room (Nat.lt_succ_self room) parent _).weaken (.inherited isPage isResources isParent)
      · rename_i noReference
        exact Reports.false.weaken fun _ => .bare isPage isResources fun parent is =>
          noReference parent is

theorem PageQuiet.parent {room : Nat} {pageId parent : ObjectId} {page : Dictionary}
    (isPage : document.getObject pageId = some (.dictionary page))
    (noResources : Dictionary.get page (text "Resources") = none)
    (isParent : Dictionary.get page (text "Parent") = some (.reference parent))
    (quiet : PageQuiet document room pageId) : ∃ j < room, PageQuiet document j parent := by
  cases quiet with
  | own again found _ =>
    cases Option.some.inj (isPage.symm.trans again)
    rw [noResources] at found
    cases found
  | bare again _ noReference =>
    cases Option.some.inj (isPage.symm.trans again)
    exact absurd isParent (noReference parent)
  | @inherited room _ _ _ again _ parentAgain quiet =>
    cases Option.some.inj (isPage.symm.trans again)
    cases Option.some.inj (isParent.symm.trans parentAgain)
    exact ⟨room, Nat.lt_succ_self room, quiet⟩

/-- The search for the resources of a page, which goes up to its parents until one has some, finds
nothing on a quiet page. -/
theorem pages_silent (document : Document) {room : Nat} {pageId : ObjectId} {seen : List ObjectId}
    (quiet : PageQuiet document room pageId)
    (below : ∀ id ∈ seen, ∀ k, PageQuiet document k id → ∃ j < k, PageQuiet document j pageId) :
    Silent document (pageResourcesHaveImages document room pageId seen) := by
  have fresh : pageId ∉ seen := fun mem => no_descent (below pageId mem) room quiet
  induction quiet generalizing seen with
  | @own room pageId page resources isPage isResources inner =>
    rw [pageResourcesHaveImages, if_neg fresh]
    refine Silent.lift isPage (Silent.lift rfl ?_)
    rw [isResources]
    exact (search_silent document room).1 resources [] inner fun _ mem => absurd mem List.not_mem_nil
  | @bare room pageId page isPage noResources noReference =>
    rw [pageResourcesHaveImages, if_neg fresh]
    refine Silent.lift isPage (Silent.lift rfl ?_)
    rw [noResources]
    dsimp only
    split
    · rename_i parent is
      exact absurd is (noReference parent)
    · exact Silent.false
  | @inherited room pageId parent page isPage noResources isParent rest ih =>
    rw [pageResourcesHaveImages, if_neg fresh]
    refine Silent.lift isPage (Silent.lift rfl ?_)
    rw [noResources]
    dsimp only
    rw [isParent]
    have lower : ∀ id ∈ pageId :: seen, ∀ k, PageQuiet document k id →
        ∃ j < k, PageQuiet document j parent := by
      intro id mem k quiet
      rcases List.mem_cons.mp mem with rfl | mem
      · exact quiet.parent isPage noResources isParent
      · obtain ⟨j, less, quiet⟩ := below id mem k quiet
        obtain ⟨i, lesser, quiet⟩ := quiet.parent isPage noResources isParent
        exact ⟨i, lesser.trans less, quiet⟩
    exact ih lower fun mem => no_descent (lower parent mem) room rest

/-- The search returns `false` exactly on a legible document. -/
theorem search_iff (document : Document) :
    hasPageImagesInDocument document = some false ↔ Legible document := by
  have empty : SoundCache document [] := fun _ _ is => by cases is
  constructor
  · intro result
    obtain ⟨⟨_, cache⟩, run, rfl⟩ := Option.map_eq_some_iff.mp result
    refine (Reports.anyM (fun pageId _ => ?_) [] cache empty run).1
    refine Reports.lift fun operators found => ?_
    split
    · exact Reports.true
    · rename_i plain
      exact (pages_reports document maxResourceDepth pageId []).weaken fun quiet =>
        ⟨⟨operators, found, Bool.eq_false_iff.mpr plain⟩, quiet⟩
  · intro legible
    have silent : ∀ pageId ∈ document.pages, Silent document (pageHasImages document pageId) := by
      intro pageId mem
      obtain ⟨⟨operators, found, plain⟩, quiet⟩ := legible pageId mem
      refine Silent.lift found ?_
      rw [plain]
      exact pages_silent document quiet fun _ mem => absurd mem List.not_mem_nil
    obtain ⟨cache, run, -⟩ := Silent.anyM silent [] empty
    exact congrArg (Option.map Prod.fst) run

end

end Mineru.NativePdf
