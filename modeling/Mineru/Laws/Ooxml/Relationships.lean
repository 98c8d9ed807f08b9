import Mineru.Ooxml.Relationships

/-!
# What is read of the relationships

A part `Relates` a type and a target if one of its elements does, as far as its own attributes can be
decoded. The parse of a part returns exactly these (`parse_mem`), and it fails exactly if something in
the part is `Unreadable` (`parse_none_iff`): a single value that cannot be decoded is enough, also one of
an attribute that is not looked at. What the XML library returns for a text is not described here.
-/

set_option autoImplicit false

namespace Mineru.Ooxml

variable {X : XmlLibrary}

/-! ## What a part says -/

/-- The version that the declarations have set. -/
def versionAfter (events : List (Option XmlEvent)) : XmlVersion :=
  events.foldl (fun version event => match event with
    | some (.decl (some next)) => next
    | _ => version) .implicit1_0

/-- The value of the last attribute of this name, where it can be decoded. -/
def valueOf (X : XmlLibrary) (version : XmlVersion) (name : Bytes)
    (attributes : List (Option XmlAttribute)) : Option Text :=
  (((attributes.filterMap id).filter fun a => a.localName = name).getLast?).bind fun a =>
    X.decodedAndNormalizedValue version a.value

/-- The attributes are those of a relationship with `Id` and `Target`. -/
structure Links (X : XmlLibrary) (version : XmlVersion) (attributes : List (Option XmlAttribute))
    (typ : Option Text) (target : Text) : Prop where
  id : (valueOf X version (ascii "Id") attributes).isSome
  target : valueOf X version (ascii "Target") attributes = some target
  typ : valueOf X version (ascii "Type") attributes = typ

/-- One of the events is such an element. -/
def RelatesIn (X : XmlLibrary) (events : List (Option XmlEvent)) (typ : Option Text) (target : Text) :
    Prop :=
  ∃ before attributes after,
    events = before ++ some (.element (ascii "Relationship") attributes) :: after ∧
      Links X (versionAfter before) attributes typ target

/-- The part has a relationship with `Id` and `Target`. -/
def Relates (X : XmlLibrary) (bytes : Bytes) (typ : Option Text) (target : Text) : Prop :=
  ∃ events, X.events bytes = some events ∧ RelatesIn X events typ target

/-- The event cannot be read: it is an error, the declaration of an unknown version, or a relationship
with an attribute that is malformed or has a value that cannot be decoded. -/
def Stops (X : XmlLibrary) (version : XmlVersion) : Option XmlEvent → Prop
  | none => True
  | some (.decl next) => next = none
  | some (.element name attributes) => name = ascii "Relationship" ∧
    ∃ result ∈ attributes,
      (result.bind fun a => X.decodedAndNormalizedValue version a.value) = none
  | some .other => False

/-- The reader takes no event of the part, or one of them cannot be read. -/
def Unreadable (X : XmlLibrary) (bytes : Bytes) : Prop :=
  ∀ events, X.events bytes = some events →
    ∃ before event after, events = before ++ event :: after ∧ Stops X (versionAfter before) event

/-! ## Attributes -/

theorem valueOf_concat (version : XmlVersion) (name : Bytes) (attributes : List (Option XmlAttribute))
    (a : XmlAttribute) : valueOf X version name (attributes ++ [some a]) =
      if a.localName = name then X.decodedAndNormalizedValue version a.value
      else valueOf X version name attributes := by
  unfold valueOf
  rw [List.filterMap_append, List.filter_append]
  by_cases same : a.localName = name
  · simp [same]
  · simp [same]

/-- The loop over the attributes has found the last value of each name. -/
theorem attributes_found (version : XmlVersion) (attributes : List (Option XmlAttribute)) :
    ∀ found, attributes.foldlM (attributeTurn X version) {} = some found →
      found.id = valueOf X version (ascii "Id") attributes ∧
      found.typ = valueOf X version (ascii "Type") attributes ∧
      found.target = valueOf X version (ascii "Target") attributes := by
  induction attributes using List.reverseRecOn with
  | nil =>
    intro found run
    cases run
    exact ⟨rfl, rfl, rfl⟩
  | append_singleton attributes result ih =>
    intro found run
    rw [List.foldlM_append] at run
    obtain ⟨before, first, run⟩ := Option.bind_eq_some_iff.mp run
    obtain ⟨ids, types, targets⟩ := ih before first
    rw [List.foldlM_cons] at run
    obtain ⟨last, turn, run⟩ := Option.bind_eq_some_iff.mp run
    cases run
    obtain ⟨a, rfl, turn⟩ := Option.bind_eq_some_iff.mp turn
    obtain ⟨value, decoded, turn⟩ := Option.bind_eq_some_iff.mp turn
    cases turn
    rw [valueOf_concat, valueOf_concat, valueOf_concat, decoded, ← ids, ← types, ← targets]
    have idType : ascii "Id" ≠ ascii "Type" := by decide
    have idTarget : ascii "Id" ≠ ascii "Target" := by decide
    have typeTarget : ascii "Type" ≠ ascii "Target" := by decide
    by_cases isId : a.localName = ascii "Id"
    · simp [isId, idType, idTarget]
    · by_cases isType : a.localName = ascii "Type"
      · simp [isType, idType.symm, typeTarget]
      · by_cases isTarget : a.localName = ascii "Target"
        · simp [isTarget, idTarget.symm, typeTarget.symm]
        · simp [isId, isType, isTarget]

theorem mem_pushed {found : Found} {typ : Option Text} {target : Text} :
    (typ, target) ∈ found.pushed ↔ found.id.isSome ∧ found.target = some target ∧ found.typ = typ := by
  obtain ⟨type, id, aim⟩ := found
  cases id with
  | none => simp [Found.pushed]
  | some _ =>
    cases aim with
    | none => simp [Found.pushed]
    | some _ =>
      simp only [Found.pushed, List.mem_singleton, Prod.mk.injEq, Option.isSome_some, true_and,
        Option.some.injEq]
      exact ⟨fun ⟨a, b⟩ => ⟨b.symm, a.symm⟩, fun ⟨a, b⟩ => ⟨b.symm, a.symm⟩⟩

/-! ## Events -/

/-- A loop fails at the first turn that does. -/
theorem foldlM_none_iff {σ α : Type} {f : σ → α → Option σ} (l : List α) :
    ∀ s, l.foldlM f s = none ↔
      ∃ before a after s', l = before ++ a :: after ∧ before.foldlM f s = some s' ∧ f s' a = none := by
  induction l with
  | nil =>
    intro s
    refine ⟨fun none' => (by cases none'), ?_⟩
    rintro ⟨before, a, after, s', split, -⟩
    exact absurd split (by simp)
  | cons first l ih =>
    intro s
    rw [List.foldlM_cons]
    cases turn : f s first with
    | none => exact iff_of_true rfl ⟨[], first, l, s, rfl, rfl, turn⟩
    | some next =>
      refine (ih next).trans ⟨?_, ?_⟩
      · rintro ⟨before, a, after, s', rfl, run, stops⟩
        refine ⟨first :: before, a, after, s', rfl, ?_, stops⟩
        rw [List.foldlM_cons, turn]
        exact run
      · rintro ⟨before, a, after, s', split, run, stops⟩
        cases before with
        | nil =>
          cases run
          cases split
          rw [turn] at stops
          cases stops
        | cons head before =>
          cases split
          rw [List.foldlM_cons, turn] at run
          exact ⟨before, a, after, s', rfl, run, stops⟩

theorem attributeTurn_none {version : XmlVersion} {found : Found} {result : Option XmlAttribute} :
    attributeTurn X version found result = none ↔
      (result.bind fun a => X.decodedAndNormalizedValue version a.value) = none := by
  cases result with
  | none => exact iff_of_true rfl rfl
  | some a =>
    unfold attributeTurn
    simp only [Option.bind_eq_bind, Option.bind_some, Option.pure_def]
    cases X.decodedAndNormalizedValue version a.value with
    | none => exact iff_of_true rfl rfl
    | some value => exact iff_of_false nofun nofun

theorem attributes_decoded {version : XmlVersion} (attributes : List (Option XmlAttribute)) :
    ∀ start found, attributes.foldlM (attributeTurn X version) start = some found →
      ∀ result ∈ attributes,
        (result.bind fun a => X.decodedAndNormalizedValue version a.value) ≠ none := by
  induction attributes with
  | nil => exact fun _ _ _ _ mem => absurd mem List.not_mem_nil
  | cons first attributes ih =>
    intro start found run
    rw [List.foldlM_cons] at run
    obtain ⟨next, turn, run⟩ := Option.bind_eq_some_iff.mp run
    intro result mem
    rcases List.mem_cons.mp mem with rfl | later
    · intro undecodable
      rw [attributeTurn_none.mpr undecodable] at turn
      cases turn
    · exact ih next found run result later

/-- A turn fails exactly at an event that cannot be read. -/
theorem eventTurn_none {state : XmlVersion × List Relationship} {event : Option XmlEvent} :
    eventTurn X state event = none ↔ Stops X state.1 event := by
  rcases event with _ | event
  · exact iff_of_true rfl trivial
  cases event with
  | decl version => exact Option.map_eq_none_iff
  | other => exact iff_of_false nofun id
  | element name attributes =>
    show (if name = ascii "Relationship" then _ else _) = none ↔
      name = ascii "Relationship" ∧ ∃ result ∈ attributes, _
    by_cases isRelationship : name = ascii "Relationship"
    · rw [if_pos isRelationship, Option.map_eq_none_iff, foldlM_none_iff, and_iff_right isRelationship]
      constructor
      · rintro ⟨before, result, after, found, rfl, -, stops⟩
        exact ⟨result, by simp, attributeTurn_none.mp stops⟩
      · rintro ⟨result, mem, undecodable⟩
        rw [← foldlM_none_iff]
        by_contra goes
        obtain ⟨found, run⟩ := Option.ne_none_iff_exists'.mp goes
        exact attributes_decoded attributes _ _ run result mem undecodable
    · rw [if_neg isRelationship]
      exact iff_of_false nofun fun stops => isRelationship stops.1

/-- The events before a new one are the same, or the new one is the element. -/
theorem relatesIn_concat {events : List (Option XmlEvent)} {event : Option XmlEvent} {typ : Option Text}
    {target : Text} : RelatesIn X (events ++ [event]) typ target ↔ RelatesIn X events typ target ∨
      ∃ attributes, event = some (.element (ascii "Relationship") attributes) ∧
        Links X (versionAfter events) attributes typ target := by
  constructor
  · rintro ⟨before, attributes, after, split, links⟩
    rcases List.eq_nil_or_concat after with rfl | ⟨middle, last, rfl⟩
    · obtain ⟨rfl, same⟩ := List.append_inj' split rfl
      exact Or.inr ⟨attributes, List.singleton_inj.mp same, links⟩
    · rw [List.concat_eq_append, ← List.cons_append, ← List.append_assoc] at split
      obtain ⟨rfl, -⟩ := List.append_inj' split rfl
      exact Or.inl ⟨before, attributes, middle, rfl, links⟩
  · rintro (⟨before, attributes, after, rfl, links⟩ | ⟨attributes, rfl, links⟩)
    · exact ⟨before, attributes, after ++ [event], by simp, links⟩
    · exact ⟨events, attributes, [], rfl, links⟩

theorem versionAfter_concat (events : List (Option XmlEvent)) (event : Option XmlEvent) :
    versionAfter (events ++ [event]) = match event with
      | some (.decl (some next)) => next
      | _ => versionAfter events := by
  unfold versionAfter
  rw [List.foldl_append]
  rfl

/-- The loop has the version of the declarations, and it has pushed the relationships of the elements. -/
theorem events_read (events : List (Option XmlEvent)) :
    ∀ state, events.foldlM (eventTurn X) (.implicit1_0, []) = some state →
      state.1 = versionAfter events ∧
        ∀ typ target, (typ, target) ∈ state.2 ↔ RelatesIn X events typ target := by
  induction events using List.reverseRecOn with
  | nil =>
    intro state run
    cases run
    refine ⟨rfl, fun typ target => iff_of_false List.not_mem_nil ?_⟩
    rintro ⟨before, attributes, after, split, -⟩
    exact absurd split (by simp)
  | append_singleton events event ih =>
    intro state run
    rw [List.foldlM_append] at run
    obtain ⟨before, first, run⟩ := Option.bind_eq_some_iff.mp run
    obtain ⟨version, pushed⟩ := ih before first
    rw [List.foldlM_cons] at run
    obtain ⟨last, turn, run⟩ := Option.bind_eq_some_iff.mp run
    cases run
    rw [versionAfter_concat]
    have others (not : ∀ attributes, event ≠ some (.element (ascii "Relationship") attributes))
        (kept : state.2 = before.2) (typ : Option Text) (target : Text) :
        (typ, target) ∈ state.2 ↔ RelatesIn X (events ++ [event]) typ target := by
      rw [kept, pushed, relatesIn_concat]
      exact (or_iff_left fun ⟨attributes, same, _⟩ => not attributes same).symm
    rcases event with _ | event
    · cases turn
    cases event with
    | decl next =>
      obtain ⟨found, rfl, rfl⟩ := Option.map_eq_some_iff.mp turn
      exact ⟨rfl, others (fun _ same => by cases same) rfl⟩
    | other =>
      cases turn
      exact ⟨version, others (fun _ same => by cases same) rfl⟩
    | element name attributes =>
      change (if name = ascii "Relationship" then _ else _) = _ at turn
      by_cases isRelationship : name = ascii "Relationship"
      · rw [if_pos isRelationship] at turn
        obtain ⟨found, loop, rfl⟩ := Option.map_eq_some_iff.mp turn
        obtain ⟨ids, types, targets⟩ := attributes_found before.1 attributes found loop
        refine ⟨version, fun typ target => ?_⟩
        rw [List.mem_append, pushed, mem_pushed, relatesIn_concat, ids, types, targets, version]
        refine or_congr_right ⟨?_, ?_⟩
        · rintro ⟨id, aim, type⟩
          exact ⟨attributes, by rw [isRelationship], id, aim, type⟩
        · rintro ⟨_, same, id, aim, type⟩
          cases same
          exact ⟨id, aim, type⟩
      · rw [if_neg isRelationship] at turn
        cases turn
        refine ⟨version, others (fun _ same => ?_) rfl⟩
        cases same
        exact isRelationship rfl

/-! ## Parts -/

/-- A part that is read gives exactly its relationships. -/
theorem parse_mem {bytes : Bytes} {found : List Relationship}
    (parsed : parseInternalRelationships X bytes = some found) (typ : Option Text) (target : Text) :
    (typ, target) ∈ found ↔ Relates X bytes typ target := by
  obtain ⟨events, read, parsed⟩ := Option.bind_eq_some_iff.mp parsed
  obtain ⟨state, run, parsed⟩ := Option.bind_eq_some_iff.mp parsed
  cases parsed
  rw [(events_read events state run).2]
  constructor
  · exact fun related => ⟨events, read, related⟩
  · rintro ⟨again, same, related⟩
    rw [read] at same
    cases same
    exact related

theorem parse_eq (bytes : Bytes) : parseInternalRelationships X bytes = (X.events bytes).bind fun events =>
    (events.foldlM (eventTurn X) (.implicit1_0, [])).map Prod.snd := by
  unfold parseInternalRelationships
  cases X.events bytes with
  | none => rfl
  | some events =>
    simp only [Option.bind_eq_bind, Option.bind_some]
    cases events.foldlM (eventTurn X) (.implicit1_0, []) with
    | none | some => rfl

/-- A part is not read exactly if something in it is unreadable. -/
theorem parse_none_iff {bytes : Bytes} :
    parseInternalRelationships X bytes = none ↔ Unreadable X bytes := by
  rw [parse_eq]
  unfold Unreadable
  cases read : X.events bytes with
  | none => exact iff_of_true rfl fun _ some => (by cases some)
  | some events =>
    rw [Option.bind_some, Option.map_eq_none_iff, foldlM_none_iff]
    constructor
    · rintro ⟨before, event, after, state, split, run, stops⟩ _ same
      cases same
      rw [eventTurn_none, (events_read before state run).1] at stops
      exact ⟨before, event, after, split, stops⟩
    · intro unreadable
      obtain ⟨before, event, after, split, stops⟩ := unreadable events rfl
      rw [← foldlM_none_iff]
      by_contra goes
      obtain ⟨state, run⟩ := Option.ne_none_iff_exists'.mp goes
      rw [split, List.foldlM_append] at run
      obtain ⟨middle, first, run⟩ := Option.bind_eq_some_iff.mp run
      rw [List.foldlM_cons] at run
      obtain ⟨next, turn, -⟩ := Option.bind_eq_some_iff.mp run
      rw [eventTurn_none.mpr ((events_read before middle first).1.symm ▸ stops)] at turn
      cases turn

end Mineru.Ooxml
