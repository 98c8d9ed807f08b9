import Mineru.Ooxml.Preflight
import Mineru.Laws.Ooxml.Relationships

/-!
# What the preflight has seen

The two passes share the set of validated names. `Validated` is what both keep: a validated entry
was accepted and fits, and the aggregate is the size of the validated entries, each counted once.
`FirstPassed` adds what the loop over the entries knows of them; `secondPass_covers` that the targets
of relationships are validated too. An entry is skipped in two ways. `read_entry` looks at the chunks
that end within the limit, so a large entry may start like XML and not be seen as such; and
`detect_reader` takes a part with relationships that cannot be read for one without relationships.

Which texts the XML library takes for well-formed, and which kind of package it finds, is not described.
-/

set_option autoImplicit false

namespace Mineru.Ooxml

/-- The entry's name has been validated. -/
def Entry.isIn (validated : List Text) (e : Entry) : Bool := e.name.any (· ∈ validated)

/-- The size of the validated entries. -/
def xmlSize (validated : List Text) (entries : List Entry) : Nat :=
  ((entries.filter (Entry.isIn validated)).map Entry.size).sum

/-! ## Reading -/

theorem keptReads_whole {xml : Nat} (reads : List Bytes) :
    ∀ total, total + reads.flatten.length ≤ xml → keptReads xml total reads = reads.flatten := by
  induction reads with
  | nil =>
    intro total _
    rfl
  | cons chunk rest ih =>
    intro total fits
    rw [List.flatten_cons, List.length_append] at fits
    rw [keptReads, if_pos (by omega), ih (total + chunk.length) (by omega), List.flatten_cons]

theorem Entry.kept_whole {xml : Nat} {e : Entry} (fits : e.content.length ≤ xml) :
    e.kept xml = e.content :=
  keptReads_whole e.reads 0 (by rw [Nat.zero_add]; exact fits)

section
variable {limits : Limits} {e : Entry} {namedXml : Bool} {xmlTotal : Nat}

theorem readEntry_some {bytes : Bytes} {total : Nat}
    (h : readEntry e namedXml limits xmlTotal = .ok (some (bytes, total))) :
    bytes = e.content ∧ total = xmlTotal + e.size ∧ e.size ≤ limits.xml ∧
      total ≤ limits.xml_total ∧ (namedXml || xmlLike (e.kept limits.xml)) = true ∧
      e.content.length = e.size := by
  unfold readEntry at h
  split at h
  · cases h
  · next length =>
    split at h
    · next isXml =>
      split at h
      · cases h
      · next small =>
        split at h
        · cases h
        · next room =>
          cases h
          have length := not_not.mp length
          exact ⟨Entry.kept_whole (by omega), rfl, by omega, by omega, isXml, length⟩
    · cases h

theorem readEntry_none (h : readEntry e namedXml limits xmlTotal = .ok none) :
    (namedXml || xmlLike (e.kept limits.xml)) = false ∧ e.content.length = e.size := by
  unfold readEntry at h
  split at h
  · cases h
  · next length =>
    split at h
    · split at h
      · cases h
      · split at h
        · cases h
        · cases h
    · next other => exact ⟨Bool.eq_false_iff.mpr other, not_not.mp length⟩

end

/-! ## Sizes -/

theorem xmlSize_append (validated : List Text) (a b : List Entry) :
    xmlSize validated (a ++ b) = xmlSize validated a + xmlSize validated b := by
  simp only [xmlSize, List.filter_append, List.map_append, List.sum_append]

/-- A name of no entry counts nothing. -/
theorem xmlSize_other {validated : List Text} {name : Text} {entries : List Entry}
    (none' : ∀ e ∈ entries, e.name ≠ some name) :
    xmlSize (name :: validated) entries = xmlSize validated entries := by
  unfold xmlSize
  congr 2
  refine List.filter_congr fun e mem => ?_
  have other := none' e mem
  cases named : e.name with
  | none => simp only [Entry.isIn, named, Option.any_none]
  | some mine =>
    have : mine ≠ name := fun same => other (by rw [named, same])
    simp only [Entry.isIn, named, Option.any_some, List.mem_cons, this, false_or]

/-- A new name counts its entry once. -/
theorem xmlSize_new {validated : List Text} {name : Text} {entries : List Entry}
    (distinct : (entries.map Entry.name).Nodup) {e : Entry} (mem : e ∈ entries)
    (named : e.name = some name) (new : name ∉ validated) :
    xmlSize (name :: validated) entries = xmlSize validated entries + e.size := by
  obtain ⟨before, after, rfl⟩ := List.append_of_mem mem
  rw [List.map_append, List.map_cons, List.nodup_append] at distinct
  obtain ⟨-, tail, apart⟩ := distinct
  have left : ∀ other ∈ before, other.name ≠ some name := fun other there same =>
    apart other.name (List.mem_map_of_mem there) e.name List.mem_cons_self (by rw [same, named])
  have right : ∀ other ∈ after, other.name ≠ some name := by
    intro other there same
    refine (List.nodup_cons.mp tail).1 ?_
    rw [named, ← same]
    exact List.mem_map_of_mem there
  have one : xmlSize (name :: validated) [e] = e.size := by
    have : e.isIn (name :: validated) = true := by
      simp only [Entry.isIn, named, Option.any_some, List.mem_cons, true_or, decide_true]
    simp only [xmlSize, List.filter_cons_of_pos this, List.filter_nil, List.map_cons, List.map_nil,
      List.sum_cons, List.sum_nil, Nat.add_zero]
  have zero : xmlSize validated [e] = 0 := by
    have : ¬ e.isIn validated = true := by
      simp only [Entry.isIn, named, Option.any_some, new, decide_false, Bool.false_eq_true,
        not_false_eq_true]
    simp only [xmlSize, List.filter_cons_of_neg this, List.filter_nil, List.map_nil, List.sum_nil]
  have split : before ++ e :: after = before ++ ([e] ++ after) := rfl
  rw [split, xmlSize_append, xmlSize_append, xmlSize_append, xmlSize_append, xmlSize_other left,
    xmlSize_other right, one, zero]
  omega

/-! ## The first pass -/

section
variable {T : Tools} {limits : Limits} {entries : List Entry}

/-- What the set of validated names and the aggregate say of the entries. -/
structure Validated (T : Tools) (limits : Limits) (entries : List Entry) (pass : Pass) : Prop where
  accepted : ∀ e ∈ entries, ∀ name, e.name = some name → name ∈ pass.validatedXml →
    T.validateXml e.content = true ∧ e.content.length ≤ limits.xml
  xmlTotal : pass.xmlTotal = xmlSize pass.validatedXml entries
  xmlTotal_le : pass.xmlTotal ≤ limits.xml_total

/-- The loop over the entries, after those in `done`. -/
structure FirstPassed (T : Tools) (limits : Limits) (done : List Entry) (pass : Pass) : Prop
    extends Validated T limits done pass where
  named : ∀ e ∈ done, e.name.isSome
  names : ∀ key, key ∈ pass.names ↔ some key ∈ done.map fun e => e.name.map entryNameKey
  distinct : (done.map fun e => e.name.map entryNameKey).Nodup
  total : pass.total = (done.map Entry.size).sum
  total_le : pass.total ≤ limits.total
  seen : ∀ e ∈ done, ∀ name, e.name = some name →
    (name ∈ pass.validatedXml ↔ (isXmlName name || xmlLike (e.kept limits.xml)) = true)
  known : ∀ name ∈ pass.validatedXml, some name ∈ done.map Entry.name
  rels : ∀ e ∈ done, ∀ name, e.name = some name → endsWith name (text ".rels") = true →
    (name, e.content) ∈ pass.rels
  relsOnly : ∀ part ∈ pass.rels, endsWith part.1 (text ".rels") = true ∧
    ∃ e ∈ done, e.name = some part.1 ∧ e.content = part.2

theorem FirstPassed.start : FirstPassed T limits [] {} where
  accepted _ mem := absurd mem List.not_mem_nil
  xmlTotal := rfl
  xmlTotal_le := Nat.zero_le _
  named _ mem := absurd mem List.not_mem_nil
  names _ := ⟨fun mem => absurd mem List.not_mem_nil, fun mem => absurd mem List.not_mem_nil⟩
  distinct := List.nodup_nil
  total := rfl
  total_le := Nat.zero_le _
  seen _ mem := absurd mem List.not_mem_nil
  known _ mem := absurd mem List.not_mem_nil
  rels _ mem := absurd mem List.not_mem_nil
  relsOnly _ mem := absurd mem List.not_mem_nil

theorem names_nodup {done : List Entry}
    (h : (done.map fun e => e.name.map entryNameKey).Nodup) : (done.map Entry.name).Nodup := by
  have : (done.map fun e => e.name.map entryNameKey) =
      (done.map Entry.name).map (Option.map entryNameKey) := by rw [List.map_map]; rfl
  rw [this] at h
  exact List.Nodup.of_map _ h

theorem admitEntry_ok {pass pass' : Pass} {e : Entry} {name : Text}
    (h : admitEntry limits pass e name = .ok pass') :
    entryNameKey name ∉ pass.names ∧ pass.total + e.size ≤ limits.total ∧
      pass' = { pass with
        names := entryNameKey name :: pass.names, total := pass.total + e.size } := by
  unfold admitEntry at h
  split at h
  · cases h
  · next new =>
    dsimp only at h
    split at h
    · cases h
    · split at h
      · cases h
      · next room =>
        split at h
        · cases h
        · cases h
          exact ⟨new, by omega, rfl⟩

theorem keepXml_ok {pass pass' : Pass} {name : Text} {bytes : Bytes} {xmlTotal : Nat}
    (h : keepXml pass name bytes xmlTotal = .ok pass') :
    pass'.total = pass.total ∧ pass'.names = pass.names ∧ pass'.xmlTotal = xmlTotal ∧
      pass'.validatedXml = name :: pass.validatedXml ∧
      pass'.rels = if endsWith name (text ".rels") then pass.rels ++ [(name, bytes)]
        else pass.rels := by
  unfold keepXml at h
  dsimp only at h
  split at h
  · split at h
    · cases h
    · cases h; exact ⟨rfl, rfl, rfl, rfl, rfl⟩
  · split at h
    · split at h
      · cases h
      · cases h; exact ⟨rfl, rfl, rfl, rfl, rfl⟩
    · cases h; exact ⟨rfl, rfl, rfl, rfl, rfl⟩

/-- A turn of the first pass: an entry is kept as XML, or it is left aside. -/
inductive Turned (T : Tools) (limits : Limits) (pass : Pass) (e : Entry) (name : Text)
    (pass' : Pass) : Prop where
  | xml (isXml : (isXmlName name || xmlLike (e.kept limits.xml)) = true)
      (valid : T.validateXml e.content = true) (small : e.content.length ≤ limits.xml)
      (room : pass.xmlTotal + e.size ≤ limits.xml_total)
      (xmlTotal : pass'.xmlTotal = pass.xmlTotal + e.size)
      (validated : pass'.validatedXml = name :: pass.validatedXml)
      (rels : pass'.rels = if endsWith name (text ".rels") then pass.rels ++ [(name, e.content)]
        else pass.rels)
  | other (notXml : (isXmlName name || xmlLike (e.kept limits.xml)) = false)
      (xmlTotal : pass'.xmlTotal = pass.xmlTotal)
      (validated : pass'.validatedXml = pass.validatedXml) (rels : pass'.rels = pass.rels)

theorem firstTurn_ok {pass pass' : Pass} {e : Entry} (h : firstTurn T limits pass e = .ok pass') :
    ∃ name, e.name = some name ∧ entryNameKey name ∉ pass.names ∧
      pass.total + e.size ≤ limits.total ∧ pass'.total = pass.total + e.size ∧
      pass'.names = entryNameKey name :: pass.names ∧ Turned T limits pass e name pass' := by
  unfold firstTurn at h
  cases named : e.name with
  | none => rw [named] at h; cases h
  | some name =>
    rw [named] at h
    dsimp only at h
    cases admitted : admitEntry limits pass e name with
    | error stop => rw [admitted] at h; cases h
    | ok mid =>
      rw [admitted] at h
      obtain ⟨new, room, rfl⟩ := admitEntry_ok admitted
      change inspectEntry T limits _ e name = _ at h
      unfold inspectEntry at h
      split at h
      · cases h
      · next read =>
        cases h
        exact ⟨name, rfl, new, room, rfl, rfl, .other (readEntry_none read).1 rfl rfl rfl⟩
      · next bytes xmlTotal read =>
        obtain ⟨rfl, rfl, small, aggregate, isXml, length⟩ := readEntry_some read
        split at h
        · next valid =>
          obtain ⟨total, names, xmlTotal, validated, rels⟩ := keepXml_ok h
          exact ⟨name, rfl, new, room, total, names,
            .xml isXml valid (by omega) aggregate xmlTotal validated rels⟩
        · cases h

/-- A file ending in `.rels` is named like XML. -/
theorem isXmlName_of_rels {name : Text} (h : endsWith name (text ".rels") = true) :
    isXmlName name = true := by
  have tail : text ".rels" <:+ name := of_decide_eq_true h
  obtain ⟨before, rfl⟩ := tail
  unfold isXmlName
  refine Bool.or_eq_true_iff.mpr (Or.inr (decide_eq_true ?_))
  unfold toAsciiLowercase
  rw [List.map_append]
  exact List.suffix_append _ _

theorem FirstPassed.turn {done : List Entry} {pass pass' : Pass} {e : Entry}
    (inv : FirstPassed T limits done pass) (h : firstTurn T limits pass e = .ok pass') :
    FirstPassed T limits (done ++ [e]) pass' := by
  obtain ⟨name, named, newKey, room, total, names, turned⟩ := firstTurn_ok h
  have keyNew : some (entryNameKey name) ∉ done.map fun e => e.name.map entryNameKey := fun mem =>
    newKey ((inv.names _).mpr mem)
  have nameNew : ∀ other ∈ done, other.name ≠ some name := by
    intro other mem same
    refine keyNew (List.mem_map.mpr ⟨other, mem, ?_⟩)
    rw [same]
    rfl
  have fresh : name ∉ pass.validatedXml := by
    intro mem
    obtain ⟨other, there, same⟩ := List.mem_map.mp (inv.known name mem)
    exact nameNew other there same
  have distinct : ((done ++ [e]).map fun e => e.name.map entryNameKey).Nodup := by
    rw [List.map_append, List.nodup_append]
    refine ⟨inv.distinct, List.nodup_singleton _, ?_⟩
    intro a old b new same
    rw [List.map_singleton, List.mem_singleton, named] at new
    refine keyNew ?_
    rw [← show a = some (entryNameKey name) from same.trans new]
    exact old
  have member : ∀ {other : Entry}, other ∈ done ++ [e] → other ∈ done ∨ other = e := by
    intro other mem
    rcases List.mem_append.mp mem with old | new
    · exact Or.inl old
    · exact Or.inr (List.mem_singleton.mp new)
  have common : (∀ other ∈ done ++ [e], other.name.isSome) ∧
      (∀ key, key ∈ pass'.names ↔
        some key ∈ (done ++ [e]).map fun e => e.name.map entryNameKey) ∧
      pass'.total = ((done ++ [e]).map Entry.size).sum ∧ pass'.total ≤ limits.total := by
    refine ⟨?_, ?_, ?_, ?_⟩
    · intro other mem
      rcases member mem with old | rfl
      · exact inv.named other old
      · rw [named]; rfl
    · intro key
      rw [names, List.mem_cons, inv.names, List.map_append, List.mem_append, List.map_singleton,
        List.mem_singleton, named, or_comm]
      simp only [Option.map_some, Option.some_inj]
    · rw [total, inv.total, List.map_append, List.sum_append]
      rfl
    · rw [total]
      exact room
  obtain ⟨allNamed, allNames, totals, total_le⟩ := common
  cases turned with
  | other notXml xmlTotal validated rels =>
    exact {
      accepted := by
        intro other mem mine is validatedName
        rw [validated] at validatedName
        rcases member mem with old | rfl
        · exact inv.accepted other old mine is validatedName
        · rw [named] at is
          cases is
          exact absurd validatedName fresh
      xmlTotal := by
        have skipped : ¬ e.isIn pass.validatedXml = true := by
          simp only [Entry.isIn, named, Option.any_some, fresh, decide_false, Bool.false_eq_true,
            not_false_eq_true]
        rw [xmlTotal, validated, xmlSize_append, inv.xmlTotal]
        simp only [xmlSize, List.filter_cons_of_neg skipped, List.filter_nil, List.map_nil,
          List.sum_nil, Nat.add_zero]
      xmlTotal_le := by rw [xmlTotal]; exact inv.xmlTotal_le
      named := allNamed
      names := allNames
      distinct
      total := totals
      total_le
      seen := by
        intro other mem mine is
        rw [validated]
        rcases member mem with old | rfl
        · exact inv.seen other old mine is
        · rw [named] at is
          cases is
          rw [notXml]
          exact ⟨fun mem => absurd mem fresh, fun h => absurd h Bool.false_ne_true⟩
      known := by
        intro mine mem
        rw [validated] at mem
        rw [List.map_append]
        exact List.mem_append_left _ (inv.known mine mem)
      rels := by
        intro other mem mine is ends
        rw [rels]
        rcases member mem with old | rfl
        · exact inv.rels other old mine is ends
        · rw [named] at is
          cases is
          rw [isXmlName_of_rels ends] at notXml
          cases notXml
      relsOnly := by
        intro part mem
        rw [rels] at mem
        obtain ⟨ends, other, there, is⟩ := inv.relsOnly part mem
        exact ⟨ends, other, List.mem_append_left _ there, is⟩ }
  | xml isXml valid small aggregate xmlTotal validated rels =>
    exact {
      accepted := by
        intro other mem mine is validatedName
        rcases member mem with old | rfl
        · refine inv.accepted other old mine is ?_
          rw [validated] at validatedName
          rcases List.mem_cons.mp validatedName with rfl | later
          · exact absurd is (nameNew other old)
          · exact later
        · exact ⟨valid, small⟩
      xmlTotal := by
        have none' : xmlSize pass.validatedXml [e] = 0 := by
          have skipped : ¬ e.isIn pass.validatedXml = true := by
            simp only [Entry.isIn, named, Option.any_some, fresh, decide_false,
              Bool.false_eq_true, not_false_eq_true]
          simp only [xmlSize, List.filter_cons_of_neg skipped, List.filter_nil, List.map_nil,
            List.sum_nil]
        rw [xmlTotal, validated, xmlSize_new (names_nodup distinct)
          (List.mem_append_right done List.mem_cons_self) named fresh, xmlSize_append, none',
          inv.xmlTotal, Nat.add_zero]
      xmlTotal_le := by rw [xmlTotal]; exact aggregate
      named := allNamed
      names := allNames
      distinct
      total := totals
      total_le
      seen := by
        intro other mem mine is
        rw [validated, List.mem_cons]
        rcases member mem with old | rfl
        · rw [← inv.seen other old mine is]
          refine ⟨fun h => h.resolve_left fun same => ?_, Or.inr⟩
          exact nameNew other old (by rw [is, same])
        · rw [named] at is
          cases is
          exact ⟨fun _ => isXml, fun _ => Or.inl rfl⟩
      known := by
        intro mine mem
        rw [validated] at mem
        rw [List.map_append, List.mem_append]
        rcases List.mem_cons.mp mem with rfl | later
        · exact Or.inr (by rw [List.map_singleton, named]; exact List.mem_cons_self)
        · exact Or.inl (inv.known mine later)
      rels := by
        intro other mem mine is ends
        rw [rels]
        rcases member mem with old | rfl
        · have := inv.rels other old mine is ends
          split
          · exact List.mem_append_left _ this
          · exact this
        · rw [named] at is
          cases is
          rw [if_pos ends]
          exact List.mem_append_right _ List.mem_cons_self
      relsOnly := by
        intro part mem
        have old : part ∈ pass.rels → endsWith part.1 (text ".rels") = true ∧
            ∃ other ∈ done ++ [e], other.name = some part.1 ∧ other.content = part.2 := by
          intro before
          obtain ⟨ends, other, there, is⟩ := inv.relsOnly part before
          exact ⟨ends, other, List.mem_append_left _ there, is⟩
        rw [rels] at mem
        split at mem
        · next ends =>
          rcases List.mem_append.mp mem with before | last
          · exact old before
          · cases List.mem_singleton.mp last
            exact ⟨ends, e, List.mem_append_right _ List.mem_cons_self, named, rfl⟩
        · exact old mem }

theorem firstPass_passed (entries : List Entry) :
    ∀ (done : List Entry) (pass pass' : Pass), FirstPassed T limits done pass →
      entries.foldlM (firstTurn T limits) pass = .ok pass' →
      FirstPassed T limits (done ++ entries) pass' := by
  induction entries with
  | nil =>
    intro done pass pass' inv h
    cases h
    rw [List.append_nil]
    exact inv
  | cons e rest ih =>
    intro done pass pass' inv h
    rw [List.foldlM_cons] at h
    cases one : firstTurn T limits pass e with
    | error stop => rw [one] at h; cases h
    | ok mid =>
      rw [one] at h
      have := ih (done ++ [e]) mid pass' (inv.turn one) h
      rwa [List.append_assoc] at this

/-! ## The second pass -/

/-- One forced target: it is validated afterwards, and what holds of the validated names is kept. -/
theorem secondTurn_ok {pass pass' : Pass} {target : Text}
    (distinct : (entries.map Entry.name).Nodup) (inv : Validated T limits entries pass)
    (h : secondTurn T limits entries pass target = .ok pass') :
    Validated T limits entries pass' ∧ target ∈ pass'.validatedXml ∧
      pass.validatedXml ⊆ pass'.validatedXml ∧
      ∀ name ∈ pass'.validatedXml, name = target ∨ name ∈ pass.validatedXml := by
  unfold secondTurn at h
  split at h
  · next already =>
    cases h
    exact ⟨inv, already, List.Subset.refl _, fun _ mem => Or.inr mem⟩
  · next new =>
    dsimp only at h
    cases found : entries.find? fun e => e.name = some target with
    | none =>
      rw [found] at h
      cases h
      have none' : ∀ e ∈ entries, e.name ≠ some target := fun e mem same =>
        absurd (decide_eq_true same) (List.find?_eq_none.mp found e mem)
      refine ⟨⟨?_, ?_, inv.xmlTotal_le⟩, List.mem_cons_self, List.subset_cons_self _ _,
        fun _ => List.mem_cons.mp⟩
      · intro e mem name is validatedName
        rcases List.mem_cons.mp validatedName with rfl | later
        · exact absurd is (none' e mem)
        · exact inv.accepted e mem name is later
      · rw [xmlSize_other none']
        exact inv.xmlTotal
    | some e =>
      have mem := List.mem_of_find?_eq_some found
      have named : e.name = some target := by
        simpa only [decide_eq_true_eq] using List.find?_some found
      rw [found] at h
      dsimp only at h
      split at h
      · cases h
      · cases h
      · next bytes xmlTotal read =>
        obtain ⟨rfl, rfl, small, aggregate, -, length⟩ := readEntry_some read
        split at h
        · next valid =>
          cases h
          refine ⟨⟨?_, ?_, aggregate⟩, List.mem_cons_self, List.subset_cons_self _ _,
            fun _ => List.mem_cons.mp⟩
          · intro other there name is validatedName
            rcases List.mem_cons.mp validatedName with rfl | later
            · have : other = e :=
                List.inj_on_of_nodup_map distinct there mem (by rw [is, named])
              subst this
              exact ⟨valid, by omega⟩
            · exact inv.accepted other there name is later
          · rw [xmlSize_new distinct mem named new, ← inv.xmlTotal]
        · cases h

theorem secondPass_covers (targets : List Text) (distinct : (entries.map Entry.name).Nodup) :
    ∀ (pass pass' : Pass), Validated T limits entries pass →
      targets.foldlM (secondTurn T limits entries) pass = .ok pass' →
      Validated T limits entries pass' ∧ (∀ t ∈ targets, t ∈ pass'.validatedXml) ∧
        pass.validatedXml ⊆ pass'.validatedXml ∧
        ∀ name ∈ pass'.validatedXml, name ∈ targets ∨ name ∈ pass.validatedXml := by
  induction targets with
  | nil =>
    intro pass pass' inv h
    cases h
    exact ⟨inv, fun t mem => absurd mem List.not_mem_nil, List.Subset.refl _, fun _ mem => Or.inr mem⟩
  | cons target targets ih =>
    intro pass pass' inv h
    rw [List.foldlM_cons] at h
    cases one : secondTurn T limits entries pass target with
    | error stop => rw [one] at h; cases h
    | ok mid =>
      rw [one] at h
      obtain ⟨step, here, grown, only⟩ := secondTurn_ok distinct inv one
      obtain ⟨last, later, grown', only'⟩ := ih mid pass' step h
      refine ⟨last, fun t mem => ?_, fun t mem => grown' (grown mem), fun name mem => ?_⟩
      · rcases List.mem_cons.mp mem with rfl | more
        · exact grown' here
        · exact later t more
      · rcases only' name mem with among | before
        · exact Or.inl (List.mem_cons_of_mem _ among)
        · rcases only name before with rfl | first
          · exact Or.inl List.mem_cons_self
          · exact Or.inr first

/-! ## The archive -/

/-- The entry `e`, under its name, was accepted by the XML validation in this run. -/
def Accepted (T : Tools) (pass : Pass) (e : Entry) : Prop :=
  e.isIn pass.validatedXml = true ∧ T.validateXml e.content = true

/-- The part holds relationships, and one of them, selected by `office2pdf_xml_target`, leads to the
entry of this name. -/
def Selects (T : Tools) (part : Entry) (resolved : Text) : Prop :=
  ∃ name typ target, part.name = some name ∧ endsWith name (text ".rels") = true ∧
    Relates T.toXmlLibrary part.content typ target ∧
    office2pdfXmlTarget (relsOwner name) (typ.getD []) target = true ∧
    resolveOpcTarget (relsOwner name) target = some resolved

/-- What the preflight promises to the converter. -/
structure Covered (T : Tools) (limits : Limits) (entries : List Entry) (pass : Pass) : Prop where
  named : ∀ e ∈ entries, e.name.isSome
  distinct : (entries.map fun e => e.name.map entryNameKey).Nodup
  expanded : (entries.map Entry.size).sum ≤ limits.total
  xml : ∀ e ∈ entries, ∀ name, e.name = some name →
    (isXmlName name || xmlLike e.content) = true → Accepted T pass e
  targets : ∀ part ∈ entries, ∀ resolved, Selects T part resolved →
    ∀ e ∈ entries, e.name = some resolved → Accepted T pass e
  aggregate : xmlSize pass.validatedXml entries ≤ limits.xml_total

/-- No entry is hidden from the two passes. One that starts like XML is named like XML, or the chunks
that the limit lets the reader keep start like XML. One that only unreadable parts select is such an
entry too. -/
structure Shown (T : Tools) (limits : Limits) (entries : List Entry) : Prop where
  xml : ∀ e ∈ entries, ∀ name, e.name = some name → xmlLike e.content = true →
    (isXmlName name || xmlLike (e.kept limits.xml)) = true
  targets : ∀ part ∈ entries, ∀ resolved, Selects T part resolved →
    Unreadable T.toXmlLibrary part.content → ∀ e ∈ entries, e.name = some resolved →
      (isXmlName resolved || xmlLike (e.kept limits.xml)) = true ∨
        ∃ other ∈ entries, ¬ Unreadable T.toXmlLibrary other.content ∧ Selects T other resolved

theorem isIn_named {e : Entry} {name : Text} {validated : List Text} (named : e.name = some name) :
    e.isIn validated = true ↔ name ∈ validated := by
  simp only [Entry.isIn, named, Option.any_some, decide_eq_true_eq]

theorem inspect_ok {size : Nat} {opening : Opening} {pass : Pass}
    (h : inspect T limits size opening entries = .ok pass) :
    ∃ first, FirstPassed T limits entries first ∧
      (T.iterate (forcedXml T first.rels)).foldlM (secondTurn T limits entries) first =
        .ok pass := by
  unfold inspect at h
  split at h
  · cases h
  · split at h
    · cases h
    · split at h
      · cases h
      · cases h
      · cases h
      · split at h
        · cases h
        · cases one : firstPass T limits entries with
          | error stop => rw [one] at h; cases h
          | ok first =>
            rw [one] at h
            exact ⟨first, firstPass_passed entries [] {} first .start one, h⟩

/-- An entry seen as XML by its kept beginning, or forced, is small enough to be kept whole. -/
theorem xmlLike_kept {pass : Pass} {e : Entry} {name : Text}
    (inv : Validated T limits entries pass) (mem : e ∈ entries) (named : e.name = some name)
    (validated : name ∈ pass.validatedXml) : e.kept limits.xml = e.content :=
  Entry.kept_whole (inv.accepted e mem name named validated).2

/-- The forced targets are those that a readable part selects. -/
theorem mem_forcedXml {pass : Pass} (passed : FirstPassed T limits entries pass) {resolved : Text} :
    resolved ∈ forcedXml T pass.rels ↔
      ∃ part ∈ entries, ¬ Unreadable T.toXmlLibrary part.content ∧ Selects T part resolved := by
  unfold forcedXml
  rw [List.mem_flatMap]
  constructor
  · rintro ⟨⟨name, content⟩, there, mem⟩
    obtain ⟨⟨typ, target⟩, found, selected⟩ := List.mem_filterMap.mp mem
    obtain ⟨ends, part, among, named, rfl⟩ := passed.relsOnly _ there
    cases parsed : parseInternalRelationships T.toXmlLibrary part.content with
    | none =>
      rw [parsed] at found
      exact absurd found List.not_mem_nil
    | some relationships =>
      rw [parsed] at found
      refine ⟨part, among, ?_, name, typ, target, named, ends, (parse_mem parsed typ target).mp found, ?_⟩
      · rw [← parse_none_iff, parsed]
        exact nofun
      · split at selected
        · next isSelected => exact ⟨isSelected, selected⟩
        · cases selected
  · rintro ⟨part, among, readable, name, typ, target, named, ends, related, selected, is⟩
    obtain ⟨relationships, parsed⟩ := Option.ne_none_iff_exists'.mp (mt parse_none_iff.mp readable)
    refine ⟨(name, part.content), passed.rels part among name named ends,
      List.mem_filterMap.mpr ⟨(typ, target), ?_, ?_⟩⟩
    · rw [parsed]
      exact (parse_mem parsed typ target).mpr related
    · rw [if_pos selected]
      exact is

/-- **A package that is accepted is covered exactly if no entry is hidden**: neither by a beginning
that the limit drops, nor behind a part with relationships that cannot be read. What is covered has
been validated, whatever the reader of the XML does. -/
theorem detect_reader_covers {size : Nat} {opening : Opening} {kind : Kind}
    (h : detectReader T limits size opening entries = .ok (some kind)) :
    ∃ pass, inspect T limits size opening entries = .ok pass ∧
      (Covered T limits entries pass ↔ Shown T limits entries) := by
  unfold detectReader at h
  cases inspected : inspect T limits size opening entries with
  | error stop =>
    rw [inspected] at h
    cases stop with
    | err | notOffice => cases h
  | ok pass =>
    obtain ⟨first, passed, second⟩ := inspect_ok inspected
    have names := names_nodup passed.distinct
    obtain ⟨inv, forced, grown, only⟩ := secondPass_covers _ names first pass passed.toValidated second
    have isForced {resolved : Text} : resolved ∈ T.iterate (forcedXml T first.rels) ↔ _ :=
      (T.iterate_mem _ _).trans (mem_forcedXml passed)
    refine ⟨pass, rfl, fun covered => ⟨fun e mem name named like => ?_, ?_⟩, fun shown => ?_⟩
    · have accepted := covered.xml e mem name named (Bool.or_eq_true_iff.mpr (Or.inr like))
      rw [xmlLike_kept inv mem named ((isIn_named named).mp accepted.1), like, Bool.or_true]
    · intro part among resolved selects _ e mem named
      have accepted := covered.targets part among resolved selects e mem named
      rcases only resolved ((isIn_named named).mp accepted.1) with isTarget | before
      · exact Or.inr (isForced.mp isTarget)
      · exact Or.inl ((passed.seen e mem resolved named).mp before)
    · have accept : ∀ e ∈ entries, ∀ name, e.name = some name → name ∈ pass.validatedXml →
          Accepted T pass e := fun e mem name named validated =>
        ⟨(isIn_named named).mpr validated, (inv.accepted e mem name named validated).1⟩
      exact {
        named := passed.named
        distinct := passed.distinct
        expanded := passed.total ▸ passed.total_le
        xml := by
          intro e mem name named like
          refine accept e mem name named (grown ((passed.seen e mem name named).mpr ?_))
          rcases Bool.or_eq_true_iff.mp like with isName | isLike
          · rw [isName, Bool.true_or]
          · exact shown.xml e mem name named isLike
        targets := by
          intro part among resolved selects e mem named
          refine accept e mem resolved named ?_
          by_cases readable : Unreadable T.toXmlLibrary part.content
          · rcases shown.targets part among resolved selects readable e mem named with seen | elsewhere
            · exact grown ((passed.seen e mem resolved named).mpr seen)
            · exact forced resolved (isForced.mpr elsewhere)
          · exact forced resolved (isForced.mpr ⟨part, among, readable, selects⟩)
        aggregate := inv.xmlTotal ▸ inv.xmlTotal_le }

end

/-- The part of a document with one header, with more attributes behind those of the relationship. -/
def headerPart (more : String) : Bytes :=
  ascii ("<Relationship Id='1' Type='/header' Target='part.bin'" ++ more ++ "/>")

def headerAttributes : List (Option XmlAttribute) :=
  [some ⟨ascii "Id", ascii "1"⟩, some ⟨ascii "Type", ascii "/header"⟩,
    some ⟨ascii "Target", ascii "part.bin"⟩]

/-- An attribute with an entity that is not known. -/
def unknownEntity : Option XmlAttribute := some ⟨ascii "Note", ascii "&x;"⟩

def headerEvents (bytes : Bytes) : List (Option XmlEvent) :=
  if bytes = headerPart "" then [some (.element (ascii "Relationship") headerAttributes)]
  else if bytes = headerPart " Note='&x;'" then
    [some (.element (ascii "Relationship") (headerAttributes ++ [unknownEntity]))]
  else []

/-- An XML library that knows these parts, takes every text ending in `>` for well-formed, and finds one
document. -/
def plainTools : Tools where
  events bytes := some (headerEvents bytes)
  decodedAndNormalizedValue _ value :=
    if value = ascii "&x;" then none else some (value.map fun b => Char.ofNat b.toNat)
  validateXml bytes := bytes.getLast? = some 0x3e
  parseRelationships _ := some [text "/word/document.xml"]
  parseOverrides _ := some fun _ => some (text
    "application/vnd.openxmlformats-officedocument.wordprocessingml.document.main+xml")
  iterate targets := targets
  iterate_mem _ _ := Iff.rfl

def storedEntry (name : String) (content : Bytes) : Entry where
  name := some (text name)
  unix_mode := none
  size := content.length
  compressed_size := content.length
  reads := [content]

def smallLimits (xml : Nat) : Limits where
  archive := 1000
  total := 1000
  xml := xml
  ratio := 500
  xml_total := 100

/-- A package with one more part. -/
def packageWith (part : Entry) : List Entry :=
  [storedEntry "[Content_Types].xml" (ascii "<Types/>"), storedEntry "_rels/.rels" (ascii "<R/>"), part]

/-- A package with a header that is neither named nor looks like XML. -/
def headerPackage (rels header : Bytes) : List Entry :=
  packageWith (storedEntry "word/_rels/document.xml.rels" rels) ++ [storedEntry "word/part.bin" header]

/-- The header of a document is validated, although nothing but its relationship tells that it is XML. -/
theorem detect_reader_covers_header :
    ∃ pass, inspect plainTools (smallLimits 80) 500 (.opened 0 300 300 4)
        (headerPackage (headerPart "") (ascii "part>")) = .ok pass ∧
      Covered plainTools (smallLimits 80) (headerPackage (headerPart "") (ascii "part>")) pass := by
  obtain ⟨pass, run, covered⟩ := @detect_reader_covers plainTools (smallLimits 80)
    (headerPackage (headerPart "") (ascii "part>")) 500 (.opened 0 300 300 4) .docx (by decide +kernel)
  refine ⟨pass, run, covered.mpr ⟨fun e mem name named like => ?_, ?_⟩⟩
  · have named' : ∀ e ∈ headerPackage (headerPart "") (ascii "part>"), xmlLike e.content = true →
        e.name.any isXmlName = true := by decide +kernel
    have isXml := named' e mem like
    rw [named, Option.any_some] at isXml
    rw [isXml, Bool.true_or]
  · intro part mem _ _ unreadable
    have readable : ∀ part ∈ headerPackage (headerPart "") (ascii "part>"),
        parseInternalRelationships plainTools.toXmlLibrary part.content ≠ none := by decide +kernel
    exact absurd (parse_none_iff.mpr unreadable) (readable part mem)

/-- A part that starts like XML, is not well-formed and is larger than the limit of an entry; and a
header behind a relationship with an unknown entity in another attribute: the packages are accepted, and
the parts have not been validated. -/
theorem detect_reader_skips :
    (detectReader plainTools (smallLimits 20) 500 (.opened 0 300 300 3)
        (packageWith (storedEntry "word/data.bin" (ascii "<?xml version='1.0'?><data"))) =
          .ok (some .docx) ∧
      ∃ pass, inspect plainTools (smallLimits 20) 500 (.opened 0 300 300 3)
          (packageWith (storedEntry "word/data.bin" (ascii "<?xml version='1.0'?><data"))) = .ok pass ∧
        ¬ Covered plainTools (smallLimits 20)
          (packageWith (storedEntry "word/data.bin" (ascii "<?xml version='1.0'?><data"))) pass) ∧
    detectReader plainTools (smallLimits 80) 500 (.opened 0 300 300 4)
        (headerPackage (headerPart " Note='&x;'") (ascii "part")) = .ok (some .docx) ∧
      ∃ pass, inspect plainTools (smallLimits 80) 500 (.opened 0 300 300 4)
          (headerPackage (headerPart " Note='&x;'") (ascii "part")) = .ok pass ∧
        ¬ Covered plainTools (smallLimits 80) (headerPackage (headerPart " Note='&x;'") (ascii "part"))
          pass := by
  refine ⟨⟨by decide +kernel, {
      total := 38
      xmlTotal := 12
      names := [text "word/data.bin", text "_rels/.rels", text "[content_types].xml"]
      validatedXml := [text "_rels/.rels", text "[Content_Types].xml"]
      rels := [(text "_rels/.rels", ascii "<R/>")]
      relationships := some (ascii "<R/>")
      overrides := some (ascii "<Types/>") }, by decide +kernel, fun covered => ?_⟩,
    by decide +kernel, {
      total := 82
      xmlTotal := 78
      names := [text "word/part.bin", text "word/_rels/document.xml.rels", text "_rels/.rels",
        text "[content_types].xml"]
      validatedXml := [text "word/_rels/document.xml.rels", text "_rels/.rels",
        text "[Content_Types].xml"]
      rels := [(text "_rels/.rels", ascii "<R/>"),
        (text "word/_rels/document.xml.rels", headerPart " Note='&x;'")]
      relationships := some (ascii "<R/>")
      overrides := some (ascii "<Types/>") }, by decide +kernel, fun covered => ?_⟩
  · have accepted := covered.xml (storedEntry "word/data.bin" (ascii "<?xml version='1.0'?><data"))
      (by decide +kernel) (text "word/data.bin") rfl (by decide +kernel)
    exact absurd accepted.1 (by decide +kernel)
  · have relates : Relates plainTools.toXmlLibrary (headerPart " Note='&x;'") (some (text "/header"))
        (text "part.bin") :=
      ⟨_, rfl, [], headerAttributes ++ [unknownEntity], [], by decide +kernel, by decide +kernel,
        by decide +kernel, by decide +kernel⟩
    have accepted := covered.targets
      (storedEntry "word/_rels/document.xml.rels" (headerPart " Note='&x;'")) (by decide +kernel)
      (text "word/part.bin") ⟨text "word/_rels/document.xml.rels", _, _, rfl, by decide +kernel, relates,
        by decide +kernel, by decide +kernel⟩
      (storedEntry "word/part.bin" (ascii "part")) (by decide +kernel) rfl
    exact absurd accepted.2 (by decide +kernel)

end Mineru.Ooxml
