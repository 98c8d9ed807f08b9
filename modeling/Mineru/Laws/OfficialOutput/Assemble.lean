import Mineru.OfficialOutput.Assemble

/-!
# The assembled files

A step of the assembly adds a text to one file and charges its bytes (`Wrote`), and such steps
compose. The loops then write what the serializer writes for the whole document, comma for comma.

The source never holds a whole document: it appends the staged parts of each page. `joined` and
`paragraphs` say what its loops write, with the flag that tells whether a separator is due, and
`middleDocument_eq` and `array_eq` that this is the compact form of the whole value.

`final_outputs_assembled` is about runs that succeed. A run may also end with an error of the file
system, at a deadline or over the text limit, and of the five files nothing is said then.
-/

set_option autoImplicit false

namespace Mineru.OfficialOutput

open Logic

/-! ## Texts -/

theorem utf8Len_eq_zero {t : Text} : utf8Len t = 0 ↔ t = [] := by
  cases t with
  | nil => simp
  | cons c t =>
    have := c.utf8Size_pos
    simp only [utf8Len_cons, reduceCtorEq, iff_false]
    omega

theorem behindCommas_append (ts us : List Text) :
    behindCommas (ts ++ us) = behindCommas ts ++ behindCommas us :=
  List.flatMap_append

theorem withCommas_append {ts : List Text} (some : ts ≠ []) (us : List Text) :
    withCommas (ts ++ us) = withCommas ts ++ behindCommas us := by
  cases ts with
  | nil => exact absurd rfl some
  | cons t ts => simp [withCommas, behindCommas_append]

theorem behindCommas_eq {ts : List Text} (some : ts ≠ []) :
    behindCommas ts = ',' :: withCommas ts := by
  cases ts with
  | nil => exact absurd rfl some
  | cons t ts => simp [withCommas, behindCommas]

/-- The separator stands before each text but the first. -/
theorem intercalate_cons (separator t : Text) (ts : List Text) :
    List.intercalate separator (t :: ts) = t ++ ts.flatMap fun u => separator ++ u := by
  induction ts generalizing t with
  | nil => simp [List.intercalate]
  | cons u us ih =>
    have tail := ih u
    simp only [List.intercalate, List.intersperse, List.flatten_cons, List.flatMap_cons] at tail ⊢
    rw [tail, List.append_assoc]

/-- No value is written as nothing. -/
theorem compact_ne_nil (f : NumberFormat) (v : Value) : compact f v ≠ [] := by
  cases v with
  | number n =>
    unfold compact
    exact f.nonempty n
  | bool b => cases b <;> simp [compact]
  | null | string | array | object => simp [compact, writeString]

theorem compactElements_eq (f : NumberFormat) (vs : List Value) :
    compactElements f vs = vs.map (compact f) := by
  induction vs with
  | nil => simp [compactElements]
  | cons v vs ih => simp [compactElements, ih]

/-- The elements of several arrays, one array after another, are those of their concatenation. -/
theorem flatMap_compactElements (f : NumberFormat) (contents : List (List Value)) :
    contents.flatMap (compactElements f) = compactElements f contents.flatten := by
  induction contents with
  | nil => simp [compactElements]
  | cons vs contents ih =>
    rw [List.flatMap_cons, ih, List.flatten_cons]
    simp [compactElements_eq]

theorem withCommas_eq_nil {f : NumberFormat} {vs : List Value} :
    withCommas (compactElements f vs) = [] ↔ vs = [] := by
  cases vs with
  | nil => simp [compactElements, withCommas]
  | cons v vs => simp [compactElements, withCommas, compact_ne_nil]

/-! ## Steps -/

/-- A run whose errors are of no interest. -/
abbrev Runs {α : Type} (x : Assembly α) (s : Stage) (Q : α → Stage → Prop) : Prop :=
  After x s Q fun _ _ => True

/-- The stage apart from its files, its counter and its clock. -/
structure SameStage (s s' : Stage) : Prop where
  stem : s'.stem = s.stem
  parts : s'.parts = s.parts
  pages : s'.pages = s.pages
  maxTextBytes : s'.maxTextBytes = s.maxTextBytes

theorem SameStage.rfl {s : Stage} : SameStage s s := ⟨Eq.refl _, Eq.refl _, Eq.refl _, Eq.refl _⟩

theorem SameStage.trans {a b c : Stage} (first : SameStage a b) (second : SameStage b c) :
    SameStage a c :=
  ⟨second.stem.trans first.stem, second.parts.trans first.parts, second.pages.trans first.pages,
    second.maxTextBytes.trans first.maxTextBytes⟩

/-- So many bytes have been charged. -/
structure Charged (s s' : Stage) (n : Nat) : Prop where
  counter : s'.textBytes = saturatingAdd s.textBytes n
  limit : s'.textBytes ≤ s.maxTextBytes ∨ n = 0

theorem Charged.none {s s' : Stage} (counter : s.textBytes < 2 ^ 64)
    (same : s'.textBytes = s.textBytes) : Charged s s' 0 := by
  refine ⟨?_, Or.inr rfl⟩
  rw [same, saturatingAdd]
  omega

theorem Charged.small {s s' : Stage} {n : Nat} (h : Charged s s' n) : s'.textBytes < 2 ^ 64 := by
  rw [h.counter, saturatingAdd]
  omega

/-- Charges add up. The counter saturates at the end of the word, which the stage has not
reached. -/
theorem Charged.trans {a b c : Stage} {m n : Nat} (stage : SameStage a b) (first : Charged a b m)
    (second : Charged b c n) : Charged a c (m + n) := by
  obtain ⟨counterB, limitB⟩ := first
  obtain ⟨counterC, limitC⟩ := second
  rw [stage.maxTextBytes] at limitC
  unfold saturatingAdd at counterB counterC
  refine ⟨by unfold saturatingAdd; omega, ?_⟩
  rcases limitC with below | none
  · exact Or.inl below
  · rcases limitB with below | none'
    · exact Or.inl (by omega)
    · exact Or.inr (by omega)

/-- The text has been added to the file, and so many bytes have been charged. -/
structure Wrote (s s' : Stage) (file t : Text) (n : Nat) : Prop where
  stage : SameStage s s'
  grown : ∀ old, s.files.get file = some old → s'.files.get file = some (old ++ t)
  others : ∀ other, other ≠ file → s'.files.get other = s.files.get other
  charged : Charged s s' n

/-- Two steps on one file are one step with both texts. -/
theorem Wrote.trans {a b c : Stage} {file t u : Text} {m n : Nat} (first : Wrote a b file t m)
    (second : Wrote b c file u n) : Wrote a c file (t ++ u) (m + n) where
  stage := first.stage.trans second.stage
  grown old there := by
    rw [← List.append_assoc]
    exact second.grown _ (first.grown old there)
  others other ne := (second.others other ne).trans (first.others other ne)
  charged := first.charged.trans first.stage second.charged

/-- A step that leaves the files and the counter as they are. -/
theorem Wrote.nothing {s s' : Stage} (file : Text) (stage : SameStage s s')
    (files : s'.files = s.files) (counter : s.textBytes < 2 ^ 64)
    (same : s'.textBytes = s.textBytes) : Wrote s s' file [] 0 where
  stage := stage
  grown old there := by rw [files, there, List.append_nil]
  others _ _ := by rw [files]
  charged := .none counter same

section Steps

variable (w : World) {s : Stage}

theorem get_runs : Runs get s fun st s' => st = s ∧ s' = s := ⟨rfl, rfl⟩

theorem operate_runs : Runs (operate w) s fun _ s' => s' = { s with clock := s.clock + 1 } := by
  unfold Runs After operate
  cases w.fault s.clock with
  | none => rfl
  | some e => trivial

variable (counter : s.textBytes < 2 ^ 64) (file : Text)

include counter

theorem checkStageDeadline_runs :
    Runs (checkStageDeadline w) s fun _ s' => Wrote s s' file [] 0 := by
  unfold Runs After checkStageDeadline
  by_cases late : w.expired s.clock = true
  · rw [if_pos late]
    trivial
  · rw [if_neg late]
    exact .nothing file .rfl rfl counter rfl

omit counter in
/-- A charge that succeeds adds the bytes to the counter and stays under the limit. -/
theorem chargeText_runs (n : Nat) : Runs (chargeText n) s fun _ s' => Wrote s s' file [] n := by
  unfold Runs After chargeText
  dsimp only
  by_cases above : saturatingAdd s.textBytes n > s.maxTextBytes
  · rw [if_pos above]
    trivial
  · rw [if_neg above]
    exact ⟨⟨rfl, rfl, rfl, rfl⟩, fun old there => by rw [List.append_nil]; exact there,
      fun _ _ => rfl, rfl, Or.inl (Nat.le_of_not_lt above)⟩

theorem writeAll_runs (t : Text) : Runs (writeAll w file t) s fun _ s' => Wrote s s' file t 0 := by
  refine (operate_runs w).bind fun _ s' same => ?_
  subst same
  refine After.modify ⟨⟨rfl, rfl, rfl, rfl⟩, fun old there => ?_, fun other ne => ?_,
    .none counter rfl⟩
  · dsimp only
    rw [Table.get_set, if_pos rfl, there, Option.getD_some]
  · dsimp only
    rw [Table.get_set, if_neg ne]

theorem openPart_runs {name data : Text} (there : s.parts.get name = some data) :
    Runs (openPart w name) s fun found s' => found = data ∧ Wrote s s' file [] 0 := by
  refine (operate_runs w).bind fun _ s' same => ?_
  subst same
  have unchanged : Wrote s { s with clock := s.clock + 1 } file [] 0 :=
    .nothing file ⟨rfl, rfl, rfl, rfl⟩ rfl counter rfl
  refine (get_runs (s := { s with clock := s.clock + 1 })).bind fun st s' h => ?_
  obtain ⟨rfl, rfl⟩ := h
  dsimp only
  rw [there]
  exact After.pure ⟨rfl, unchanged⟩

omit counter in
theorem writeFragment_runs (t : Text) :
    Runs (writeFragment w file t) s fun _ s' => Wrote s s' file t (utf8Len t) := by
  refine (chargeText_runs file (utf8Len t)).bind fun _ s' charged => ?_
  exact (writeAll_runs w charged.charged.small file t).weaken
    (fun _ s'' wrote => charged.trans wrote) fun _ _ h => h

/-- A staged part is copied to the file and charged for its own bytes. -/
theorem appendPart_runs {name data : Text} (there : s.parts.get name = some data) :
    Runs (appendPart w file name) s fun _ s' => Wrote s s' file data (utf8Len data) := by
  refine (openPart_runs w counter file there).bind fun found s₁ h => ?_
  obtain ⟨rfl, first⟩ := h
  refine (chargeText_runs file (utf8Len found)).bind fun _ s₂ second => ?_
  have looked := first.trans second
  have still : s₂.parts.get name = some found := by rw [looked.stage.parts, there]
  refine (openPart_runs w second.charged.small file still).bind fun found' s₃ h => ?_
  obtain ⟨rfl, third⟩ := h
  refine (writeAll_runs w third.charged.small file found').weaken (fun _ s₄ wrote => ?_)
    fun _ _ h => h
  have whole := (looked.trans third).trans wrote
  simpa only [List.nil_append, Nat.zero_add, Nat.add_zero] using whole

end Steps

/-! ## Loops -/

/-- The staged parts of the pages under one suffix. -/
def Parts (parts : Table Text Text) (suffix : String) (pages : List Nat) (texts : List Text) :
    Prop :=
  List.Forall₂ (fun page t => parts.get (partName page suffix) = some t) pages texts

section Loops

variable (w : World) (file : Text)

/-- A separator is written where one is wanted, and the run goes on. -/
theorem separated_runs {s : Stage} (counter : s.textBytes < 2 ^ 64) (wanted : Bool)
    (separator : Text) {k : Unit → Assembly Unit} {Q : Unit → Stage → Prop}
    (rest : ∀ s', Wrote s s' file (if wanted then separator else [])
      (utf8Len (if wanted then separator else [])) → Runs (k ()) s' Q) :
    Runs (if wanted then writeFragment w file separator >>= k else k ()) s Q := by
  cases wanted with
  | true => exact (writeFragment_runs w file separator).bind fun _ s' wrote => rest s' wrote
  | false => exact rest s (.nothing file .rfl rfl counter rfl)

/-- What is appended to a file that begins with the first text or behind others. -/
def joined (first : Bool) (texts : List Text) : Text :=
  if first then withCommas texts else behindCommas texts

theorem joined_nil (first : Bool) : joined first [] = [] := by cases first <;> rfl

/-- What is written for a list of parts: a comma where one is due, the first part, and the others
with commas. -/
theorem joined_cons (first : Bool) (t : Text) (ts : List Text) :
    joined first (t :: ts) = (if !first then text "," else []) ++ (t ++ joined false ts) := by
  cases first <;> rfl

variable {pages : List Nat} {parts : Table Text Text}

/-- The loop over the pages appends the part of each page. The induction carries whether a comma is
due. -/
theorem appendParts_runs (suffix : String) {texts : List Text} {s : Stage}
    (counter : s.textBytes < 2 ^ 64) (first : Bool) (staged : Parts parts suffix pages texts)
    (here : s.parts = parts) :
    Runs (appendParts w file suffix first pages) s fun _ s' =>
      Wrote s s' file (joined first texts) (utf8Len (joined first texts)) := by
  induction staged generalizing s first with
  | nil =>
    rw [joined_nil]
    exact After.pure (.nothing file .rfl rfl counter rfl)
  | @cons page t pages texts there rest ih =>
    unfold appendParts
    refine (checkStageDeadline_runs w counter file).bind fun _ s₁ a => ?_
    refine separated_runs w file a.charged.small (!first) (text ",") fun s₂ b => ?_
    have ab := a.trans b
    have there' : s₂.parts.get (partName page suffix) = some t := by
      rw [ab.stage.parts, here, there]
    refine (appendPart_runs w b.charged.small file there').bind fun _ s₃ c => ?_
    have abc := ab.trans c
    refine (ih c.charged.small false (by rw [abc.stage.parts, here])).weaken (fun _ s₄ d => ?_)
      fun _ _ h => h
    rw [joined_cons]
    simpa [Nat.add_assoc] using abc.trans d

/-- The elements of one page and those of the pages behind it. -/
theorem joined_append {first : Bool} {ts : List Text} (some : ts ≠ []) (us : List Text) :
    joined first (ts ++ us) =
      (if !first then text "," else []) ++ (withCommas ts ++ joined false us) := by
  cases first with
  | true => exact withCommas_append some us
  | false =>
    change behindCommas (ts ++ us) = ',' :: (withCommas ts ++ behindCommas us)
    rw [behindCommas_append, behindCommas_eq some, List.cons_append]

/-- A bracketed text passes the checks on a content part. -/
theorem bracketed (inner : Text) {source : Text} (is : source = '[' :: inner ++ [']']) :
    utf8Len source = utf8Len inner + 2 ∧ source.head? = some '[' ∧ source.getLast? = some ']' ∧
      source.tail.dropLast = inner := by
  have bracket : Char.utf8Size '[' = 1 ∧ Char.utf8Size ']' = 1 := by decide
  subst is
  refine ⟨?_, rfl, List.getLast?_concat, by simp⟩
  simp [bracket.1, bracket.2]
  omega

/-- The content parts are arrays. Their brackets are cut off, and an empty one writes nothing, not
even a comma. -/
theorem appendContents_runs (f : NumberFormat) {contents : List (List Value)} {s : Stage}
    (counter : s.textBytes < 2 ^ 64) (written : Bool)
    (staged : Parts parts "-content.json" pages (contents.map fun vs => compact f (.array vs)))
    (here : s.parts = parts) :
    Runs (appendContents w file written pages) s fun _ s' =>
      Wrote s s' file (joined (!written) (contents.flatMap (compactElements f)))
        (utf8Len (joined (!written) (contents.flatMap (compactElements f)))) := by
  induction pages generalizing s written contents with
  | nil =>
    obtain rfl : contents = [] := by simpa [Parts] using staged
    exact After.pure (by
      rw [List.flatMap_nil, joined_nil]
      exact .nothing file .rfl rfl counter rfl)
  | cons page pages ih =>
    obtain _ | ⟨vs, contents⟩ := contents
    · cases staged
    obtain _ | ⟨there, rest⟩ := staged
    unfold appendContents
    refine (checkStageDeadline_runs w counter file).bind fun _ s₁ a => ?_
    have there' : s₁.parts.get (partName page "-content.json") = some (compact f (.array vs)) := by
      rw [a.stage.parts, here, there]
    refine (openPart_runs w a.charged.small file there').bind fun source s₂ h => ?_
    obtain ⟨is, b⟩ := h
    have ab := a.trans b
    obtain ⟨size, first, last, between⟩ :=
      bracketed (withCommas (compactElements f vs)) (is.trans (by rw [compact]))
    have long : ¬ utf8Len source < 2 := by omega
    have opens : ¬ (source.head? ≠ some '[' ∨ source.getLast? ≠ some ']') := by
      rw [first, last]
      simp
    have inner : utf8Len source - 2 = utf8Len (withCommas (compactElements f vs)) := by omega
    rw [if_neg long, if_neg opens, inner, between]
    dsimp only
    by_cases none : vs = []
    · subst none
      rw [if_neg (by simp [compactElements, withCommas])]
      refine (ih b.charged.small written rest (by rw [ab.stage.parts, here])).weaken
        (fun _ s₃ c => ?_) fun _ _ h => h
      rw [List.flatMap_cons, compactElements, List.nil_append]
      simpa using ab.trans c
    · have some : compactElements f vs ≠ [] := by
        rw [compactElements_eq]
        simpa using none
      have filled : utf8Len (withCommas (compactElements f vs)) ≠ 0 := by
        rw [Ne, utf8Len_eq_zero, withCommas_eq_nil]
        exact none
      rw [if_pos filled]
      refine separated_runs w file b.charged.small written (text ",") fun s₃ c => ?_
      refine (chargeText_runs file _).bind fun _ s₄ d => ?_
      refine (writeAll_runs w d.charged.small file _).bind fun _ s₅ e => ?_
      have abcde := ((ab.trans c).trans d).trans e
      refine (ih e.charged.small true rest (by rw [abcde.stage.parts, here])).weaken
        (fun _ s₆ g => ?_) fun _ _ h => h
      rw [List.flatMap_cons, joined_append some, Bool.not_not]
      simpa [Nat.add_assoc] using abcde.trans g

/-- What is appended of the Markdown to a file that is empty or not. -/
def paragraphs (first : Bool) (texts : List Text) : Text :=
  if first then List.intercalate (text "\n\n") texts else texts.flatMap fun t => text "\n\n" ++ t

theorem paragraphs_nil (first : Bool) : paragraphs first [] = [] := by cases first <;> rfl

theorem paragraphs_cons (first : Bool) (t : Text) (ts : List Text) :
    paragraphs first (t :: ts) =
      (if !first then text "\n\n" else []) ++ (t ++ paragraphs false ts) := by
  cases first with
  | true => exact intercalate_cons _ t ts
  | false => exact List.append_assoc _ t _

/-- The texts that are not empty. -/
def nonempty (texts : List Text) : List Text := texts.filter fun t => t ≠ []

/-- The Markdown of the pages, with an empty line between two of them. -/
theorem appendMarkdown_runs {texts : List Text} {s : Stage} (counter : s.textBytes < 2 ^ 64)
    (written : Bool) (staged : Parts parts "-markdown.md" pages texts) (here : s.parts = parts) :
    Runs (appendMarkdown w file written pages) s fun _ s' =>
      Wrote s s' file (paragraphs (!written) (nonempty texts))
        (utf8Len (paragraphs (!written) (nonempty texts))) := by
  induction staged generalizing s written with
  | nil =>
    rw [nonempty, List.filter_nil, paragraphs_nil]
    exact After.pure (.nothing file .rfl rfl counter rfl)
  | @cons page t pages texts there rest ih =>
    unfold appendMarkdown
    refine (checkStageDeadline_runs w counter file).bind fun _ s₁ a => ?_
    have there₁ : s₁.parts.get (partName page "-markdown.md") = some t := by
      rw [a.stage.parts, here, there]
    refine (openPart_runs w a.charged.small file there₁).bind fun found s₂ h => ?_
    obtain ⟨rfl, b⟩ := h
    have ab := a.trans b
    dsimp only
    by_cases none : found = []
    · subst none
      rw [utf8Len_nil, if_pos rfl]
      refine (ih b.charged.small written (by rw [ab.stage.parts, here])).weaken
        (fun _ s₃ c => ?_) fun _ _ h => h
      simpa [nonempty] using ab.trans c
    · rw [if_neg (mt utf8Len_eq_zero.mp none)]
      refine separated_runs w file b.charged.small written (text "\n\n") fun s₃ c => ?_
      refine (chargeText_runs file _).bind fun _ s₄ d => ?_
      have abcd := (ab.trans c).trans d
      have there₄ : s₄.parts.get (partName page "-markdown.md") = some found := by
        rw [abcd.stage.parts, here, there]
      refine (openPart_runs w d.charged.small file there₄).bind fun found' s₅ h => ?_
      obtain ⟨rfl, e⟩ := h
      refine (writeAll_runs w e.charged.small file found').bind fun _ s₆ g => ?_
      have abcdeg := (abcd.trans e).trans g
      refine (ih g.charged.small true (by rw [abcdeg.stage.parts, here])).weaken
        (fun _ s₇ k => ?_) fun _ _ h => h
      have kept : nonempty (found' :: texts) = found' :: nonempty texts := by simp [nonempty, none]
      rw [kept, paragraphs_cons, Bool.not_not]
      simpa [Nat.add_assoc] using abcdeg.trans k

end Loops

/-! ## Files -/

/-- The file holds the text, and its bytes have been charged. -/
structure Made (s s' : Stage) (file t : Text) : Prop where
  stage : SameStage s s'
  made : s'.files.get file = some t
  others : ∀ other, other ≠ file → s'.files.get other = s.files.get other
  charged : Charged s s' (utf8Len t)

theorem Made.add {a b c : Stage} {file t u : Text} (first : Made a b file t)
    (second : Wrote b c file u (utf8Len u)) : Made a c file (t ++ u) where
  stage := first.stage.trans second.stage
  made := second.grown _ first.made
  others other ne := (second.others other ne).trans (first.others other ne)
  charged := by
    rw [utf8Len_append]
    exact first.charged.trans first.stage second.charged

section Files

variable (w : World) (file : Text) {parts : Table Text Text} {s : Stage}
  (counter : s.textBytes < 2 ^ 64) (here : s.parts = parts)

include counter in
theorem create_runs : Runs (create w file) s fun _ s' => Made s s' file [] := by
  refine (operate_runs w).bind fun _ s' same => ?_
  subst same
  refine After.modify ⟨⟨rfl, rfl, rfl, rfl⟩, ?_, fun other ne => ?_, .none counter rfl⟩
  · dsimp only
    rw [Table.get_set, if_pos rfl]
  · dsimp only
    rw [Table.get_set, if_neg ne]

include counter here in
/-- A file of one array: its brackets, and the parts of all pages between them. -/
theorem writeArray_runs (opening suffix closing : String) {texts : List Text}
    (staged : Parts parts suffix s.pages texts) :
    Runs (writeArray w file opening suffix closing) s fun _ s' =>
      Made s s' file (text opening ++ withCommas texts ++ text closing) := by
  refine (create_runs w file counter).bind fun _ s₁ a => ?_
  refine (writeFragment_runs w file (text opening)).bind fun _ s₂ b => ?_
  have ab := a.add b
  refine get_runs.bind fun st s₃ h => ?_
  obtain ⟨rfl, rfl⟩ := h
  rw [ab.stage.pages]
  refine (appendParts_runs w file suffix b.charged.small true staged
    (by rw [ab.stage.parts, here])).bind fun _ s₃ c => ?_
  exact (writeFragment_runs w file (text closing)).weaken (fun _ s₄ d => (ab.add c).add d)
    fun _ _ h => h

include counter here in
theorem contentFile_runs (f : NumberFormat) {contents : List (List Value)}
    (staged : Parts parts "-content.json" s.pages (contents.map fun vs => compact f (.array vs)))
    {k : Assembly Unit} {Q : Unit → Stage → Prop}
    (rest : ∀ s', Made s s' file (compact f (.array contents.flatten)) → Runs k s' Q) :
    Runs (do
      create w file
      writeFragment w file (text "[")
      appendContents w file false (← get).pages
      writeFragment w file (text "]")
      k) s Q := by
  refine (create_runs w file counter).bind fun _ s₁ a => ?_
  refine (writeFragment_runs w file (text "[")).bind fun _ s₂ b => ?_
  have ab := a.add b
  refine get_runs.bind fun st s₃ h => ?_
  obtain ⟨rfl, rfl⟩ := h
  rw [ab.stage.pages]
  refine (appendContents_runs w file f b.charged.small false staged
    (by rw [ab.stage.parts, here])).bind fun _ s₃ c => ?_
  refine (writeFragment_runs w file (text "]")).bind fun _ s₄ d => rest s₄ ?_
  have whole := (ab.add c).add d
  rw [compact, ← flatMap_compactElements]
  exact whole

include counter here in
theorem markdownFile_runs {texts : List Text} (staged : Parts parts "-markdown.md" s.pages texts) :
    Runs (do
      create w file
      appendMarkdown w file false (← get).pages) s fun _ s' =>
      Made s s' file (List.intercalate (text "\n\n") (nonempty texts)) := by
  refine (create_runs w file counter).bind fun _ s₁ a => ?_
  refine get_runs.bind fun st s₂ h => ?_
  obtain ⟨rfl, rfl⟩ := h
  rw [a.stage.pages]
  exact (appendMarkdown_runs w file a.charged.small false staged
    (by rw [a.stage.parts, here])).weaken (fun _ s₂ b => a.add b) fun _ _ h => h

end Files

/-! ## The assembly -/

/-- What a page has handed to the stage. -/
structure PageParts where
  middle : Value
  model : Value
  content : List Value
  v2 : Value
  markdown : Text

/-- The parts of the pages, in the order of the pages, as the serializer wrote them. -/
structure StagedParts (f : NumberFormat) (s : Stage) (docs : List PageParts) : Prop where
  middle : Parts s.parts "-middle.json" s.pages (docs.map fun d => compact f d.middle)
  model : Parts s.parts "-model.json" s.pages (docs.map fun d => compact f d.model)
  content : Parts s.parts "-content.json" s.pages (docs.map fun d => compact f (.array d.content))
  v2 : Parts s.parts "-v2.json" s.pages (docs.map fun d => compact f d.v2)
  markdown : Parts s.parts "-markdown.md" s.pages (docs.map fun d => d.markdown)

/-- The middle document of all the pages. -/
def middleDocument (docs : List PageParts) : Value :=
  .object [(text "pdf_info", .array (docs.map fun d => d.middle)),
    (text "_backend", .string (text "vlm")), (text "_version_name", .string (text "3.4.5"))]

/-- The five files, serialized from the documents of all the pages. -/
def aggregates (f : NumberFormat) (stem : Text) (docs : List PageParts) : List (Text × Text) :=
  [(middleName stem, compact f (middleDocument docs)),
    (modelName stem, compact f (.array (docs.map fun d => d.model))),
    (contentName stem, compact f (.array (docs.map fun d => d.content).flatten)),
    (v2Name stem, compact f (.array (docs.map fun d => d.v2))),
    (markdownName stem, List.intercalate (text "\n\n") (nonempty (docs.map fun d => d.markdown)))]

/-- The bytes of the five files. -/
def written (f : NumberFormat) (stem : Text) (docs : List PageParts) : Nat :=
  ((aggregates f stem docs).map fun file => utf8Len file.2).sum

/-- The text of the middle file, written piece by piece, is the compact form of the whole
document. -/
theorem middleDocument_eq (f : NumberFormat) (docs : List PageParts) :
    text "\x7b\"pdf_info\":[" ++ withCommas (docs.map fun d => compact f d.middle) ++
      text "],\"_backend\":\"vlm\",\"_version_name\":\"3.4.5\"\x7d" =
    compact f (middleDocument docs) := by
  have elements : compactElements f (docs.map fun d => d.middle) =
      docs.map fun d => compact f d.middle := by
    rw [compactElements_eq, List.map_map]
    rfl
  rw [middleDocument, compact, compactMembers, compactMembers, compactMembers, compactMembers,
    compact, compact, compact, elements]
  generalize withCommas (docs.map fun d => compact f d.middle) = inner
  have opening : text "\x7b\"pdf_info\":[" =
      '\x7b' :: (writeString (text "pdf_info") ++ [':', '[']) := by decide
  have closing : text "],\"_backend\":\"vlm\",\"_version_name\":\"3.4.5\"\x7d" =
      [']'] ++ behindCommas [writeString (text "_backend") ++ ':' :: writeString (text "vlm"),
        writeString (text "_version_name") ++ ':' :: writeString (text "3.4.5")] ++ ['\x7d'] := by
    decide
  rw [opening, closing, withCommas]
  simp only [List.cons_append, List.append_assoc, List.nil_append]

/-- The same for a file that is an array of one value for each page. -/
theorem array_eq (f : NumberFormat) (docs : List PageParts) (part : PageParts → Value) :
    text "[" ++ withCommas (docs.map fun d => compact f (part d)) ++ text "]" =
      compact f (.array (docs.map part)) := by
  rw [compact, compactElements_eq, List.map_map]
  rfl

theorem names_distinct (stem : Text) :
    [markdownName stem, v2Name stem, contentName stem, modelName stem, middleName stem].Nodup := by
  have endings : [text ".md", text "_content_list_v2.json", text "_content_list.json",
      text "_model.json", text "_middle.json"].Nodup := by decide
  exact endings.map (List.append_right_injective stem)

/-- The files hold their texts, and their bytes have been charged. -/
structure Assembled (s s' : Stage) (files : List (Text × Text)) : Prop where
  stage : SameStage s s'
  made : ∀ file ∈ files, s'.files.get file.1 = some file.2
  charged : Charged s s' (files.map fun file => utf8Len file.2).sum

/-- The next file joins those that are assembled. It has a name of its own, so the others stay as
they are. -/
theorem Assembled.add {a b c : Stage} {files : List (Text × Text)} {name t : Text}
    (first : Assembled a b files) (second : Made b c name t)
    (fresh : name ∉ files.map Prod.fst) : Assembled a c (files ++ [(name, t)]) where
  stage := first.stage.trans second.stage
  made file among := by
    rcases List.mem_append.mp among with earlier | last
    · rw [second.others file.1 (fun same => fresh (same ▸ List.mem_map_of_mem earlier)),
        first.made file earlier]
    · rw [List.mem_singleton.mp last]
      exact second.made
  charged := by
    rw [List.map_append, List.sum_append]
    exact first.charged.trans first.stage (by simpa using second.charged)

/-- The five files in their order, each from the parts that the pages have staged. -/
theorem writeFinalOutputs_runs (f : NumberFormat) (w : World) {s : Stage} {docs : List PageParts}
    (staged : StagedParts f s docs) (counter : s.textBytes < 2 ^ 64) :
    Runs (writeFinalOutputs w) s fun _ s' => Assembled s s' (aggregates f s.stem docs) := by
  have distinct := names_distinct s.stem
  have start : Assembled s s [] := ⟨.rfl, by simp, .none counter rfl⟩
  unfold writeFinalOutputs
  refine get_runs.bind fun st s₀ h => ?_
  obtain ⟨rfl, rfl⟩ := h
  dsimp only
  refine (writeArray_runs w _ counter rfl _ _ _ staged.middle).bind fun _ s₁ middle => ?_
  rw [middleDocument_eq] at middle
  have a := start.add middle (by simp)
  refine (writeArray_runs w _ a.charged.small a.stage.parts _ _ _
    (by rw [a.stage.pages]; exact staged.model)).bind fun _ s₂ model => ?_
  rw [array_eq f docs fun d => d.model] at model
  have b := a.add model (by simp_all)
  have contents : Parts s₀.parts "-content.json" s₂.pages
      ((docs.map fun d => d.content).map fun vs => compact f (.array vs)) := by
    rw [b.stage.pages, List.map_map]
    exact staged.content
  refine contentFile_runs w _ b.charged.small b.stage.parts f contents fun s₃ content => ?_
  have c := b.add content (by simp_all)
  refine (writeArray_runs w _ c.charged.small c.stage.parts _ _ _
    (by rw [c.stage.pages]; exact staged.v2)).bind fun _ s₄ v2 => ?_
  rw [array_eq f docs fun d => d.v2] at v2
  have d := c.add v2 (by simp_all)
  refine (markdownFile_runs w _ d.charged.small d.stage.parts
    (by rw [d.stage.pages]; exact staged.markdown)).weaken (fun _ s₅ markdown => ?_) fun _ _ h => h
  have e := d.add markdown (by simp_all)
  simpa [aggregates] using e

/-- **A run that succeeds has written the five files as if each were serialized at once**, and has
charged what it wrote. The counter of the bytes saturates, which no limit below the largest one lets
happen. -/
theorem final_outputs_assembled (f : NumberFormat) (w : World) {s s' : Stage}
    {docs : List PageParts} (staged : StagedParts f s docs) (counter : s.textBytes < 2 ^ 64)
    (run : writeFinalOutputs w s = .ok () s') :
    (∀ file ∈ aggregates f s.stem docs, s'.files.get file.1 = some file.2) ∧
      s'.textBytes ≤ s.maxTextBytes ∧
      s'.textBytes = saturatingAdd s.textBytes (written f s.stem docs) ∧
      (s.maxTextBytes < 2 ^ 64 - 1 ∨ s.textBytes + written f s.stem docs < 2 ^ 64 →
        s'.textBytes = s.textBytes + written f s.stem docs) := by
  have a := writeFinalOutputs_runs f w staged counter
  unfold Runs After at a
  rw [run] at a
  have limit : s'.textBytes ≤ s.maxTextBytes := by
    refine a.charged.limit.resolve_right fun none => ?_
    have middle : utf8Len (compact f (middleDocument docs)) ≠ 0 :=
      mt utf8Len_eq_zero.mp (compact_ne_nil f _)
    simp only [aggregates, List.map_cons, List.sum_cons] at none
    omega
  have charged : s'.textBytes = saturatingAdd s.textBytes (written f s.stem docs) :=
    a.charged.counter
  refine ⟨a.made, limit, charged, fun bounded => ?_⟩
  unfold saturatingAdd at charged
  omega

/-- Two pages, the first without content and the second without Markdown. -/
def sampleDocs : List PageParts :=
  [⟨.null, .array [], [], .null, text "a"⟩, ⟨.null, .array [], [.bool true], .null, []⟩]

def sampleFormat : NumberFormat := ⟨fun _ => text "0", fun _ => by decide⟩

def sampleStage : Stage where
  stem := text "d"
  parts :=
    ((((((((((∅ : Table Text Text).set (partName 0 "-middle.json") (text "null")).set
      (partName 1 "-middle.json") (text "null")).set
      (partName 0 "-model.json") (text "[]")).set
      (partName 1 "-model.json") (text "[]")).set
      (partName 0 "-content.json") (text "[]")).set
      (partName 1 "-content.json") (text "[true]")).set
      (partName 0 "-v2.json") (text "null")).set
      (partName 1 "-v2.json") (text "null")).set
      (partName 0 "-markdown.md") (text "a")).set
      (partName 1 "-markdown.md") []
  files := ∅
  pages := [0, 1]
  textBytes := 0
  maxTextBytes := 1000
  clock := 0

def calm : World := ⟨fun _ => none, fun _ => false⟩

theorem sampleStaged : StagedParts sampleFormat sampleStage sampleDocs := by
  constructor <;>
    exact .cons (by decide) (.cons (by decide) .nil)

/-- The run has not failed. -/
def succeeds {α : Type} : EStateM.Result VlmError Stage α → Bool
  | .ok _ _ => true
  | .error _ _ => false

/-- A document of the sample pages, with no fault. -/
theorem final_outputs_assembled_sample : ∃ s', writeFinalOutputs calm sampleStage = .ok () s' ∧
    ∀ file ∈ aggregates sampleFormat (text "d") sampleDocs,
      s'.files.get file.1 = some file.2 := by
  have ends : succeeds (writeFinalOutputs calm sampleStage) = true := by decide +kernel
  cases run : writeFinalOutputs calm sampleStage with
  | ok _ s' =>
    exact ⟨s', rfl, (final_outputs_assembled sampleFormat calm sampleStaged (by decide) run).1⟩
  | error e s' =>
    rw [run] at ends
    cases ends

end Mineru.OfficialOutput
