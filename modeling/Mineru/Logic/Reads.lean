import Mineru.Logic.Regex

/-!
# Reading a text by an expression

`Reads e t groups rest` says what the preferred match of an expression at the beginning of a text is;
`Fails e t` says that there is none. The rules follow the expression. A sequence reads its first part
and then its second part, as long as the preferred match of the first part is one behind which the
second part matches; a lazy run is read by `Reads.lazy`, where it is the last one of which this holds.
-/

set_option autoImplicit false

namespace Mineru.Logic.Regex

/-- The preferred match at the beginning of the text. -/
def Reads (e : Expr) (t : List Char) (groups : Groups) (rest : List Char) : Prop :=
  ∀ prev, ∃ last, (outcomes e ⟨prev, t⟩).head? = some (⟨last, rest⟩, groups)

/-- No match at the beginning of the text. -/
def Fails (e : Expr) (t : List Char) : Prop := ∀ prev, outcomes e ⟨prev, t⟩ = []

section

variable {a b e : Expr} {p : Char → Bool} {t u rest middle : List Char} {g g' groups : Groups} {n : Nat}

/-! ## Matches -/

theorem Reads.matchAt (h : Reads e (u ++ rest) groups rest) :
    matchAt e (u ++ rest) = some (groups, u.length) := by
  obtain ⟨last, first⟩ := h none
  rw [Regex.matchAt, first, Option.map_some]
  dsimp only
  rw [List.length_append, Nat.add_sub_cancel]

theorem Fails.matchAt (h : Fails e t) : matchAt e t = none := by
  rw [Regex.matchAt, h none]
  rfl

/-- A text in which the expression matches nowhere is one gap. -/
theorem cut_matchAt_free {β : Type} (f : List Char → Groups × Nat → β × Nat)
    (none' : ∀ u, u <:+ t → Regex.matchAt e u = none) :
    Matches.cut (fun t => (Regex.matchAt e t).map (f t)) 0 t = ([], t) := by
  have free (u : List Char) (suffix : u <:+ t) :
      Matches.Free (fun t => (Regex.matchAt e t).map (f t)) u [] := by
    induction u with
    | nil => trivial
    | cons c u ih =>
      refine ⟨?_, ih ((List.suffix_cons c u).trans suffix)⟩
      rw [List.append_nil]
      dsimp only
      rw [none' _ suffix, Option.map_none]
  exact Matches.cut_free (free t List.suffix_rfl)

/-- Such a text is not changed. -/
theorem replaceAll_free {replacement : List Char → Groups → List Char}
    (none' : ∀ u, u <:+ t → Regex.matchAt e u = none) : replaceAll e replacement t = t := by
  let f (t : List Char) (found : Groups × Nat) : List Char × Nat :=
    (replacement (t.take found.2) found.1, found.2)
  have pieces : replaceAll e replacement t =
      ((Matches.cut (fun t => (Regex.matchAt e t).map (f t)) 0 t).1.flatMap
        fun piece => piece.1 ++ piece.2) ++
      (Matches.cut (fun t => (Regex.matchAt e t).map (f t)) 0 t).2 := rfl
  rw [pieces, cut_matchAt_free f none']
  rfl

/-! ## The parts of an expression -/

theorem outcomes_one_cons (p : Char → Bool) (prev : Option Char) (c : Char) (t : List Char) :
    outcomes (.one p) ⟨prev, c :: t⟩ = if p c then [(⟨some c, t⟩, [])] else [] := rfl

theorem outcomes_seq (a b : Expr) (place : Place) :
    outcomes (.seq a b) place = (outcomes a place).flatMap fun (middle, first) =>
      (outcomes b middle).map fun (stop, second) => (stop, first ++ second) := rfl

theorem outcomes_either (a b : Expr) (place : Place) :
    outcomes (.either a b) place = outcomes a place ++ outcomes b place := rfl

theorem outcomes_greedy (p : Char → Bool) (place : Place) :
    outcomes (.many true p) place =
      (runs p place.prev place.rest).reverse.map fun stop => (stop, []) := rfl

theorem outcomes_lazy (p : Char → Bool) (place : Place) :
    outcomes (.many false p) place = (runs p place.prev place.rest).map fun stop => (stop, []) := rfl

theorem outcomes_group (number : Nat) (a : Expr) (place : Place) :
    outcomes (.group number a) place = (outcomes a place).map fun (stop, groups) =>
      (stop, (number, between place stop) :: groups) := rfl

theorem head?_flatMap {α β : Type} {f : α → List β} {l : List α} {x : α} {y : β}
    (first : l.head? = some x) (next : (f x).head? = some y) : (l.flatMap f).head? = some y := by
  obtain ⟨l, rfl⟩ := List.head?_eq_some_iff.mp first
  rw [List.flatMap_cons, List.head?_append, next]
  rfl

theorem Reads.empty : Reads .empty t [] t := fun prev => ⟨prev, rfl⟩

theorem Reads.seq (first : Reads a t g middle) (second : Reads b middle g' rest) :
    Reads (.seq a b) t (g ++ g') rest := by
  intro prev
  obtain ⟨last, read⟩ := first prev
  obtain ⟨last', read'⟩ := second last
  refine ⟨last', head?_flatMap read ?_⟩
  rw [List.head?_map, read']
  rfl

theorem Fails.seq (first : Fails a t) : Fails (.seq a b) t := by
  intro prev
  rw [outcomes_seq, first prev, List.flatMap_nil]

theorem Reads.left (h : Reads a t g rest) : Reads (.either a b) t g rest := by
  intro prev
  obtain ⟨last, read⟩ := h prev
  refine ⟨last, ?_⟩
  rw [outcomes_either, List.head?_append, read]
  rfl

theorem Reads.right (fails : Fails a t) (h : Reads b t g rest) : Reads (.either a b) t g rest := by
  intro prev
  obtain ⟨last, read⟩ := h prev
  refine ⟨last, ?_⟩
  rw [outcomes_either, fails prev, List.nil_append, read]

/-- An optional part that does not match is left out. -/
theorem Reads.without (fails : Fails e t) : Reads (optional e) t [] t := .right fails .empty

theorem between_append (prev last : Option Char) (u rest : List Char) :
    between ⟨prev, u ++ rest⟩ ⟨last, rest⟩ = u := by
  rw [between, List.length_append, Nat.add_sub_cancel, List.take_left]

theorem Reads.group (h : Reads e (u ++ rest) g rest) :
    Reads (.group n e) (u ++ rest) ((n, u) :: g) rest := by
  intro prev
  obtain ⟨last, read⟩ := h prev
  refine ⟨last, ?_⟩
  rw [outcomes_group, List.head?_map, read, Option.map_some]
  dsimp only
  rw [between_append]

theorem Fails.group (h : Fails e t) : Fails (.group n e) t := by
  intro prev
  rw [outcomes_group, h prev, List.map_nil]

/-! ## Characters -/

theorem Reads.one {c : Char} (is : p c = true) : Reads (.one p) (c :: rest) [] rest := by
  intro prev
  refine ⟨some c, ?_⟩
  rw [outcomes_one_cons, if_pos is, List.head?_cons]

theorem literal_cons (c : Char) (word : List Char) :
    literal (c :: word) = .seq (.one fun d => d = c) (literal word) := rfl

theorem Reads.literal (word rest : List Char) : Reads (literal word) (word ++ rest) [] rest := by
  induction word with
  | nil => exact .empty
  | cons c word ih =>
    rw [literal_cons]
    exact Reads.seq (.one (decide_eq_true rfl)) ih

/-- A word only matches where it stands. -/
theorem literal_mem {word : List Char} {prev : Option Char} {found : Place × Groups}
    (mem : found ∈ outcomes (Regex.literal word) ⟨prev, t⟩) : t = word ++ found.1.rest := by
  induction word generalizing t prev found with
  | nil =>
    rw [List.mem_singleton.mp mem]
    rfl
  | cons c word ih =>
    rw [literal_cons, outcomes_seq] at mem
    obtain ⟨⟨middle, g⟩, first, second⟩ := List.mem_flatMap.mp mem
    obtain ⟨⟨stop, g'⟩, mem, rfl⟩ := List.mem_map.mp second
    cases t with
    | nil => exact absurd first List.not_mem_nil
    | cons d t =>
      simp only [outcomes_one_cons, decide_eq_true_eq] at first
      split at first
      · rename_i same
        obtain ⟨rfl, -⟩ := Prod.mk.inj (List.mem_singleton.mp first)
        rw [same, List.cons_append, ← ih mem]
      · exact absurd first List.not_mem_nil

theorem Fails.literal {word : List Char} (not : ¬ word <+: t) : Fails (Regex.literal word) t := by
  intro prev
  refine List.eq_nil_iff_forall_not_mem.mpr fun found mem => not ⟨found.1.rest, ?_⟩
  exact (literal_mem mem).symm

/-- Neither of two words is the beginning of the other. -/
theorem Fails.apart {word other : List Char} (apart : ¬ word <+: other ∧ ¬ other <+: word)
    (rest : List Char) : Fails (Regex.literal word) (other ++ rest) :=
  .literal fun h =>
    (List.prefix_or_prefix_of_prefix h (List.prefix_append _ _)).elim apart.1 apart.2

theorem eithers_cons (words : List (List Char)) (first second : List Char) :
    eithers ((first :: second :: words).map Regex.literal) =
      .either (Regex.literal first) (eithers ((second :: words).map Regex.literal)) := rfl

/-- One of some words, of which none is the beginning of another. -/
theorem Reads.words {words : List (List Char)} {word : List Char} (mem : word ∈ words)
    (apart : ∀ other ∈ words, other ≠ word → ¬ other <+: word ∧ ¬ word <+: other)
    (rest : List Char) : Reads (eithers (words.map Regex.literal)) (word ++ rest) [] rest := by
  induction words with
  | nil => exact absurd mem List.not_mem_nil
  | cons first words ih =>
    cases words with
    | nil =>
      rw [List.mem_singleton.mp mem]
      exact .literal first rest
    | cons second words =>
      rw [eithers_cons]
      by_cases same : first = word
      · rw [same]
        exact .left (.literal word rest)
      · have later := (List.mem_cons.mp mem).resolve_left (Ne.symm same)
        exact .right (.apart (apart first List.mem_cons_self same) rest)
          (ih later fun other mem => apart other (List.mem_cons_of_mem _ mem))

theorem words_mem {words : List (List Char)} (some : words ≠ []) {prev : Option Char}
    {found : Place × Groups} (mem : found ∈ outcomes (eithers (words.map Regex.literal)) ⟨prev, t⟩) :
    ∃ word ∈ words, t = word ++ found.1.rest := by
  induction words with
  | nil => exact absurd rfl some
  | cons first words ih =>
    cases words with
    | nil => exact ⟨first, List.mem_singleton_self _, literal_mem mem⟩
    | cons second words =>
      rw [eithers_cons, outcomes_either] at mem
      rcases List.mem_append.mp mem with here | later
      · exact ⟨first, List.mem_cons_self, literal_mem here⟩
      · obtain ⟨word, listed, is⟩ := ih (List.cons_ne_nil _ _) later
        exact ⟨word, List.mem_cons_of_mem _ listed, is⟩

/-! ## Groups -/

theorem runs_suffix {place : Place} {prev : Option Char} (mem : place ∈ runs p prev t) :
    place.rest <:+ t := by
  induction t generalizing prev with
  | nil => rw [List.mem_singleton.mp mem]
  | cons c t ih =>
    rw [runs] at mem
    rcases List.mem_cons.mp mem with rfl | later
    · exact List.suffix_rfl
    · split at later
      · exact (ih later).trans (List.suffix_cons c t)
      · exact absurd later List.not_mem_nil

/-- What is left of the text is its end. -/
theorem outcomes_suffix {place : Place} {found : Place × Groups} (mem : found ∈ outcomes e place) :
    found.1.rest <:+ place.rest := by
  induction e generalizing place found with
  | empty => rw [List.mem_singleton.mp mem]
  | one p =>
    obtain ⟨prev, t⟩ := place
    cases t with
    | nil => exact absurd mem List.not_mem_nil
    | cons c t =>
      rw [outcomes_one_cons] at mem
      split at mem
      · rw [List.mem_singleton.mp mem]
        exact List.suffix_cons c t
      · exact absurd mem List.not_mem_nil
  | seq a b first second =>
    obtain ⟨⟨middle, g⟩, before, behind⟩ := List.mem_flatMap.mp mem
    obtain ⟨⟨stop, g'⟩, there, rfl⟩ := List.mem_map.mp behind
    exact (second there).trans (first before)
  | either a b first second =>
    rcases List.mem_append.mp mem with left | right
    · exact first left
    · exact second right
  | many greedy p =>
    obtain ⟨stop, there, rfl⟩ := List.mem_map.mp mem
    cases greedy with
    | true => exact runs_suffix (List.mem_reverse.mp there)
    | false => exact runs_suffix there
  | group number a inner =>
    obtain ⟨⟨stop, g⟩, there, rfl⟩ := List.mem_map.mp mem
    have suffix := inner there
    exact suffix
  | lineStart | lineEnd | textEnd =>
    unfold outcomes at mem
    split at mem
    · rw [List.mem_singleton.mp mem]
    · exact absurd mem List.not_mem_nil

/-- A word fills no group. -/
theorem literal_groups {word : List Char} {place : Place} {found : Place × Groups}
    (mem : found ∈ outcomes (Regex.literal word) place) : found.2 = [] := by
  induction word generalizing place found with
  | nil => rw [List.mem_singleton.mp mem]
  | cons c word ih =>
    obtain ⟨⟨middle, g⟩, first, second⟩ := List.mem_flatMap.mp mem
    obtain ⟨⟨stop, g'⟩, there, rfl⟩ := List.mem_map.mp second
    obtain ⟨prev, t⟩ := place
    have empty : g = [] := by
      cases t with
      | nil => exact absurd first List.not_mem_nil
      | cons d t =>
        rw [outcomes_one_cons] at first
        split at first
        · exact (Prod.mk.inj (List.mem_singleton.mp first)).2
        · exact absurd first List.not_mem_nil
    have rest : g' = [] := ih there
    show g ++ g' = []
    rw [empty, rest]
    rfl

/-- A group behind a word, that begins with another word, holds that word. -/
theorem group_starts {first word : List Char} {place : Place} {found : Place × Groups}
    (mem : found ∈ outcomes
      (.seq (Regex.literal first) (.seq (.group n (.seq (Regex.literal word) a)) b)) place) :
    ∃ u, found.2.get n = some (word ++ u) := by
  obtain ⟨⟨start, g⟩, before, behind⟩ := List.mem_flatMap.mp mem
  obtain ⟨⟨stop, g'⟩, second, rfl⟩ := List.mem_map.mp behind
  obtain ⟨⟨last, g''⟩, grouped, third⟩ := List.mem_flatMap.mp second
  obtain ⟨⟨end', g₃⟩, -, same⟩ := List.mem_map.mp third
  obtain ⟨⟨place', g₄⟩, inner, same'⟩ := List.mem_map.mp grouped
  obtain ⟨⟨middle, g₅⟩, worded, tail⟩ := List.mem_flatMap.mp inner
  obtain ⟨⟨place'', g₆⟩, there, same''⟩ := List.mem_map.mp tail
  obtain ⟨rfl, -⟩ := Prod.mk.inj same''
  obtain ⟨rfl, rfl⟩ := Prod.mk.inj same'
  obtain ⟨rfl, rfl⟩ := Prod.mk.inj same
  have empty : g = [] := literal_groups before
  have starts : start.rest = word ++ middle.rest := literal_mem worded
  obtain ⟨u, split⟩ := outcomes_suffix there
  have split : u ++ place''.rest = middle.rest := split
  have held : between start place'' = word ++ u := by
    rw [between, starts, ← split, ← List.append_assoc, List.length_append, Nat.add_sub_cancel,
      List.take_left]
  refine ⟨u, ?_⟩
  show List.lookup n (g ++ ((n, between start place'') :: g₄ ++ g₃)) = _
  rw [empty, held]
  exact List.lookup_cons_self

/-- An expression that matches at the beginning is found there. -/
theorem Reads.find (h : Reads e t groups rest) (prev : Option Char) :
    Regex.find e prev t = some ⟨[], groups, rest⟩ := by
  obtain ⟨last, is⟩ := h prev
  unfold Regex.find
  rw [is]

/-! ## Runs -/

/-- The last place of a run, where it stops. -/
theorem runs_getLast? {run : List Char} (all : ∀ c ∈ run, p c = true)
    (stops : ∀ c ∈ rest.head?, p c = false) (prev : Option Char) :
    ∃ last, (runs p prev (run ++ rest)).getLast? = some ⟨last, rest⟩ := by
  induction run generalizing prev with
  | nil =>
    refine ⟨prev, ?_⟩
    cases rest with
    | nil => rfl
    | cons c rest => simp only [List.nil_append, runs, stops c rfl, Bool.false_eq_true, if_false,
        List.getLast?_singleton]
  | cons c run ih =>
    obtain ⟨last, is⟩ := ih (fun d mem => all d (List.mem_cons_of_mem c mem)) (some c)
    refine ⟨last, ?_⟩
    rw [List.cons_append, runs, if_pos (all c List.mem_cons_self), List.getLast?_cons, is]
    rfl

theorem Reads.many {run : List Char} (all : ∀ c ∈ run, p c = true)
    (stops : ∀ c ∈ rest.head?, p c = false) : Reads (.many true p) (run ++ rest) [] rest := by
  intro prev
  obtain ⟨last, is⟩ := runs_getLast? all stops prev
  refine ⟨last, ?_⟩
  simp only [outcomes_greedy, List.head?_map, List.head?_reverse, is, Option.map_some]

theorem Reads.plus {run : List Char} (some : run ≠ []) (all : ∀ c ∈ run, p c = true)
    (stops : ∀ c ∈ rest.head?, p c = false) : Reads (plus p) (run ++ rest) [] rest := by
  obtain ⟨c, run, rfl⟩ := List.exists_cons_of_ne_nil some
  exact Reads.seq (.one (all c List.mem_cons_self))
    (.many (fun d mem => all d (List.mem_cons_of_mem c mem)) stops)

/-- A search along a run that only succeeds at its end. -/
theorem head?_runs {β : Type} {f : Place → List β} {run : List Char} (all : ∀ c ∈ run, p c = true)
    (fails : ∀ prev c t, p c = true → f ⟨prev, c :: t⟩ = [])
    (found : ∀ last, ∃ x, (f ⟨last, rest⟩).head? = some x) (prev : Option Char) :
    ∃ last, ((runs p prev (run ++ rest)).flatMap f).head? = (f ⟨last, rest⟩).head? := by
  induction run generalizing prev with
  | nil =>
    refine ⟨prev, ?_⟩
    obtain ⟨x, is⟩ := found prev
    cases rest with
    | nil => simp only [runs, List.flatMap_cons, List.flatMap_nil, List.append_nil]
    | cons c rest =>
      rw [List.nil_append, runs, List.flatMap_cons, List.head?_append, is]
      rfl
  | cons c run ih =>
    have here := all c List.mem_cons_self
    obtain ⟨last, is⟩ := ih (fun d mem => all d (List.mem_cons_of_mem c mem)) (some c)
    refine ⟨last, ?_⟩
    rw [List.cons_append, runs, if_pos here, List.flatMap_cons, fails prev c _ here, List.nil_append, is]

/-- A lazy run in a group of its own, with what follows it. -/
theorem Reads.lazy {run : List Char} (some : run ≠ []) (all : ∀ c ∈ run, p c = true)
    (fails : ∀ c t, p c = true → Fails b (c :: t)) (next : Reads b middle g rest) :
    Reads (.seq (.group n (.seq (.one p) (.many false p))) b) (run ++ middle) ((n, run) :: g) rest := by
  intro prev
  obtain ⟨c, run, rfl⟩ := List.exists_cons_of_ne_nil some
  have here := all c List.mem_cons_self
  let start : Place := ⟨prev, c :: (run ++ middle)⟩
  let f (stop : Place) : List (Place × Groups) :=
    (outcomes b stop).map fun (last, groups) => (last, (n, between start stop) :: groups)
  have search : outcomes (.seq (.group n (.seq (.one p) (.many false p))) b) start =
      (runs p (Option.some c) (run ++ middle)).flatMap f := by
    simp only [outcomes_seq, outcomes_group, outcomes_one_cons, outcomes_lazy, start, f, here, if_true,
      List.flatMap_cons, List.flatMap_nil, List.append_nil, List.map_map, List.flatMap_map]
    rfl
  have found (last : Option Char) : ∃ stop, (f ⟨last, middle⟩).head? =
      Option.some (⟨stop, rest⟩, (n, c :: run) :: g) := by
    obtain ⟨stop, read⟩ := next last
    refine ⟨stop, ?_⟩
    rw [List.head?_map, read, Option.map_some]
    have cut : between start ⟨last, middle⟩ = c :: run := between_append prev last (c :: run) middle
    rw [cut]
  have inside (prev : Option Char) (d : Char) (t : List Char) (is : p d = true) :
      f ⟨prev, d :: t⟩ = [] := List.map_eq_nil_iff.mpr (fails d t is prev)
  obtain ⟨last, is⟩ := head?_runs (fun d mem => all d (List.mem_cons_of_mem c mem)) inside
    (fun last => (found last).imp' _ fun _ is => is) (Option.some c)
  obtain ⟨stop, read⟩ := found last
  exact ⟨stop, (congrArg List.head? search).trans (is.trans read)⟩

end

end Mineru.Logic.Regex
