import Mineru.Laws.Text
import Mineru.Stems.Unique

/-!
# What `unique_stems` returns

A candidate is a cut of the name with its suffix after it, and lower-casing leaves the suffix where
it is; so candidates of different counters have different keys, and among more counters than there
are keys to avoid one is free (`exists_free`). That is the termination of the inner loop. `Named` is
the invariant of the loop over the stems, and every fact about the output is read off it.
-/

set_option autoImplicit false

namespace Mineru.Stems

/-! ## Cutting -/

theorem truncateUtf8_starts (t : Text) (max : Nat) : truncateUtf8 t max <+: t := by
  induction t generalizing max with
  | nil => exact List.prefix_refl _
  | cons c rest ih =>
    unfold truncateUtf8
    split
    · exact (List.prefix_cons_inj c).mpr (ih _)
    · exact List.nil_prefix

/-- The cut fits, also where the limit falls inside of a character. -/
theorem truncateUtf8_len (t : Text) (max : Nat) : utf8Len (truncateUtf8 t max) ≤ max := by
  induction t generalizing max with
  | nil => exact Nat.zero_le _
  | cons c rest ih =>
    unfold truncateUtf8
    split
    · next fits =>
      have := ih (max - c.utf8Size)
      rw [utf8Len_cons]
      omega
    · exact Nat.zero_le _

theorem truncateUtf8_of_le {t : Text} {max : Nat} (h : utf8Len t ≤ max) :
    truncateUtf8 t max = t := by
  induction t generalizing max with
  | nil => rfl
  | cons c rest ih =>
    rw [utf8Len_cons] at h
    rw [truncateUtf8, if_pos (by omega), ih (by omega)]

/-- A limit of four bytes leaves at least the first character. -/
theorem truncateUtf8_eq_nil {t : Text} {max : Nat} (room : 4 ≤ max) :
    truncateUtf8 t max = [] ↔ t = [] := by
  cases t with
  | nil => exact Iff.rfl
  | cons c rest =>
    have fits : c.utf8Size ≤ max := c.utf8Size_le_four.trans room
    simp only [truncateUtf8, if_pos fits, reduceCtorEq]

/-- Either nothing was cut, or less than one character's room is left. -/
theorem truncateUtf8_full (t : Text) (max : Nat) :
    truncateUtf8 t max = t ∨ max < utf8Len (truncateUtf8 t max) + 4 := by
  induction t generalizing max with
  | nil => exact Or.inl rfl
  | cons c rest ih =>
    unfold truncateUtf8
    split
    · next fits =>
      rcases ih (max - c.utf8Size) with whole | full
      · exact Or.inl (congrArg (c :: ·) whole)
      · rw [utf8Len_cons]
        exact Or.inr (by omega)
    · have := c.utf8Size_le_four
      exact Or.inr (by rw [utf8Len_nil]; omega)

/-! ## Candidates -/

/-- A suffix of fewer than 200 bytes always stays whole. -/
theorem candidate_eq {stem sfx : Text} (h : utf8Len sfx < 200) :
    candidate stem sfx = truncateUtf8 stem (200 - utf8Len sfx) ++ sfx := by
  unfold candidate
  split
  · next fits => rw [truncateUtf8_of_le (by omega)]
  · rw [if_neg (by omega)]

/-- A candidate has at most 200 bytes with its suffix. -/
theorem candidate_len (stem sfx : Text) : utf8Len (candidate stem sfx) ≤ 200 := by
  by_cases short : utf8Len sfx < 200
  · have := truncateUtf8_len stem (200 - utf8Len sfx)
    rw [candidate_eq short, utf8Len_append]
    omega
  · unfold candidate
    split
    · next fits => rw [utf8Len_append]; exact fits
    · rw [if_pos (by omega)]
      exact truncateUtf8_len sfx 200

theorem suffix_eq (n : Nat) : suffix n = '_' :: Nat.toDigits 10 n :=
  congrArg ('_' :: ·) Nat.toList_repr

theorem suffix_digit {n : Nat} {c : Char} (h : c ∈ Nat.toDigits 10 n) :
    c.isDigit ∧ c.toNat < 128 := by
  have digit := Nat.isDigit_of_mem_toDigits (by decide) (by decide) h
  refine ⟨digit, ?_⟩
  have bounds : 48 ≤ c.toNat ∧ c.toNat ≤ 57 := by
    simpa [Char.isDigit, UInt32.le_iff_toNat_le] using digit
  omega

/-- A suffix is ASCII without letters, so lower-casing leaves it alone. -/
theorem suffix_plain {n : Nat} {c : Char} (h : c ∈ suffix n) :
    c.toNat < 128 ∧ (c = '_' ∨ c.isDigit) := by
  rw [suffix_eq] at h
  rcases List.mem_cons.mp h with rfl | digit
  · exact ⟨by decide, Or.inl rfl⟩
  · exact ⟨(suffix_digit digit).2, Or.inr (suffix_digit digit).1⟩

theorem suffix_len {n : Nat} (h : n < 10 ^ 21) : utf8Len (suffix n) ≤ 22 := by
  have digits := (Nat.length_toDigits_le_iff (b := 10) (by decide) (by decide)).mpr h
  rw [utf8Len_ascii fun c mem => (suffix_plain mem).1, suffix_eq, List.length_cons]
  omega

/-- The digits of a name are what follows its last underscore. -/
theorem suffix_inj {a b : Text} {n m : Nat} (h : a ++ suffix n = b ++ suffix m) : n = m := by
  have tail : ∀ (t : Text) (k : Nat),
      (t ++ suffix k).reverse.takeWhile (· ≠ '_') = (Nat.toDigits 10 k).reverse := by
    intro t k
    rw [suffix_eq, List.reverse_append, List.reverse_cons, List.append_assoc]
    rw [List.takeWhile_append_of_pos]
    · rw [List.singleton_append, List.takeWhile_cons_of_neg (by decide), List.append_nil]
    · intro c mem
      refine decide_eq_true fun isUnderscore => ?_
      exact Nat.underscore_not_in_toDigits (isUnderscore ▸ List.mem_reverse.mp mem)
  have digits : Nat.toDigits 10 n = Nat.toDigits 10 m := by
    rw [← List.reverse_inj, ← tail a n, ← tail b m, h]
  rw [← @Nat.ofDigitChars_ten_toDigits n, ← @Nat.ofDigitChars_ten_toDigits m, digits]

/-! ## The search -/

section
variable {T : CaseTables}

/-- The key that the loop gives a stem: that of its cut. -/
def stemKey (T : CaseTables) (stem : Text) : Text := foldKey T (truncateUtf8 stem 200)

theorem suffix_caseless (n : Nat) : T.Caseless (suffix n) := by
  intro c mem
  obtain ⟨ascii, plain⟩ := suffix_plain mem
  refine ⟨?_, ?_⟩
  · rintro rfl
    exact absurd ascii (by decide)
  · rw [T.ascii c ascii]
    rcases plain with rfl | digit
    · rfl
    · have : ¬ c.isUpper := by
        have bounds : 48 ≤ c.toNat ∧ c.toNat ≤ 57 := by
          simpa [Char.isDigit, UInt32.le_iff_toNat_le] using digit
        simp only [Char.isUpper, ge_iff_le, UInt32.le_iff_toNat_le, decide_eq_true_eq, not_and]
        intro upper
        have : (65 : Nat) ≤ c.toNat := upper
        omega
      rw [Char.toLower_eq_of_not_isUpper this]

/-- Candidates of different counters have different keys. -/
theorem foldKey_candidate_inj {base : Text} {n m : Nat} (hn : n < 10 ^ 21) (hm : m < 10 ^ 21)
    (h : foldKey T (candidate base (suffix n)) = foldKey T (candidate base (suffix m))) :
    n = m := by
  have short : ∀ k, k < 10 ^ 21 → utf8Len (suffix k) < 200 := fun k small =>
    (suffix_len small).trans_lt (by decide)
  rw [candidate_eq (short n hn), candidate_eq (short m hm)] at h
  obtain ⟨a, left⟩ := CaseTables.toLowercase_append (T := T)
    (t := truncateUtf8 base (200 - utf8Len (suffix n))) (suffix_caseless n)
  obtain ⟨b, right⟩ := CaseTables.toLowercase_append (T := T)
    (t := truncateUtf8 base (200 - utf8Len (suffix m))) (suffix_caseless m)
  unfold foldKey at h
  rw [left, right] at h
  exact suffix_inj h

/-- The test of the inner loop. -/
def Free (T : CaseTables) (raw assigned : List Text) (base : Text) (n : Nat) : Prop :=
  foldKey T (candidate base (suffix n)) ∉ raw ∧ foldKey T (candidate base (suffix n)) ∉ assigned

/-- Among more counters than there are keys to avoid, one is free. -/
theorem exists_free (raw assigned : List Text) (base : Text) (n : Nat)
    (small : n + (raw.length + assigned.length) < 10 ^ 21) :
    ∃ m, n ≤ m ∧ m ≤ n + (raw.length + assigned.length) ∧ Free T raw assigned base m := by
  by_contra none
  have taken : ∀ m, n ≤ m → m ≤ n + (raw.length + assigned.length) →
      foldKey T (candidate base (suffix m)) ∈ raw ++ assigned := by
    intro m low high
    by_contra free
    rw [List.mem_append, not_or] at free
    exact none ⟨m, low, high, free⟩
  let keys := (List.range (raw.length + assigned.length + 1)).map fun i =>
    foldKey T (candidate base (suffix (n + i)))
  have distinct : keys.Nodup := by
    refine List.Nodup.map_on ?_ List.nodup_range
    intro i hi j hj same
    rw [List.mem_range] at hi hj
    have := foldKey_candidate_inj (by omega) (by omega) same
    omega
  have inside : keys ⊆ raw ++ assigned := by
    intro key mem
    obtain ⟨i, hi, rfl⟩ := List.mem_map.mp mem
    rw [List.mem_range] at hi
    exact taken (n + i) (by omega) (by omega)
  have := (List.subperm_of_subset distinct inside).length_le
  rw [List.length_map, List.length_range, List.length_append] at this
  omega

/-- With turns to spare for a free counter, the search finds the first free one. -/
theorem searchSuffix_finds {raw assigned : List Text} {base : Text} {m : Nat}
    (free : Free T raw assigned base m) (fuel n : Nat) (low : n ≤ m) (enough : m < n + fuel) :
    ∃ value, searchSuffix T raw assigned base fuel n = some value := by
  induction fuel generalizing n with
  | zero => exact absurd enough (by omega)
  | succ fuel ih =>
    unfold searchSuffix
    dsimp only
    split
    · exact ⟨_, rfl⟩
    · next busy =>
      have : n ≠ m := by
        rintro rfl
        exact busy free
      exact ih (n + 1) (by omega) (by omega)

/-- What the search returns: the candidate of the first free counter. -/
theorem searchSuffix_some {raw assigned : List Text} {base value : Text} {fuel n : Nat}
    (h : searchSuffix T raw assigned base fuel n = some value) :
    ∃ m, n ≤ m ∧ Free T raw assigned base m ∧ value = candidate base (suffix m) ∧
      ∀ k, n ≤ k → k < m → ¬ Free T raw assigned base k := by
  induction fuel generalizing n with
  | zero => cases h
  | succ fuel ih =>
    unfold searchSuffix at h
    dsimp only at h
    split at h
    · next free =>
      cases h
      exact ⟨n, le_refl n, free, rfl, fun k low high => absurd low (by omega)⟩
    · next busy =>
      obtain ⟨m, low, free, value, before⟩ := ih h
      refine ⟨m, by omega, free, value, ?_⟩
      intro k low' high
      rcases Nat.eq_or_lt_of_le low' with rfl | later
      · exact busy
      · exact before k later high

/-- More fuel does not change what was found. -/
theorem searchSuffix_more {raw assigned : List Text} {base value : Text} {fuel more n : Nat}
    (h : searchSuffix T raw assigned base fuel n = some value) (le : fuel ≤ more) :
    searchSuffix T raw assigned base more n = some value := by
  induction fuel generalizing n more with
  | zero => cases h
  | succ fuel ih =>
    obtain ⟨more, rfl⟩ := Nat.exists_eq_succ_of_ne_zero (by omega : more ≠ 0)
    unfold searchSuffix at h ⊢
    dsimp only at h ⊢
    split
    · next free => rwa [if_pos free] at h
    · next busy =>
      rw [if_neg busy] at h
      exact ih h (by omega)

/-! ## One stem -/

/-- The name of `stem` after the stems `earlier`. -/
inductive NamedAfter (T : CaseTables) (raw earlier : List Text) (stem : Text) : Text → Prop where
  | kept (new : stemKey T stem ∉ earlier.map (stemKey T)) :
    NamedAfter T raw earlier stem (truncateUtf8 stem 200)
  | suffixed (n : Nat) (again : stemKey T stem ∈ earlier.map (stemKey T)) (small : n < 10 ^ 21)
      (free : foldKey T (candidate (truncateUtf8 stem 200) (suffix n)) ∉ raw) :
    NamedAfter T raw earlier stem (candidate (truncateUtf8 stem 200) (suffix n))

/-- The invariant of the loop once it has passed the stems `done`. -/
structure Named (T : CaseTables) (raw done : List Text) (st : Naming) : Prop where
  length : st.out.length = done.length
  assigned : st.assigned = (st.out.map (foldKey T)).reverse
  distinct : (st.out.map (foldKey T)).Nodup
  counts_le : ∀ k, st.counts k ≤ done.length
  counts_zero : ∀ k, st.counts k = 0 ↔ k ∉ done.map (stemKey T)
  reserved : ∀ k ∈ st.out.map (foldKey T), k ∈ raw → k ∈ done.map (stemKey T)
  named : ∀ (i : Nat) (stem value : Text), done[i]? = some stem → st.out[i]? = some value →
    NamedAfter T raw (done.take i) stem value

theorem Named.start {raw : List Text} : Named T raw [] {} where
  length := rfl
  assigned := rfl
  distinct := List.nodup_nil
  counts_le _ := le_refl 0
  counts_zero k := ⟨fun _ => List.not_mem_nil, fun _ => rfl⟩
  reserved _ mem := absurd mem List.not_mem_nil
  named i stem value h := by cases h

theorem base_eq (stem : Text) :
    (if (truncateUtf8 stem 200).isEmpty then stem else truncateUtf8 stem 200) =
      truncateUtf8 stem 200 := by
  split
  · next empty =>
    have nil := List.isEmpty_iff.mp empty
    rw [nil, (truncateUtf8_eq_nil (by decide)).mp nil]
  · rfl

/-- What naming a stem leaves behind, whatever the name. -/
def Naming.give (T : CaseTables) (st : Naming) (stem value : Text) : Naming where
  counts := Function.update st.counts (stemKey T stem) (st.counts (stemKey T stem) + 1)
  assigned := foldKey T value :: st.assigned
  out := st.out ++ [value]

@[simp] theorem Naming.give_counts (st : Naming) (stem value : Text) :
    (st.give T stem value).counts =
      Function.update st.counts (stemKey T stem) (st.counts (stemKey T stem) + 1) := rfl

@[simp] theorem Naming.give_out (st : Naming) (stem value : Text) :
    (st.give T stem value).out = st.out ++ [value] := rfl

/-- One turn of the loop: the stem itself when it is free, and the next free candidate otherwise. -/
theorem nameOne_eq (raw : List Text) (fuel : Nat) (st : Naming) (stem : Text) :
    nameOne T raw fuel st stem (truncateUtf8 stem 200) =
      (if st.counts (stemKey T stem) = 0 ∧ stemKey T stem ∉ st.assigned then
          some (truncateUtf8 stem 200)
        else searchSuffix T raw st.assigned (truncateUtf8 stem 200) fuel
          (st.counts (stemKey T stem) + 1)).map (st.give T stem) := by
  unfold nameOne
  rw [base_eq]
  by_cases new : st.counts (stemKey T stem) = 0 ∧ stemKey T stem ∉ st.assigned
  · rw [if_pos new]
    exact if_pos new
  · rw [if_neg new, Option.map_eq_bind]
    exact if_neg new

section
variable {raw done : List Text} {st : Naming} {stem : Text}

/-- A key is new exactly if it has not been given to an earlier stem or name. -/
theorem Named.new_iff (inv : Named T raw done st) (mine : stemKey T stem ∈ raw) :
    (st.counts (stemKey T stem) = 0 ∧ stemKey T stem ∉ st.assigned) ↔
      stemKey T stem ∉ done.map (stemKey T) := by
  constructor
  · intro new
    exact (inv.counts_zero _).mp new.1
  · intro new
    refine ⟨(inv.counts_zero _).mpr new, fun mem => new ?_⟩
    rw [inv.assigned, List.mem_reverse] at mem
    exact inv.reserved _ mem mine

/-- Giving a stem a name of its own keeps the invariant. -/
theorem Named.give {value : Text} (inv : Named T raw done st)
    (fresh : foldKey T value ∉ st.assigned)
    (reserved : foldKey T value ∈ raw → foldKey T value ∈ (done ++ [stem]).map (stemKey T))
    (name : NamedAfter T raw done stem value) :
    Named T raw (done ++ [stem]) (st.give T stem value) where
  length := by
    rw [Naming.give_out, List.length_append, List.length_append, inv.length]
    rfl
  assigned := by
    rw [Naming.give_out, List.map_append, List.reverse_append, ← inv.assigned]
    rfl
  distinct := by
    rw [inv.assigned, List.mem_reverse] at fresh
    rw [Naming.give_out, List.map_append, List.nodup_append]
    refine ⟨inv.distinct, List.nodup_singleton _, ?_⟩
    intro a old b new same
    rw [List.map_singleton, List.mem_singleton] at new
    exact fresh (new ▸ same ▸ old)
  counts_le k := by
    rw [Naming.give_counts, List.length_append, List.length_singleton]
    by_cases same : k = stemKey T stem
    · rw [same, Function.update_self]
      exact Nat.succ_le_succ (inv.counts_le _)
    · rw [Function.update_of_ne same]
      exact (inv.counts_le k).trans (Nat.le_succ _)
  counts_zero k := by
    rw [Naming.give_counts, List.map_append, List.mem_append, List.map_singleton,
      List.mem_singleton, not_or]
    by_cases same : k = stemKey T stem
    · rw [same, Function.update_self]
      exact ⟨fun zero => absurd zero (Nat.succ_ne_zero _), fun h => absurd rfl h.2⟩
    · rw [Function.update_of_ne same]
      exact ⟨fun zero => ⟨(inv.counts_zero k).mp zero, same⟩, fun h => (inv.counts_zero k).mpr h.1⟩
  reserved k mem inRaw := by
    rw [Naming.give_out, List.map_append, List.mem_append] at mem
    rcases mem with old | new
    · rw [List.map_append]
      exact List.mem_append_left _ (inv.reserved k old inRaw)
    · rw [List.map_singleton, List.mem_singleton] at new
      subst new
      exact reserved inRaw
  named i stem' value' hs hv := by
    rw [Naming.give_out] at hv
    rcases Nat.lt_trichotomy i done.length with before | rfl | after
    · rw [List.getElem?_append_left before] at hs
      rw [List.getElem?_append_left (inv.length ▸ before)] at hv
      rw [List.take_append_of_le_length (Nat.le_of_lt before)]
      exact inv.named i stem' value' hs hv
    · rw [List.getElem?_concat_length] at hs
      rw [← inv.length, List.getElem?_concat_length] at hv
      cases hs
      cases hv
      rw [List.take_left]
      exact name
    · have past : (done ++ [stem]).length ≤ i := by
        rw [List.length_append, List.length_singleton]
        exact after
      rw [List.getElem?_eq_none past] at hs
      cases hs

/-- One turn of the loop keeps the invariant. -/
theorem nameOne_named {fuel : Nat} {st' : Naming} (inv : Named T raw done st)
    (mine : stemKey T stem ∈ raw) (small : raw.length + 2 * done.length + 1 < 10 ^ 21)
    (h : nameOne T raw fuel st stem (truncateUtf8 stem 200) = some st') :
    Named T raw (done ++ [stem]) st' := by
  rw [nameOne_eq] at h
  obtain ⟨value, chosen, rfl⟩ := Option.map_eq_some_iff.mp h
  split at chosen
  · next new =>
    cases chosen
    refine inv.give new.2 (fun _ => ?_) (.kept ((inv.new_iff mine).mp new))
    exact List.mem_map_of_mem (List.mem_append_right done List.mem_cons_self)
  · next again =>
    have assigned : st.assigned.length = done.length := by
      rw [inv.assigned, List.length_reverse, List.length_map, inv.length]
    have counted := inv.counts_le (stemKey T stem)
    obtain ⟨m, low, free, rfl, first⟩ := searchSuffix_some chosen
    obtain ⟨k, low', high, free'⟩ := exists_free (T := T) raw st.assigned (truncateUtf8 stem 200)
      (st.counts (stemKey T stem) + 1) (by omega)
    have le : m ≤ k := Nat.le_of_not_lt fun above => first k low' above free'
    rw [inv.new_iff mine, not_not] at again
    exact inv.give free.2 (fun inRaw => absurd inRaw free.1)
      (.suffixed m again (by omega) free.1)

/-- One turn of the loop ends once it has more turns than there are keys to avoid. -/
theorem nameOne_ends (stem : Text) (fuel : Nat) (inv : Named T raw done st)
    (small : raw.length + 2 * done.length + 1 < 10 ^ 21)
    (enough : raw.length + done.length < fuel) :
    ∃ st', nameOne T raw fuel st stem (truncateUtf8 stem 200) = some st' := by
  rw [nameOne_eq]
  split
  · exact ⟨_, rfl⟩
  · have assigned : st.assigned.length = done.length := by
      rw [inv.assigned, List.length_reverse, List.length_map, inv.length]
    have counted := inv.counts_le (stemKey T stem)
    obtain ⟨k, low, high, free⟩ := exists_free (T := T) raw st.assigned (truncateUtf8 stem 200)
      (st.counts (stemKey T stem) + 1) (by omega)
    obtain ⟨value, found⟩ := searchSuffix_finds free fuel _ low (by omega)
    rw [found]
    exact ⟨_, rfl⟩

end

/-! ## All stems -/

/-- The loop keeps the invariant over all stems. -/
theorem nameAll_named {raw : List Text} {fuel : Nat} (stems : List Text) :
    ∀ (done : List Text) (st st' : Naming), Named T raw done st →
      (∀ stem ∈ stems, stemKey T stem ∈ raw) →
      raw.length + 2 * (done.length + stems.length) < 10 ^ 21 →
      nameAll T raw fuel st stems = some st' → Named T raw (done ++ stems) st' := by
  induction stems with
  | nil =>
    intro done st st' inv _ _ h
    cases h
    rwa [List.append_nil]
  | cons stem rest ih =>
    intro done st st' inv mine small h
    rw [List.length_cons] at small
    obtain ⟨next, one, all⟩ := Option.bind_eq_some_iff.mp h
    have step := nameOne_named inv (mine stem List.mem_cons_self) (by omega) one
    have := ih (done ++ [stem]) next st' step
      (fun other mem => mine other (List.mem_cons_of_mem stem mem))
      (by rw [List.length_append, List.length_singleton]; omega) all
    rwa [List.append_assoc] at this

/-- The loop ends: before each stem fewer keys are taken than the search tries. -/
theorem nameAll_ends {raw : List Text} (fuel : Nat) (stems : List Text) :
    ∀ (done : List Text) (st : Naming), Named T raw done st →
      (∀ stem ∈ stems, stemKey T stem ∈ raw) →
      raw.length + 2 * (done.length + stems.length) < 10 ^ 21 →
      raw.length + done.length + stems.length ≤ fuel →
      ∃ st', nameAll T raw fuel st stems = some st' := by
  induction stems with
  | nil =>
    intro done st _ _ _ _
    exact ⟨st, rfl⟩
  | cons stem rest ih =>
    intro done st inv mine small enough
    rw [List.length_cons] at small enough
    obtain ⟨next, one⟩ := nameOne_ends stem fuel inv (by omega) (by omega)
    have step := nameOne_named inv (mine stem List.mem_cons_self) (by omega) one
    obtain ⟨st', all⟩ := ih (done ++ [stem]) next step
      (fun other mem => mine other (List.mem_cons_of_mem stem mem))
      (by rw [List.length_append, List.length_singleton]; omega)
      (by rw [List.length_append, List.length_singleton]; omega)
    exact ⟨st', Option.bind_eq_some_iff.mpr ⟨next, one, all⟩⟩

theorem nameAll_more {raw : List Text} {fuel more : Nat} (le : fuel ≤ more) (stems : List Text) :
    ∀ (st st' : Naming), nameAll T raw fuel st stems = some st' →
      nameAll T raw more st stems = some st' := by
  induction stems with
  | nil =>
    intro st st' h
    exact h
  | cons stem rest ih =>
    intro st st' h
    obtain ⟨next, one, all⟩ := Option.bind_eq_some_iff.mp h
    refine Option.bind_eq_some_iff.mpr ⟨next, ?_, ih next st' all⟩
    rw [nameOne_eq] at one ⊢
    obtain ⟨value, chosen, rfl⟩ := Option.map_eq_some_iff.mp one
    refine Option.map_eq_some_iff.mpr ⟨value, ?_, rfl⟩
    split at chosen
    · next new => rw [if_pos new, chosen]
    · next again => rw [if_neg again, searchSuffix_more chosen le]

/-- Stems with keys of their own are only cut. -/
theorem nameAll_distinct {raw : List Text} (fuel : Nat) (stems : List Text) :
    ∀ (done : List Text) (st : Naming), Named T raw done st →
      (∀ stem ∈ stems, stemKey T stem ∈ raw) →
      ((done ++ stems).map (stemKey T)).Nodup →
      ∃ st', nameAll T raw fuel st stems = some st' ∧
        st'.out = st.out ++ stems.map fun stem => truncateUtf8 stem 200 := by
  induction stems with
  | nil =>
    intro done st _ _ _
    exact ⟨st, rfl, (List.append_nil _).symm⟩
  | cons stem rest ih =>
    intro done st inv mine distinct
    have mine' := mine stem List.mem_cons_self
    have new : stemKey T stem ∉ done.map (stemKey T) := by
      rw [List.map_append, List.nodup_append] at distinct
      intro mem
      exact distinct.2.2 _ mem _ (List.mem_map_of_mem List.mem_cons_self) rfl
    have isNew := (inv.new_iff mine').mpr new
    have one : nameOne T raw fuel st stem (truncateUtf8 stem 200) =
        some (st.give T stem (truncateUtf8 stem 200)) := by
      rw [nameOne_eq, if_pos isNew]
      rfl
    have step : Named T raw (done ++ [stem]) (st.give T stem (truncateUtf8 stem 200)) :=
      inv.give isNew.2
        (fun _ => List.mem_map_of_mem (List.mem_append_right done List.mem_cons_self)) (.kept new)
    obtain ⟨st', all, out⟩ := ih (done ++ [stem]) _ step
      (fun other mem => mine other (List.mem_cons_of_mem stem mem))
      (by rwa [List.append_assoc])
    refine ⟨st', Option.bind_eq_some_iff.mpr ⟨_, one, all⟩, ?_⟩
    rw [out, Naming.give_out, List.append_assoc]
    rfl

/-- What is returned is what the invariant says at the end. -/
theorem uniqueStems_some {fuel : Nat} {stems out : List Text}
    (fits : stems.length < 2 ^ 64) (h : uniqueStems T fuel stems = some out) :
    ∃ st, Named T (stems.map (stemKey T)) stems st ∧ st.out = out := by
  obtain ⟨st, all, rfl⟩ := Option.map_eq_some_iff.mp h
  refine ⟨st, ?_, rfl⟩
  exact nameAll_named stems [] {} st .start (fun stem mem => List.mem_map_of_mem mem)
    (by rw [List.length_map, List.length_nil]; omega) all

/-- The runner's check accepts exactly the stems that would be returned unchanged. -/
theorem checkStems_ok {fuel : Nat} {stems : List Text} :
    checkStems T fuel stems = some (.ok ()) ↔ uniqueStems T fuel stems = some stems := by
  unfold checkStems
  cases uniqueStems T fuel stems with
  | none => simp only [Option.map_none, reduceCtorEq]
  | some out =>
    rw [Option.map_some, Option.some_inj, Option.some_inj]
    split
    · next differ => simp only [reduceCtorEq, differ]
    · next same => simp only [not_not.mp same]

/-- Twice as many turns as there are stems are enough for each search. -/
theorem uniqueStems_ends {fuel : Nat} {stems : List Text} (fits : stems.length < 2 ^ 64)
    (enough : 2 * stems.length ≤ fuel) : ∃ out, uniqueStems T fuel stems = some out := by
  obtain ⟨st, all⟩ := nameAll_ends (T := T) fuel stems [] {} .start
    (fun stem mem => List.mem_map_of_mem mem)
    (by rw [List.length_map, List.length_nil]; omega)
    (by rw [List.length_map, List.length_nil]; omega)
  exact ⟨st.out, Option.map_eq_some_iff.mpr ⟨st, all, rfl⟩⟩

theorem uniqueStems_more {fuel more : Nat} {stems out : List Text} (le : fuel ≤ more)
    (h : uniqueStems T fuel stems = some out) : uniqueStems T more stems = some out := by
  obtain ⟨st, all, rfl⟩ := Option.map_eq_some_iff.mp h
  exact Option.map_eq_some_iff.mpr ⟨st, nameAll_more le stems {} st all, rfl⟩

/-- Short names with keys of their own are left alone, and no search is needed. -/
theorem uniqueStems_fixed (fuel : Nat) {stems : List Text} (short : ∀ s ∈ stems, utf8Len s ≤ 200)
    (distinct : (stems.map (foldKey T)).Nodup) : uniqueStems T fuel stems = some stems := by
  have whole : ∀ s ∈ stems, truncateUtf8 s 200 = s := fun s mem => truncateUtf8_of_le (short s mem)
  have keys : stems.map (stemKey T) = stems.map (foldKey T) :=
    List.map_congr_left fun s mem => congrArg (foldKey T) (whole s mem)
  obtain ⟨st, all, out⟩ := nameAll_distinct (T := T) fuel stems [] {} .start
    (fun stem mem => List.mem_map_of_mem mem) (by rw [List.nil_append, keys]; exact distinct)
  refine Option.map_eq_some_iff.mpr ⟨st, all, ?_⟩
  rw [out, List.map_congr_left whole, List.map_id']
  rfl

/-- What the names of `stems` have to be. -/
structure Distinguishes (T : CaseTables) (stems out : List Text) : Prop where
  length : out.length = stems.length
  distinct : (out.map (foldKey T)).Nodup
  short : ∀ s ∈ out, utf8Len s ≤ 200
  cut : ∀ (i : Nat) (stem value : Text), stems[i]? = some stem → out[i]? = some value →
    ∃ kept, kept <+: stem ∧ (value = kept ∨ ∃ n, value = kept ++ suffix n)
  first : ∀ (i : Nat) (stem : Text), stems[i]? = some stem →
    stemKey T stem ∉ (stems.take i).map (stemKey T) → out[i]? = some (truncateUtf8 stem 200)

theorem NamedAfter.short {raw earlier : List Text} {stem value : Text}
    (h : NamedAfter T raw earlier stem value) : utf8Len value ≤ 200 := by
  cases h with
  | kept _ => exact truncateUtf8_len stem 200
  | suffixed n _ _ _ => exact candidate_len _ _

theorem Named.distinguishes {raw stems : List Text} {st : Naming} (inv : Named T raw stems st) :
    Distinguishes T stems st.out where
  length := inv.length
  distinct := inv.distinct
  short s mem := by
    obtain ⟨i, lt, rfl⟩ := List.getElem_of_mem mem
    have there : i < stems.length := inv.length ▸ lt
    exact (inv.named i stems[i] st.out[i] (List.getElem?_eq_getElem there)
      (List.getElem?_eq_getElem lt)).short
  cut i stem value hs hv := by
    cases inv.named i stem value hs hv with
    | kept _ => exact ⟨_, truncateUtf8_starts stem 200, Or.inl rfl⟩
    | suffixed n _ small _ =>
      have short : utf8Len (suffix n) < 200 := (suffix_len small).trans_lt (by decide)
      refine ⟨truncateUtf8 (truncateUtf8 stem 200) (200 - utf8Len (suffix n)), ?_, Or.inr ⟨n, ?_⟩⟩
      · exact (truncateUtf8_starts _ _).trans (truncateUtf8_starts stem 200)
      · exact candidate_eq short
  first i stem hs new := by
    have lt : i < st.out.length := by
      rw [inv.length]
      exact (List.getElem?_eq_some_iff.mp hs).1
    obtain ⟨value, there⟩ : ∃ value, st.out[i]? = some value := ⟨_, List.getElem?_eq_getElem lt⟩
    rw [there]
    cases inv.named i stem value hs there with
    | kept _ => rfl
    | suffixed n again _ _ => exact absurd again new

/-- The naming of a batch: it ends, the names are what they have to be, naming them again changes
nothing, and the check of the runner accepts exactly the short names with keys of their own. A slice
has fewer than `2 ^ 64` elements. -/
theorem unique_stems_names (T : CaseTables) (stems : List Text) (fits : stems.length < 2 ^ 64) :
    ∃ out, (∀ fuel, 2 * stems.length ≤ fuel → uniqueStems T fuel stems = some out) ∧
      Distinguishes T stems out ∧ (∀ fuel, uniqueStems T fuel out = some out) ∧
      ∀ fuel, checkStems T fuel stems = some (.ok ()) ↔
        (∀ s ∈ stems, utf8Len s ≤ 200) ∧ (stems.map (foldKey T)).Nodup := by
  obtain ⟨out, ends⟩ := uniqueStems_ends (T := T) fits (le_refl _)
  obtain ⟨st, inv, rfl⟩ := uniqueStems_some fits ends
  have names := inv.distinguishes
  refine ⟨st.out, fun fuel enough => uniqueStems_more enough ends, names,
    fun fuel => uniqueStems_fixed fuel names.short names.distinct, fun fuel => ?_⟩
  constructor
  · intro accepted
    have same := checkStems_ok.mp accepted
    obtain ⟨st', inv', out⟩ := uniqueStems_some fits same
    have names' := inv'.distinguishes
    rw [out] at names'
    exact ⟨names'.short, names'.distinct⟩
  · intro h
    exact checkStems_ok.mpr (uniqueStems_fixed fuel h.1 h.2)

/-- Two names that differ by a capital letter. -/
theorem unique_stems_names_twins :
    ∃ out, (∀ fuel, 2 * 2 ≤ fuel →
        uniqueStems CaseTables.asciiOnly fuel [text "a", text "A"] = some out) ∧
      Distinguishes CaseTables.asciiOnly [text "a", text "A"] out :=
  have ⟨out, ends, names, _⟩ :=
    unique_stems_names CaseTables.asciiOnly [text "a", text "A"] (by decide)
  ⟨out, ends, names⟩

end

end Mineru.Stems
