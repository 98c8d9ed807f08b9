import Mineru.Laws.Official.Listing
import Mineru.Official.Timestamp

/-!
# Timestamps as sort keys

Down to the second a timestamp has fixed widths, so its order as text is the order of the seconds
(`timestamp_lt`). Behind the second the text of a shorter fraction ends in `Z`, which is larger than
the dot and every digit. So of two instants of one second the text order is wrong exactly if the
digits of one fraction begin the digits of the other (`printedEnd_lt`).

Years have four digits here, as in every timestamp that the service writes or accepts. The seconds
of a civil date are counted from the calendar (`daysOfMonths_mono`), without time zones.

The listing sorts, drops what is behind the cursor and filters, all by the texts. The second half of
the module carries the agreement of two instants through these three passes to the pages that a
client gets.
-/

set_option autoImplicit false

namespace Mineru.Official

/-! ## Numbers and their digits -/

/-- Numbers that count blocks of given sizes and a position in the next block. -/
theorem cumulative_lex {f size : Nat → Nat} (step : ∀ n, f (n + 1) = f n + size n) {a b r s : Nat}
    (left : r < size a) (right : s < size b) {P : Prop} :
    (a < b ∨ a = b ∧ (r < s ∨ r = s ∧ P)) ↔ (f a + r < f b + s ∨ f a + r = f b + s ∧ P) := by
  have mono : Monotone f := monotone_nat_of_le_succ fun n => by
    rw [step]
    exact Nat.le_add_right _ _
  rcases lt_trichotomy a b with lt | rfl | gt
  · have next : f (a + 1) ≤ f b := mono lt
    have := step a
    constructor
    · intro _
      left
      omega
    · exact fun _ => Or.inl lt
  · constructor
    · intro h
      rcases h with h | ⟨-, h | ⟨h, p⟩⟩
      · exact absurd h (lt_irrefl _)
      · exact Or.inl (by omega)
      · exact Or.inr ⟨by omega, p⟩
    · intro h
      right
      refine ⟨rfl, ?_⟩
      rcases h with h | ⟨h, p⟩
      · exact Or.inl (by omega)
      · exact Or.inr ⟨by omega, p⟩
  · have next : f (b + 1) ≤ f a := mono gt
    have := step b
    constructor
    · intro h
      rcases h with h | ⟨h, -⟩ <;> omega
    · intro h
      rcases h with h | ⟨h, -⟩ <;> omega

/-- Texts of one length are compared before what follows them. -/
theorem append_lt_append_iff {a b x y : Text} (len : a.length = b.length) :
    a ++ x < b ++ y ↔ a < b ∨ a = b ∧ x < y := by
  induction a generalizing b with
  | nil =>
    obtain rfl := List.length_eq_zero_iff.mp len.symm
    simp
  | cons c a ih =>
    obtain ⟨d, b, rfl⟩ := List.exists_cons_of_length_eq_add_one len.symm
    rw [List.cons_append, List.cons_append, List.cons_lt_cons_iff, List.cons_lt_cons_iff,
      ih (Nat.succ.inj len), List.cons.injEq]
    tauto

theorem padded_length (width n : Nat) : (padded width n).length = width := by
  induction width generalizing n with
  | zero => rfl
  | succ width ih => rw [padded, List.length_append, ih, List.length_singleton]

/-- Digits are ordered as characters as they are as numbers. -/
theorem digitChar_lt {a b : Nat} (ha : a < 10) (hb : b < 10) :
    Nat.digitChar a < Nat.digitChar b ↔ a < b := by
  interval_cases a <;> interval_cases b <;> decide

theorem digitChar_inj {a b : Nat} (ha : a < 10) (hb : b < 10) :
    Nat.digitChar a = Nat.digitChar b ↔ a = b := by
  interval_cases a <;> interval_cases b <;> decide

/-- Padded numbers have the order of the numbers. -/
theorem padded_lt {width n m : Nat} (hn : n < 10 ^ width) (hm : m < 10 ^ width) :
    (padded width n < padded width m ↔ n < m) ∧ (padded width n = padded width m ↔ n = m) := by
  induction width generalizing n m with
  | zero =>
    obtain rfl := Nat.lt_one_iff.mp hn
    obtain rfl := Nat.lt_one_iff.mp hm
    exact ⟨by simp, by simp⟩
  | succ width ih =>
    rw [Nat.pow_succ] at hn hm
    obtain ⟨lt, eq⟩ := ih (n := n / 10) (m := m / 10) (by omega) (by omega)
    have lengths : (padded width (n / 10)).length = (padded width (m / 10)).length := by
      rw [padded_length, padded_length]
    have one := Nat.mod_lt n (y := 10) (by decide)
    have two := Nat.mod_lt m (y := 10) (by decide)
    constructor
    · rw [padded, padded, append_lt_append_iff lengths, lt, eq, List.cons_lt_cons_iff,
        digitChar_lt one two]
      simp only [List.lt_irrefl, and_false, or_false]
      omega
    · rw [padded, padded]
      constructor
      · intro h
        obtain ⟨high, low⟩ := List.append_inj h lengths
        have := eq.mp high
        have := (digitChar_inj one two).mp (List.cons.inj low).1
        omega
      · intro h
        rw [h]

/-- Numbers of one width are compared first, and what follows them only when they are equal. -/
theorem padded_append_lt {width n m : Nat} {x y : Text} (hn : n < 10 ^ width)
    (hm : m < 10 ^ width) :
    padded width n ++ x < padded width m ++ y ↔ n < m ∨ n = m ∧ x < y := by
  rw [append_lt_append_iff (by rw [padded_length, padded_length]), (padded_lt hn hm).1,
    (padded_lt hn hm).2]

/-! ## Seconds -/

theorem daysOfMonths_year (year : Nat) :
    daysOfMonths year 12 = if isLeap year then 366 else 365 := by
  simp only [daysOfMonths, daysInMonth]
  by_cases leap : isLeap year <;> simp [leap]

theorem daysOfMonths_mono (year : Nat) : Monotone (daysOfMonths year) :=
  monotone_nat_of_le_succ fun _ => Nat.le_add_right _ _

theorem Instant.dayOfYear_lt (t : Instant) :
    daysOfMonths t.year (t.month - 1) + (t.day - 1) < if isLeap t.year then 366 else 365 := by
  have month := t.month_le
  have day := t.day_le
  have within : daysOfMonths t.year (t.month - 1 + 1) ≤ daysOfMonths t.year 12 :=
    daysOfMonths_mono t.year (by omega)
  rw [daysOfMonths, Nat.sub_add_cancel month.1, daysOfMonths_year] at within
  omega

/-- The days have the order of the dates. -/
theorem Instant.days_lex (t u : Instant) {P : Prop} :
    (t.year < u.year ∨ t.year = u.year ∧ (t.month < u.month ∨ t.month = u.month ∧
      (t.day < u.day ∨ t.day = u.day ∧ P))) ↔ (t.days < u.days ∨ t.days = u.days ∧ P) := by
  have tm := t.month_le
  have um := u.month_le
  have td := t.day_le
  have ud := u.day_le
  have years := @cumulative_lex daysBeforeYear _ (fun _ => rfl) _ _ _ _ t.dayOfYear_lt
    u.dayOfYear_lt P
  refine Iff.trans (or_congr_right (and_congr_right fun same => ?_)) years
  have months := @cumulative_lex (daysOfMonths t.year) (fun k => daysInMonth t.year (k + 1))
    (fun _ => rfl) (t.month - 1) (u.month - 1) (t.day - 1) (u.day - 1)
    (by rw [Nat.sub_add_cancel tm.1]; omega)
    (by rw [Nat.sub_add_cancel um.1, same]; omega) P
  rw [← same, ← months]
  have one : t.month - 1 < u.month - 1 ↔ t.month < u.month := by omega
  have two : t.month - 1 = u.month - 1 ↔ t.month = u.month := by omega
  have three : t.day - 1 < u.day - 1 ↔ t.day < u.day := by omega
  have four : t.day - 1 = u.day - 1 ↔ t.day = u.day := by omega
  rw [one, two, three, four]

theorem block_lex (size : Nat) {a b r s : Nat} (left : r < size) (right : s < size) {P : Prop} :
    (a < b ∨ a = b ∧ (r < s ∨ r = s ∧ P)) ↔
      (a * size + r < b * size + s ∨ a * size + r = b * size + s ∧ P) :=
  @cumulative_lex (fun n => n * size) (fun _ => size) (fun n => Nat.succ_mul n size) _ _ _ _
    left right P

/-- Timestamps are compared by the second first. -/
theorem Instant.timestamp_lt (t u : Instant) : t.timestamp < u.timestamp ↔
    t.seconds < u.seconds ∨ t.seconds = u.seconds ∧ t.printedEnd < u.printedEnd := by
  have small : ∀ {year month : Nat}, daysInMonth year month < 10 ^ 2 := by
    intro year month
    unfold daysInMonth
    split_ifs <;> decide
  have ty := t.year_le
  have uy := u.year_le
  have tm := t.month_le
  have um := u.month_le
  have td := t.day_le.2.trans_lt small
  have ud := u.day_le.2.trans_lt small
  unfold Instant.timestamp Instant.seconds
  rw [← block_lex 60 t.second_lt u.second_lt, ← block_lex 60 t.minute_lt u.minute_lt,
    ← block_lex 24 t.hour_lt u.hour_lt, ← Instant.days_lex]
  rw [padded_append_lt (by omega) (by omega), List.cons_lt_cons_iff,
    padded_append_lt (by omega) (by omega), List.cons_lt_cons_iff,
    padded_append_lt td ud, List.cons_lt_cons_iff,
    padded_append_lt (t.hour_lt.trans (by decide)) (u.hour_lt.trans (by decide)),
    List.cons_lt_cons_iff,
    padded_append_lt (t.minute_lt.trans (by decide)) (u.minute_lt.trans (by decide)),
    List.cons_lt_cons_iff,
    padded_append_lt (t.second_lt.trans (by decide)) (u.second_lt.trans (by decide))]
  simp only [lt_irrefl, false_or, true_and]

/-! ## Fractions -/

/-- The printed fraction is a beginning of the nine digits, with its zeros at the end left out. -/
theorem trimZeros_starts (t : Text) : trimZeros t <+: t := by
  unfold trimZeros
  rw [← List.reverse_suffix, List.reverse_reverse]
  exact List.dropWhile_suffix _

/-- Zeros at the end are trimmed together with the zeros before them. -/
theorem trimZeros_zeros (front : Text) {back : Text} (zeros : ∀ c ∈ back, c = '0') :
    trimZeros (front ++ back) = trimZeros front := by
  unfold trimZeros
  rw [List.reverse_append, List.dropWhile_append, if_pos]
  rw [List.isEmpty_iff, List.dropWhile_eq_nil_iff]
  intro c mem
  exact decide_eq_true (zeros c (List.mem_reverse.mp mem))

/-- Another digit keeps everything before it. -/
theorem trimZeros_keep (front : Text) {back : Text} {c : Char} (other : ¬ ∀ d ∈ c :: back, d = '0') :
    ∃ rest, trimZeros (front ++ c :: back) = front ++ c :: rest := by
  unfold trimZeros
  have kept : ((c :: back).reverse.dropWhile (· = '0')) ≠ [] := by
    rw [ne_eq, List.dropWhile_eq_nil_iff]
    intro zeros
    exact other fun d mem => of_decide_eq_true (zeros d (List.mem_reverse.mpr mem))
  rw [List.reverse_append, List.dropWhile_append, if_neg (by rwa [List.isEmpty_iff]),
    List.reverse_append, List.reverse_reverse]
  rw [List.reverse_cons, List.dropWhile_append]
  split
  · next empty =>
    rw [List.reverse_cons, List.dropWhile_append, if_pos empty] at kept
    have cut : [c].dropWhile (· = '0') = [c] := by
      rw [List.dropWhile_cons] at kept ⊢
      split at kept
      · exact absurd rfl kept
      · next other => rw [if_neg other]
    exact ⟨[], by rw [cut]; rfl⟩
  · exact ⟨_, by rw [List.reverse_append]; rfl⟩

/-- Two texts of one length differ first at some character. -/
theorem lt_first {a b : Text} (len : a.length = b.length) (h : a < b) :
    ∃ front c x d y, a = front ++ c :: x ∧ b = front ++ d :: y ∧ c < d := by
  induction a generalizing b with
  | nil =>
    obtain rfl := List.length_eq_zero_iff.mp len.symm
    exact absurd h (List.lt_irrefl _)
  | cons c a ih =>
    obtain ⟨d, b, rfl⟩ := List.exists_cons_of_length_eq_add_one len.symm
    rcases List.cons_lt_cons_iff.mp h with lt | ⟨rfl, lt⟩
    · exact ⟨[], c, a, d, b, rfl, rfl, lt⟩
    · obtain ⟨front, e, x, f, y, rfl, rfl, less⟩ := ih (Nat.succ.inj len) lt
      exact ⟨c :: front, e, x, f, y, rfl, rfl, less⟩

/-- Every digit is before `Z`. -/
theorem padded_digits {width n : Nat} {c : Char} (h : c ∈ padded width n) : '0' ≤ c ∧ c < 'Z' := by
  induction width generalizing n with
  | zero => cases h
  | succ width ih =>
    rw [padded, List.mem_append, List.mem_singleton] at h
    rcases h with high | rfl
    · exact ih high
    · have := Nat.mod_lt n (y := 10) (by decide)
      generalize n % 10 = d at this
      interval_cases d <;> decide

/-- The nine digits of the fraction. -/
def Instant.digits (t : Instant) : Text := padded 9 t.nanosecond

theorem Instant.digits_length (t : Instant) : t.digits.length = 9 := padded_length 9 _

theorem trimZeros_nil {t : Text} : trimZeros t = [] ↔ ∀ c ∈ t, c = '0' := by
  unfold trimZeros
  rw [List.reverse_eq_nil_iff, List.dropWhile_eq_nil_iff]
  simp only [List.mem_reverse, decide_eq_true_eq]

/-- The fraction is empty for a whole second. -/
theorem Instant.fraction_nil (t : Instant) : t.fraction = [] ↔ t.nanosecond = 0 := by
  unfold Instant.fraction
  rw [trimZeros_nil]
  have zero : ∀ c ∈ padded 9 0, c = '0' := fun c mem =>
    List.eq_of_mem_replicate (show c ∈ List.replicate 9 '0' from mem)
  constructor
  · intro zeros
    have same : padded 9 t.nanosecond = padded 9 0 := by
      have left := List.eq_replicate_of_mem zeros
      have right := List.eq_replicate_of_mem zero
      rw [left, right, padded_length, padded_length]
    exact (padded_lt t.nanosecond_lt (by decide)).2.mp same
  · intro whole
    rw [whole]
    exact zero

theorem Instant.printedEnd_eq (t : Instant) : t.printedEnd =
    (if t.fraction = [] then [] else '.' :: t.fraction) ++ ['Z'] := by
  unfold Instant.printedEnd
  simp only [t.fraction_nil]

/-- Two ends of one second. -/
theorem Instant.printedEnd_lt {t u : Instant} (lt : t.nanosecond < u.nanosecond) :
    (t.fraction <+: u.fraction → u.printedEnd < t.printedEnd) ∧
    (¬ t.fraction <+: u.fraction → t.printedEnd < u.printedEnd ∧ ¬ u.fraction <+: t.fraction) := by
  have order := (padded_lt t.nanosecond_lt u.nanosecond_lt).1.mpr lt
  obtain ⟨front, c, x, d, y, left, right, less⟩ :=
    lt_first (t.digits_length.trans u.digits_length.symm) order
  have digit : d ≠ '0' := by
    have := (padded_digits (left ▸ List.mem_append_right front List.mem_cons_self)).1
    exact (this.trans_lt less).ne'
  have nonzero : ¬ ∀ e ∈ d :: y, e = '0' := fun zeros => digit (zeros d List.mem_cons_self)
  obtain ⟨rest, long⟩ := trimZeros_keep front nonzero
  have later : u.fraction = front ++ d :: rest := (congrArg trimZeros right).trans long
  have some : u.fraction ≠ [] := by
    rw [later]
    exact List.append_ne_nil_of_right_ne_nil front (List.cons_ne_nil d rest)
  by_cases zeros : ∀ e ∈ c :: x, e = '0'
  · -- the earlier fraction is a beginning of the later one, which goes on with a digit
    have early : t.fraction = trimZeros front :=
      (congrArg trimZeros left).trans (trimZeros_zeros front zeros)
    obtain ⟨more, split⟩ := trimZeros_starts front
    rw [← split, ← early, List.append_assoc] at later
    obtain ⟨e, tail, next⟩ : ∃ e tail, more ++ d :: rest = e :: tail :=
      List.exists_cons_of_ne_nil (List.append_ne_nil_of_right_ne_nil more (List.cons_ne_nil d rest))
    have below : e < 'Z' := by
      have mem : e ∈ u.fraction := by
        rw [later, next]
        exact List.mem_append_right _ List.mem_cons_self
      exact (padded_digits ((trimZeros_starts _).subset mem)).2
    rw [next] at later
    refine ⟨fun _ => ?_, fun none => absurd ⟨e :: tail, later.symm⟩ none⟩
    rw [printedEnd_eq, printedEnd_eq, if_neg some]
    by_cases whole : t.fraction = []
    · rw [if_pos whole]
      exact List.cons_lt_cons_iff.mpr (Or.inl (by decide))
    · rw [if_neg whole, later, ← List.cons_append, List.append_assoc]
      refine (append_lt_append_iff rfl).mpr (Or.inr ⟨rfl, ?_⟩)
      exact List.cons_lt_cons_iff.mpr (Or.inl below)
  · -- both fractions go on, with different digits
    obtain ⟨rest', early⟩ := trimZeros_keep front zeros
    have early : t.fraction = front ++ c :: rest' := (congrArg trimZeros left).trans early
    have earlier : t.fraction ≠ [] := by
      rw [early]
      exact List.append_ne_nil_of_right_ne_nil front (List.cons_ne_nil c rest')
    have apart : ¬ t.fraction <+: u.fraction := by
      rw [early, later, List.prefix_append_right_inj, List.cons_prefix_cons]
      exact fun same => less.ne same.1
    refine ⟨fun begins => absurd begins apart, fun _ => ⟨?_, ?_⟩⟩
    · rw [printedEnd_eq, printedEnd_eq, if_neg some, if_neg earlier, early, later,
        ← List.cons_append, ← List.cons_append, List.append_assoc, List.append_assoc]
      refine (append_lt_append_iff rfl).mpr (Or.inr ⟨rfl, ?_⟩)
      exact List.cons_lt_cons_iff.mpr (Or.inl less)
    · rw [early, later, List.prefix_append_right_inj, List.cons_prefix_cons]
      exact fun same => less.ne' same.1

/-! ## The order of the instants -/

/-- Two instants of one second, and the printed digits of one fraction begin those of the other. -/
def Confused (t u : Instant) : Prop :=
  t.seconds = u.seconds ∧ t.nanosecond ≠ u.nanosecond ∧
    (t.fraction <+: u.fraction ∨ u.fraction <+: t.fraction)

theorem Confused.symm {t u : Instant} (h : Confused t u) : Confused u t :=
  ⟨h.1.symm, h.2.1.symm, h.2.2.symm⟩

theorem Instant.nanos_lt (t u : Instant) : t.nanos < u.nanos ↔
    t.seconds < u.seconds ∨ t.seconds = u.seconds ∧ t.nanosecond < u.nanosecond := by
  have := t.nanosecond_lt
  have := u.nanosecond_lt
  unfold Instant.nanos
  omega

/-- For an earlier instant of the same second. -/
theorem timestamp_lt_of_earlier {t u : Instant} (second : t.seconds = u.seconds)
    (lt : t.nanosecond < u.nanosecond) : t.timestamp < u.timestamp ↔ ¬ Confused t u := by
  obtain ⟨wrong, right⟩ := Instant.printedEnd_lt lt
  rw [Instant.timestamp_lt]
  constructor
  · intro h confused
    have before : t.printedEnd < u.printedEnd := by
      rcases h with less | ⟨-, less⟩
      · exact absurd second less.ne
      · exact less
    by_cases begins : t.fraction <+: u.fraction
    · exact lt_asymm before (wrong begins)
    · exact confused.2.2.elim begins (right begins).2
  · intro clear
    have apart : ¬ t.fraction <+: u.fraction :=
      fun begins => clear ⟨second, lt.ne, Or.inl begins⟩
    exact Or.inr ⟨second, (right apart).1⟩

/-- The text order of two instants is their order in time. -/
def Agree (t u : Instant) : Prop :=
  (t.timestamp < u.timestamp ↔ t.nanos < u.nanos) ∧
    (u.timestamp < t.timestamp ↔ u.nanos < t.nanos)

theorem agree_of_earlier {t u : Instant} (second : t.seconds = u.seconds)
    (lt : t.nanosecond < u.nanosecond) : Agree t u ↔ ¬ Confused t u := by
  have before : t.nanos < u.nanos := (Instant.nanos_lt t u).mpr (Or.inr ⟨second, lt⟩)
  unfold Agree
  rw [← timestamp_lt_of_earlier second lt, iff_true_right before, iff_false_right before.asymm]
  exact ⟨And.left, fun less => ⟨less, lt_asymm less⟩⟩

/-- In general: instants of different seconds always agree. -/
theorem agree_iff_clear (t u : Instant) : Agree t u ↔ ¬ Confused t u := by
  by_cases second : t.seconds = u.seconds
  · rcases lt_trichotomy t.nanosecond u.nanosecond with lt | same | gt
    · exact agree_of_earlier second lt
    · have ends : t.printedEnd = u.printedEnd := by
        unfold Instant.printedEnd Instant.fraction
        rw [same]
      refine iff_of_true ?_ fun confused => confused.2.1 same
      unfold Agree
      rw [Instant.timestamp_lt, Instant.timestamp_lt, Instant.nanos_lt, Instant.nanos_lt, ends,
        same, second]
      simp only [lt_irrefl, and_false, or_false, and_self]
    · have swapped := agree_of_earlier second.symm gt
      unfold Agree at swapped ⊢
      rw [and_comm, swapped]
      exact not_congr ⟨Confused.symm, Confused.symm⟩
  · refine iff_of_true ?_ fun confused => second confused.1
    unfold Agree
    rw [Instant.timestamp_lt, Instant.timestamp_lt, Instant.nanos_lt, Instant.nanos_lt]
    simp only [second, Ne.symm second, false_and, or_false, and_self]

/-! ## Job listings -/

/-- A job, its creation, and the entry that shows it. -/
structure JobRow where
  entry : JobListEntry
  created : Instant
  /-- `created_at` is the timestamp of the creation. -/
  stamped : entry.createdAt = created.timestamp

def JobRow.jobId (row : JobRow) : Text := row.entry.jobId

/-- The order in time of a listing. -/
def Chronological (order : Option ListOrder) (a b : JobRow) : Prop :=
  if order = some .desc then b.created.nanos ≤ a.created.nanos
  else a.created.nanos ≤ b.created.nanos

/-- The job has one of the statuses that the query names. -/
def hasStatus (query : JobQuery) (row : JobRow) : Bool :=
  query.statuses.isEmpty || row.entry.status.text ∈ query.statuses

/-- The job was created at the start or later. -/
def createdFrom (start : Option Instant) (row : JobRow) : Bool :=
  start.all fun t => t.nanos ≤ row.created.nanos

/-- What a listing of the rows from a start on is to be. -/
structure ListsByTime (rows : List JobRow) (start : Option Instant) : Prop where
  /-- Timestamps have the order of the instants. -/
  agree : ∀ t ∈ start.toList ++ rows.map JobRow.created,
    ∀ u ∈ start.toList ++ rows.map JobRow.created, Agree t u
  /-- A page is cut from the jobs in the order of their creation, and holds exactly those that were
  created at the start or later. -/
  listed : ∀ (query : JobQuery) (page : ListResponse JobListEntry),
    query.createdAfter = start.map Instant.timestamp →
    listJobs (rows.map JobRow.entry) (some query) = .ok page →
    ∃ sorted : List JobRow, sorted.Perm (rows.filter (hasStatus query)) ∧
      sorted.Pairwise (Chronological query.order) ∧
      page = .page JobListEntry.jobId (query.limit.getD 20)
        (((drainThrough JobRow.jobId query.after sorted).filter (createdFrom start)).map
          JobRow.entry)

section
variable {α β κ : Type} [LinearOrder κ]

/-- Sorting looks at the key and the name only. -/
theorem sortListing_map (created : α → κ) (id : α → Text) (order : Option ListOrder) (f : β → α)
    (data : List β) : (sortListing (fun b => created (f b)) (fun b => id (f b)) order data).map f =
      sortListing created id order (data.map f) := by
  have sorted := List.map_insertionSort
    (fun a b => toLex (created (f a), id (f a)) ≤ toLex (created (f b), id (f b)))
    (fun a b => toLex (created a, id a) ≤ toLex (created b, id b)) f data fun a _ b _ => Iff.rfl
  unfold sortListing
  dsimp only
  split
  · rw [List.map_reverse, sorted]
  · exact sorted

theorem drainThrough_map (id : α → Text) (after : Option Text) (f : β → α) (data : List β) :
    (drainThrough (fun b => id (f b)) after data).map f = drainThrough id after (data.map f) := by
  unfold drainThrough
  simp only [List.findIdx?_map, Function.comp_def]
  cases after.bind fun a => data.findIdx? fun b => id (f b) = a with
  | none => rfl
  | some i => exact List.map_drop

/-- What is behind the cursor was in the list. -/
theorem drainThrough_subset {id : α → Text} {after : Option Text} {data : List α} {a : α}
    (h : a ∈ drainThrough id after data) : a ∈ data := by
  unfold drainThrough at h
  split at h
  · exact List.mem_of_mem_drop h
  · exact h

/-- The listing is sorted by its first key. -/
theorem sortListing_created (created : α → κ) (id : α → Text) (order : Option ListOrder)
    (data : List α) : (sortListing created id order data).Pairwise fun a b =>
      if order = some .desc then created b ≤ created a else created a ≤ created b := by
  have sorted := (insertionSort_key created id data).imp fun {a b} le => by
    rcases Prod.Lex.toLex_le_toLex.mp le with less | same
    · exact less.le
    · exact same.1.le
  unfold sortListing
  dsimp only
  split
  · rw [List.pairwise_reverse]
    exact sorted
  · exact sorted

end

theorem listJobs_page {jobs : List JobListEntry} {query : JobQuery}
    {page : ListResponse JobListEntry} (h : listJobs jobs (some query) = .ok page) :
    page = .page JobListEntry.jobId (query.limit.getD 20) (retainCreated query.createdAfter
      (drainThrough JobListEntry.jobId query.after
        (sortListing JobListEntry.createdAt JobListEntry.jobId query.order
          (jobs.filter fun job => query.statuses.isEmpty || job.status.text ∈ query.statuses)))) := by
  change (Pagination.validate _ 20 100 >>= _) = _ at h
  cases valid : Pagination.validate ⟨query.after, query.limit, query.order⟩ 20 100 with
  | error e =>
    rw [valid] at h
    cases h
  | ok limit =>
    rw [valid] at h
    have same : query.limit.getD 20 = limit := by
      unfold Pagination.validate at valid
      dsimp only at valid
      split at valid
      · cases valid
      · exact Except.ok.inj valid
    subst same
    change (refuseIf _ _ >>= _) = _ at h
    unfold refuseIf at h
    split at h
    · cases h
    · exact (Except.ok.inj h).symm

theorem Agree.le {t u : Instant} (h : Agree t u) : t.timestamp ≤ u.timestamp ↔ t.nanos ≤ u.nanos := by
  rw [← not_lt, ← not_lt, h.2]

/-- The filter by a first instant compares instants and not texts. -/
theorem createdFrom_some {t : Instant} {row : JobRow} :
    createdFrom (some t) row = true ↔ t.nanos ≤ row.created.nanos := by
  unfold createdFrom
  rw [Option.all_some, decide_eq_true_iff]

/-- On rows that agree with the filter's instant, comparing texts is comparing instants. -/
theorem retainCreated_rows {start : Option Instant} {rows : List JobRow}
    (agree : ∀ t ∈ start.toList, ∀ row ∈ rows, Agree t row.created) :
    retainCreated (start.map Instant.timestamp) (rows.map JobRow.entry) =
      (rows.filter (createdFrom start)).map JobRow.entry := by
  cases start with
  | none =>
    change rows.map JobRow.entry = (rows.filter fun _ => true).map JobRow.entry
    rw [List.filter_true]
  | some t =>
    change (rows.map JobRow.entry).filter _ = _
    rw [List.filter_map]
    refine congrArg _ (List.filter_congr fun row mem => ?_)
    have le := (agree t (Option.mem_toList.mpr rfl) row mem).le
    rw [← row.stamped] at le
    rw [Bool.eq_iff_iff, createdFrom_some, ← le]
    exact decide_eq_true_iff

/-- **Jobs are listed by time exactly if no two of the instants are confused.** Among these are the
instants of all jobs and the one that the listing starts from. Two instants are confused when they
are in one second and the printed fraction of one begins that of the other. -/
theorem list_jobs_chronological (rows : List JobRow) (start : Option Instant) :
    ListsByTime rows start ↔ ∀ t ∈ start.toList ++ rows.map JobRow.created,
      ∀ u ∈ start.toList ++ rows.map JobRow.created, ¬ Confused t u := by
  constructor
  · intro byTime t ht u hu
    exact (agree_iff_clear t u).mp (byTime.agree t ht u hu)
  · intro clear
    have agree : ∀ t ∈ start.toList ++ rows.map JobRow.created,
        ∀ u ∈ start.toList ++ rows.map JobRow.created, Agree t u :=
      fun t ht u hu => (agree_iff_clear t u).mpr (clear t ht u hu)
    have created : ∀ row ∈ rows, row.created ∈ start.toList ++ rows.map JobRow.created :=
      fun row mem => List.mem_append_right _ (List.mem_map_of_mem mem)
    refine ⟨agree, ?_⟩
    intro query page from_start listed
    have perm := sortListing_perm (fun row => row.entry.createdAt) JobRow.jobId query.order
      (rows.filter (hasStatus query))
    have inRows : ∀ row ∈ sortListing (fun row => row.entry.createdAt) JobRow.jobId query.order
        (rows.filter (hasStatus query)), row ∈ rows :=
      fun row mem => (List.mem_filter.mp (perm.mem_iff.mp mem)).1
    refine ⟨_, perm, ?_, ?_⟩
    · refine (sortListing_created _ _ query.order _).imp_of_mem fun {a b} ha hb le => ?_
      have forth := (agree _ (created a (inRows a ha)) _ (created b (inRows b hb))).le
      have back := (agree _ (created b (inRows b hb)) _ (created a (inRows a ha))).le
      rw [← a.stamped, ← b.stamped] at forth back
      unfold Chronological
      rwa [← forth, ← back]
    · have shown : (rows.map JobRow.entry).filter
          (fun job => query.statuses.isEmpty || job.status.text ∈ query.statuses) =
          (rows.filter (hasStatus query)).map JobRow.entry := List.filter_map
      have sorted : (sortListing (fun row => row.entry.createdAt) JobRow.jobId query.order
          (rows.filter (hasStatus query))).map JobRow.entry =
          sortListing JobListEntry.createdAt JobListEntry.jobId query.order
            ((rows.filter (hasStatus query)).map JobRow.entry) :=
        sortListing_map JobListEntry.createdAt JobListEntry.jobId query.order JobRow.entry _
      have drained : (drainThrough JobRow.jobId query.after (sortListing
          (fun row => row.entry.createdAt) JobRow.jobId query.order
            (rows.filter (hasStatus query)))).map JobRow.entry =
          drainThrough JobListEntry.jobId query.after ((sortListing
            (fun row => row.entry.createdAt) JobRow.jobId query.order
              (rows.filter (hasStatus query))).map JobRow.entry) :=
        drainThrough_map JobListEntry.jobId query.after JobRow.entry _
      rw [listJobs_page listed, from_start, shown, ← sorted, ← drained, retainCreated_rows]
      intro t ht row mem
      exact agree t (List.mem_append_left _ ht) _ (created row (inRows row (drainThrough_subset mem)))

/-- Noon of a day. -/
def noon : Instant where
  year := 2025
  month := 1
  day := 1
  hour := 12
  minute := 0
  second := 0
  nanosecond := 0
  year_le := by decide
  month_le := by decide
  day_le := by decide
  hour_lt := by decide
  minute_lt := by decide
  second_lt := by decide
  nanosecond_lt := by decide

/-- Half a second later. -/
def afterNoon : Instant :=
  { noon with
    nanosecond := 500000000
    nanosecond_lt := by decide }

theorem Instant.seconds_nanosecond (t : Instant) {n : Nat} (h : n < 10 ^ 9) :
    ({ t with nanosecond := n, nanosecond_lt := h } : Instant).seconds = t.seconds := rfl

/-- A job that was created then. -/
def afterNoonJob : JobRow where
  entry := ⟨text "job_0000000000000001", .queued, afterNoon.timestamp, 1⟩
  created := afterNoon
  stamped := rfl

/-- The jobs created at noon or later leave it out. -/
theorem list_jobs_after_noon :
    listJobs [afterNoonJob.entry] (some ⟨none, none, none, none, some noon.timestamp⟩) =
      .ok ⟨[], none, none, false⟩ ∧
    noon.nanos < afterNoon.nanos ∧ ¬ ListsByTime [afterNoonJob] (some noon) := by
  have second : afterNoon.seconds = noon.seconds :=
    noon.seconds_nanosecond afterNoon.nanosecond_lt
  have later : noon.nanos < afterNoon.nanos :=
    (Instant.nanos_lt noon afterNoon).mpr
      (Or.inr ⟨second.symm, show 0 < 500000000 by norm_num⟩)
  refine ⟨by decide +kernel, later, ?_⟩
  intro byTime
  have agree := byTime.agree noon List.mem_cons_self afterNoon
    (List.mem_cons_of_mem _ List.mem_cons_self)
  exact absurd (agree.1.mpr later) (by decide +kernel)

end Mineru.Official
