import Mineru.Csv.Parse

/-!
# Sampling reads a prefix

`infer_delimiter` runs the parser in its sampling mode, which leaves the loop as soon as the row
limit is reached. `FullTurn` says what one turn of the full loop does, with what the sampling loop
does at the same place; `parseLoop_rows` says that the full loop only adds rows, and
`parseLoop_sample` runs the two loops side by side.

The converse does not hold, and is not claimed: a file may be sampled well and fail to parse behind
its first rows. The cancellation is polled in both modes, at the same turns.
-/

set_option autoImplicit false

namespace Mineru.Csv

open Official

section
variable {d : Char} {limit sampled : Nat} {cancelled : Option Bool}

/-- A turn of the full loop from `st` to `st'`: either it ends no row, and the sampling loop does
the same, or it ends one, and the sampling loop stops there at its own limit. -/
inductive FullTurn (d : Char) (st st' : ParseState) (skip : Bool) (ch : Char)
    (peek : Option Char) : Prop where
  | stay (rows : st'.rows = st.rows)
      (same : ∀ limit, parseTurn d limit true st ch peek = .ok (.next skip st'))
  | row (r : Row) (rows : st'.rows = st.rows ++ [r])
      (stop : ∀ limit, st'.rows.length = limit →
        parseTurn d limit true st ch peek = .ok (.done st'.rows))
      (same : ∀ limit, st'.rows.length < limit →
        parseTurn d limit true st ch peek = .ok (.next skip st'))

/-- The grid test does not depend on the row limit. -/
theorem endRow_ok {st st' : ParseState} (h : endRow limit st = .ok st') :
    st' = st.pushRow ∧ ∀ k, st'.rows.length ≤ k → endRow k st = .ok st' := by
  unfold endRow at h
  dsimp only at h
  split at h
  · cases h
  · next grid =>
    split at h
    · cases h
    · cases h
      refine ⟨rfl, fun k le => ?_⟩
      unfold endRow
      dsimp only
      rw [if_neg grid, if_neg (Nat.not_lt.mpr le)]

theorem endField_rows {st st' : ParseState} (h : endField st = .ok st') : st'.rows = st.rows := by
  unfold endField at h
  dsimp only at h
  split at h
  · cases h
  · cases h; rfl

/-- The full loop never leaves from inside a turn. -/
theorem parseTurn_full {st : ParseState} {ch : Char} {peek : Option Char} {turn : Turn}
    (h : parseTurn d limit false st ch peek = .ok turn) :
    ∃ skip st', turn = .next skip st' ∧ FullTurn d st st' skip ch peek := by
  unfold parseTurn at h
  split at h
  · next quoted =>
    split at h
    · next quote =>
      split at h
      · next double =>
        cases h
        refine ⟨_, _, rfl, .stay rfl fun k => ?_⟩
        simp only [parseTurn, if_pos quoted, if_pos quote, if_pos double]
      · next single =>
        cases h
        refine ⟨_, _, rfl, .stay rfl fun k => ?_⟩
        simp only [parseTurn, if_pos quoted, if_pos quote, if_neg single]
    · next plain =>
      cases h
      refine ⟨_, _, rfl, .stay rfl fun k => ?_⟩
      simp only [parseTurn, if_pos quoted, if_neg plain]
  · next unquoted =>
    split at h
    · cases h
    · next opened =>
      split at h
      · next delimiter =>
        cases field : endField st with
        | error e => rw [field] at h; cases h
        | ok st' =>
          rw [field] at h
          cases h
          refine ⟨_, _, rfl, .stay (endField_rows field) fun k => ?_⟩
          simp only [parseTurn, if_neg unquoted, if_neg opened, if_pos delimiter, field]
          rfl
      · next other =>
        split at h
        · next terminator =>
          cases row : endRow limit st with
          | error e => rw [row] at h; cases h
          | ok st' =>
            rw [row] at h
            cases h
            obtain ⟨pushed, again⟩ := endRow_ok row
            -- The terminator branch of the sampling loop, once its own row limit allows the row.
            have step : ∀ k, st'.rows.length ≤ k → parseTurn d k true st ch peek =
                if st'.rows.length = k then .ok (.done st'.rows)
                else .ok (.next (decide (ch = '\r' ∧ peek = some '\n')) st') := by
              intro k le
              simp only [parseTurn, if_neg unquoted, if_neg opened, if_neg other,
                if_pos terminator, again k le, true_and]
              rfl
            refine ⟨_, st', rfl, .row _ (congrArg ParseState.rows pushed) (fun k full => ?_)
              fun k room => ?_⟩
            · rw [step k (Nat.le_of_eq full), if_pos full]
            · rw [step k (Nat.le_of_lt room), if_neg (Nat.ne_of_lt room)]
        · next inside =>
          split at h
          · next opening =>
            cases h
            refine ⟨_, _, rfl, .stay rfl fun k => ?_⟩
            simp only [parseTurn, if_neg unquoted, if_neg opened, if_neg other, if_neg inside,
              if_pos opening]
          · next data =>
            cases h
            refine ⟨_, _, rfl, .stay rfl fun k => ?_⟩
            simp only [parseTurn, if_neg unquoted, if_neg opened, if_neg other, if_neg inside,
              if_neg data]

/-- The flush adds at most one row, and its grid test does not depend on the row limit. -/
theorem finish_ok {st : ParseState} {rows : List Row} (h : finish limit st = .ok rows) :
    st.rows <+: rows ∧ rows.length ≤ st.rows.length + 1 ∧
      ∀ k, rows.length ≤ k → finish k st = .ok rows := by
  unfold finish at h ⊢
  by_cases quoted : st.quoted = true
  · rw [if_pos quoted] at h
    cases h
  · rw [if_neg quoted] at h
    simp only [if_neg quoted]
    generalize (!st.field.isEmpty || !st.row.isEmpty || st.closed) = flush at h ⊢
    cases flush with
    | false =>
      simp only [Bool.false_and, Bool.false_eq_true, if_false] at h ⊢
      split at h
      · cases h
      · cases h
        exact ⟨List.prefix_refl _, Nat.le_succ _, fun k le => if_neg (Nat.not_lt.mpr le)⟩
    | true =>
      simp only [Bool.true_and, if_true] at h ⊢
      split at h
      · cases h
      · next grid =>
        simp only [if_neg grid]
        split at h
        · cases h
        · cases h
          refine ⟨List.prefix_append _ _, ?_, fun k le => if_neg (Nat.not_lt.mpr le)⟩
          simp only [ParseState.pushRow, List.length_append, List.length_cons, List.length_nil,
            le_refl]

/-- What a successful loop did first: the flag allowed it, and the turn succeeded. -/
theorem parseLoop_ok {sample : Bool} {k : Nat} {st : ParseState} {ch : Char} {rest : Text}
    {rows : List Row}
    (h : parseLoop d limit sample cancelled k false st (ch :: rest) = .ok rows) :
    ((k + 1) % 8192 = 0 → checkCancel cancelled = .ok ()) ∧
      ∃ turn, parseTurn d limit sample st ch rest.head? = .ok turn := by
  by_cases due : (k + 1) % 8192 = 0
  · cases poll : checkCancel cancelled with
    | error e =>
      simp only [parseLoop, Bool.false_eq_true, if_false, if_pos due, poll] at h
      cases h
    | ok u =>
      refine ⟨fun _ => rfl, ?_⟩
      cases took : parseTurn d limit sample st ch rest.head? with
      | error e =>
        simp only [parseLoop, Bool.false_eq_true, if_false, if_pos due, poll, took] at h
        cases h
      | ok turn => exact ⟨turn, rfl⟩
  · refine ⟨fun now => absurd now due, ?_⟩
    cases took : parseTurn d limit sample st ch rest.head? with
    | error e =>
      simp only [parseLoop, Bool.false_eq_true, if_false, if_neg due, took] at h
      cases h
    | ok turn => exact ⟨turn, rfl⟩

/-- A turn that the flag allows, and the loop after it. -/
theorem parseLoop_next {sample : Bool} {k : Nat} {st st' : ParseState} {ch : Char} {rest : Text}
    {skip : Bool} (poll : (k + 1) % 8192 = 0 → checkCancel cancelled = .ok ())
    (h : parseTurn d limit sample st ch rest.head? = .ok (.next skip st')) :
    parseLoop d limit sample cancelled k false st (ch :: rest) =
      parseLoop d limit sample cancelled (k + 1) skip st' rest := by
  by_cases due : (k + 1) % 8192 = 0
  · simp only [parseLoop, Bool.false_eq_true, if_false, if_pos due, poll due, h]
    rfl
  · simp only [parseLoop, Bool.false_eq_true, if_false, if_neg due, h]
    rfl

/-- A turn that the flag allows, and that leaves the loop. -/
theorem parseLoop_done {sample : Bool} {k : Nat} {st : ParseState} {ch : Char} {rest : Text}
    {rows : List Row} (poll : (k + 1) % 8192 = 0 → checkCancel cancelled = .ok ())
    (h : parseTurn d limit sample st ch rest.head? = .ok (.done rows)) :
    parseLoop d limit sample cancelled k false st (ch :: rest) = .ok rows := by
  by_cases due : (k + 1) % 8192 = 0
  · simp only [parseLoop, Bool.false_eq_true, if_false, if_pos due, poll due, h]
    rfl
  · simp only [parseLoop, Bool.false_eq_true, if_false, if_neg due, h]
    rfl

/-- The full loop only adds rows. -/
theorem parseLoop_rows (t : Text) :
    ∀ (k : Nat) (skip : Bool) (st : ParseState) (rows : List Row),
      parseLoop d limit false cancelled k skip st t = .ok rows → st.rows <+: rows := by
  induction t with
  | nil =>
    intro k skip st rows h
    exact (finish_ok h).1
  | cons ch rest ih =>
    intro k skip st rows h
    cases skip with
    | true => exact ih k false st rows h
    | false =>
      obtain ⟨poll, turn, took⟩ := parseLoop_ok h
      obtain ⟨skip, st', rfl, full⟩ := parseTurn_full took
      rw [parseLoop_next poll took] at h
      have later := ih (k + 1) skip st' rows h
      cases full with
      | stay same _ => exact same ▸ later
      | row r pushed _ _ =>
        have grown : st.rows <+: st'.rows := pushed ▸ List.prefix_append _ _
        exact grown.trans later

/-- Where the full loop succeeds, the sampling loop with rows to spare returns the first
`sampled` of its rows. -/
theorem parseLoop_sample (t : Text) :
    ∀ (k : Nat) (skip : Bool) (st : ParseState) (rows : List Row),
      parseLoop d limit false cancelled k skip st t = .ok rows → st.rows.length < sampled →
        parseLoop d sampled true cancelled k skip st t = .ok (rows.take sampled) := by
  induction t with
  | nil =>
    intro k skip st rows h room
    obtain ⟨-, atMost, again⟩ := finish_ok h
    have le : rows.length ≤ sampled := by omega
    rw [List.take_of_length_le le]
    exact again sampled le
  | cons ch rest ih =>
    intro k skip st rows h room
    cases skip with
    | true => exact ih k false st rows h room
    | false =>
      obtain ⟨poll, turn, took⟩ := parseLoop_ok h
      obtain ⟨skip, st', rfl, full⟩ := parseTurn_full took
      rw [parseLoop_next poll took] at h
      cases full with
      | stay same turn =>
        rw [parseLoop_next poll (turn sampled)]
        exact ih (k + 1) skip st' rows h (same ▸ room)
      | row r pushed stop turn =>
        have longer : st'.rows.length = st.rows.length + 1 := by
          rw [pushed, List.length_append, List.length_singleton]
        rcases Nat.lt_or_ge st'.rows.length sampled with room' | full
        · rw [parseLoop_next poll (turn sampled room')]
          exact ih (k + 1) skip st' rows h room'
        · -- The row just ended is the last one that the sample keeps.
          have exact' : st'.rows.length = sampled := by omega
          rw [parseLoop_done poll (stop sampled exact')]
          obtain ⟨later, rfl⟩ := parseLoop_rows rest (k + 1) skip st' rows h
          rw [← exact', List.take_left]

end

/-- **A file that parses is sampled as the first twenty of its rows**, with every delimiter and for
every text. -/
theorem parse_sample {d : Char} {cancelled : Option Bool} {t : Text} {rows : List Row}
    (h : parse d MAX_ROWS false cancelled t = .ok rows) :
    parse d 20 true cancelled t = .ok (rows.take 20) :=
  parseLoop_sample t 0 false {} rows h (by decide)

/-- Two rows, one of which has a field with a line break. -/
theorem parse_sample_two_rows :
    parse ';' 20 true none (text "a;\"b\n\"\r\nc") =
      .ok ([[text "a", text "b\n"], [text "c"]].take 20) :=
  parse_sample (show parse ';' MAX_ROWS false none (text "a;\"b\n\"\r\nc") = _ by decide +kernel)

end Mineru.Csv
