import Mineru.Vlm.Sse

/-!
# Streams and their events

The bytes of a response are lines, the lines are events (`events`), and the events have a verdict
(`judge`). The loop holds a part of the next line and a part of the next event; what it goes on to
do is what the whole rest of the bytes would give behind these (`Reading.ahead`). Each chunk keeps
that, so the cuts between the chunks do not matter.

`readStream_eq` is the whole of it: for every list of chunks the reader returns what `judge` says of
the events of all bytes. The other statements are about `judge`: what it sends, where it stops and
how much it assembles (`judge_ok`, `judge_len`). The last part writes events as a server may and
reads them back.

Errors of the transport, and what is done with the text in the end, are outside of the reader.
-/

set_option autoImplicit false

namespace Mineru.Vlm

/-! ## Events -/

/-- The lines of some bytes, behind the beginning of a line. Only a line that is complete loses its
carriage return. -/
def linesFrom : List UInt8 → List UInt8 → List (List UInt8)
  | line, [] => if line = [] then [] else [line]
  | line, b :: bytes =>
    if b = LF then popEnd line :: linesFrom [] bytes else linesFrom (line ++ [b]) bytes

/-- The events of some lines, behind the beginning of an event. Empty events are left out. -/
def eventsFrom : List UInt8 → List (List UInt8) → List (List UInt8)
  | event, [] => if event = [] then [] else [event]
  | event, line :: lines =>
    if line = [] then (if event = [] then [] else [event]) ++ eventsFrom [] lines
    else eventsFrom (addLine event line) lines

/-- The data of the events of a stream. -/
def events (bytes : List UInt8) : List (List UInt8) := eventsFrom [] (linesFrom [] bytes)

/-- A valid delta: whether it is the last one, and its content. -/
def Delta (config : SseConfig) (event : List UInt8) (last : Bool) (content : Option Text) : Prop :=
  ∃ data v choice, fromUtf8 event = some data ∧ data ≠ text "[DONE]" ∧ config.fromStr data = some v ∧
    firstChoice v = .ok choice ∧ finished config choice = .ok last ∧ deltaContent choice = content

/-- What is made of an event that is not empty, behind the last delta or not, and behind a text of this
length: an error, the end, or a delta. -/
inductive Verdict where
  | refused (error : VlmError)
  | done
  | delta (last : Bool) (content : Option Text)

def verdict (config : SseConfig) (terminal : Bool) (assembled : Nat) (event : List UInt8) : Verdict :=
  match fromUtf8 event with
  | none => .refused (streamError "invalid SSE UTF-8")
  | some data =>
    if data = text "[DONE]" then
      if terminal then .done else .refused (streamError "[DONE] before terminal completion")
    else if terminal then .refused (streamError "data after terminal completion")
    else match config.fromStr data with
      | none => .refused (streamError "invalid SSE JSON")
      | some v => match firstChoice v with
        | .error error => .refused error
        | .ok choice => match finished config choice with
          | .error error => .refused error
          | .ok last =>
            let content := deltaContent choice
            let total := assembled + (content.map utf8Len).getD 0
            if content.isSome && total > config.maxResponseBytes then
              .refused (.limitExceeded "completion" config.maxResponseBytes total)
            else .delta last content

/-- The result of some events, and their texts. -/
def judge (config : SseConfig) : Bool → Nat → List (List UInt8) → Except VlmError Unit × List Text
  | _, _, [] => (.error (streamError "SSE stream ended without [DONE]"), [])
  | terminal, assembled, event :: events => match verdict config terminal assembled event with
    | .refused error => (.error error, [])
    | .done => (.ok (), [])
    | .delta last content =>
      let rest := judge config last (assembled + (content.map utf8Len).getD 0) events
      (rest.1, content.toList ++ rest.2)

/-! ## One event -/

section Event

variable {config : SseConfig} {s s' : Reading} {event : List UInt8}

/-- The verdict on an event, as the state that it leads to. -/
theorem sseEvent_eq (config : SseConfig) (some : s.event ≠ []) :
    match verdict config s.terminal s.assembled s.event with
    | .refused error => ∃ s', sseEvent config s = (.error error, s') ∧ s'.sent = s.sent
    | .done => sseEvent config s = (.ok (), { s with event := [], done := true })
    | .delta last content => sseEvent config s = (.ok (), { s with
        terminal := last, assembled := s.assembled + (content.map utf8Len).getD 0,
        sent := s.sent ++ content.toList, event := [] }) := by
  unfold sseEvent verdict
  rw [if_neg some]
  cases fromUtf8 s.event with
  | none => exact ⟨s, rfl, rfl⟩
  | some data =>
    dsimp only
    by_cases isDone : data = text "[DONE]"
    · simp only [if_pos isDone]
      cases terminal : s.terminal with
      | true => simp only [if_true]
      | false => exact ⟨s, rfl, rfl⟩
    · simp only [if_neg isDone]
      cases terminal : s.terminal with
      | true => exact ⟨s, rfl, rfl⟩
      | false =>
        simp only [Bool.false_eq_true, if_false]
        cases config.fromStr data with
        | none => exact ⟨s, rfl, rfl⟩
        | some v =>
          dsimp only
          cases firstChoice v with
          | error error => exact ⟨s, rfl, rfl⟩
          | ok choice =>
            dsimp only
            cases finished config choice with
            | error error => exact ⟨s, rfl, rfl⟩
            | ok last =>
              dsimp only
              cases deltaContent choice with
              | none => simp [sendContent]
              | some content =>
                simp only [sendContent, Option.isSome_some, Bool.true_and, Option.map_some,
                  Option.getD_some, decide_eq_true_eq]
                by_cases large : s.assembled + utf8Len content > config.maxResponseBytes
                · simp only [if_pos large]
                  exact ⟨_, rfl, rfl⟩
                · simp only [if_neg large, Option.toList_some, Option.map_some, Option.getD_some]

end Event

/-! ## Lines -/

section Lines

variable {line rest : List UInt8}

theorem popEnd_line (none : LF ∉ line) : popEnd (line ++ [LF]) = popEnd line := by
  have last : line.getLast? ≠ some LF := fun is => none (List.mem_of_getLast? is)
  simp only [popEnd, List.getLast?_append, List.getLast?_singleton, Option.some_or, if_true,
    List.dropLast_concat, if_neg last]

theorem linesFrom_line (none : LF ∉ line) (start rest : List UInt8) :
    linesFrom start (line ++ LF :: rest) = popEnd (start ++ line) :: linesFrom [] rest := by
  induction line generalizing start with
  | nil =>
    rw [List.nil_append, linesFrom, if_pos rfl, List.append_nil]
  | cons b line ih =>
    rw [List.mem_cons, not_or] at none
    rw [List.cons_append, linesFrom, if_neg (Ne.symm none.1), ih none.2, List.append_assoc]
    rfl

theorem linesFrom_last (none : LF ∉ line) (start : List UInt8) :
    linesFrom start line = if start ++ line = [] then [] else [start ++ line] := by
  induction line generalizing start with
  | nil => rw [linesFrom, List.append_nil]
  | cons b line ih =>
    rw [List.mem_cons, not_or] at none
    rw [linesFrom, if_neg (Ne.symm none.1), ih none.2, List.append_assoc]
    rfl

end Lines

/-! ## The loop -/

section Loop

variable {config : SseConfig} {s s' : Reading} {bytes : List UInt8} {lines : List (List UInt8)}

/-- What the loop makes of such lines, if they are all that is left. -/
def Reading.ahead (config : SseConfig) (s : Reading) (lines : List (List UInt8)) :
    Except VlmError Unit × List Text :=
  let rest := judge config s.terminal s.assembled (eventsFrom s.event lines)
  (rest.1, s.sent ++ rest.2)

/-- A step that fails or is done has the whole result; otherwise it is still to come. -/
def Yields (step : Step) (whole : Except VlmError Unit × List Text)
    (next : Reading → Except VlmError Unit × List Text) : Prop :=
  match step with
  | (.error error, s) => whole = (.error error, s.sent)
  | (.ok (), s) => whole = if s.done then (.ok (), s.sent) else next s

section Yields

variable {whole : Except VlmError Unit × List Text} {next : Reading → Except VlmError Unit × List Text}

/-- When a line has ended the reading, the whole result is what was sent so far. -/
theorem Yields.done_eq (h : Yields (.ok (), s) whole next) (done : s.done = true) :
    whole = (.ok (), s.sent) := h.trans (if_pos done)

/-- Otherwise the result is that of the rest. -/
theorem Yields.more_eq (h : Yields (.ok (), s) whole next) (running : s.done = false) :
    whole = next s := h.trans (if_neg (by rw [running]; exact Bool.false_ne_true))

theorem Yields.done (done : s.done = true) : Yields (.ok (), s) (.ok (), s.sent) next :=
  (if_pos done).symm

theorem Yields.more (running : s.done = false) (is : whole = next s) : Yields (.ok (), s) whole next :=
  is.trans (if_neg (by rw [running]; exact Bool.false_ne_true)).symm

end Yields

/-- The variables that the handling of a line leaves alone. -/
def Reading.Same (s s' : Reading) : Prop := s'.wire = s.wire ∧ s'.pending = s.pending

/-- To send content leaves the position in the bytes as it is, and so does an event
(`sseEvent_same`) or a line (`sseLine_same`). -/
theorem sendContent_same (content : Option Text) : s.Same (sendContent config s content).2 := by
  unfold sendContent
  cases content with
  | none => exact ⟨rfl, rfl⟩
  | some content =>
    dsimp only
    split
    · exact ⟨rfl, rfl⟩
    · exact ⟨rfl, rfl⟩

theorem sseEvent_same : s.Same (sseEvent config s).2 := by
  unfold sseEvent
  repeat' split
  all_goals first | exact ⟨rfl, rfl⟩ | exact sendContent_same _

theorem sseLine_same (config : SseConfig) (line : List UInt8) : s.Same (sseLine config s line).2 := by
  unfold sseLine
  split
  · exact sseEvent_same
  · exact ⟨rfl, rfl⟩

/-- The event that is held goes before the events of the lines. -/
theorem sseEvent_yields (config : SseConfig) (running : s.done = false)
    (lines : List (List UInt8)) : Yields (sseEvent config s) (s.ahead config ([] :: lines)) fun s' => s'.ahead config lines := by
  by_cases empty : s.event = []
  · have same : sseEvent config s = (.ok (), s) := by rw [sseEvent, if_pos empty]
    simp only [Yields, same, running, Bool.false_eq_true, if_false, Reading.ahead, eventsFrom, if_true,
      empty, List.nil_append]
  · have step := sseEvent_eq config empty
    have first : eventsFrom s.event ([] :: lines) = s.event :: eventsFrom [] lines := by
      rw [eventsFrom, if_pos rfl, if_neg empty]
      rfl
    simp only [Reading.ahead, first, judge]
    cases is : verdict config s.terminal s.assembled s.event with
    | refused error =>
      rw [is] at step
      obtain ⟨s', step, sent⟩ := step
      simp only [Yields, step, sent, List.append_nil]
    | done =>
      rw [is] at step
      simp only [Yields, step, if_true, List.append_nil]
    | delta last content =>
      rw [is] at step
      simp only [Yields, step, running, Bool.false_eq_true, if_false, List.append_assoc]

/-- Behind an event there is none. -/
theorem sseEvent_cleared (config : SseConfig) (ok : (sseEvent config s).1 = .ok ()) : (sseEvent config s).2.event = [] := by
  by_cases empty : s.event = []
  · rw [sseEvent, if_pos empty]
    exact empty
  · have step := sseEvent_eq config empty
    cases is : verdict config s.terminal s.assembled s.event with
    | refused error =>
      rw [is] at step
      obtain ⟨s', step, -⟩ := step
      rw [step] at ok
      exact nomatch ok
    | done | delta =>
      rw [is] at step
      rw [step]

theorem sseLine_yields (config : SseConfig) (running : s.done = false) (line : List UInt8)
    (lines : List (List UInt8)) :
    Yields (sseLine config s line) (s.ahead config (line :: lines)) fun s' =>
      s'.ahead config lines := by
  unfold sseLine
  split
  · rename_i empty
    rw [empty]
    exact sseEvent_yields config running lines
  · rename_i some
    simp only [Yields, running, Bool.false_eq_true, if_false, Reading.ahead, eventsFrom, if_neg some]

/-- Without the end of a line nothing is read yet. -/
theorem readLines_none (none : LF ∉ s.pending) : readLines config s = (.ok (), s) := by
  rw [readLines, dif_neg none]

/-- The first line is taken off and handled. -/
theorem readLines_line {line rest : List UInt8} (is : s.pending = line ++ LF :: rest)
    (none : LF ∉ line) : readLines config s =
      match sseLine config { s with pending := rest } (popEnd line) with
      | (.error error, s) => (.error error, s)
      | (.ok (), s') =>
        if s'.done then (.ok (), s') else readLines config { s' with pending := rest } := by
  have here : LF ∈ s.pending := is ▸ List.mem_append_right _ List.mem_cons_self
  have index : s.pending.idxOf LF = line.length := by
    rw [is, List.idxOf_append_of_notMem none, List.idxOf_cons_self, Nat.add_zero]
  have front : s.pending.take (line.length + 1) = line ++ [LF] := by
    rw [is, List.take_append]
    simp
  have back : s.pending.drop (line.length + 1) = rest := by
    rw [is, List.drop_append]
    simp
  have whole := (readLines.eq_def config s).trans (dif_pos here)
  simp only [index, front, back, popEnd_line none] at whole
  exact whole

/-- The lines of what is pending. -/
theorem readLines_yields (config : SseConfig) (running : s.done = false) (bytes : List UInt8) :
    Yields (readLines config s) (s.ahead config (linesFrom [] (s.pending ++ bytes))) (fun s' =>
        s'.ahead config (linesFrom [] (s'.pending ++ bytes))) ∧
      (readLines config s).2.wire = s.wire ∧
      ((readLines config s).1 = .ok () → (readLines config s).2.done = false →
        LF ∉ (readLines config s).2.pending) := by
  generalize size : s.pending.length = n
  induction n using Nat.strongRecOn generalizing s with
  | ind n ih =>
    by_cases here : LF ∈ s.pending
    · obtain ⟨line, rest, is, none⟩ := List.eq_append_cons_of_mem here
      have shorter : rest.length < n := by
        rw [← size, is, List.length_append, List.length_cons]
        omega
      have cut : linesFrom [] (s.pending ++ bytes) = popEnd line :: linesFrom [] (rest ++ bytes) := by
        rw [is, List.append_assoc, List.cons_append, linesFrom_line none, List.nil_append]
      have yields : Yields (sseLine config { s with pending := rest } (popEnd line))
          (s.ahead config (popEnd line :: linesFrom [] (rest ++ bytes)))
          (fun s' => s'.ahead config (linesFrom [] (rest ++ bytes))) :=
        sseLine_yields config (s := { s with pending := rest }) running _ _
      have same := sseLine_same config (s := { s with pending := rest }) (popEnd line)
      rw [readLines_line is none, cut]
      revert yields same
      rcases sseLine config { s with pending := rest } (popEnd line) with ⟨error | ⟨⟩, s'⟩
      · intro yields same
        exact ⟨yields, same.1, nofun⟩
      · intro yields same
        dsimp only at same ⊢
        by_cases done : s'.done = true
        · rw [if_pos done, yields.done_eq done]
          exact ⟨.done done, same.1, fun _ no => nomatch done.symm.trans no⟩
        · rw [if_neg done]
          rw [Bool.not_eq_true] at done
          obtain ⟨later, wire, none⟩ := ih _ shorter (s := { s' with pending := rest }) done rfl
          refine ⟨?_, wire.trans same.1, none⟩
          rw [yields.more_eq done]
          exact later
    · rw [readLines_none here]
      exact ⟨.more running rfl, rfl, fun _ _ => here⟩

/-- The result, and what was sent. -/
def result (step : Step) : Except VlmError Unit × List Text := (step.1, step.2.sent)

/-- A last event without an empty line. -/
theorem readRest_event (running : s.done = false) :
    result (match if s.event = [] then (.ok (), s) else sseEvent config s with
      | (.error error, s) => (.error error, s)
      | (.ok (), s) =>
        if s.done then (.ok (), s)
        else (.error (streamError "SSE stream ended without [DONE]"), s)) = s.ahead config [] := by
  have yields := sseEvent_yields config running []
  have blank : s.ahead config [[]] = s.ahead config [] := by
    simp only [Reading.ahead, eventsFrom, if_true, List.append_nil]
  have step : (if s.event = [] then (.ok (), s) else sseEvent config s) = sseEvent config s := by
    split
    · rename_i empty
      rw [sseEvent, if_pos empty]
    · rfl
  rw [step, ← blank]
  have ended := sseEvent_cleared config (s := s)
  revert yields ended
  rcases sseEvent config s with ⟨error | ⟨⟩, s'⟩
  · intro yields _
    exact yields.symm
  · intro yields ended
    dsimp only at ended ⊢
    by_cases done : s'.done = true
    · rw [if_pos done, yields.done_eq done]
      rfl
    · rw [if_neg done]
      rw [Bool.not_eq_true] at done
      rw [yields.more_eq done, Reading.ahead, ended rfl]
      simp only [result, eventsFrom, if_true, judge, List.append_nil]

/-- Behind the last chunk: what is pending is a last line. -/
theorem readRest_eq (running : s.done = false) (none : LF ∉ s.pending) :
    result (readRest config s) = s.ahead config (linesFrom [] s.pending) := by
  rw [linesFrom_last none, List.nil_append, readRest]
  by_cases empty : s.pending = []
  · rw [if_pos empty, if_pos empty]
    exact readRest_event running
  · have line : sseLine config s s.pending =
        (.ok (), { s with event := addLine s.event s.pending }) := by
      rw [sseLine, if_neg empty]
    have yields := sseLine_yields config running s.pending []
    rw [line] at yields
    rw [if_neg empty, if_neg empty, line, yields.more_eq running]
    exact readRest_event (s := { s with event := addLine s.event s.pending }) running

/-- The chunks are read as the bytes that they are together. -/
theorem readChunks_eq (config : SseConfig) (chunks : List (List UInt8)) (running : s.done = false) (none : LF ∉ s.pending)
    (fits : s.wire + chunks.flatten.length ≤ config.maxResponseBytes) :
    result (readChunks config chunks s) =
      s.ahead config (linesFrom [] (s.pending ++ chunks.flatten)) := by
  induction chunks generalizing s with
  | nil =>
    rw [readChunks, List.flatten_nil, List.append_nil]
    exact readRest_eq running none
  | cons chunk chunks ih =>
    rw [List.flatten_cons, List.length_append] at fits
    have within : ¬ s.wire + chunk.length > config.maxResponseBytes := by omega
    let t : Reading := { s with wire := s.wire + chunk.length, pending := s.pending ++ chunk }
    have bytes : s.pending ++ (chunk :: chunks).flatten = t.pending ++ chunks.flatten := by
      rw [List.flatten_cons, ← List.append_assoc]
    have same (lines : List (List UInt8)) : s.ahead config lines = t.ahead config lines := rfl
    obtain ⟨yields, wire, left⟩ := readLines_yields config (s := t) running chunks.flatten
    rw [readChunks, if_neg within, bytes, same]
    change result (match readLines config t with
      | (.error error, s) => (.error error, s)
      | (.ok (), s) => if s.done then (.ok (), s) else readChunks config chunks s) = _
    revert yields wire left
    rcases readLines config t with ⟨error | ⟨⟩, s'⟩
    · intro yields _ _
      exact yields.symm
    · intro yields wire left
      dsimp only at wire left ⊢
      by_cases done : s'.done = true
      · rw [if_pos done, yields.done_eq done]
        rfl
      · rw [if_neg done]
        rw [Bool.not_eq_true] at done
        rw [yields.more_eq done]
        refine ih done (left rfl done) ?_
        rw [wire, Nat.add_assoc]
        exact fits

/-- What the loop returns and sends depends on the bytes alone. -/
theorem readStream_eq {chunks : List (List UInt8)}
    (fits : chunks.flatten.length ≤ config.maxResponseBytes) :
    readStream config chunks = judge config false 0 (events chunks.flatten) := by
  have whole := readChunks_eq config chunks (s := {}) rfl List.not_mem_nil
    (by rw [Nat.zero_add]; exact fits)
  rw [Reading.ahead, List.nil_append] at whole
  exact whole

end Loop

/-! ## The verdict on a stream -/

section Judge

variable {config : SseConfig} {event : List UInt8} {terminal last : Bool} {assembled : Nat}
  {content : Option Text}

/-- The length of a content. -/
def contentLen (content : Option Text) : Nat := (content.map utf8Len).getD 0

/-- A delta is one, comes before the last one, and is within the cap. -/
theorem verdict_delta (is : verdict config terminal assembled event = .delta last content) :
    terminal = false ∧ Delta config event last content ∧
      (content.isSome = true → assembled + contentLen content ≤ config.maxResponseBytes) := by
  unfold verdict at is
  cases decoded : fromUtf8 event with
  | none =>
    rw [decoded] at is
    exact nomatch is
  | some data =>
    rw [decoded] at is
    dsimp only at is
    by_cases isDone : data = text "[DONE]"
    · rw [if_pos isDone] at is
      cases terminal with
      | true | false => exact nomatch is
    · rw [if_neg isDone] at is
      cases terminal with
      | true => exact nomatch is
      | false =>
        rw [if_neg Bool.false_ne_true] at is
        cases parsed : config.fromStr data with
        | none =>
          rw [parsed] at is
          exact nomatch is
        | some v =>
          rw [parsed] at is
          dsimp only at is
          cases first : firstChoice v with
          | error error =>
            rw [first] at is
            exact nomatch is
          | ok choice =>
            rw [first] at is
            dsimp only at is
            cases finish : finished config choice with
            | error error =>
              rw [finish] at is
              exact nomatch is
            | ok isLast =>
              rw [finish] at is
              dsimp only at is
              split at is
              · exact nomatch is
              · rename_i within
                obtain ⟨rfl, rfl⟩ := Verdict.delta.inj is
                refine ⟨rfl, ⟨data, v, choice, decoded, isDone, parsed, first, finish, rfl⟩, fun some => ?_⟩
                rw [some, Bool.true_and, decide_eq_true_eq, Nat.not_lt] at within
                exact within

/-- The end is a `[DONE]` behind the last delta. -/
theorem verdict_done (is : verdict config terminal assembled event = .done) :
    terminal = true ∧ fromUtf8 event = some (text "[DONE]") := by
  unfold verdict at is
  cases decoded : fromUtf8 event with
  | none =>
    rw [decoded] at is
    exact nomatch is
  | some data =>
    rw [decoded] at is
    dsimp only at is
    by_cases isDone : data = text "[DONE]"
    · rw [if_pos isDone] at is
      cases terminal with
      | true => exact ⟨rfl, congrArg _ isDone⟩
      | false => exact nomatch is
    · rw [if_neg isDone] at is
      cases terminal with
      | true => exact nomatch is
      | false =>
        rw [if_neg Bool.false_ne_true] at is
        split at is
        · exact nomatch is
        · split at is
          · exact nomatch is
          · split at is
            · exact nomatch is
            · split at is
              · exact nomatch is
              · exact nomatch is

/-- Whether the last one of the deltas was read: `terminal`, behind them. -/
def ended (terminal : Bool) (deltas : List (Bool × Option Text)) : Bool :=
  (deltas.getLast?.map Prod.fst).getD terminal

theorem ended_cons (terminal last : Bool) (content : Option Text)
    (deltas : List (Bool × Option Text)) :
    ended terminal ((last, content) :: deltas) = ended last deltas := by
  cases deltas with
  | nil => rfl
  | cons delta deltas => rw [ended, ended, List.getLast?_cons_cons]; simp [List.getLast?_cons]

/-- What the events of a stream are to the result: the deltas that are read, their texts, and what is
behind them. -/
structure Answers (config : SseConfig) (events : List (List UInt8))
    (answer : Except VlmError Unit × List Text) : Prop where
  /-- The texts are those of the deltas at the beginning. Behind them stands a `[DONE]`, if the last one
  was read and the answer is `Ok`; otherwise the end of the stream, or the event that is refused there. -/
  sent : ∃ read deltas rest, events = read ++ rest ∧
    List.Forall₂ (fun event delta => Delta config event delta.1 delta.2) read deltas ∧
    answer.2 = (deltas.map Prod.snd).reduceOption ∧
    (answer.1 = .ok () → ended false deltas = true ∧
      ∃ done more, rest = done :: more ∧ fromUtf8 done = some (text "[DONE]")) ∧
    ∀ error, answer.1 = .error error →
      (rest = [] ∧ error = streamError "SSE stream ended without [DONE]") ∨
        ∃ bad more, rest = bad :: more ∧
          verdict config (ended false deltas) (answer.2.map utf8Len).sum bad = .refused error
  /-- The stream is complete: some deltas, the last one, and `[DONE]`. -/
  ok : answer.1 = .ok () → ∃ front contents final content done rest,
    events = front ++ final :: done :: rest ∧
    List.Forall₂ (fun event content => Delta config event false content) front contents ∧
    Delta config final true content ∧ fromUtf8 done = some (text "[DONE]") ∧
    answer.2 = (contents ++ [content]).reduceOption

theorem reduceOption_cons (content : Option Text) (contents : List (Option Text)) :
    (content :: contents).reduceOption = content.toList ++ contents.reduceOption := by
  cases content with
  | none | some => rfl

theorem contentLen_toList (content : Option Text) :
    (content.toList.map utf8Len).sum = contentLen content := by
  cases content with
  | none => rfl
  | some content => simp [contentLen]

/-- How far the events are read: the induction is on the events, with the flag and the length behind
those that were read already. -/
theorem judge_sent (config : SseConfig) (terminal : Bool) (assembled : Nat)
    (events : List (List UInt8)) : ∃ read deltas rest, events = read ++ rest ∧
      List.Forall₂ (fun event delta => Delta config event delta.1 delta.2) read deltas ∧
      (judge config terminal assembled events).2 = (deltas.map Prod.snd).reduceOption ∧
      ((judge config terminal assembled events).1 = .ok () → ended terminal deltas = true ∧
        ∃ done more, rest = done :: more ∧ fromUtf8 done = some (text "[DONE]")) ∧
      ∀ error, (judge config terminal assembled events).1 = .error error →
        (rest = [] ∧ error = streamError "SSE stream ended without [DONE]") ∨
          ∃ bad more, rest = bad :: more ∧ verdict config (ended terminal deltas)
            (assembled + ((judge config terminal assembled events).2.map utf8Len).sum) bad =
              .refused error := by
  induction events generalizing terminal assembled with
  | nil =>
    refine ⟨[], [], [], rfl, .nil, rfl, nofun, fun error is => .inl ⟨rfl, ?_⟩⟩
    exact (Except.error.inj is).symm
  | cons event events ih =>
    unfold judge
    cases is : verdict config terminal assembled event with
    | refused error =>
      refine ⟨[], [], event :: events, rfl, .nil, rfl, nofun, fun other same => .inr ?_⟩
      obtain rfl := Except.error.inj same
      exact ⟨event, events, rfl, is⟩
    | done =>
      obtain ⟨last, isDone⟩ := verdict_done is
      exact ⟨[], [], event :: events, rfl, .nil, rfl, fun _ => ⟨last, event, events, rfl, isDone⟩, nofun⟩
    | delta last content =>
      obtain ⟨-, delta, -⟩ := verdict_delta is
      obtain ⟨read, deltas, rest, rfl, valid, sent, ok, refused⟩ := ih last
        (assembled + contentLen content)
      refine ⟨event :: read, (last, content) :: deltas, rest, rfl, .cons delta valid, ?_, ?_, ?_⟩
      · rw [List.map_cons, reduceOption_cons]
        exact congrArg _ sent
      · rw [ended_cons]
        exact ok
      · intro error is
        rcases refused error is with none | ⟨bad, more, behind, isRefused⟩
        · exact .inl none
        · refine .inr ⟨bad, more, behind, ?_⟩
          rw [ended_cons, List.map_append, List.sum_append, contentLen_toList, ← Nat.add_assoc]
          exact isRefused

/-- Behind the last delta only `[DONE]` is accepted. -/
theorem judge_terminal {assembled : Nat} {events : List (List UInt8)}
    (ok : (judge config true assembled events).1 = .ok ()) :
    ∃ done rest, events = done :: rest ∧ fromUtf8 done = some (text "[DONE]") ∧
      (judge config true assembled events).2 = [] := by
  cases events with
  | nil => exact nomatch ok
  | cons event events =>
    unfold judge at ok ⊢
    cases is : verdict config true assembled event with
    | refused error =>
      rw [is] at ok
      exact nomatch ok
    | done => exact ⟨event, events, rfl, (verdict_done is).2, rfl⟩
    | delta last content => exact nomatch (verdict_delta is).1

/-- A stream that is accepted: deltas, one more that is the terminal one, and `[DONE]` directly
behind it. Their contents were sent, in this order. -/
theorem judge_ok {assembled : Nat} {events : List (List UInt8)}
    (ok : (judge config false assembled events).1 = .ok ()) :
    ∃ front contents final content done rest, events = front ++ final :: done :: rest ∧
      List.Forall₂ (fun event content => Delta config event false content) front contents ∧
      Delta config final true content ∧ fromUtf8 done = some (text "[DONE]") ∧
      (judge config false assembled events).2 = (contents ++ [content]).reduceOption := by
  induction events generalizing assembled with
  | nil => exact nomatch ok
  | cons event events ih =>
    unfold judge at ok ⊢
    cases is : verdict config false assembled event with
    | refused error =>
      rw [is] at ok
      exact nomatch ok
    | done => exact nomatch (verdict_done is).1
    | delta last content =>
      rw [is] at ok
      obtain ⟨-, delta, -⟩ := verdict_delta is
      cases last with
      | true =>
        obtain ⟨done, rest, rfl, isDone, none⟩ := judge_terminal ok
        refine ⟨[], [], event, content, done, rest, rfl, .nil, delta, isDone, ?_⟩
        rw [List.nil_append, reduceOption_cons]
        exact congrArg _ none
      | false =>
        obtain ⟨front, contents, final, content', done, rest, rfl, deltas, isFinal, isDone, sent⟩ :=
          ih ok
        refine ⟨event :: front, content :: contents, final, content', done, rest, rfl,
          .cons delta deltas, isFinal, isDone, ?_⟩
        rw [List.cons_append, reduceOption_cons]
        exact congrArg _ sent

/-- What is sent stays within the limit of the response, also of a stream that is refused in the
end. -/
theorem judge_len (terminal : Bool) {assembled : Nat} (within : assembled ≤ config.maxResponseBytes)
    (events : List (List UInt8)) :
    assembled + ((judge config terminal assembled events).2.map utf8Len).sum ≤
      config.maxResponseBytes := by
  induction events generalizing terminal assembled with
  | nil => exact within
  | cons event events ih =>
    unfold judge
    cases is : verdict config terminal assembled event with
    | refused | done => exact within
    | delta last content =>
      obtain ⟨-, -, small⟩ := verdict_delta is
      have next : assembled + contentLen content ≤ config.maxResponseBytes := by
        cases content with
        | none => exact within
        | some content => exact small rfl
      have later := ih last next
      dsimp only
      rw [List.map_append, List.sum_append, contentLen_toList, ← Nat.add_assoc]
      exact later

end Judge

/-! ## Line ends -/

/-- A line without its end. -/
structure Line where
  bytes : List UInt8
  plain : LF ∉ bytes
  noReturn : bytes.getLast? ≠ some CR

inductive LineEnd where
  | lf
  | crlf
  deriving DecidableEq, Repr

def LineEnd.bytes : LineEnd → List UInt8
  | lf => [LF]
  | crlf => [CR, LF]

def written (lines : List (Line × LineEnd)) : List UInt8 :=
  lines.flatMap fun (line, ending) => line.bytes ++ ending.bytes

/-- Some bytes are these lines, each with one of the line ends, the last one perhaps without. -/
def Writes (lines : List Line) (bytes : List UInt8) : Prop :=
  ∃ ended : List (Line × LineEnd), (bytes = written ended ∧ lines = ended.map Prod.fst) ∨
    ∃ last : Line, bytes = written ended ++ last.bytes ∧ lines = ended.map Prod.fst ++ [last]

section LineEnds

/-- A line that is written with any of its ends is read back. -/
theorem linesFrom_end (line : Line) (ending : LineEnd) (rest : List UInt8) :
    linesFrom [] (line.bytes ++ ending.bytes ++ rest) = line.bytes :: linesFrom [] rest := by
  have notLf : line.bytes.getLast? ≠ some LF := fun is => line.plain (List.mem_of_getLast? is)
  cases ending with
  | lf =>
    have cut := linesFrom_line line.plain [] rest
    rw [List.nil_append, popEnd, if_neg notLf, if_neg line.noReturn] at cut
    rw [List.append_assoc]
    exact cut
  | crlf =>
    have plain : LF ∉ line.bytes ++ [CR] := by
      rw [List.mem_append, not_or]
      exact ⟨line.plain, by decide⟩
    have cut := linesFrom_line plain [] rest
    have other : ¬ some CR = some LF := by decide
    simp only [popEnd, List.nil_append, List.getLast?_append, List.getLast?_singleton, Option.some_or,
      if_neg other, if_true, List.dropLast_concat] at cut
    rw [List.append_assoc] at cut ⊢
    exact cut

theorem linesFrom_written (ended : List (Line × LineEnd)) (rest : List UInt8) :
    linesFrom [] (written ended ++ rest) =
      (ended.map fun line => line.1.bytes) ++ linesFrom [] rest := by
  induction ended with
  | nil => rfl
  | cons line ended ih =>
    rw [written, List.flatMap_cons, List.append_assoc, linesFrom_end, List.map_cons, List.cons_append]
    exact congrArg _ ih

/-- An empty line at the end only completes the event before it. -/
theorem eventsFrom_blank (event : List UInt8) (lines : List (List UInt8)) :
    eventsFrom event (lines ++ [[]]) = eventsFrom event lines := by
  induction lines generalizing event with
  | nil => simp only [List.nil_append, eventsFrom, if_true, List.append_nil]
  | cons line lines ih =>
    rw [List.cons_append, eventsFrom, eventsFrom, ih, ih]

/-- The events of some lines do not depend on their ends. -/
theorem Writes.events_eq {lines : List Line} {bytes : List UInt8} (h : Writes lines bytes) :
    events bytes = eventsFrom [] (lines.map Line.bytes) := by
  obtain ⟨ended, ⟨rfl, rfl⟩ | ⟨last, rfl, rfl⟩⟩ := h
  · have whole := linesFrom_written ended []
    rw [List.append_nil] at whole
    rw [events, whole, linesFrom, if_pos rfl, List.append_nil, List.map_map]
    rfl
  · rw [events, linesFrom_written, linesFrom_last last.plain, List.nil_append, List.map_append,
      List.map_map]
    split
    · rename_i empty
      rw [List.append_nil, List.map_singleton, empty]
      exact (eventsFrom_blank _ _).symm
    · rfl

/-- A stream within the limit is decoded as its bytes say, whatever its chunks and its line ends are:
the answer is the verdict on its events one after the other, which starts before the last delta and
with nothing assembled. -/
theorem readStream_decodes (config : SseConfig) (chunks : List (List UInt8))
    (fits : chunks.flatten.length ≤ config.maxResponseBytes) :
    readStream config chunks = judge config false 0 (events chunks.flatten) ∧
    (∀ others : List (List UInt8), others.flatten = chunks.flatten →
      readStream config others = readStream config chunks) ∧
    Answers config (events chunks.flatten) (readStream config chunks) ∧
    ((readStream config chunks).2.map utf8Len).sum ≤ config.maxResponseBytes ∧
    ∀ lines, Writes lines chunks.flatten → ∀ others : List (List UInt8),
      others.flatten.length ≤ config.maxResponseBytes → Writes lines others.flatten →
        readStream config others = readStream config chunks := by
  have is := readStream_eq fits
  refine ⟨is, fun others same => ?_, ?_, ?_, fun lines writes others small writes' => ?_⟩
  · rw [is, readStream_eq (same ▸ fits), same]
  · rw [is]
    refine ⟨?_, judge_ok⟩
    obtain ⟨read, deltas, rest, all, valid, sent, ok, refused⟩ :=
      judge_sent config false 0 (events chunks.flatten)
    rw [Nat.zero_add] at refused
    exact ⟨read, deltas, rest, all, valid, sent, ok, refused⟩
  · have len := judge_len false (Nat.zero_le config.maxResponseBytes) (events chunks.flatten)
    rw [Nat.zero_add] at len
    rw [is]
    exact len
  · rw [is, readStream_eq small, writes.events_eq, writes'.events_eq]

/-- The JSON of the last delta, with the content `é`. -/
def lastDelta : String :=
  "\x7b\"choices\":[\x7b\"delta\":\x7b\"content\":\"é\"\x7d,\"finish_reason\":\"stop\"\x7d]\x7d"

/-- A configuration whose parser reads that JSON. -/
def deltaConfig : SseConfig where
  maxResponseBytes := 200
  allowTruncatedContent := false
  fromStr t :=
    if t = text lastDelta then
      some (.object [(text "choices", .array [.object
        [(text "delta", .object [(text "content", .string (text "é"))]),
          (text "finish_reason", .string (text "stop"))]])])
    else none

/-- The last delta and `[DONE]`, cut in the middle of the character `é` and between a carriage return and
its line feed. -/
def deltaChunks : List (List UInt8) :=
  let bytes := ("data: " ++ lastDelta ++ "\r\n\r\ndata: [DONE]\n\n").toUTF8.toList
  [bytes.take 40, (bytes.drop 40).take 30, bytes.drop 70]

/-- The stream is accepted, and its one text is sent. -/
theorem readStream_decodes_cut :
    readStream deltaConfig deltaChunks = (.ok (), [text "é"]) := by
  have small : deltaChunks.flatten.length ≤ deltaConfig.maxResponseBytes := by decide +kernel
  have parts : events deltaChunks.flatten =
      [lastDelta.toUTF8.toList, [91, 68, 79, 78, 69, 93]] := by decide +kernel
  have delta : fromUtf8 lastDelta.toUTF8.toList = some (text lastDelta) := by decide +kernel
  have done : fromUtf8 [91, 68, 79, 78, 69, 93] = some (text "[DONE]") := by decide +kernel
  have isDelta : verdict deltaConfig false 0 lastDelta.toUTF8.toList = .delta true (some (text "é")) := by
    unfold verdict
    rw [delta]
    rfl
  have isDone : verdict deltaConfig true 2 [91, 68, 79, 78, 69, 93] = .done := by
    unfold verdict
    rw [done]
    rfl
  rw [(readStream_decodes deltaConfig deltaChunks small).1, parts, judge, isDelta]
  change ((judge deltaConfig true 2 [[91, 68, 79, 78, 69, 93]]).1,
    [text "é"] ++ (judge deltaConfig true 2 [[91, 68, 79, 78, 69, 93]]).2) = _
  rw [judge, isDone]
  rfl

end LineEnds

end Mineru.Vlm
