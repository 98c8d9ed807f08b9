import Mineru.Laws.Semantic.Classic
import Mineru.Laws.Semantic.TwoPhase

/-!
# Both pipelines come to their end

Every step of a pipeline lowers a rank, so its runs are bounded by the number of candidates. On a page
whose encoders, requests and charges succeed or fail only for the request itself (`Page.Smooth`), no
step stops the pipeline either: until it has exited, there is a step to take.

A fatal reply, an encoder that fails or a refused charge stops a pipeline in the middle; nothing is
said here of what the other pipeline does then.
-/

set_option autoImplicit false

namespace Mineru.Semantic

open Logic
open Logic.Checked (Ensures)

/-- A page on which nothing stops a pipeline: the blocks of the candidates are there, their images are
encoded, no reply is fatal, and the document's budgets take every charge. -/
structure Page.Smooth (p : Page) : Prop where
  inRange : ∀ c ∈ p.candidates, c.originalIndex < p.blocks.length
  encodes : ∀ c ∈ p.candidates, ∃ image, c.encoded = .ok image
  replies : ∀ c ∈ p.candidates, ∀ e, c.reply ≠ .fatal e
  encodedBudget : ∀ i, p.chargeEncoded i = .ok ()
  residentBudget : ∀ i, p.chargeResident i = .ok ()

variable {p : Page}

/-- The reply of a candidate of a smooth page leaves something behind. -/
theorem Page.Smooth.outcome (smooth : p.Smooth) {r : Request} {c : Candidate} (asks : p.Asks r c) :
    ∃ reply rawBytes warnings, r.outcome = .ok (reply, rawBytes, warnings) := by
  have harmless := smooth.replies c (List.mem_of_getElem? asks.found)
  unfold Request.outcome
  rw [asks.reply]
  cases is : c.reply with
  | text | protocol => exact ⟨_, _, _, rfl⟩
  | fatal e => exact absurd is (harmless e)

/-- The block of a request of a smooth page is there, and so is the place of its reply. -/
theorem Page.Smooth.places (smooth : p.Smooth) {r : Request} {c : Candidate} (asks : p.Asks r c)
    {replies : Replies} (length : replies.length = p.candidates.length) :
    ¬ (r.order ≥ replies.length ∨ r.blockIndex ≥ p.blocks.length) := by
  have lt := (List.getElem?_eq_some_iff.mp asks.found).1
  have inside := smooth.inRange c (List.mem_of_getElem? asks.found)
  rw [asks.index]
  omega

theorem backfill_ok {blocks : List Block} {index : Nat} (tokens : Tokens)
    (inside : index < blocks.length) : ∃ blocks', backfill blocks index tokens = some blocks' := by
  unfold backfill
  rw [if_pos inside]
  split <;> exact ⟨_, rfl⟩

/-- What is held was counted. -/
theorem Page.held_le_kept (p : Page) (k : Nat) : p.held k ≤ p.kept k := by
  induction k with
  | zero => exact Nat.le_refl _
  | succ k ih =>
    cases found : p.candidates[k]? with
    | none =>
      unfold Page.held Page.kept at *
      rw [Page.take_past found]
      exact ih
    | some c =>
      rw [Page.held_succ found, Page.kept_succ found]
      unfold Page.hold Candidate.kept
      split
      · omega
      · split <;> omega

/-- A candidate on top of what is held is within what the page counts in all. -/
theorem Page.held_add_le {k : Nat} {c : Candidate} (found : p.candidates[k]? = some c)
    (small : c.size ≤ p.requestCap) : p.held k + c.size ≤ p.total := by
  have lt := (List.getElem?_eq_some_iff.mp found).1
  have all : p.kept (k + 1) ≤ p.total := Page.kept_mono lt
  have held := p.held_le_kept k
  rw [Page.kept_succ found] at all
  unfold Candidate.kept at all
  rw [if_neg (Nat.not_lt.mpr small)] at all
  omega

/-! ## The classic pipeline -/

namespace Classic

variable {s s' : Classic}

/-- What is left to encode and to ask for, with two units for each image and one for each reply. -/
def work (p : Page) (s : Classic) : Nat :=
  2 * (p.candidates.length - s.nextCandidate) + (if s.encoder.isSome then 2 else 0) +
    s.requests.length

/-- A bound for the steps that the pipeline may still take. -/
def rank (p : Page) (s : Classic) : Nat :=
  match s.pc with
  | .head => 2 * s.work p + 1
  | .select => 2 * s.work p
  | .exited | .stopped _ => 0

theorem turn_rank (pc : s.pc = .head) (taken : s.turn p = .ok s') :
    s'.rank p < s.rank p ∧ ∀ halt, s'.pc ≠ .stopped halt := by
  have start : s.rank p = 2 * s.work p + 1 := by simp [rank, pc]
  rw [start]
  unfold Classic.turn at taken
  split at taken
  · split at taken
    · rename_i admits
      unfold Classic.admits at admits
      simp only [Bool.and_eq_true, Option.isNone_iff_eq_none, decide_eq_true_eq] at admits
      obtain ⟨⟨⟨idle, more⟩, -⟩, -⟩ := admits
      unfold Classic.startEncoder at taken
      split at taken
      · cases taken
      · split at taken
        · cases taken
        · split at taken
          · cases taken
          · cases taken
            refine ⟨?_, nofun⟩
            simp only [rank, work, idle, Option.isSome_some, Option.isSome_none, if_true,
              Bool.false_eq_true, if_false]
            omega
    · cases taken
      refine ⟨?_, nofun⟩
      simp only [rank, work]
      omega
  · split at taken
    · cases taken
    · cases taken
      exact ⟨Nat.succ_pos _, nofun⟩

/-- A result that was retained or degraded takes the encoder, and adds one request at most. -/
theorem retain_left {order bytes : Nat} {c : Candidate} (taken : s.retain p order c bytes = .ok s') :
    s'.pc = .head ∧ s'.encoder = none ∧ s'.nextCandidate = s.nextCandidate ∧
      s'.requests.length ≤ s.requests.length + 1 := by
  unfold retain at taken
  dsimp only at taken
  split at taken
  · cases taken
  · split at taken
    · cases taken
      exact ⟨rfl, rfl, rfl, Nat.le_succ _⟩
    · split at taken
      · cases taken
      · split at taken
        · cases taken
          exact ⟨rfl, rfl, rfl, Nat.le_succ _⟩
        · cases charged : p.chargeEncoded order with
          | error error =>
            rw [charged] at taken
            cases taken
          | ok _ =>
            rw [charged] at taken
            cases taken
            exact ⟨rfl, rfl, rfl, by simp⟩

theorem encoded_rank {e : Encoder} (pc : s.pc = .select) (running : s.encoder = some e)
    (taken : s.encoded p e = .ok s') :
    s'.rank p < s.rank p ∧ ∀ halt, s'.pc ≠ .stopped halt := by
  have start : s.rank p = 2 * s.work p := by simp [rank, pc]
  have busy : s.work p =
      2 * (p.candidates.length - s.nextCandidate) + 2 + s.requests.length := by
    simp [work, running]
  unfold Classic.encoded at taken
  split at taken
  · cases taken
  · split at taken
    · cases taken
    · unfold checkedSub at taken
      split at taken
      · obtain ⟨head, idle, next, requests⟩ := retain_left taken
        dsimp only at next requests
        constructor
        · rw [start, busy]
          simp only [rank, head, work, idle, next, Option.isSome_none, Bool.false_eq_true, if_false]
          omega
        · intro halt stopped
          rw [head] at stopped
          cases stopped
      · cases taken

theorem completed_rank {i : Nat} {r : Request} (pc : s.pc = .select)
    (found : s.requests[i]? = some r)
    (taken : s.completed p r (s.requests.eraseIdx i) = .ok s') :
    s'.rank p < s.rank p ∧ ∀ halt, s'.pc ≠ .stopped halt := by
  have start : s.rank p = 2 * s.work p := by simp [rank, pc]
  have lt := (List.getElem?_eq_some_iff.mp found).1
  have shorter := List.length_eraseIdx_of_lt lt
  rw [start]
  unfold Classic.completed at taken
  cases outcome : r.outcome with
  | error halt =>
    rw [outcome] at taken
    cases taken
  | ok result =>
    rw [outcome] at taken
    change (checkedSub s.residentBytes r.lease >>= _) = _ at taken
    unfold checkedSub at taken
    split at taken
    · change (ite _ _ _) = _ at taken
      split at taken
      · cases taken
      · cases taken
        refine ⟨?_, nofun⟩
        simp only [rank, work, shorter]
        omega
    · cases taken

/-- Every step brings the pipeline closer to its end. -/
theorem step_rank {a : Event} (taken : s.step p a = some s') : s'.rank p < s.rank p := by
  have settled : ∀ {x : Checked VlmError Classic}, 0 < s.rank p →
      (∀ t, x = .ok t → t.rank p < s.rank p) → (s.settle x).rank p < s.rank p := by
    intro x pos lower
    cases x with
    | ok t => exact lower t rfl
    | error halt => exact pos
  cases a with
  | turn =>
    simp only [Classic.step] at taken
    split at taken
    · rename_i pc
      cases taken
      exact settled (by simp [rank, pc]) fun t ok => (turn_rank pc ok).1
    · cases taken
  | encoded =>
    simp only [Classic.step] at taken
    split at taken
    · rename_i pc
      obtain ⟨e, running, rfl⟩ := Option.map_eq_some_iff.mp taken
      exact settled (by simp [rank, pc, work, running]) fun t ok => (encoded_rank pc running ok).1
    · cases taken
  | completed i =>
    simp only [Classic.step] at taken
    split at taken
    · rename_i pc
      obtain ⟨r, found, rfl⟩ := Option.map_eq_some_iff.mp taken
      have lt := (List.getElem?_eq_some_iff.mp found).1
      exact settled (by simp only [rank, pc, work]; omega) fun t ok => (completed_rank pc found ok).1
    · cases taken

theorem run_length {h : List (Event × Unit)} (run : (classic p).Run (classic p).start h s) :
    h.length + s.rank p ≤ 4 * p.candidates.length + 1 := by
  induction run with
  | refl =>
    simp only [List.length_nil, rank, classic, start, work, Option.isSome_none, Bool.false_eq_true,
      if_false]
    omega
  | @snoc t u hist a reply run taken ih =>
    obtain ⟨next, step, same⟩ := Option.map_eq_some_iff.mp taken
    cases same
    have lower := step_rank step
    rw [List.length_append, List.length_singleton]
    omega

/-- The encoder of a smooth page gives its image back, and the candidate is asked for or degraded. -/
theorem encoded_ok (valid : p.Valid) (smooth : p.Smooth) (h : Inv p s) {e : Encoder}
    (running : s.encoder = some e) : ∃ s', s.encoded p e = .ok s' := by
  have owner := h.owner
  unfold Owner at owner
  rw [running] at owner
  obtain ⟨-, next, found, written, -⟩ := owner
  have lt := (List.getElem?_eq_some_iff.mp found).1
  have mem := List.mem_of_getElem? found
  have inside := smooth.inRange _ mem
  obtain ⟨image, encoded⟩ := smooth.encodes _ mem
  have length := Page.written_length written
  have known : e.candidate.originalIndex < e.blocks.length := by omega
  obtain ⟨blocks, given⟩ := backfill_ok image.tokens known
  have ended : Ended p s e image blocks := ⟨h, running, encoded, given⟩
  obtain ⟨reservation, le, left⟩ := ended.resident
  have sub : checkedSub s.residentBytes s.encoderReservation =
      .ok (s.residentBytes - s.encoderReservation) := if_pos le
  have caps := valid.caps
  have small := valid.batchWord
  have within := h.within
  have replies := h.replies
  unfold Classic.encoded
  rw [encoded]
  dsimp only
  rw [given]
  dsimp only
  rw [sub]
  show ∃ s', retain p (s.unreserved blocks) e.order e.candidate image.data.length = .ok s'
  have valid' : ¬ (e.order ≥ (s.unreserved blocks).replies.length ∨
      e.candidate.originalIndex ≥ p.blocks.length) := by
    show ¬ (e.order ≥ s.replies.length ∨ _)
    omega
  have resident : (s.unreserved blocks).residentBytes = leases s.requests := left
  unfold retain
  dsimp only
  rw [if_neg valid']
  split
  · exact ⟨_, rfl⟩
  · rw [if_neg (by omega), if_neg (by omega), smooth.encodedBudget]
    exact ⟨_, rfl⟩

theorem completed_ok (smooth : p.Smooth) (h : Inv p s) {i : Nat} {r : Request}
    (found : s.requests[i]? = some r) :
    ∃ s', s.completed p r (s.requests.eraseIdx i) = .ok s' := by
  obtain ⟨-, c, asks⟩ := h.asks r (List.mem_of_getElem? found)
  obtain ⟨reply, rawBytes, warnings, outcome⟩ := smooth.outcome asks
  have sum := leases_eraseIdx found
  have resident := h.resident
  have sub : checkedSub s.residentBytes r.lease = .ok (s.residentBytes - r.lease) :=
    if_pos (by omega)
  unfold Classic.completed
  rw [outcome]
  show ∃ s', (checkedSub s.residentBytes r.lease >>= _) = _
  rw [sub]
  show ∃ s', (ite _ _ _) = _
  rw [if_neg (smooth.places asks h.replies)]
  exact ⟨_, rfl⟩

/-- The top of the loop has no error of its own. -/
theorem turn_ok (valid : p.Valid) (h : Inv p s) : ∃ s', s.turn p = .ok s' := by
  have ensures := h.turn valid
  cases taken : s.turn p with
  | ok s' => exact ⟨s', rfl⟩
  | error halt =>
    cases halt with
    | panic => exact absurd taken ensures.ne_panic
    | err e =>
      exfalso
      unfold Classic.turn Classic.startEncoder at taken
      repeat' split at taken
      all_goals cases taken

/-- On a smooth page the pipeline does not stop. -/
theorem never_stops (valid : p.Valid) (smooth : p.Smooth) (reach : (classic p).Reachable s) :
    ∀ halt, s.pc ≠ .stopped halt := by
  have both : (Inv p s ∧ Stands p s) ∧ ∀ halt, s.pc ≠ .stopped halt := by
    apply Machine.Reachable.invariant
      (P := fun s => (Inv p s ∧ Stands p s) ∧ ∀ halt, s.pc ≠ .stopped halt) _ _ reach
    · exact ⟨⟨inv_start valid, trivial⟩, nofun⟩
    · intro t a t' r _ h taken
      obtain ⟨next, step, same⟩ := Option.map_eq_some_iff.mp taken
      cases same
      refine ⟨step_inv valid h.1.1 step, ?_⟩
      cases a with
      | turn =>
        simp only [Classic.step] at step
        split at step
        · rename_i pc
          cases step
          obtain ⟨t', ok⟩ := turn_ok valid h.1.1
          rw [ok]
          exact (turn_rank pc ok).2
        · cases step
      | encoded =>
        simp only [Classic.step] at step
        split at step
        · rename_i pc
          obtain ⟨e, running, rfl⟩ := Option.map_eq_some_iff.mp step
          obtain ⟨t', ok⟩ := encoded_ok valid smooth h.1.1 running
          rw [ok]
          exact (encoded_rank pc running ok).2
        · cases step
      | completed i =>
        simp only [Classic.step] at step
        split at step
        · rename_i pc
          obtain ⟨r, found, rfl⟩ := Option.map_eq_some_iff.mp step
          obtain ⟨t', ok⟩ := completed_ok smooth h.1.1 found
          rw [ok]
          exact (completed_rank pc found ok).2
        · cases step
  exact both.2

/-- On a smooth page the pipeline goes on until it has exited. -/
theorem goes_on (valid : p.Valid) (smooth : p.Smooth) (reach : (classic p).Reachable s) :
    s.pc = .exited ∨ ∃ a, (s.step p a).isSome = true := by
  have fine := never_stops valid smooth reach
  have moves := (reachable_inv valid reach).2.moves
  cases pc : s.pc with
  | head => exact .inr (moves (.inl pc))
  | select => exact .inr (moves (.inr pc))
  | exited => exact .inl rfl
  | stopped halt => exact absurd pc (fine halt)

end Classic

/-! ## The two phases -/

/-- A phase of a pipeline that has not stopped; a chunk waits for some encoder. -/
def Phase.going : Phase → Prop
  | .encoding outstanding => outstanding ≠ []
  | .stopped _ => False
  | _ => True

namespace TwoPhase

variable {s s' : TwoPhase} {k : Nat}

/-- A bound for the steps that the pipeline may still take: each candidate costs at most the head of
its chunk, its encoder and its request. -/
def rank (p : Page) (s : TwoPhase) : Nat :=
  match s.phase with
  | .chunkHead => 3 * (p.candidates.length - s.chunkStart) + s.retained.length + 2
  | .encoding outstanding =>
    3 * (p.candidates.length - (s.chunkStart + s.chunkResults.length)) + outstanding.length +
      s.chunkResults.length + s.retained.length + 2
  | .requesting => s.retained.length + 1
  | .exited | .stopped _ => 0

/-- A result is retained, so that its bytes are the ones of its request, or it is degraded. -/
theorem retain_left {order : Nat} {c : Candidate} {image : Encoded}
    (taken : s.retain p order c image = .ok s') :
    s'.retained.length ≤ s.retained.length + 1 ∧
      (s.residentBytes = leases s.retained → s'.residentBytes = leases s'.retained) := by
  have resident : ∀ index tokens, (s.backfilled index tokens).residentBytes = s.residentBytes := by
    intro index tokens
    unfold TwoPhase.backfilled
    split <;> rfl
  have retained : ∀ index tokens, (s.backfilled index tokens).retained = s.retained := by
    intro index tokens
    unfold TwoPhase.backfilled
    split <;> rfl
  have degraded : ∀ index tokens cap kind,
      ((s.backfilled index tokens).degrade order index image.data.length cap kind).retained.length ≤
        s.retained.length + 1 ∧
      (s.residentBytes = leases s.retained →
        ((s.backfilled index tokens).degrade order index image.data.length cap kind).residentBytes =
          leases ((s.backfilled index tokens).degrade order index image.data.length cap kind).retained) := by
    intro index tokens cap kind
    refine ⟨?_, fun account => ?_⟩
    · show (s.backfilled index tokens).retained.length ≤ _
      rw [retained]
      exact Nat.le_succ _
    · show (s.backfilled index tokens).residentBytes = leases (s.backfilled index tokens).retained
      rw [resident, retained, account]
  unfold TwoPhase.retain at taken
  dsimp only at taken
  split at taken
  · cases taken
  · split at taken
    · cases taken
      exact degraded _ _ _ _
    · split at taken
      · cases taken
      · split at taken
        · cases taken
          exact degraded _ _ _ _
        · cases charged : p.chargeEncoded order with
          | error error =>
            rw [charged] at taken
            cases taken
          | ok _ =>
            cases charged' : p.chargeResident order with
            | error error =>
              rw [charged, charged'] at taken
              cases taken
            | ok _ =>
              rw [charged, charged'] at taken
              cases taken
              refine ⟨?_, fun account => ?_⟩
              · show ((s.backfilled _ _).retained ++ [_]).length ≤ _
                rw [retained, List.length_append]
                exact Nat.le_refl _
              · show (s.backfilled _ _).residentBytes + _ = leases ((s.backfilled _ _).retained ++ [_])
                rw [resident, retained, leases_concat, account]

theorem retainAll_left (results : List (Option Encoded)) :
    ∀ (s s' : TwoPhase) (k : Nat), s.retainAll p k results = .ok s' →
      s'.phase = .chunkHead ∧ s'.chunkStart = k + results.length ∧
        s'.retained.length ≤ s.retained.length + results.length ∧
        (s.residentBytes = leases s.retained → s'.residentBytes = leases s'.retained) := by
  induction results with
  | nil =>
    intro s s' k taken
    cases taken
    exact ⟨rfl, rfl, Nat.le_refl _, id⟩
  | cons result rest ih =>
    intro s s' k taken
    unfold TwoPhase.retainAll at taken
    split at taken
    · rename_i image c _
      cases first : s.retain p k c image with
      | error halt =>
        rw [first] at taken
        cases taken
      | ok t =>
        rw [first] at taken
        obtain ⟨phase, start, retained, account⟩ := ih t s' (k + 1) taken
        obtain ⟨retained', account'⟩ := retain_left first
        rw [List.length_cons]
        exact ⟨phase, by omega, by omega, fun h => account (account' h)⟩
    · cases taken

theorem turn_rank (phase : s.phase = .chunkHead) : (s.turn p).rank p < s.rank p := by
  have start : s.rank p = 3 * (p.candidates.length - s.chunkStart) + s.retained.length + 2 := by
    simp [rank, phase]
  rw [start]
  unfold TwoPhase.turn
  by_cases more : s.chunkStart < p.candidates.length
  · rw [if_pos more]
    have bounds : s.chunkStart < s.chunkEnd p ∧ s.chunkEnd p ≤ p.candidates.length := by
      unfold TwoPhase.chunkEnd
      omega
    simp only [rank, List.length_range', List.length_replicate]
    omega
  · rw [if_neg more]
    simp only [rank]
    omega

theorem encoded_rank {outstanding : List Nat} {i order : Nat} (h : Inv p s)
    (phase : s.phase = .encoding outstanding) (found : outstanding[i]? = some order)
    (taken : s.encoded p order (outstanding.eraseIdx i) = .ok s') :
    s'.rank p < s.rank p ∧ (s'.phase = .chunkHead ∨
      s'.phase = .encoding (outstanding.eraseIdx i) ∧ outstanding.eraseIdx i ≠ []) ∧
      (s.residentBytes = leases s.retained → s'.residentBytes = leases s'.retained) := by
  unfold Inv at h
  rw [phase] at h
  obtain ⟨-, -, within, -, -⟩ := h
  have lt := (List.getElem?_eq_some_iff.mp found).1
  have shorter := List.length_eraseIdx_of_lt lt
  have start : s.rank p =
      3 * (p.candidates.length - (s.chunkStart + s.chunkResults.length)) + outstanding.length +
        s.chunkResults.length + s.retained.length + 2 := by simp [rank, phase]
  rw [start]
  unfold TwoPhase.encoded at taken
  split at taken
  · cases taken
  · split at taken
    · cases taken
    · dsimp only at taken
      split at taken
      · obtain ⟨head, next, retained, account⟩ := retainAll_left _ _ _ _ taken
        rw [List.length_set] at next retained
        refine ⟨?_, .inl head, account⟩
        simp only [rank, head, next]
        omega
      · rename_i more
        cases taken
        refine ⟨?_, .inr ⟨rfl, more⟩, id⟩
        simp only [rank, List.length_set, shorter]
        omega

theorem completed_rank {i : Nat} {r : Request} (phase : s.phase = .requesting)
    (found : s.retained[i]? = some r)
    (taken : s.completed p r (s.retained.eraseIdx i) = .ok s') :
    s'.rank p < s.rank p ∧ s'.phase = .requesting ∧
      (s.residentBytes = leases s.retained → s'.residentBytes = leases s'.retained) := by
  have start : s.rank p = s.retained.length + 1 := by simp [rank, phase]
  have lt := (List.getElem?_eq_some_iff.mp found).1
  have shorter := List.length_eraseIdx_of_lt lt
  have sum := leases_eraseIdx found
  rw [start]
  unfold TwoPhase.completed at taken
  cases outcome : r.outcome with
  | error halt =>
    rw [outcome] at taken
    cases taken
  | ok result =>
    rw [outcome] at taken
    change (checkedSub s.residentBytes r.lease >>= _) = _ at taken
    unfold checkedSub at taken
    split at taken
    · change (ite _ _ _) = _ at taken
      split at taken
      · cases taken
      · cases taken
        refine ⟨?_, phase, fun account => ?_⟩
        · simp only [rank, phase, shorter]
          omega
        · show s.residentBytes - r.lease = leases (s.retained.eraseIdx i)
          omega
    · cases taken

/-- Every step brings the pipeline closer to its end. -/
theorem step_rank {a : PhaseEvent} (h : Inv p s) (taken : s.step p a = some s') :
    s'.rank p < s.rank p := by
  have settled : ∀ {x : Checked VlmError TwoPhase}, 0 < s.rank p →
      (∀ t, x = .ok t → t.rank p < s.rank p) → (s.settle x).rank p < s.rank p := by
    intro x pos lower
    cases x with
    | ok t => exact lower t rfl
    | error halt => exact pos
  cases a with
  | turn =>
    simp only [TwoPhase.step] at taken
    split at taken
    · rename_i phase
      cases taken
      exact turn_rank phase
    · rename_i phase
      split at taken
      · cases taken
        simp [rank, phase]
      · cases taken
    · cases taken
  | encoded i =>
    simp only [TwoPhase.step] at taken
    split at taken
    · rename_i outstanding phase
      obtain ⟨order, found, rfl⟩ := Option.map_eq_some_iff.mp taken
      exact settled (by simp [rank, phase]) fun t ok => (encoded_rank h phase found ok).1
    · cases taken
  | completed i =>
    simp only [TwoPhase.step] at taken
    split at taken
    · rename_i phase
      obtain ⟨r, found, rfl⟩ := Option.map_eq_some_iff.mp taken
      exact settled (by simp [rank, phase]) fun t ok => (completed_rank phase found ok).1
    · cases taken

theorem run_length (small : p.encodedBytes < word) {h : List (PhaseEvent × Unit)}
    (run : (twoPhase p).Run (twoPhase p).start h s) :
    h.length + s.rank p ≤ 3 * p.candidates.length + 2 := by
  induction run with
  | refl => simp [rank, twoPhase, start]
  | @snoc t u hist a reply run taken ih =>
    obtain ⟨next, step, same⟩ := Option.map_eq_some_iff.mp taken
    cases same
    have lower := step_rank (reachable_inv small ⟨_, run⟩) step
    rw [List.length_append, List.length_singleton]
    omega

/-- The result of a candidate of a smooth page is retained or degraded. -/
theorem retain_ok (smooth : p.Smooth) (ample : p.total < word) (h : Base p s k)
    (resident : s.residentBytes = p.held k) {c : Candidate} {image : Encoded}
    (found : p.candidates[k]? = some c) (is : c.encoded = .ok image) :
    ∃ s', s.retain p k c image = .ok s' := by
  have lt := (List.getElem?_eq_some_iff.mp found).1
  have inside := smooth.inRange c (List.mem_of_getElem? found)
  have replies := h.replies
  have bytes : (s.backfilled c.originalIndex image.tokens).residentBytes = p.held k := by
    rw [← resident]
    unfold TwoPhase.backfilled
    split <;> rfl
  unfold TwoPhase.retain
  dsimp only
  rw [if_neg (by omega), bytes, ← size_of_encoded is]
  by_cases large : c.size > p.requestCap
  · rw [if_pos large]
    exact ⟨_, rfl⟩
  · have fits := Page.held_add_le found (Nat.le_of_not_lt large)
    rw [if_neg large, if_neg (by omega)]
    split
    · exact ⟨_, rfl⟩
    · rw [smooth.encodedBudget, smooth.residentBudget]
      exact ⟨_, rfl⟩

theorem retainAll_ok (smooth : p.Smooth) (ample : p.total < word)
    (results : List (Option Encoded)) :
    ∀ (s : TwoPhase) (k : Nat), Base p s k → s.residentBytes = p.held k →
      (∀ j, j < results.length → ∃ c image, p.candidates[k + j]? = some c ∧
        c.encoded = .ok image ∧ results[j]? = some (some image)) →
      ∃ s', s.retainAll p k results = .ok s' := by
  induction results with
  | nil => exact fun s k _ _ _ => ⟨_, rfl⟩
  | cons result rest ih =>
    intro s k h resident there
    obtain ⟨c, image, found, is, first⟩ := there 0 (Nat.zero_lt_succ _)
    rw [Nat.add_zero] at found
    cases Option.some.inj first
    obtain ⟨t, retained⟩ := retain_ok smooth ample h resident found is
    have after := (h.retain resident found is).of_ok retained
    unfold TwoPhase.retainAll
    rw [found]
    show ∃ s', (s.retain p k c image >>= _) = _
    rw [retained]
    apply ih t (k + 1) after.1 after.2
    intro j lt
    obtain ⟨c', image', found', is', there'⟩ := there (j + 1) (Nat.succ_lt_succ lt)
    refine ⟨c', image', ?_, is', there'⟩
    rw [← found']
    congr 1
    omega

theorem encoded_ok (smooth : p.Smooth) (ample : p.total < word) {outstanding : List Nat} {i order : Nat}
    (h : Inv p s) (phase : s.phase = .encoding outstanding) (found : outstanding[i]? = some order) :
    ∃ s', s.encoded p order (outstanding.eraseIdx i) = .ok s' := by
  unfold Inv at h
  rw [phase] at h
  obtain ⟨base, resident, within, inside, collected⟩ := h
  have bounds := inside order (List.mem_of_getElem? found)
  have candidate : p.candidates[order]? = some p.candidates[order] :=
    List.getElem?_eq_getElem (by omega)
  obtain ⟨image, is⟩ := smooth.encodes _ (List.mem_of_getElem? candidate)
  have kept := collected.set found bounds candidate is
  unfold TwoPhase.encoded
  rw [candidate]
  dsimp only
  rw [is]
  dsimp only
  split
  · rename_i empty
    apply retainAll_ok smooth ample _ s s.chunkStart base resident
    intro j lt
    rcases kept j lt with waiting | done
    · rw [empty] at waiting
      cases waiting
    · exact done
  · exact ⟨_, rfl⟩

theorem completed_ok (smooth : p.Smooth) (h : Inv p s) (account : s.residentBytes = leases s.retained)
    (phase : s.phase = .requesting) {i : Nat} {r : Request} (found : s.retained[i]? = some r) :
    ∃ s', s.completed p r (s.retained.eraseIdx i) = .ok s' := by
  unfold Inv at h
  rw [phase] at h
  obtain ⟨c, asks, -⟩ := h.asks r (List.mem_of_getElem? found)
  obtain ⟨reply, rawBytes, warnings, outcome⟩ := smooth.outcome asks
  have sum := leases_eraseIdx found
  have sub : checkedSub s.residentBytes r.lease = .ok (s.residentBytes - r.lease) :=
    if_pos (by omega)
  unfold TwoPhase.completed
  rw [outcome]
  show ∃ s', (checkedSub s.residentBytes r.lease >>= _) = _
  rw [sub]
  show ∃ s', (ite _ _ _) = _
  rw [if_neg (smooth.places asks h.replies)]
  exact ⟨_, rfl⟩

/-- A run of a smooth page: the invariant holds, the resident bytes are the ones of the requests, and
the pipeline has not stopped. -/
structure Fine (p : Page) (s : TwoPhase) : Prop where
  inv : Inv p s
  account : s.residentBytes = leases s.retained
  going : s.phase.going

theorem step_fine (smooth : p.Smooth) (ample : p.total < word) {a : PhaseEvent} (h : Fine p s)
    (taken : s.step p a = some s') : Fine p s' := by
  have inv := step_inv h.inv taken
  cases a with
  | turn =>
    simp only [TwoPhase.step] at taken
    split at taken
    · cases taken
      unfold TwoPhase.turn at inv ⊢
      by_cases more : s.chunkStart < p.candidates.length
      · rw [if_pos more] at inv ⊢
        refine ⟨inv, h.account, ?_⟩
        have size : 0 < s.chunkEnd p - s.chunkStart := by
          unfold TwoPhase.chunkEnd
          omega
        intro none
        have := congrArg List.length none
        simp at this
        omega
      · rw [if_neg more] at inv ⊢
        exact ⟨inv, h.account, trivial⟩
    · split at taken
      · cases taken
        exact ⟨inv, h.account, trivial⟩
      · cases taken
    · cases taken
  | encoded i =>
    simp only [TwoPhase.step] at taken
    split at taken
    · rename_i outstanding phase
      obtain ⟨order, found, rfl⟩ := Option.map_eq_some_iff.mp taken
      obtain ⟨t, ok⟩ := encoded_ok smooth ample h.inv phase found
      obtain ⟨-, going, account⟩ := encoded_rank h.inv phase found ok
      rw [ok] at inv ⊢
      refine ⟨inv, account h.account, ?_⟩
      rcases going with head | ⟨more, some⟩
      · exact head ▸ trivial
      · exact more ▸ some
    · cases taken
  | completed i =>
    simp only [TwoPhase.step] at taken
    split at taken
    · rename_i phase
      obtain ⟨r, found, rfl⟩ := Option.map_eq_some_iff.mp taken
      obtain ⟨t, ok⟩ := completed_ok smooth h.inv h.account phase found
      obtain ⟨-, going, account⟩ := completed_rank phase found ok
      rw [ok] at inv ⊢
      exact ⟨inv, account h.account, going ▸ trivial⟩
    · cases taken

theorem reachable_fine (valid : p.Valid) (smooth : p.Smooth) (ample : p.total < word)
    (reach : (twoPhase p).Reachable s) : Fine p s := by
  apply Machine.Reachable.invariant ⟨inv_start valid.encodedWord, rfl, trivial⟩ _ reach
  intro t a t' r _ h taken
  obtain ⟨next, step, same⟩ := Option.map_eq_some_iff.mp taken
  cases same
  exact step_fine smooth ample h step

/-- On a smooth page the pipeline goes on until it has exited. -/
theorem goes_on (valid : p.Valid) (smooth : p.Smooth) (ample : p.total < word)
    (reach : (twoPhase p).Reachable s) :
    s.phase = .exited ∨ ∃ a, (s.step p a).isSome = true := by
  have going := (reachable_fine valid smooth ample reach).going
  cases phase : s.phase with
  | chunkHead => exact .inr ⟨.turn, by simp [TwoPhase.step, phase]⟩
  | encoding outstanding =>
    rw [phase] at going
    cases outstanding with
    | nil => exact absurd rfl going
    | cons order rest => exact .inr ⟨.encoded 0, by simp [TwoPhase.step, phase]⟩
  | requesting =>
    cases left : s.retained with
    | nil => exact .inr ⟨.turn, by simp [TwoPhase.step, phase, left]⟩
    | cons r rest => exact .inr ⟨.completed 0, by simp [TwoPhase.step, phase, left]⟩
  | exited => exact .inl rfl
  | stopped halt =>
    rw [phase] at going
    exact going.elim

end TwoPhase

end Mineru.Semantic
