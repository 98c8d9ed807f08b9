import Mineru.Laws.Semantic.Page
import Mineru.Semantic.TwoPhase

/-!
# What the two-phase pipeline comes to

`Base` says what the first `k` candidates have come to: their token maps are written, their bytes
are counted, and each of them is retained or answered. Retaining one result takes it from `k` to `k
+ 1`, so a chunk takes it to the end of the chunk, whatever order its encoders ended in, and a reply
keeps it.

The results of a chunk are collected by their orders and retained only when all of them are there,
which is why the order of the endings is lost (`Collected.set`, `Base.retainAll`). What is handed
over in the end is read off `Base` for all candidates (`exited`).

A fatal answer ends the pipeline at once, and then `exited` says nothing. When that may happen is
the subject of the laws about endings.
-/

set_option autoImplicit false

namespace Mineru.Semantic

open Logic
open Logic.Checked (Ensures)

namespace TwoPhase

/-- Where a candidate is once the first `k` results were looked at. -/
inductive Slot (p : Page) (s : TwoPhase) (k i : Nat) (c : Candidate) : Prop where
  | waiting (after : k ≤ i)
  | asked (r : Request) (retained : r ∈ s.retained) (order : r.order = i)
  | answered (reply : s.replies[i]? = some (some (c.originalIndex, c.heldAnswer p (p.held i))))

structure Base (p : Page) (s : TwoPhase) (k : Nat) : Prop where
  blocks : p.written k = some s.blocks
  replies : s.replies.length = p.candidates.length
  encoded : s.encodedBytes = saturatingAdd p.encodedBytes (p.held k)
  asks : ∀ r ∈ s.retained, ∃ c, p.Asks r c ∧ p.held r.order + c.size ≤ p.batchCap
  slots : ∀ i c, p.candidates[i]? = some c → Slot p s k i c

/-- The results of a chunk: each is there, or its encoder is outstanding. -/
def Collected (p : Page) (s : TwoPhase) (outstanding : List Nat) : Prop :=
  ∀ j, j < s.chunkResults.length → s.chunkStart + j ∈ outstanding ∨
    ∃ c image, p.candidates[s.chunkStart + j]? = some c ∧ c.encoded = .ok image ∧
      s.chunkResults[j]? = some (some image)

/-- What a phase promises. -/
def Inv (p : Page) (s : TwoPhase) : Prop :=
  match s.phase with
  | .chunkHead => Base p s s.chunkStart ∧ s.residentBytes = p.held s.chunkStart ∧
      s.chunkStart ≤ p.candidates.length
  | .encoding outstanding => Base p s s.chunkStart ∧ s.residentBytes = p.held s.chunkStart ∧
      s.chunkStart + s.chunkResults.length ≤ p.candidates.length ∧
      (∀ order ∈ outstanding,
        s.chunkStart ≤ order ∧ order < s.chunkStart + s.chunkResults.length) ∧
      Collected p s outstanding
  | .requesting => Base p s p.candidates.length
  | .exited => Base p s p.candidates.length ∧ s.retained = []
  | .stopped _ => True

variable {p : Page} {s : TwoPhase} {k : Nat}

/-- `Base` only looks at some of the locals. -/
theorem Base.same {s' : TwoPhase} (h : Base p s k) (blocks : s'.blocks = s.blocks)
    (replies : s'.replies = s.replies) (encoded : s'.encodedBytes = s.encodedBytes)
    (retained : s'.retained = s.retained) : Base p s' k where
  blocks := blocks ▸ h.blocks
  replies := replies ▸ h.replies
  encoded := encoded ▸ h.encoded
  asks := retained ▸ h.asks
  slots i c found := by
    cases h.slots i c found with
    | waiting after => exact .waiting after
    | asked r mem order => exact .asked r (retained ▸ mem) order
    | answered reply => exact .answered (replies ▸ reply)

theorem inv_start (small : p.encodedBytes < word) : Inv p (start p) := by
  refine ⟨⟨rfl, List.length_replicate, ?_, ?_, fun i c _ => .waiting (Nat.zero_le i)⟩, rfl,
    Nat.zero_le _⟩
  · show p.encodedBytes = min (p.encodedBytes + 0) (word - 1)
    omega
  · intro r mem
    cases mem

/-! ## One result -/

section Retain

variable {c : Candidate} {image : Encoded}

/-- The blocks after the token map of a candidate whose block there is. -/
theorem Base.backfilled (h : Base p s k) (found : p.candidates[k]? = some c)
    (is : c.encoded = .ok image) (inside : c.originalIndex < p.blocks.length) :
    p.written (k + 1) = some (s.backfilled c.originalIndex image.tokens).blocks := by
  have length := Page.written_length h.blocks
  rw [Page.written_succ found, h.blocks]
  show c.write s.blocks = _
  unfold Candidate.write TwoPhase.backfilled
  rw [is]
  show backfill s.blocks _ _ = _
  unfold backfill
  by_cases empty : image.tokens = []
  · rw [if_pos empty, if_pos empty]
  · rw [if_neg empty, if_neg empty, if_pos (by omega)]

theorem size_of_encoded (is : c.encoded = .ok image) : c.size = image.data.length := by
  unfold Candidate.size
  rw [is]

/-- A candidate is answered with empty content, and nothing is held for it. -/
theorem Base.degraded (h : Base p s k) (found : p.candidates[k]? = some c) {t : TwoPhase}
    (blocks : p.written (k + 1) = some t.blocks)
    (replies : t.replies = s.replies.set k (some (c.originalIndex, [])))
    (encoded : t.encodedBytes = s.encodedBytes) (retained : t.retained = s.retained)
    (empty : c.heldAnswer p (p.held k) = []) (nothing : p.hold (p.held k) c = p.held k) :
    Base p t (k + 1) ∧ p.held (k + 1) = p.held k := by
  have held : p.held (k + 1) = p.held k := (Page.held_succ found).trans nothing
  have lt := (List.getElem?_eq_some_iff.mp found).1
  refine ⟨⟨blocks, ?_, ?_, ?_, ?_⟩, held⟩
  · rw [replies, List.length_set]
    exact h.replies
  · rw [encoded, held]
    exact h.encoded
  · rw [retained]
    exact h.asks
  · intro i c' at_
    by_cases same : k = i
    · subst same
      rw [found] at at_
      cases at_
      refine .answered ?_
      rw [replies, empty]
      exact List.getElem?_set_self (by rw [h.replies]; exact lt)
    · cases h.slots i c' at_ with
      | waiting after => exact .waiting (by omega)
      | asked r mem order => exact .asked r (retained ▸ mem) order
      | answered reply =>
        refine .answered ?_
        rw [replies, List.getElem?_set_ne same]
        exact reply

/-- A candidate is retained, to be asked for. -/
theorem Base.retained (h : Base p s k) (found : p.candidates[k]? = some c) {t : TwoPhase}
    (blocks : p.written (k + 1) = some t.blocks) (replies : t.replies = s.replies)
    (encoded : t.encodedBytes = saturatingAdd s.encodedBytes c.size)
    (retained : t.retained = s.retained ++ [⟨k, c.originalIndex, c.reply, c.size⟩])
    (small : c.size ≤ p.requestCap) (fits : p.held k + c.size ≤ p.batchCap) :
    Base p t (k + 1) ∧ p.held (k + 1) = p.held k + c.size := by
  have held : p.held (k + 1) = p.held k + c.size := by
    rw [Page.held_succ found]
    unfold Page.hold
    rw [if_neg (Nat.not_lt.mpr small), if_neg (Nat.not_lt.mpr fits)]
  refine ⟨⟨blocks, replies ▸ h.replies, ?_, ?_, ?_⟩, held⟩
  · rw [encoded, h.encoded, held, saturatingAdd_add]
  · intro r mem
    rw [retained] at mem
    rcases List.mem_append.mp mem with old | new
    · exact h.asks r old
    · rw [List.mem_singleton.mp new]
      exact ⟨c, ⟨found, rfl, rfl, rfl, small⟩, fits⟩
  · intro i c' at_
    by_cases same : k = i
    · refine .asked ⟨k, c.originalIndex, c.reply, c.size⟩ ?_ same
      rw [retained]
      exact List.mem_append_right _ (List.mem_singleton.mpr rfl)
    · cases h.slots i c' at_ with
      | waiting after => exact .waiting (by omega)
      | asked r mem order =>
        refine .asked r ?_ order
        rw [retained]
        exact List.mem_append_left _ mem
      | answered reply => exact .answered (replies ▸ reply)

theorem Base.retain (h : Base p s k) (resident : s.residentBytes = p.held k)
    (found : p.candidates[k]? = some c) (is : c.encoded = .ok image) :
    Ensures (s.retain p k c image) fun s' => Base p s' (k + 1) ∧
      s'.residentBytes = p.held (k + 1) := by
  have size := size_of_encoded is
  unfold TwoPhase.retain
  refine Ensures.ite (fun _ => Ensures.fail) fun valid => ?_
  rw [not_or] at valid
  have blocks := h.backfilled found is (Nat.lt_of_not_le valid.2)
  have replies : (s.backfilled c.originalIndex image.tokens).replies = s.replies := by
    unfold TwoPhase.backfilled
    split <;> rfl
  have encoded : (s.backfilled c.originalIndex image.tokens).encodedBytes = s.encodedBytes := by
    unfold TwoPhase.backfilled
    split <;> rfl
  have retained : (s.backfilled c.originalIndex image.tokens).retained = s.retained := by
    unfold TwoPhase.backfilled
    split <;> rfl
  have bytes : (s.backfilled c.originalIndex image.tokens).residentBytes = p.held k := by
    rw [← resident]
    unfold TwoPhase.backfilled
    split <;> rfl
  generalize s.backfilled c.originalIndex image.tokens = t at blocks replies encoded retained bytes
  dsimp only
  rw [← size]
  refine Ensures.ite (fun large => ?_) fun small => ?_
  · have after := h.degraded found (t := t.degrade k c.originalIndex c.size p.requestCap .perRequest)
      blocks (congrArg (List.set · _ _) replies) encoded retained (if_pos large) (if_pos large)
    exact Ensures.ok ⟨after.1, bytes.trans after.2.symm⟩
  · refine Ensures.ite (fun _ => Ensures.fail) fun _ => ?_
    rw [bytes]
    refine Ensures.ite (fun large => ?_) fun fits => ?_
    · have after := h.degraded found (t := t.degrade k c.originalIndex c.size p.batchCap .batch)
        blocks (congrArg (List.set · _ _) replies) encoded retained
        ((if_neg small).trans (if_pos large)) ((if_neg small).trans (if_pos large))
      exact Ensures.ok ⟨after.1, bytes.trans after.2.symm⟩
    · cases p.chargeEncoded k with
      | error error => exact Ensures.fail
      | ok _ =>
        cases p.chargeResident k with
        | error error => exact Ensures.fail
        | ok _ =>
          have after := h.retained found (t := { t with
              residentBytes := p.held k + c.size
              encodedBytes := saturatingAdd t.encodedBytes c.size
              retained := t.retained ++ [⟨k, c.originalIndex, c.reply, c.size⟩] })
            blocks replies (by rw [encoded]) (by rw [retained]) (Nat.le_of_not_lt small)
            (Nat.le_of_not_lt fits)
          exact Ensures.ok ⟨after.1, after.2.symm⟩

end Retain

/-! ## The phases -/

/-- The results of a chunk, in source order. -/
theorem Base.retainAll (results : List (Option Encoded)) (h : Base p s k)
    (resident : s.residentBytes = p.held k) (within : k + results.length ≤ p.candidates.length)
    (there : ∀ j, j < results.length → ∃ c image, p.candidates[k + j]? = some c ∧
      c.encoded = .ok image ∧ results[j]? = some (some image)) :
    Ensures (s.retainAll p k results) (Inv p) := by
  induction results generalizing s k with
  | nil =>
    unfold TwoPhase.retainAll
    exact Ensures.ok ⟨h.same rfl rfl rfl rfl, resident, within⟩
  | cons result rest ih =>
    obtain ⟨c, image, found, is, first⟩ := there 0 (Nat.zero_lt_succ _)
    rw [Nat.add_zero] at found
    cases Option.some.inj first
    unfold TwoPhase.retainAll
    rw [found]
    refine (h.retain resident found is).bind fun s' after => ?_
    apply ih after.1 after.2
    · rw [List.length_cons] at within
      omega
    · intro j lt
      obtain ⟨c', image', found', is', there'⟩ := there (j + 1) (Nat.succ_lt_succ lt)
      refine ⟨c', image', ?_, is', there'⟩
      rw [← found']
      congr 1
      omega

theorem Inv.turn (h : Inv p s) (phase : s.phase = .chunkHead) : Inv p (s.turn p) := by
  unfold Inv at h
  rw [phase] at h
  obtain ⟨base, resident, within⟩ := h
  unfold TwoPhase.turn
  by_cases more : s.chunkStart < p.candidates.length
  · rw [if_pos more]
    refine ⟨base.same rfl rfl rfl rfl, resident, ?_, ?_, ?_⟩
    · show s.chunkStart + (List.replicate _ _).length ≤ _
      rw [List.length_replicate]
      unfold TwoPhase.chunkEnd
      omega
    · intro order mem
      show _ ∧ order < s.chunkStart + (List.replicate _ _).length
      rw [List.length_replicate]
      exact List.mem_range'_1.mp mem
    · intro j lt
      change j < (List.replicate _ _).length at lt
      rw [List.length_replicate] at lt
      exact .inl (List.mem_range'_1.mpr ⟨Nat.le_add_right _ _, Nat.add_lt_add_left lt _⟩)
  · rw [if_neg more]
    have last : s.chunkStart = p.candidates.length := by omega
    rw [last] at base
    exact base.same rfl rfl rfl rfl

/-- The result of an encoder that ended is there, and its order is not outstanding any more. -/
theorem Collected.set {outstanding : List Nat} (collected : Collected p s outstanding) {i order : Nat}
    (found : outstanding[i]? = some order)
    (bounds : s.chunkStart ≤ order ∧ order < s.chunkStart + s.chunkResults.length) {c : Candidate}
    {image : Encoded} (candidate : p.candidates[order]? = some c) (is : c.encoded = .ok image) :
    Collected p { s with chunkResults := s.chunkResults.set (order - s.chunkStart) (some image) }
      (outstanding.eraseIdx i) := by
  intro j lt
  change j < (s.chunkResults.set _ _).length at lt
  rw [List.length_set] at lt
  show s.chunkStart + j ∈ _ ∨ ∃ c image', p.candidates[s.chunkStart + j]? = _ ∧ _ ∧
    (s.chunkResults.set _ _)[j]? = _
  by_cases same : s.chunkStart + j = order
  · refine .inr ⟨c, image, same ▸ candidate, is, ?_⟩
    have index : order - s.chunkStart = j := by omega
    rw [index]
    exact List.getElem?_set_self lt
  · rcases collected j lt with waiting | done
    · exact .inl (mem_eraseIdx_of_ne found waiting same)
    · obtain ⟨c', image', found', is', result⟩ := done
      refine .inr ⟨c', image', found', is', ?_⟩
      rw [List.getElem?_set_ne (by omega)]
      exact result

theorem Inv.encoded {outstanding : List Nat} (h : Inv p s) (phase : s.phase = .encoding outstanding)
    {i order : Nat} (found : outstanding[i]? = some order) :
    Ensures (s.encoded p order (outstanding.eraseIdx i)) (Inv p) := by
  unfold Inv at h
  rw [phase] at h
  obtain ⟨base, resident, within, inside, collected⟩ := h
  have bounds := inside order (List.mem_of_getElem? found)
  unfold TwoPhase.encoded
  cases candidate : p.candidates[order]? with
  | none =>
    have past := List.getElem?_eq_none_iff.mp candidate
    omega
  | some c =>
    dsimp only
    cases is : c.encoded with
    | error error => exact Ensures.fail
    | ok image =>
      dsimp only
      have kept := collected.set found bounds candidate is
      refine Ensures.ite (fun empty => ?_) fun _ => ?_
      · apply base.retainAll _ resident
        · rw [List.length_set]
          exact within
        · intro j lt
          rcases kept j lt with waiting | done
          · rw [empty] at waiting
            cases waiting
          · exact done
      · refine Ensures.ok ⟨base.same rfl rfl rfl rfl, resident, ?_, ?_, kept⟩
        · show s.chunkStart + (s.chunkResults.set _ _).length ≤ _
          rw [List.length_set]
          exact within
        · intro order' mem
          show _ ∧ order' < s.chunkStart + (s.chunkResults.set _ _).length
          rw [List.length_set]
          exact inside order' (List.mem_of_mem_eraseIdx mem)

/-- The reply to a retained request is the one of its candidate. -/
theorem answer_eq {r : Request} {c : Candidate} (asks : p.Asks r c)
    (fits : p.held r.order + c.size ≤ p.batchCap) :
    c.heldAnswer p (p.held r.order) = c.answer p := by
  unfold Candidate.heldAnswer Candidate.answer
  have small := asks.small
  rw [if_neg (by omega), if_neg (by omega), if_neg (by omega)]

/-- A request ended, and its reply is stored. -/
theorem Base.store (h : Base p s k) {i : Nat} {r : Request} (found : s.retained[i]? = some r)
    {reply : Text} {rawBytes : Nat} {warnings : List Warning}
    (ended : r.outcome = .ok (reply, rawBytes, warnings)) {s' : TwoPhase}
    (blocks : s'.blocks = s.blocks) (encoded : s'.encodedBytes = s.encodedBytes)
    (retained : s'.retained = s.retained.eraseIdx i)
    (replies : s'.replies = s.replies.set r.order (some (r.blockIndex, reply))) :
    Base p s' k := by
  obtain ⟨c, asks, fits⟩ := h.asks r (List.mem_of_getElem? found)
  have answer := (asks.answer ended).1
  have lt := (List.getElem?_eq_some_iff.mp asks.found).1
  refine ⟨blocks ▸ h.blocks, ?_, encoded ▸ h.encoded, ?_, ?_⟩
  · rw [replies, List.length_set]
    exact h.replies
  · intro r' mem
    rw [retained] at mem
    exact h.asks r' (List.mem_of_mem_eraseIdx mem)
  · intro j c' at_
    by_cases same : j = r.order
    · subst same
      rw [asks.found] at at_
      cases at_
      refine .answered ?_
      rw [answer_eq asks fits, ← asks.index, ← answer, replies]
      exact List.getElem?_set_self (by rw [h.replies]; exact lt)
    · cases h.slots j c' at_ with
      | waiting after => exact .waiting after
      | asked r' mem order =>
        refine .asked r' ?_ order
        rw [retained]
        exact mem_eraseIdx_of_order found mem (order ▸ same)
      | answered there =>
        refine .answered ?_
        rw [replies, List.getElem?_set_ne (Ne.symm same)]
        exact there

theorem Inv.completed (h : Inv p s) (phase : s.phase = .requesting) {i : Nat} {r : Request}
    (found : s.retained[i]? = some r) (s' : TwoPhase)
    (ended : s.completed p r (s.retained.eraseIdx i) = .ok s') : Inv p s' := by
  unfold Inv at h
  rw [phase] at h
  unfold TwoPhase.completed at ended
  cases outcome : r.outcome with
  | error halt =>
    rw [outcome] at ended
    cases ended
  | ok result =>
    obtain ⟨reply, rawBytes, warnings⟩ := result
    rw [outcome] at ended
    change (checkedSub s.residentBytes r.lease >>= _) = _ at ended
    unfold checkedSub at ended
    split at ended
    · change (ite _ _ _) = _ at ended
      split at ended
      · cases ended
      · cases ended
        unfold Inv
        dsimp only
        rw [phase]
        show Base p _ p.candidates.length
        exact h.store found outcome rfl rfl rfl rfl
    · cases ended

/-! ## Every reachable state -/

theorem Inv.settle {x : Checked VlmError TwoPhase} (h : ∀ s', x = .ok s' → Inv p s') : Inv p (s.settle x) := by
  cases x with
  | ok s' => exact h s' rfl
  | error halt => trivial

theorem step_inv {s' : TwoPhase} {a : PhaseEvent} (h : Inv p s) (taken : s.step p a = some s') :
    Inv p s' := by
  cases a with
  | turn =>
    simp only [TwoPhase.step] at taken
    split at taken
    · next phase =>
      cases taken
      exact h.turn phase
    · next phase =>
      split at taken
      · next done =>
        cases taken
        unfold Inv at h
        rw [phase] at h
        exact ⟨h.same rfl rfl rfl rfl, done⟩
      · cases taken
    · cases taken
  | encoded i =>
    simp only [TwoPhase.step] at taken
    split at taken
    · next outstanding phase =>
      obtain ⟨order, found, same⟩ := Option.map_eq_some_iff.mp taken
      rw [← same]
      exact Inv.settle fun s' ended => (h.encoded phase found).of_ok ended
    · cases taken
  | completed i =>
    simp only [TwoPhase.step] at taken
    split at taken
    · next phase =>
      obtain ⟨r, found, same⟩ := Option.map_eq_some_iff.mp taken
      rw [← same]
      exact Inv.settle fun s' ended => h.completed phase found s' ended
    · cases taken

theorem reachable_inv (small : p.encodedBytes < word) (reach : (twoPhase p).Reachable s) :
    Inv p s := by
  apply Machine.Reachable.invariant (inv_start small) _ reach
  intro t a t' r _ h taken
  obtain ⟨next, step, same⟩ := Option.map_eq_some_iff.mp taken
  cases same
  exact step_inv h step

/-- What the pipeline hands over. -/
theorem exited (small : p.encodedBytes < word) (reach : (twoPhase p).Reachable s)
    (done : s.phase = .exited) :
    p.written p.candidates.length = some s.blocks ∧
      s.encodedBytes = saturatingAdd p.encodedBytes (p.held p.candidates.length) ∧
      s.replies.length = p.candidates.length ∧
      ∀ (i : Nat) (c : Candidate), p.candidates[i]? = some c →
        s.replies[i]? = some (some (c.originalIndex, c.heldAnswer p (p.held i))) := by
  have inv := reachable_inv small reach
  unfold Inv at inv
  rw [done] at inv
  obtain ⟨base, none⟩ := inv
  refine ⟨base.blocks, base.encoded, base.replies, ?_⟩
  intro i c found
  have lt := (List.getElem?_eq_some_iff.mp found).1
  cases base.slots i c found with
  | waiting after => omega
  | asked r mem order =>
    rw [none] at mem
    cases mem
  | answered reply => exact reply

end TwoPhase

end Mineru.Semantic
