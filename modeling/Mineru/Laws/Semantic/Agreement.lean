import Mineru.Laws.Semantic.Endings

/-!
# Where the two pipelines agree

The classic pipeline gives back the bytes of a request as soon as its reply is there, so the batch cap
never degrades a candidate. The two-phase pipeline retains every candidate before it sends the first
request, so the same cap bounds the page as a whole. They hand over the same page exactly if that
bound leaves nothing out.
-/

set_option autoImplicit false

namespace Mineru.Semantic

open Logic

/-- What both pipelines hand to `complete_official_semantic_page`. -/
structure SameOutcome (s : Classic) (t : TwoPhase) : Prop where
  replies : s.replies = t.replies
  blocks : s.blocks = some t.blocks
  encodedBytes : s.encodedBytes = t.encodedBytes

namespace Classic

variable {p : Page} {s : Classic}

/-- What the classic pipeline hands over. -/
theorem exited (valid : p.Valid) (reach : (classic p).Reachable s) (done : s.pc = .exited) :
    ∃ blocks, s.blocks = some blocks ∧ p.written p.candidates.length = some blocks ∧
      s.encodedBytes = saturatingAdd p.encodedBytes p.total ∧
      s.replies.length = p.candidates.length ∧
      ∀ (i : Nat) (c : Candidate), p.candidates[i]? = some c →
        s.replies[i]? = some (some (c.originalIndex, c.answer p)) := by
  obtain ⟨inv, stands⟩ := reachable_inv valid reach
  unfold Stands at stands
  rw [done] at stands
  obtain ⟨last, idle, empty⟩ := stands
  obtain ⟨blocks, there, written, total⟩ := inv.returned idle
  rw [last] at written total
  exact ⟨blocks, there, written, total, inv.replies, inv.ends last idle empty⟩

end Classic

/-- Two pipelines that have exited hand over the same exactly if the images within the per-request cap
fit the batch cap together. -/
theorem sameOutcome_iff {p : Page} (valid : p.Valid) (ample : p.encodedBytes + p.total < word)
    {s : Classic} (reachS : (classic p).Reachable s) (doneS : s.pc = .exited)
    {t : TwoPhase} (reachT : (twoPhase p).Reachable t) (doneT : t.phase = .exited) :
    SameOutcome s t ↔ p.total ≤ p.batchCap := by
  obtain ⟨blocks, there, written, bytes, length, replies⟩ := Classic.exited valid reachS doneS
  obtain ⟨written', bytes', length', replies'⟩ :=
    TwoPhase.exited valid.encodedWord reachT doneT
  constructor
  · intro same
    have equal := same.encodedBytes
    have held := p.held_le p.candidates.length
    rw [bytes, bytes'] at equal
    unfold saturatingAdd at equal
    omega
  · intro fits
    refine ⟨?_, ?_, ?_⟩
    · apply List.ext_getElem?
      intro i
      cases found : p.candidates[i]? with
      | none =>
        have past := List.getElem?_eq_none_iff.mp found
        rw [List.getElem?_eq_none (by omega), List.getElem?_eq_none (by omega)]
      | some c => rw [replies i c found, replies' i c found, Page.heldAnswer_eq fits found]
    · rw [there, ← written, written']
    · rw [bytes, bytes', Page.held_eq_kept fits (Nat.le_refl _)]
      rfl

/-- **The two pipelines agree exactly if the images within the per-request cap fit the batch cap
together.** On a page that stops neither of them, every run of either is bounded and goes on until its
exit, whatever ends first at each wait; and any two exits hand over the same replies, blocks and encoded
bytes exactly under that condition. -/
theorem agree_iff (p : Page) (valid : p.Valid) (smooth : p.Smooth)
    (ample : p.encodedBytes + p.total < word) :
    (∀ h s, (classic p).Run (classic p).start h s → h.length ≤ 4 * p.candidates.length + 1 ∧
      (s.pc = .exited ∨ ∃ a, (s.step p a).isSome = true)) ∧
    (∀ h t, (twoPhase p).Run (twoPhase p).start h t → h.length ≤ 3 * p.candidates.length + 2 ∧
      (t.phase = .exited ∨ ∃ a, (t.step p a).isSome = true)) ∧
    ∀ s t, (classic p).Reachable s → s.pc = .exited → (twoPhase p).Reachable t → t.phase = .exited →
      (SameOutcome s t ↔ p.total ≤ p.batchCap) := by
  refine ⟨?_, ?_, fun s t reachS doneS reachT doneT =>
    sameOutcome_iff valid ample reachS doneS reachT doneT⟩
  · intro h s run
    have bound := Classic.run_length run
    exact ⟨by omega, Classic.goes_on valid smooth ⟨h, run⟩⟩
  · intro h t run
    have bound := TwoPhase.run_length valid.encodedWord run
    exact ⟨by omega, TwoPhase.goes_on valid smooth (by omega) ⟨h, run⟩⟩

/-- A run of the two phases to their end. -/
def TwoPhase.events : List PhaseEvent :=
  [.turn, .encoded 1, .encoded 0, .turn, .completed 0, .turn]

/-- Each image of the page goes through, and the two of them do not fit the batch cap together: the
two-phase pipeline leaves the second one out. -/
theorem twoCandidates_disagree : ∃ s t,
    (classic twoCandidates).Reachable s ∧ s.pc = .exited ∧
    (twoPhase twoCandidates).Reachable t ∧ t.phase = .exited ∧
    s.replies = [some (0, text "one"), some (1, text "two")] ∧
    t.replies = [some (0, text "one"), some (1, [])] ∧
    s.encodedBytes = 12 ∧ t.encodedBytes = 6 ∧ ¬ SameOutcome s t := by
  obtain ⟨s, playedS, doneS, repliesS, bytesS⟩ : ∃ s, (classic twoCandidates).play
      (.start twoCandidates) Classic.events = some s ∧ s.pc = .exited ∧
      s.replies = [some (0, text "one"), some (1, text "two")] ∧ s.encodedBytes = 12 :=
    ⟨_, rfl, rfl, rfl, rfl⟩
  obtain ⟨t, playedT, doneT, repliesT, bytesT⟩ : ∃ t, (twoPhase twoCandidates).play
      (.start twoCandidates) TwoPhase.events = some t ∧ t.phase = .exited ∧
      t.replies = [some (0, text "one"), some (1, [])] ∧ t.encodedBytes = 6 :=
    ⟨_, rfl, rfl, rfl, rfl⟩
  refine ⟨s, t, Machine.Reachable.start.play playedS, doneS,
    Machine.Reachable.start.play playedT, doneT, repliesS, repliesT, bytesS, bytesT, ?_⟩
  intro same
  have bytes := same.encodedBytes
  omega

/-- The page with a batch cap that takes both images. -/
def roomyPage : Page := { twoCandidates with batchCap := 20 }

/-- A page with room for all of its images. -/
theorem agree_iff_roomyPage : ∃ s t, (classic roomyPage).Reachable s ∧ s.pc = .exited ∧
    (twoPhase roomyPage).Reachable t ∧ t.phase = .exited ∧ SameOutcome s t := by
  obtain ⟨s, playedS, doneS⟩ : ∃ s, (classic roomyPage).play (.start roomyPage)
      Classic.events = some s ∧ s.pc = .exited := ⟨_, rfl, rfl⟩
  obtain ⟨t, playedT, doneT⟩ : ∃ t, (twoPhase roomyPage).play (.start roomyPage)
      (TwoPhase.events.take 4 ++ [.completed 1, .completed 0, .turn]) = some t ∧
      t.phase = .exited := ⟨_, rfl, rfl⟩
  have reachS := Machine.Reachable.start.play playedS
  have reachT := Machine.Reachable.start.play playedT
  have valid : roomyPage.Valid := ⟨by decide, by decide, by decide, by decide⟩
  have smooth : roomyPage.Smooth := by
    refine ⟨by decide, ?_, ?_, fun _ => rfl, fun _ => rfl⟩
    · intro c mem
      rcases List.mem_pair.mp mem with rfl | rfl <;> exact ⟨_, rfl⟩
    · intro c mem
      rcases List.mem_pair.mp mem with rfl | rfl <;> exact nofun
  exact ⟨s, t, reachS, doneS, reachT, doneT,
    ((agree_iff roomyPage valid smooth (by decide)).2.2 s t reachS doneS reachT doneT).mpr (by decide)⟩

end Mineru.Semantic
