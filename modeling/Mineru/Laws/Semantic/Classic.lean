import Mineru.Laws.Semantic.Page
import Mineru.Semantic.Classic

/-!
# The classic pipeline is safe and never stalls

`Inv` relates the accounts of the loop to the encoder and the requests in flight, and each candidate
to where it is: still waiting, with the encoder, in flight or answered. Every arm keeps it, so it
holds in every reachable state, and `classic_safe` reads the guarantees off.

What ends first at a wait is arbitrary, and so are the sizes of the encoded images and the outcomes
of the requests. The arms of the loop are one lemma each (`Ended.degrade`, `Ended.ask`,
`Inv.store`), and the expectations of the source, which would panic, are shown to be met at the
places where they stand.

That an encoder or a request ends is not proved. What is proved is that the loop always has one to
wait for, until it ends.
-/

set_option autoImplicit false

namespace Mineru.Semantic

open Logic
open Logic.Checked (Ensures)

/-- What the caller guarantees: the checks at the top of the page core, and the sizes of `usize`. -/
structure Page.Valid (p : Page) : Prop where
  someRequest : 1 ≤ p.maxRequests
  caps : p.requestCap ≤ p.batchCap
  batchWord : p.batchCap < word
  encodedWord : p.encodedBytes < word

namespace Classic

/-- Where a candidate is. -/
inductive Slot (p : Page) (s : Classic) (i : Nat) (c : Candidate) : Prop where
  | waiting (after : s.nextCandidate ≤ i) (none : s.replies[i]? = some none)
  | encoding (e : Encoder) (running : s.encoder = some e) (order : e.order = i)
  | asked (r : Request) (inFlight : r ∈ s.requests) (order : r.order = i)
  | answered (before : i < s.nextCandidate)
      (reply : s.replies[i]? = some (some (c.originalIndex, c.answer p)))

/-- Who has the blocks, and how many token maps they have. -/
def Owner (p : Page) (s : Classic) : Prop :=
  match s.encoder with
  | none => ∃ blocks, s.blocks = some blocks ∧ p.written s.nextCandidate = some blocks ∧
      s.encodedBytes = saturatingAdd p.encodedBytes (p.kept s.nextCandidate)
  | some e => s.blocks = none ∧ s.nextCandidate = e.order + 1 ∧
      p.candidates[e.order]? = some e.candidate ∧ p.written e.order = some e.blocks ∧
      s.encodedBytes = saturatingAdd p.encodedBytes (p.kept e.order)

structure Inv (p : Page) (s : Classic) : Prop where
  reservation : s.encoderReservation = if s.encoder.isSome then p.requestCap else 0
  resident : s.residentBytes = s.encoderReservation + leases s.requests
  within : s.residentBytes ≤ p.batchCap
  inFlight : s.requests.length + (if s.encoder.isSome then 1 else 0) ≤ p.maxRequests
  owner : Owner p s
  next : s.nextCandidate ≤ p.candidates.length
  replies : s.replies.length = p.candidates.length
  asks : ∀ r ∈ s.requests, r.order < s.nextCandidate ∧ ∃ c, p.Asks r c
  slots : ∀ i c, p.candidates[i]? = some c → Slot p s i c
  uncapped : ∀ bytes limit, Warning.cap bytes limit .batch ∉ s.warnings

variable {p : Page} {s : Classic}

theorem inv_start (valid : p.Valid) : Inv p (start p) where
  reservation := rfl
  resident := rfl
  within := Nat.zero_le _
  inFlight := Nat.zero_le _
  owner := by
    refine ⟨p.blocks, rfl, rfl, ?_⟩
    show p.encodedBytes = min (p.encodedBytes + 0) (word - 1)
    have small := valid.encodedWord
    omega
  next := Nat.zero_le _
  replies := List.length_replicate
  asks := by
    intro r mem
    cases mem
  slots i c found := by
    refine .waiting (Nat.zero_le _) ?_
    obtain ⟨lt, -⟩ := List.getElem?_eq_some_iff.mp found
    show (List.replicate _ _)[i]? = _
    rw [List.getElem?_replicate, if_pos lt]
  uncapped bytes limit mem := by
    obtain ⟨message, -, same⟩ := List.mem_map.mp mem
    cases same

/-- Only the position changes. -/
theorem Inv.goto (h : Inv p s) (pc : Pc) : Inv p { s with pc } where
  reservation := h.reservation
  resident := h.resident
  within := h.within
  inFlight := h.inFlight
  owner := h.owner
  next := h.next
  replies := h.replies
  asks := h.asks
  slots i c found := by
    cases h.slots i c found with
    | waiting after none => exact .waiting after none
    | encoding e running order => exact .encoding e running order
    | asked r inFlight order => exact .asked r inFlight order
    | answered before reply => exact .answered before reply
  uncapped := h.uncapped

/-! ## The top of the loop -/

theorem Inv.startEncoder (valid : p.Valid) (h : Inv p s) (admits : s.admits p = true) :
    Ensures (s.startEncoder p) fun s' => Inv p s' ∧ s'.pc = .select ∧ s'.encoder.isSome = true := by
  unfold Classic.admits at admits
  simp only [Bool.and_eq_true, Option.isNone_iff_eq_none, decide_eq_true_eq] at admits
  obtain ⟨⟨⟨idle, more⟩, room⟩, fits⟩ := admits
  have owner := h.owner
  unfold Owner at owner
  rw [idle] at owner
  obtain ⟨blocks, there, written, total⟩ := owner
  have found : p.candidates[s.nextCandidate]? = some p.candidates[s.nextCandidate] :=
    List.getElem?_eq_getElem more
  have caps := valid.caps
  have small := valid.batchWord
  unfold Classic.startEncoder
  rw [found]
  dsimp only
  rw [if_neg (by omega), there]
  refine Ensures.ok ⟨?_, rfl, rfl⟩
  have none : s.encoderReservation = 0 := by rw [h.reservation, idle]; rfl
  refine ⟨rfl, ?_, ?_, ?_, ⟨rfl, rfl, found, written, total⟩, more, h.replies, ?_, ?_, h.uncapped⟩
  · have resident := h.resident
    show s.residentBytes + p.requestCap = p.requestCap + leases s.requests
    omega
  · show s.residentBytes + p.requestCap ≤ p.batchCap
    omega
  · exact room
  · intro r mem
    obtain ⟨before, asks⟩ := h.asks r mem
    exact ⟨Nat.lt_succ_of_lt before, asks⟩
  · intro i c at_
    cases h.slots i c at_ with
    | waiting after none =>
      by_cases same : s.nextCandidate = i
      · exact .encoding _ rfl same
      · exact .waiting (by show s.nextCandidate + 1 ≤ i; omega) none
    | encoding e running order =>
      rw [idle] at running
      cases running
    | asked r inFlight order => exact .asked r inFlight order
    | answered before reply => exact .answered (Nat.lt_succ_of_lt before) reply

/-- Something to wait for: otherwise an encoder would have started. -/
theorem Inv.busy (valid : p.Valid) (h : Inv p s) (continues : s.continues p = true)
    (refused : s.admits p = false) : s.encoder.isSome = true ∨ s.requests ≠ [] := by
  by_contra idle
  rw [not_or, Bool.not_eq_true, Option.isSome_eq_false_iff, Option.isNone_iff_eq_none,
    Decidable.not_not] at idle
  obtain ⟨noEncoder, noRequests⟩ := idle
  have resident := h.resident
  rw [h.reservation, noEncoder, noRequests] at resident
  change s.residentBytes = 0 at resident
  have more : s.nextCandidate < p.candidates.length := by
    unfold Classic.continues at continues
    rw [noEncoder, noRequests] at continues
    simpa using continues
  have some := valid.someRequest
  have admits : s.admits p = true := by
    unfold Classic.admits
    rw [noEncoder, noRequests, resident]
    simpa [more] using Nat.lt_of_lt_of_le Nat.zero_lt_one some
  rw [admits] at refused
  cases refused

/-- At the end nothing is left. -/
theorem Inv.done (h : Inv p s) (ended : s.continues p = false) :
    s.nextCandidate = p.candidates.length ∧ s.encoder = none ∧ s.requests = [] := by
  unfold Classic.continues at ended
  simp only [Bool.or_eq_false_iff, decide_eq_false_iff_not, Bool.not_eq_false',
    List.isEmpty_iff, Option.isSome_eq_false_iff, Option.isNone_iff_eq_none] at ended
  obtain ⟨⟨last, idle⟩, empty⟩ := ended
  exact ⟨Nat.le_antisymm h.next (Nat.le_of_not_lt last), idle, empty⟩

/-- What a position promises. -/
def Stands (p : Page) (s : Classic) : Prop :=
  match s.pc with
  | .head => True
  | .select => s.encoder.isSome = true ∨ s.requests ≠ []
  | .exited => s.nextCandidate = p.candidates.length ∧ s.encoder = none ∧ s.requests = []
  | .stopped halt => halt ≠ .panic

theorem Inv.turn (valid : p.Valid) (h : Inv p s) :
    Ensures (s.turn p) fun s' => Inv p s' ∧ Stands p s' := by
  unfold Classic.turn
  refine Ensures.ite (fun continues => Ensures.ite (fun admits => ?_) fun refused => ?_) fun ended => ?_
  · refine (h.startEncoder valid admits).weaken fun s' after => ⟨after.1, ?_⟩
    unfold Stands
    rw [after.2.1]
    exact .inl after.2.2
  · have busy := h.busy valid continues (Bool.eq_false_iff.mpr refused)
    exact Ensures.ok ⟨h.goto .select, busy⟩
  · have done := h.done (Bool.eq_false_iff.mpr ended)
    have owner := h.owner
    unfold Owner at owner
    rw [done.2.1] at owner
    obtain ⟨blocks, there, -⟩ := owner
    split
    · rename_i gone
      rw [there] at gone
      cases gone
    · exact Ensures.ok ⟨h.goto .exited, done⟩

/-! ## The arm of the encoder -/

section Encoded

variable {e : Encoder} {image : Encoded} {blocks : List Block}

/-- The state between the end of the encoder and what is done with its image. -/
def unreserved (s : Classic) (blocks : List Block) : Classic :=
  { s with
    blocks := some blocks
    residentBytes := s.residentBytes - s.encoderReservation
    encoderReservation := 0 }

/-- An encoder that ended, and the blocks it gives back. -/
structure Ended (p : Page) (s : Classic) (e : Encoder) (image : Encoded) (blocks : List Block) :
    Prop where
  inv : Inv p s
  running : s.encoder = some e
  encoded : e.candidate.encoded = .ok image
  blocks : backfill e.blocks e.candidate.originalIndex image.tokens = some blocks

theorem Ended.size (h : Ended p s e image blocks) : e.candidate.size = image.data.length := by
  unfold Candidate.size
  rw [h.encoded]

theorem Ended.owned (h : Ended p s e image blocks) :
    s.nextCandidate = e.order + 1 ∧ p.candidates[e.order]? = some e.candidate ∧
      p.written s.nextCandidate = some blocks ∧
      s.encodedBytes = saturatingAdd p.encodedBytes (p.kept e.order) := by
  have owner := h.inv.owner
  unfold Owner at owner
  rw [h.running] at owner
  obtain ⟨-, next, found, written, total⟩ := owner
  refine ⟨next, found, ?_, total⟩
  rw [next, Page.written_succ found, written]
  show e.candidate.write e.blocks = some blocks
  unfold Candidate.write
  rw [h.encoded]
  exact h.blocks

/-- Without the reservation the leases are all that is resident. -/
theorem Ended.resident (h : Ended p s e image blocks) :
    s.encoderReservation = p.requestCap ∧ s.encoderReservation ≤ s.residentBytes ∧
      s.residentBytes - s.encoderReservation = leases s.requests := by
  have reservation := h.inv.reservation
  have resident := h.inv.resident
  rw [h.running] at reservation
  refine ⟨reservation, ?_, ?_⟩ <;> omega

/-- The image is over the per-request cap. -/
theorem Ended.degrade (h : Ended p s e image blocks) (large : p.requestCap < image.data.length) :
    Inv p ((s.unreserved blocks).degrade e.order e.candidate.originalIndex image.data.length
      p.requestCap .perRequest) := by
  obtain ⟨next, found, written, total⟩ := h.owned
  obtain ⟨reservation, le, left⟩ := h.resident
  have lt := (List.getElem?_eq_some_iff.mp found).1
  have inv := h.inv
  have answer : e.candidate.answer p = [] := by
    unfold Candidate.answer
    rw [h.size, if_pos large]
  have none : e.candidate.kept p = 0 := by
    unfold Candidate.kept
    rw [h.size, if_pos large]
  refine ⟨rfl, ?_, ?_, ?_, ⟨blocks, rfl, written, ?_⟩, inv.next, ?_, inv.asks, ?_, ?_⟩
  · show s.residentBytes - s.encoderReservation = 0 + leases s.requests
    omega
  · have within := inv.within
    show s.residentBytes - s.encoderReservation ≤ p.batchCap
    omega
  · have inFlight := inv.inFlight
    show s.requests.length + 0 ≤ p.maxRequests
    omega
  · show s.encodedBytes = saturatingAdd p.encodedBytes (p.kept s.nextCandidate)
    rw [next, Page.kept_succ found, none, total]
    rfl
  · exact (List.length_set ..).trans inv.replies
  · intro i c at_
    have set : ∀ (value : Option (Nat × Text)), i ≠ e.order →
        (s.replies.set e.order value)[i]? = s.replies[i]? := fun value other =>
      List.getElem?_set_ne (Ne.symm other)
    have here : i = e.order → Slot p ((s.unreserved blocks).degrade e.order
        e.candidate.originalIndex image.data.length p.requestCap .perRequest) i c := by
      rintro rfl
      rw [found] at at_
      cases at_
      refine .answered (by show e.order < s.nextCandidate; omega) ?_
      rw [answer]
      exact List.getElem?_set_self (show e.order < s.replies.length by rw [inv.replies]; exact lt)
    by_cases same : i = e.order
    · exact here same
    · cases inv.slots i c at_ with
      | waiting after none => exact .waiting after ((set _ same).trans none)
      | encoding e' running order =>
        rw [h.running] at running
        cases running
        exact absurd order.symm same
      | asked r inFlight order => exact .asked r inFlight order
      | answered before reply => exact .answered before ((set _ same).trans reply)
  · intro bytes limit mem
    rcases List.mem_append.mp mem with old | new
    · exact inv.uncapped bytes limit old
    · cases List.mem_singleton.mp new

/-- The image is asked for. -/
theorem Ended.ask (h : Ended p s e image blocks) (small : image.data.length ≤ p.requestCap) :
    Inv p { s.unreserved blocks with
      pc := .head
      encoder := none
      residentBytes := (s.unreserved blocks).residentBytes + image.data.length
      encodedBytes := saturatingAdd s.encodedBytes image.data.length
      requests := s.requests ++
        [⟨e.order, e.candidate.originalIndex, e.candidate.reply, image.data.length⟩] } := by
  obtain ⟨next, found, written, total⟩ := h.owned
  obtain ⟨reservation, le, left⟩ := h.resident
  have inv := h.inv
  have counted : e.candidate.kept p = image.data.length := by
    unfold Candidate.kept
    rw [h.size, if_neg (Nat.not_lt.mpr small)]
  refine ⟨rfl, ?_, ?_, ?_, ⟨blocks, rfl, written, ?_⟩, inv.next, inv.replies, ?_, ?_, inv.uncapped⟩
  · show s.residentBytes - s.encoderReservation + image.data.length = 0 + leases (_ ++ [_])
    rw [leases_concat, left]
    exact (Nat.zero_add _).symm
  · have within := inv.within
    show s.residentBytes - s.encoderReservation + image.data.length ≤ p.batchCap
    omega
  · have inFlight := inv.inFlight
    rw [h.running] at inFlight
    show (s.requests ++ [_]).length + 0 ≤ p.maxRequests
    rw [List.length_append]
    exact inFlight
  · show saturatingAdd s.encodedBytes _ = saturatingAdd p.encodedBytes (p.kept s.nextCandidate)
    rw [next, Page.kept_succ found, counted, total, saturatingAdd_add]
  · intro r mem
    rcases List.mem_append.mp mem with old | new
    · exact inv.asks r old
    · rw [List.mem_singleton.mp new]
      refine ⟨by show e.order < s.nextCandidate; omega, e.candidate, found, rfl, rfl, h.size.symm, ?_⟩
      rw [h.size]
      exact small
  · intro i c at_
    cases inv.slots i c at_ with
    | waiting after none => exact .waiting after none
    | encoding e' running order =>
      rw [h.running] at running
      cases running
      exact .asked _ (List.mem_append_right _ (List.mem_singleton.mpr rfl)) order
    | asked r inFlight order => exact .asked r (List.mem_append_left _ inFlight) order
    | answered before reply => exact .answered before reply

theorem Inv.encoded (valid : p.Valid) (h : Inv p s) (running : s.encoder = some e) :
    Ensures (s.encoded p e) fun s' => Inv p s' ∧ Stands p s' := by
  unfold Classic.encoded
  cases is : e.candidate.encoded with
  | error error => exact Ensures.fail
  | ok image =>
    dsimp only
    cases given : backfill e.blocks e.candidate.originalIndex image.tokens with
    | none => exact Ensures.fail
    | some blocks =>
      have ended : Ended p s e image blocks := ⟨h, running, is, given⟩
      obtain ⟨reservation, le, left⟩ := ended.resident
      have sub : checkedSub s.residentBytes s.encoderReservation =
          .ok (s.residentBytes - s.encoderReservation) := if_pos le
      dsimp only
      rw [sub]
      show Ensures (retain p (s.unreserved blocks) e.order e.candidate image.data.length) _
      unfold retain
      refine Ensures.ite (fun _ => Ensures.fail) fun _ => ?_
      refine Ensures.ite (fun large => Ensures.ok ⟨ended.degrade large, trivial⟩) fun small => ?_
      refine Ensures.ite (fun _ => Ensures.fail) fun _ => ?_
      have caps := valid.caps
      have within := h.within
      have fits : ¬ ((s.unreserved blocks).residentBytes + image.data.length > p.batchCap) := by
        show ¬ (s.residentBytes - s.encoderReservation + image.data.length > p.batchCap)
        omega
      rw [if_neg fits]
      cases p.chargeEncoded e.order with
      | error error => exact Ensures.fail
      | ok _ => exact Ensures.ok ⟨ended.ask (Nat.le_of_not_lt small), trivial⟩

end Encoded

/-! ## The arm of the requests -/

/-- A request ended, and its reply is stored. -/
theorem Inv.store (h : Inv p s) {i : Nat} {r : Request} (found : s.requests[i]? = some r)
    {reply : Text} {rawBytes : Nat} {warnings : List Warning}
    (ended : r.outcome = .ok (reply, rawBytes, warnings)) :
    Inv p { s with
      pc := .head
      requests := s.requests.eraseIdx i
      residentBytes := s.residentBytes - r.lease
      rawBytes := saturatingAdd s.rawBytes rawBytes
      replies := s.replies.set r.order (some (r.blockIndex, reply))
      warnings := s.warnings ++ warnings } := by
  have mem := List.mem_of_getElem? found
  obtain ⟨before, c, asks⟩ := h.asks r mem
  obtain ⟨answer, quiet⟩ := asks.answer ended
  have sum := leases_eraseIdx found
  have resident := h.resident
  have lt := (List.getElem?_eq_some_iff.mp asks.found).1
  refine ⟨h.reservation, ?_, ?_, ?_, h.owner, h.next, ?_, ?_, ?_, ?_⟩
  · show s.residentBytes - r.lease = s.encoderReservation + leases (s.requests.eraseIdx i)
    omega
  · exact Nat.le_trans (Nat.sub_le _ _) h.within
  · have inFlight := h.inFlight
    have shorter := List.length_eraseIdx_le s.requests i
    show (s.requests.eraseIdx i).length + (if s.encoder.isSome then 1 else 0) ≤ p.maxRequests
    omega
  · exact (List.length_set ..).trans h.replies
  · intro r' mem'
    exact h.asks r' (List.mem_of_mem_eraseIdx mem')
  · intro j c' at_
    by_cases same : j = r.order
    · subst same
      rw [asks.found] at at_
      cases at_
      refine .answered before ?_
      rw [← asks.index, ← answer]
      exact List.getElem?_set_self (by rw [h.replies]; exact lt)
    · have set : (s.replies.set r.order (some (r.blockIndex, reply)))[j]? = s.replies[j]? :=
        List.getElem?_set_ne (Ne.symm same)
      cases h.slots j c' at_ with
      | waiting after none => exact .waiting after (set.trans none)
      | encoding e running order => exact .encoding e running order
      | asked r' inFlight order =>
        exact .asked r' (mem_eraseIdx_of_order found inFlight (order ▸ same)) order
      | answered before reply => exact .answered before (set.trans reply)
  · intro bytes limit mem'
    rcases List.mem_append.mp mem' with old | new
    · exact h.uncapped bytes limit old
    · exact quiet bytes limit new

theorem Inv.completed (h : Inv p s) {i : Nat} {r : Request} (found : s.requests[i]? = some r) :
    Ensures (s.completed p r (s.requests.eraseIdx i)) fun s' => Inv p s' ∧ Stands p s' := by
  have sum := leases_eraseIdx found
  have resident := h.resident
  have sub : checkedSub s.residentBytes r.lease = .ok (s.residentBytes - r.lease) :=
    if_pos (by omega)
  unfold Classic.completed
  cases ended : r.outcome with
  | error halt =>
    unfold Request.outcome at ended
    split at ended
    · cases ended
    · cases ended
    · cases ended
      exact Ensures.fail
  | ok result =>
    obtain ⟨reply, rawBytes, warnings⟩ := result
    show Ensures (checkedSub s.residentBytes r.lease >>= _) _
    rw [sub]
    show Ensures (ite _ _ _) _
    refine Ensures.ite (fun _ => Ensures.fail) fun _ => ?_
    exact Ensures.ok ⟨h.store found ended, trivial⟩

/-! ## Every reachable state -/

theorem Inv.settle (h : Inv p s) {x : Checked VlmError Classic}
    (ensures : Ensures x fun s' => Inv p s' ∧ Stands p s') :
    Inv p (s.settle x) ∧ Stands p (s.settle x) := by
  cases x with
  | ok s' => exact ensures
  | error halt =>
    cases halt with
    | err e => exact ⟨h.goto _, nofun⟩
    | panic => exact ensures.elim

theorem step_inv (valid : p.Valid) {s' : Classic} {a : Event} (h : Inv p s)
    (taken : s.step p a = some s') : Inv p s' ∧ Stands p s' := by
  cases a with
  | turn =>
    simp only [Classic.step] at taken
    split at taken
    · cases taken
      exact h.settle (h.turn valid)
    · cases taken
  | encoded =>
    simp only [Classic.step] at taken
    split at taken
    · obtain ⟨e, running, same⟩ := Option.map_eq_some_iff.mp taken
      exact same ▸ h.settle (h.encoded valid running)
    · cases taken
  | completed i =>
    simp only [Classic.step] at taken
    split at taken
    · obtain ⟨r, found, same⟩ := Option.map_eq_some_iff.mp taken
      exact same ▸ h.settle (h.completed found)
    · cases taken

theorem reachable_inv (valid : p.Valid) (reach : (classic p).Reachable s) :
    Inv p s ∧ Stands p s := by
  apply Machine.Reachable.invariant (P := fun s => Inv p s ∧ Stands p s) _ _ reach
  · exact ⟨inv_start valid, trivial⟩
  · intro t a t' r _ h taken
    obtain ⟨next, step, same⟩ := Option.map_eq_some_iff.mp taken
    cases same
    exact step_inv valid h.1 step

/-- The guarantees of the loop in one state. -/
structure Safe (p : Page) (s : Classic) : Prop where
  resident : s.residentBytes = s.encoderReservation + leases s.requests
  within : s.residentBytes ≤ p.batchCap
  inFlight : s.requests.length ≤ p.maxRequests
  neverOverBatch : ∀ bytes limit, Warning.cap bytes limit .batch ∉ s.warnings
  neverPanics : s.pc ≠ .stopped .panic
  neverIdle : s.continues p = true → (s.pc = .head ∧ s.admits p = false) ∨ s.pc = .select →
    s.encoder.isSome = true ∨ s.requests ≠ []
  moves : s.pc = .head ∨ s.pc = .select → ∃ a, (s.step p a).isSome = true
  ends : s.pc = .exited → s.blocks.isSome = true ∧ s.replies.length = p.candidates.length ∧
    ∀ (i : Nat) (c : Candidate), p.candidates[i]? = some c →
      s.replies[i]? = some (some (c.originalIndex, c.answer p))

theorem Stands.busy (stands : Stands p s) (pc : s.pc = .select) :
    s.encoder.isSome = true ∨ s.requests ≠ [] := by
  unfold Stands at stands
  rw [pc] at stands
  exact stands

/-- At the end every candidate has its reply. -/
theorem Inv.ends (h : Inv p s) (last : s.nextCandidate = p.candidates.length)
    (idle : s.encoder = none) (empty : s.requests = []) (i : Nat) (c : Candidate)
    (found : p.candidates[i]? = some c) :
    s.replies[i]? = some (some (c.originalIndex, c.answer p)) := by
  have lt := (List.getElem?_eq_some_iff.mp found).1
  cases h.slots i c found with
  | waiting after none => omega
  | encoding e running order =>
    rw [idle] at running
    cases running
  | asked r inFlight order =>
    rw [empty] at inFlight
    cases inFlight
  | answered before reply => exact reply

/-- The blocks are back at the end, with every token map. -/
theorem Inv.returned (h : Inv p s) (idle : s.encoder = none) :
    ∃ blocks, s.blocks = some blocks ∧ p.written s.nextCandidate = some blocks ∧
      s.encodedBytes = saturatingAdd p.encodedBytes (p.kept s.nextCandidate) := by
  have owner := h.owner
  unfold Owner at owner
  rw [idle] at owner
  exact owner

/-- A pipeline that has not ended can go on. -/
theorem Stands.moves (stands : Stands p s) (pc : s.pc = .head ∨ s.pc = .select) :
    ∃ a, (s.step p a).isSome = true := by
  rcases pc with pc | pc
  · refine ⟨.turn, ?_⟩
    unfold Classic.step
    dsimp only
    rw [if_pos pc]
    rfl
  · rcases stands.busy pc with running | asked
    · refine ⟨.encoded, ?_⟩
      unfold Classic.step
      dsimp only
      rw [if_pos pc, Option.isSome_map]
      exact running
    · refine ⟨.completed 0, ?_⟩
      unfold Classic.step
      dsimp only
      rw [if_pos pc, Option.isSome_map]
      cases requests : s.requests with
      | nil => exact absurd requests asked
      | cons r rest => rfl

end Classic

open Classic in
/-- **The classic pipeline is safe and never stalls**: in every state it reaches, whatever ends first
at each wait, the resident bytes are the reservation and the leases and stay within the batch cap,
the requests stay within theirs, the batch cap degrades nothing, no expectation fails and there is
something to wait for; and at the end each candidate has its reply at its own order. -/
theorem classic_safe (p : Page) (valid : p.Valid) (s : Classic)
    (reach : (classic p).Reachable s) : Safe p s := by
  obtain ⟨inv, stands⟩ := reachable_inv valid reach
  refine ⟨inv.resident, inv.within, ?_, inv.uncapped, ?_, ?_, stands.moves, ?_⟩
  · exact Nat.le_trans (Nat.le_add_right _ _) inv.inFlight
  · intro pc
    unfold Stands at stands
    rw [pc] at stands
    exact stands rfl
  · intro continues waits
    rcases waits with ⟨-, refused⟩ | pc
    · exact inv.busy valid continues refused
    · exact stands.busy pc
  · intro pc
    unfold Stands at stands
    rw [pc] at stands
    obtain ⟨last, idle, empty⟩ := stands
    obtain ⟨blocks, there, -⟩ := inv.returned idle
    exact ⟨by rw [there]; rfl, inv.replies, inv.ends last idle empty⟩

/-- A page of two candidates, of six bytes each, whose caps let one of them go at a time. -/
def twoCandidates : Page where
  blocks := [⟨none, none⟩, ⟨none, none⟩]
  candidates := [
    { originalIndex := 0, encoded := .ok ⟨[1, 2, 3, 4, 5, 6], []⟩, reply := .text (text "one") 3 },
    { originalIndex := 1, encoded := .ok ⟨[7, 8, 9, 10, 11, 12], []⟩,
      reply := .text (text "two") 3 }]
  requestCap := 8
  batchCap := 10
  maxRequests := 2
  parallelism := 2
  chargeEncoded _ := .ok ()
  chargeResident _ := .ok ()
  encodedBytes := 0
  rawBytes := 0
  warnings := []

theorem twoCandidates_valid : twoCandidates.Valid :=
  ⟨by decide, by decide, by decide, by decide⟩

/-- A run of the loop to its end. -/
def Classic.events : List Event :=
  [.turn, .encoded, .turn, .completed 0, .turn, .encoded, .turn, .completed 0, .turn]

/-- Two candidates that do not fit into the batch together are sent one by one, and the loop
exits. -/
theorem classic_safe_twoCandidates : ∃ s, (classic twoCandidates).Reachable s ∧ s.pc = .exited ∧
    Classic.Safe twoCandidates s := by
  obtain ⟨s, played, exited⟩ : ∃ s, (classic twoCandidates).play (.start twoCandidates)
      Classic.events = some s ∧ s.pc = .exited := ⟨_, rfl, rfl⟩
  have reach := Machine.Reachable.start.play played
  exact ⟨s, reach, exited, classic_safe twoCandidates twoCandidates_valid s reach⟩

end Mineru.Semantic
