import Mineru.Semantic.Page

/-!
# What a page's candidates come to

The reply, the blocks and the byte total that a page would have if every candidate within the
per-request cap were asked for, as functions of the number of candidates that were taken.

Both pipelines are compared with this page and not with each other. It is defined without any order
of events, so whatever agrees with it does not depend on one. If all images together fit into the
batch cap, nothing is held back (`Page.held_eq_kept`, `Page.heldAnswer_eq`).
-/

set_option autoImplicit false

namespace Mineru.Semantic

open Logic

/-! ## One candidate -/

/-- The size of the encoded image. -/
def Candidate.size (c : Candidate) : Nat :=
  match c.encoded with
  | .ok image => image.data.length
  | .error _ => 0

/-- The text that the server replies, which is empty for a malformed reply. -/
def Candidate.replyText (c : Candidate) : Text :=
  match c.reply with
  | .text reply _ => reply
  | _ => []

/-- The reply under the per-request cap alone. -/
def Candidate.answer (c : Candidate) (p : Page) : Text :=
  if c.size > p.requestCap then [] else c.replyText

/-- The bytes that count under the per-request cap alone. -/
def Candidate.kept (c : Candidate) (p : Page) : Nat :=
  if c.size > p.requestCap then 0 else c.size

/-- The blocks with the token map of the candidate. -/
def Candidate.write (blocks : List Block) (c : Candidate) : Option (List Block) :=
  match c.encoded with
  | .ok image => backfill blocks c.originalIndex image.tokens
  | .error _ => none

/-! ## The first candidates of a page -/

/-- The blocks with the token maps of the first `k` candidates. -/
def Page.written (p : Page) (k : Nat) : Option (List Block) :=
  (p.candidates.take k).foldlM Candidate.write p.blocks

/-- The bytes of the first `k` candidates that count. -/
def Page.kept (p : Page) (k : Nat) : Nat := ((p.candidates.take k).map fun c => c.kept p).sum

variable {p : Page} {c : Candidate} {k : Nat}

theorem Page.written_zero (p : Page) : p.written 0 = some p.blocks := rfl

theorem Page.written_succ (found : p.candidates[k]? = some c) :
    p.written (k + 1) = (p.written k).bind fun blocks => c.write blocks := by
  unfold Page.written
  rw [List.take_add_one, found, Option.toList_some, List.foldlM_append]
  show (_ >>= fun blocks => List.foldlM _ blocks [c]) = _
  congr 1
  funext blocks
  show (c.write blocks >>= pure) = _
  exact bind_pure _

theorem Page.kept_succ (found : p.candidates[k]? = some c) :
    p.kept (k + 1) = p.kept k + c.kept p := by
  unfold Page.kept
  rw [List.take_add_one, found, Option.toList_some, List.map_append, List.sum_append]
  simp

theorem Page.kept_mono {j : Nat} (le : j ≤ k) : p.kept j ≤ p.kept k := by
  unfold Page.kept
  obtain ⟨rest, split⟩ := List.take_prefix_take_left le (l := p.candidates)
  rw [← split, List.map_append, List.sum_append]
  exact Nat.le_add_right _ _

/-- All candidates within the per-request cap. -/
def Page.total (p : Page) : Nat := p.kept p.candidates.length

/-! ## What two phases hold -/

/-- The bytes that are resident once a candidate was looked at, when nothing is given back. -/
def Page.hold (p : Page) (held : Nat) (c : Candidate) : Nat :=
  if c.size > p.requestCap then held
  else if held + c.size > p.batchCap then held
  else held + c.size

/-- The bytes that are resident after the first `k` candidates, when nothing is given back. -/
def Page.held (p : Page) (k : Nat) : Nat := (p.candidates.take k).foldl p.hold 0

/-- The reply when the candidate comes on top of `held` bytes. -/
def Candidate.heldAnswer (c : Candidate) (p : Page) (held : Nat) : Text :=
  if c.size > p.requestCap then []
  else if held + c.size > p.batchCap then []
  else c.replyText

theorem Page.held_succ (found : p.candidates[k]? = some c) :
    p.held (k + 1) = p.hold (p.held k) c := by
  unfold Page.held
  rw [List.take_add_one, found, Option.toList_some, List.foldl_append]
  rfl

theorem Page.take_past {k : Nat} (none : p.candidates[k]? = none) :
    p.candidates.take (k + 1) = p.candidates.take k := by
  rw [List.take_add_one, none, Option.toList_none, List.append_nil]

/-- What is held never exceeds the batch cap. -/
theorem Page.held_le (p : Page) (k : Nat) : p.held k ≤ p.batchCap := by
  induction k with
  | zero => exact Nat.zero_le _
  | succ k ih =>
    cases found : p.candidates[k]? with
    | none =>
      unfold Page.held
      rw [Page.take_past found]
      exact ih
    | some c =>
      rw [Page.held_succ found]
      unfold Page.hold
      split
      · exact ih
      · split
        · exact ih
        · omega

/-- If everything fits, everything is held. -/
theorem Page.held_eq_kept (fits : p.total ≤ p.batchCap) (le : k ≤ p.candidates.length) :
    p.held k = p.kept k := by
  induction k with
  | zero => rfl
  | succ k ih =>
    have found : p.candidates[k]? = some p.candidates[k] := List.getElem?_eq_getElem le
    have all := Page.kept_mono (p := p) le
    have same := ih (Nat.le_of_succ_le le)
    rw [Page.kept_succ found] at all ⊢
    rw [Page.held_succ found, same]
    unfold Page.hold
    unfold Candidate.kept at *
    unfold Page.total at fits
    by_cases large : p.candidates[k].size > p.requestCap
    · rw [if_pos large, if_pos large, Nat.add_zero]
    · rw [if_neg large] at all ⊢
      rw [if_neg large, if_neg (by omega)]

/-- If everything fits, nothing is left out. -/
theorem Page.heldAnswer_eq (fits : p.total ≤ p.batchCap) (found : p.candidates[k]? = some c) :
    c.heldAnswer p (p.held k) = c.answer p := by
  have lt := (List.getElem?_eq_some_iff.mp found).1
  have all := Page.kept_mono (p := p) (Nat.succ_le_of_lt lt)
  rw [Page.held_eq_kept fits (Nat.le_of_lt lt)]
  rw [Page.kept_succ found] at all
  unfold Candidate.heldAnswer Candidate.answer
  unfold Candidate.kept at all
  unfold Page.total at fits
  by_cases large : c.size > p.requestCap
  · rw [if_pos large, if_pos large]
  · rw [if_neg large] at all
    rw [if_neg large, if_neg large, if_neg (by omega)]

/-! ## Accounts -/

theorem saturatingAdd_add (a b d : Nat) :
    saturatingAdd (saturatingAdd a b) d = saturatingAdd a (b + d) := by
  unfold saturatingAdd
  omega

theorem backfill_length {blocks blocks' : List Block} {index : Nat} {tokens : Tokens}
    (h : backfill blocks index tokens = some blocks') : blocks'.length = blocks.length := by
  unfold backfill at h
  split at h
  · cases h
    rfl
  · split at h
    · cases h
      exact List.length_modify _ _ _
    · cases h

theorem Page.written_length {blocks : List Block} (h : p.written k = some blocks) :
    blocks.length = p.blocks.length := by
  induction k generalizing blocks with
  | zero =>
    rw [Page.written_zero] at h
    cases h
    rfl
  | succ k ih =>
    cases found : p.candidates[k]? with
    | none =>
      unfold Page.written at h
      rw [Page.take_past found] at h
      exact ih h
    | some c =>
      rw [Page.written_succ found] at h
      obtain ⟨before, written, wrote⟩ := Option.bind_eq_some_iff.mp h
      rw [← ih written]
      unfold Candidate.write at wrote
      split at wrote
      · exact backfill_length wrote
      · cases wrote

/-- A request for a candidate of the page whose image is within the cap. -/
structure Page.Asks (p : Page) (r : Request) (c : Candidate) : Prop where
  found : p.candidates[r.order]? = some c
  index : r.blockIndex = c.originalIndex
  reply : r.reply = c.reply
  lease : r.lease = c.size
  small : c.size ≤ p.requestCap

/-- The reply to a request is the one of its candidate. -/
theorem Page.Asks.answer {r : Request} (h : p.Asks r c) {reply : Text} {rawBytes : Nat}
    {warnings : List Warning} (ended : r.outcome = .ok (reply, rawBytes, warnings)) :
    reply = c.answer p ∧ ∀ bytes limit, Warning.cap bytes limit .batch ∉ warnings := by
  unfold Candidate.answer Candidate.replyText
  rw [if_neg (Nat.not_lt.mpr h.small), ← h.reply]
  unfold Request.outcome at ended
  cases is : r.reply with
  | text t n =>
    rw [is] at ended
    cases ended
    exact ⟨rfl, fun _ _ => List.not_mem_nil⟩
  | protocol operation message =>
    rw [is] at ended
    cases ended
    refine ⟨rfl, fun bytes limit mem => ?_⟩
    cases List.mem_singleton.mp mem
  | fatal e =>
    rw [is] at ended
    cases ended

/-- The bytes of the requests. -/
def leases (requests : List Request) : Nat := (requests.map Request.lease).sum

theorem leases_concat (requests : List Request) (r : Request) :
    leases (requests ++ [r]) = leases requests + r.lease := by
  unfold leases
  rw [List.map_append, List.sum_append]
  simp

theorem leases_eraseIdx {requests : List Request} {i : Nat} {r : Request}
    (found : requests[i]? = some r) :
    leases requests = r.lease + leases (requests.eraseIdx i) := by
  obtain ⟨lt, rfl⟩ := List.getElem?_eq_some_iff.mp found
  have perm := ((List.getElem_cons_eraseIdx_perm lt).map Request.lease).sum_eq
  rw [List.map_cons, List.sum_cons] at perm
  exact perm.symm

theorem mem_eraseIdx_of_ne {α : Type} {as : List α} {i : Nat} {a b : α} (found : as[i]? = some a)
    (mem : b ∈ as) (other : b ≠ a) : b ∈ as.eraseIdx i := by
  rw [List.mem_eraseIdx_iff_getElem?]
  obtain ⟨j, there⟩ := List.getElem?_of_mem mem
  refine ⟨j, fun same => other ?_, there⟩
  rw [same, found] at there
  exact (Option.some.inj there).symm

/-- A request that stays in flight while another one ends. -/
theorem mem_eraseIdx_of_order {requests : List Request} {i : Nat} {r r' : Request}
    (found : requests[i]? = some r) (mem : r' ∈ requests) (other : r'.order ≠ r.order) :
    r' ∈ requests.eraseIdx i :=
  mem_eraseIdx_of_ne found mem fun same => other (congrArg Request.order same)

end Mineru.Semantic
