import Mineru.LegacyOffice.Pdf

/-!
# What the budget of a PDF keeps

Every step on the budget either succeeds or is denied for the budget's sake, and only a reserved page
changes the number of pages. The estimate stays within the cap because the budget carries the proof.
Which reservations a text needs is not said here: the writer asks for them one by one.
-/

set_option autoImplicit false

namespace Mineru.LegacyOffice.PdfBudget

open Logic

/-- What no reservation but that of a page changes. -/
structure Kept (b b' : PdfBudget) : Prop where
  outputCap : b'.outputCap = b.outputCap
  maxPages : b'.maxPages = b.maxPages
  pageCount : b'.pageCount = b.pageCount

theorem Kept.refl (b : PdfBudget) : Kept b b := ⟨rfl, rfl, rfl⟩

theorem Kept.trans {b b' b'' : PdfBudget} (h : Kept b b') (h' : Kept b' b'') : Kept b b'' :=
  ⟨h'.outputCap.trans h.outputCap, h'.maxPages.trans h.maxPages, h'.pageCount.trans h.pageCount⟩

/-- A reservation was denied. -/
structure Denied (b : PdfBudget) (f : Failure) (b' : PdfBudget) : Prop where
  cause : f.cause = .budget
  kept : Kept b b'

theorem Denied.here (b : PdfBudget) : Denied b (oversized .budget) b := ⟨rfl, .refl b⟩

theorem checkedAdd_after (b : PdfBudget) (m n : Nat) :
    After (checkedAdd m n) b (fun _ b' => b' = b) (Denied b) := by
  unfold checkedAdd
  split
  · exact After.pure rfl
  · exact After.throw (.here b)

theorem reserve_after (b : PdfBudget) (bytes : Nat) :
    After (reserve bytes) b (fun _ b' => Kept b b') (Denied b) := by
  unfold reserve
  refine After.get (After.bind (checkedAdd_after b _ _) fun next b' same => ?_)
  subst same
  split
  · exact After.throw (.here b')
  · exact ⟨rfl, rfl, rfl⟩

theorem reserveObjects_after (b : PdfBudget) (count : Nat) :
    After (reserveObjects count) b (fun _ b' => Kept b b') (Denied b) := by
  unfold reserveObjects
  refine After.get (After.bind (checkedAdd_after b _ _) fun next b' same => ?_)
  subst same
  split
  · exact After.throw (.here b')
  · exact ⟨rfl, rfl, rfl⟩

theorem reserveLine_after (b : PdfBudget) (bytes : Nat) :
    After (reserveLine bytes) b (fun _ b' => Kept b b') (Denied b) := by
  unfold reserveLine
  refine After.get (After.bind (checkedAdd_after b _ _) fun next b' same => ?_)
  subst same
  split
  · exact After.throw (.here b')
  · refine After.bind (checkedAdd_after b' _ _) fun content b'' same => ?_
    subst same
    split
    · exact After.throw (.here b'')
    · refine After.bind (reserve_after b'' bytes) fun _ reserved kept => ?_
      exact After.modify (kept.trans ⟨rfl, rfl, rfl⟩)

/-- A page is counted once everything for it is reserved. -/
theorem reservePage_after (b : PdfBudget) :
    After reservePage b
      (fun _ b' => b'.outputCap = b.outputCap ∧ b'.maxPages = b.maxPages ∧
        b'.pageCount = b.pageCount + 1 ∧ b.pageCount < b.maxPages) (Denied b) := by
  unfold reservePage
  -- the numbers reserved do not matter, and a literal would be counted down
  generalize pdfPageReserve = bytes
  generalize 2 = objects
  refine After.get ?_
  split
  · exact After.throw (.here b)
  · rename_i room
    refine After.bind (reserve_after b bytes) fun _ b' kept => ?_
    refine After.bind ((reserveObjects_after b' objects).errors fun f b'' denied => ?_)
      fun _ b'' more => ?_
    · exact ⟨denied.cause, kept.trans denied.kept⟩
    · have whole := kept.trans more
      exact After.modify ⟨whole.outputCap, whole.maxPages, by rw [whole.pageCount],
        Nat.lt_of_not_le room⟩

/-- What `markdown_to_pdf` asks a budget for. -/
inductive Reservation where
  | objects (count : Nat)
  | line (bytes : Nat)
  | page
  deriving DecidableEq, Repr

def Reservation.step : Reservation → Step PUnit
  | objects count => reserveObjects count
  | line bytes => reserveLine bytes
  | page => reservePage

/-- A new budget has room for a page. -/
theorem new_ok {cap : Nat} {b : PdfBudget} (is : new cap = .ok b) :
    b.outputCap = cap ∧ b.pageCount = 0 ∧ b.maxPages ≤ cap / pdfPageReserve := by
  unfold new at is
  split at is
  · dsimp only at is
    split at is
    · cases is
      exact ⟨rfl, rfl, Nat.div_le_div_right (Nat.sub_le _ _)⟩
    · cases is
  · cases is

/-- No budget can be made exactly under a cap that has no room for a page. -/
theorem new_error {cap : Nat} {f : Failure} (is : new cap = .error f) :
    f.cause = .budget ∧ cap < pdfFixedReserve + pdfPageReserve := by
  unfold new pdfFixedReserve pdfPageReserve at *
  split at is
  · dsimp only at is
    split at is
    · cases is
    · rename_i none'
      cases is
      exact ⟨rfl, by omega⟩
  · cases is
    exact ⟨rfl, by omega⟩

end Mineru.LegacyOffice.PdfBudget
