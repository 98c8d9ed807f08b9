import Mineru.Text

/-!
# Lower-casing

`str::to_lowercase` maps every character by the Unicode table, except that a capital sigma at the
end of a word becomes a final sigma. The tables are data: `CaseTables` is what the standard library
reads, with the one fact about them that is fixed for every version of Unicode, their ASCII part.
-/

set_option autoImplicit false

namespace Mineru

/-- The tables behind `str::to_lowercase`. -/
structure CaseTables where
  lower : Char → Text
  cased : Char → Bool
  caseIgnorable : Char → Bool
  ascii : ∀ c : Char, c.toNat < 128 → lower c = [c.toLower]

namespace CaseTables

variable (T : CaseTables)

/-- `case_ignorable_then_cased`. -/
def caseIgnorableThenCased (t : Text) : Bool :=
  match t.dropWhile T.caseIgnorable with
  | c :: _ => T.cased c
  | [] => false

/-- `map_uppercase_sigma`, between the characters before it (last one first) and those after it. -/
def mapUppercaseSigma (before after : Text) : Char :=
  if T.caseIgnorableThenCased before && !T.caseIgnorableThenCased after then 'ς' else 'σ'

/-- The loop of `to_lowercase`; `before` is what it has passed, last character first. -/
def lowercaseFrom (before : Text) : Text → Text
  | [] => []
  | c :: rest =>
    (if c = 'Σ' then [T.mapUppercaseSigma before rest] else T.lower c) ++
      lowercaseFrom (c :: before) rest

/-- `str::to_lowercase`. -/
def toLowercase (t : Text) : Text := T.lowercaseFrom [] t

/-- The ASCII tables: every other character is left alone. -/
def asciiOnly : CaseTables where
  lower c := [c.toLower]
  cased c := c.isAlpha
  caseIgnorable c := c = '.'
  ascii _ _ := rfl

/-- Characters that lower-casing leaves alone wherever they stand. -/
def Caseless (t : Text) : Prop := ∀ c ∈ t, c ≠ 'Σ' ∧ T.lower c = [c]

variable {T}

theorem lowercaseFrom_caseless {t : Text} (h : T.Caseless t) (before : Text) :
    T.lowercaseFrom before t = t := by
  induction t generalizing before with
  | nil => rfl
  | cons c rest ih =>
    obtain ⟨plain, same⟩ := h c List.mem_cons_self
    have later := ih (fun d mem => h d (List.mem_cons_of_mem c mem)) (c :: before)
    simp only [lowercaseFrom, if_neg plain, same, later, List.singleton_append]

/-- A caseless tail stays in place, whatever stands before it. -/
theorem toLowercase_append {t u : Text} (h : T.Caseless u) :
    ∃ key, T.toLowercase (t ++ u) = key ++ u := by
  suffices ∀ before, ∃ key, T.lowercaseFrom before (t ++ u) = key ++ u from this []
  induction t with
  | nil =>
    intro before
    exact ⟨[], lowercaseFrom_caseless h before⟩
  | cons c rest ih =>
    intro before
    obtain ⟨key, later⟩ := ih (c :: before)
    refine ⟨(if c = 'Σ' then [T.mapUppercaseSigma before (rest ++ u)] else T.lower c) ++ key, ?_⟩
    rw [List.cons_append, lowercaseFrom, later, List.append_assoc]

end CaseTables

end Mineru
