import Mineru.LocalTasks.Admission

/-!
# What a rejected submission does

A submission that is answered with an error adds no record. It may have reaped exited tasks, dropped
records past retention, and evicted finished records: one after the other, always the oldest that was
left, and only while no slot was free (`Evicts`).

What the worker of an accepted submission makes of its record is no part of this.
-/

set_option autoImplicit false

namespace Mineru.LocalTasks

open Logic

namespace Tasks

variable {sanitize : String → String} {retention now : Nat} {s t : Tasks}

/-! ## Eviction -/

theorem oldestOf_spec {rows : List (Nat × Record)} {found : Nat × Record}
    (h : oldestOf rows = some found) : found.2.state.isTerminal = true ∧
      ∀ row ∈ rows, row.2.state.isTerminal = true → found.2.terminalAt ≤ row.2.terminalAt := by
  induction rows generalizing found with
  | nil => cases h
  | cons row rest ih =>
    have none_ : oldestOf rest = none → ∀ row ∈ rest, row.2.state.isTerminal ≠ true := by
      intro none
      clear h ih
      induction rest with
      | nil => simp
      | cons row rest ih =>
        unfold oldestOf at none
        split at none
        · split at none
          · cases none
          · split at none
            · cases none
            · cases none
        · rename_i open_
          intro other mem
          rcases List.mem_cons.mp mem with rfl | mem
          · exact open_
          · exact ih none other mem
    unfold oldestOf at h
    split at h
    · rename_i terminal
      split at h
      · rename_i none
        cases h
        refine ⟨terminal, fun other mem done => ?_⟩
        rcases List.mem_cons.mp mem with rfl | mem
        · exact Nat.le_refl _
        · exact absurd done (none_ none other mem)
      · rename_i other later
        obtain ⟨done, least⟩ := ih later
        split at h
        · rename_i before
          cases h
          refine ⟨terminal, fun third mem is => ?_⟩
          rcases List.mem_cons.mp mem with rfl | mem
          · exact Nat.le_refl _
          · exact Nat.le_trans before (least third mem is)
        · rename_i after
          cases h
          refine ⟨done, fun third mem is => ?_⟩
          rcases List.mem_cons.mp mem with rfl | mem
          · exact Nat.le_of_lt (Nat.lt_of_not_le after)
          · exact least third mem is
    · rename_i open_
      obtain ⟨done, least⟩ := ih h
      refine ⟨done, fun third mem is => ?_⟩
      rcases List.mem_cons.mp mem with rfl | mem
      · exact absurd is open_
      · exact least third mem is

/-- Finished records are evicted one after the other, each the oldest that is left, and each while no
slot is free: so the ones before it freed none. -/
inductive Evicts : Tasks → List (Nat × Record) → Tasks → Prop where
  | nil (s : Tasks) : Evicts s [] s
  | cons {s t : Tasks} {id : Nat} {r : Record} {rest : List (Nat × Record)} (full : s.available = 0)
      (there : s.records.get id = some r) (terminal : r.state.isTerminal = true)
      (oldest : ∀ id' r', s.records.get id' = some r' → r'.state.isTerminal = true →
        r.terminalAt ≤ r'.terminalAt)
      (later : Evicts (s.evict id r) rest t) : Evicts s ((id, r) :: rest) t

/-- A record stays, or it had finished and is one of those that were evicted. -/
theorem Evicts.get {evicted : List (Nat × Record)} (h : Evicts s evicted t) (id : Nat) :
    t.records.get id = s.records.get id ∨ (t.records.get id = none ∧
      ∃ r, s.records.get id = some r ∧ r.state.isTerminal = true ∧ (id, r) ∈ evicted) := by
  induction h with
  | nil s => exact .inl rfl
  | @cons s t first r rest full there terminal oldest later ih =>
    have get : (s.evict first r).records.get id =
        if id = first then none else s.records.get id := Table.get_remove _ _ _
    rw [get] at ih
    by_cases is : id = first
    · subst is
      rw [if_pos rfl] at ih
      refine .inr ⟨?_, r, there, terminal, List.mem_cons_self⟩
      rcases ih with none | ⟨none, -⟩
      · exact none
      · exact none
    · rw [if_neg is] at ih
      rcases ih with same | ⟨none, q, was, done, mem⟩
      · exact .inl same
      · exact .inr ⟨none, q, was, done, List.mem_cons_of_mem _ mem⟩

/-- The loop evicts until a slot is free, or no finished record is left. -/
theorem reserveLoop_spec (s : Tasks) :
    ∃ evicted t, Evicts s evicted t ∧ s.reserveLoop.1.records = t.records := by
  fun_induction reserveLoop s with
  | case1 s free => exact ⟨[], s, .nil s, rfl⟩
  | case2 s full oldest r found ih =>
    obtain ⟨evicted, t, later, same⟩ := ih
    have there := Table.mem_rows.mp (oldestOf_mem found)
    obtain ⟨terminal, least⟩ := oldestOf_spec found
    refine ⟨(oldest, r) :: evicted, t, .cons (Nat.eq_zero_of_not_pos full) there terminal ?_ later, same⟩
    exact fun id' r' found' done => least _ (Table.mem_rows.mpr found') done
  | case3 s full none => exact ⟨[], s, .nil s, rfl⟩

/-! ## The reservation -/

/-- What the reservation makes of a record: it stays, or it was finished and either past retention or
one of those that were evicted. -/
def Reserved (retention now : Nat) (s t : Tasks) (evicted : List (Nat × Record)) (id : Nat) : Prop :=
  t.records.get id = s.records.get id ∨ (t.records.get id = none ∧ ∃ r, s.records.get id = some r ∧
    r.state.isTerminal = true ∧ (expired retention now r = true ∨ (id, r) ∈ evicted))

theorem reserve_spec : ∃ evicted t, Evicts (s.removeExpired retention now) evicted t ∧
    ∀ id, Reserved retention now s (s.reserve retention now).1 evicted id := by
  have expiry : ∀ j, (s.removeExpired retention now).records.get j =
      (s.records.get j).filter fun r => !expired retention now r := fun j => Table.get_keep _ _ _
  obtain ⟨evicted, t, evicts, same⟩ := reserveLoop_spec (s.removeExpired retention now)
  refine ⟨evicted, t, evicts, fun id => ?_⟩
  unfold Reserved reserve
  rw [same]
  rcases evicts.get id with stays | ⟨gone, r, was, terminal, mem⟩
  · rw [stays, expiry]
    cases there : s.records.get id with
    | none => exact .inl rfl
    | some r =>
      cases old : expired retention now r with
      | false => exact .inl (by simp [old])
      | true =>
        refine .inr ⟨by simp [old], r, rfl, ?_, .inl old⟩
        unfold expired at old
        rw [Bool.and_eq_true] at old
        exact old.1
  · rw [expiry, Option.filter_eq_some_iff] at was
    exact .inr ⟨gone, r, was.1, terminal, .inr mem⟩

/-- What a request may do to the record of an id before it adds its own: nothing, or it is reaped when
its task has exited, and then it stays or goes as the reservation says. -/
def Disturbed (sanitize : String → String) (retention now : Nat) (s t : Tasks)
    (evicted : List (Nat × Record)) (id : Nat) : Prop :=
  t.records.get id = s.records.get id ∨
    Reserved retention now (s.reapWorkers sanitize now) t evicted id

theorem admission_disturbs (post : Post) :
    ∃ evicted t, Evicts ((s.reapWorkers sanitize now).removeExpired retention now) evicted t ∧
      ∀ id, Disturbed sanitize retention now s (admission sanitize retention now s post).1 evicted id := by
  obtain ⟨evicted, u, evicts, spec⟩ := @reserve_spec retention now (s.reapWorkers sanitize now)
  refine ⟨evicted, u, evicts, fun id => ?_⟩
  have spec := spec id
  unfold admission
  split
  · exact .inl rfl
  · split
    · exact .inl rfl
    · split
      · rename_i t none
        rw [none] at spec
        exact .inr spec
      · rename_i t got
        rw [got] at spec
        split
        · exact .inr spec
        · exact .inr spec

theorem reserveLoop_same (s : Tasks) :
    s.reserveLoop.1.nextId = s.nextId ∧ s.reserveLoop.1.open_ = s.open_ := by
  fun_induction reserveLoop s with
  | case1 s free => exact ⟨rfl, rfl⟩
  | case2 s full oldest r found ih => exact ih
  | case3 s full none => exact ⟨rfl, rfl⟩

theorem admission_same (post : Post) :
    (admission sanitize retention now s post).1.nextId = s.nextId ∧
      (admission sanitize retention now s post).1.open_ = s.open_ := by
  have same := reserveLoop_same ((s.reapWorkers sanitize now).removeExpired retention now)
  unfold admission
  split
  · exact ⟨rfl, rfl⟩
  · split
    · exact ⟨rfl, rfl⟩
    · split
      · rename_i t none
        unfold reserve at none
        rw [none] at same
        exact same
      · rename_i t got
        unfold reserve at got
        rw [got] at same
        split
        · exact same
        · exact same

end Tasks

/-- **What a rejected submission does.** Of an `async` or a `sync` request that is answered with an
error, every record is found as it was, or as reaping left it, or was finished and is gone: past
retention, or evicted. What is evicted goes one after the other, after the expired records freed their
slots: always the oldest finished record that is left, and only while no slot is free. No record is
added, but for the one of an `async` request that comes after the registry was taken, under a number of
its own. -/
theorem rejected_disturbs (sanitize : String → String) (retention now : Nat) (s : Tasks)
    (post : Post) :
    ((s.submit sanitize retention now post).2.isError = true →
      ∃ evicted t,
        Tasks.Evicts ((s.reapWorkers sanitize now).removeExpired retention now) evicted t ∧
        ∀ id, (s.open_ = true ∨ (id ≠ s.nextId ∧ s.records.get s.nextId = none)) →
          Tasks.Disturbed sanitize retention now s (s.submit sanitize retention now post).1 evicted id) ∧
    ((s.fileParse sanitize retention now post).2.isError = true →
      ∃ evicted t,
        Tasks.Evicts ((s.reapWorkers sanitize now).removeExpired retention now) evicted t ∧
        ∀ id, Tasks.Disturbed sanitize retention now s (s.fileParse sanitize retention now post).1
          evicted id) := by
  obtain ⟨evicted, u, evicts, disturbs⟩ := @Tasks.admission_disturbs sanitize retention now s post
  obtain ⟨nextId, open_⟩ := @Tasks.admission_same sanitize retention now s post
  constructor
  · intro isError
    refine ⟨evicted, u, evicts, fun id other => ?_⟩
    unfold Tasks.submit at isError ⊢
    split at isError
    · rename_i t answer admitted
      have at_ := disturbs id
      rw [admitted] at at_
      exact at_
    · rename_i t admitted
      have at_ := disturbs id
      rw [admitted] at at_ nextId open_
      dsimp only at at_ nextId open_ isError ⊢
      split at isError
      · cases isError
      · rename_i shut
        rw [if_neg shut]
        obtain ⟨ne, fresh⟩ := other.resolve_left fun is => shut (open_.trans is)
        rw [← nextId] at ne fresh
        have get : ∀ (a b : Record), ((t.records.set t.nextId a).set t.nextId b).get id =
            t.records.get id := by
          intro a b
          rw [Table.get_set, if_neg ne, Table.get_set, if_neg ne]
        apply at_.imp
        · exact fun same => (get _ _).trans same
        · apply Or.imp
          · exact fun same => (get _ _).trans same
          · exact fun gone => ⟨(get _ _).trans gone.1, gone.2⟩
  · intro isError
    refine ⟨evicted, u, evicts, fun id => ?_⟩
    unfold Tasks.fileParse at isError ⊢
    split at isError
    · rename_i t answer admitted
      have at_ := disturbs id
      rw [admitted] at at_
      exact at_
    · rename_i t admitted
      have at_ := disturbs id
      rw [admitted] at at_
      split at isError
      · cases isError
      · rename_i shut
        rw [if_neg shut]
        exact at_

/-- A finished record that is long before retention, and no slot is free. -/
def crowded : Tasks where
  records := Table.set ∅ 1 ⟨.completed () 3, 5, 0⟩
  available := 0
  nextId := 2
  exited := []
  open_ := true

def badForm : Post := ⟨true, none, .error (400, "invalid multipart")⟩

theorem crowded_reserve : (crowded.reapWorkers id 6).reserve 100 6 = (⟨∅, 0, 2, [], true⟩, true) := by
  unfold Tasks.reserve
  rw [Tasks.reserveLoop, if_neg (by decide)]
  split
  · rename_i oldest r found
    have is : some (oldest, r) = some (1, (⟨.completed () 3, 5, 0⟩ : Record)) := found.symm.trans rfl
    cases is
    rw [Tasks.reserveLoop, if_pos (by decide)]
    rfl
  · rename_i none
    cases none

theorem crowded_run : crowded.fileParse id 100 6 badForm =
    (⟨∅, 1, 2, [], true⟩, .error 400 "invalid multipart") := by
  unfold Tasks.fileParse Tasks.admission
  simp only [badForm, crowded_reserve]
  rfl

/-- The finished record was evicted while no slot was free. -/
theorem crowded_disturbed : ∃ evicted t,
    Tasks.Evicts ((crowded.reapWorkers id 6).removeExpired 100 6) evicted t ∧
      (1, (⟨.completed () 3, 5, 0⟩ : Record)) ∈ evicted := by
  obtain ⟨evicted, t, evicts, disturbs⟩ :=
    (rejected_disturbs id 100 6 crowded badForm).2 (by rw [crowded_run]; rfl)
  have gone : (crowded.fileParse id 100 6 badForm).1.records.get 1 = none := by
    rw [crowded_run]
    rfl
  refine ⟨evicted, t, evicts, ?_⟩
  rcases disturbs 1 with same | same | ⟨-, r, was, -, old | mem⟩
  · cases gone.symm.trans same
  · cases gone.symm.trans same
  · cases was
    cases old
  · cases was
    exact mem

/-- The rejected form has cost a finished record that is not past retention. -/
theorem rejected_form_evicts :
    (crowded.fileParse id 100 6 badForm).2.isError = true ∧
      (crowded.fileParse id 100 6 badForm).1.records.get 1 = none ∧
      ∃ r, crowded.records.get 1 = some r ∧ Tasks.expired 100 6 r = false := by
  rw [crowded_run]
  exact ⟨rfl, rfl, _, rfl, rfl⟩

end Mineru.LocalTasks
