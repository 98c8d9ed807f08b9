import Mineru.Laws.Official.Turns

/-!
# Identifiers

Every identifier is given out once. A handler that has taken one and not used it yet is the only one
that has it, and it names no entry and no record: so an upload or a job that is committed overwrites
nothing. Uploads and files never share an identifier, since their stems differ.

An identifier is taken in one section and used in a later one. `Numbered` says who holds which in
between, and `Moves` what a step does to that: an identifier is taken, used, or given up with its
handler, and never handed to another.

The counter has 64 bits in the source and is an unbounded number here, so it never wraps.
-/

set_option autoImplicit false

namespace Mineru.Official

open Logic

/-- The identifier that a handler has taken and not used yet. -/
def UploadPc.reserves : UploadPc → Option Id
  | createMetadata n _ _ _ | createInput n _ _ _ _ | createCommit n _ _ _ _ _ => some (.upload n)
  | _ => none

def JobPc.reserves : JobPc → Option Id
  | prepareCommit n _ => some (.job n)
  | _ => none

def Pc.reserves : Pc → Option Id
  | upload pc => pc.reserves
  | job pc => pc.reserves

def Task.reserves (t : Task) : Option Id := t.next.bind Pc.reserves

/-- Uploads are under `upload` identifiers, and files under `file` identifiers. -/
def Entry.fits : Entry → Id → Prop
  | upload _, .upload _ | file _, .file _ => True
  | _, _ => False

def Id.isFile : Id → Bool
  | file _ => true
  | _ => false

/-- What a section does to the identifiers: a new entry or record is under the identifier that the
section had reserved and gives up, or is a file under an identifier that was given out. -/
structure Issues (s s' : Shared) (before after : Option Id) : Prop where
  grows : s.store.ids ≤ s'.store.ids
  entries : ∀ id e, s'.store.entries.get id = some e →
    (∃ e', s.store.entries.get id = some e' ∧ (e'.fits id → e.fits id)) ∨
    (before = some id ∧ after = none ∧ e.fits id) ∨
    (∃ n, id = .file n ∧ n < s'.store.ids ∧ e.fits id)
  records : ∀ id slot, s'.jobs.records.get id = some slot →
    (∃ slot', s.jobs.records.get id = some slot') ∨ (before = some id ∧ after = none)
  reserved : ∀ id, after = some id →
    before = some id ∨ (s.store.ids ≤ id.number ∧ id.number < s'.store.ids ∧ id.isFile = false)

section Issues

variable {s s' : Shared}

/-- A section that ends its handler reserves nothing. -/
theorem reserves_none {P : Id → Prop} (id : Id) (h : (none : Option Id) = some id) : P id := by
  cases h

/-- Entries and records that only go away, and no new identifier. -/
theorem Issues.of_subset {before : Option Id} (grows : s.store.ids ≤ s'.store.ids)
    (entries : ∀ id e, s'.store.entries.get id = some e → s.store.entries.get id = some e)
    (records : ∀ id slot, s'.jobs.records.get id = some slot →
      ∃ slot', s.jobs.records.get id = some slot') {after : Option Id}
    (reserved : after = none ∨ after = before) : Issues s s' before after where
  grows := grows
  entries id e h := .inl ⟨e, entries id e h, fun fits => fits⟩
  records id slot h := .inl (records id slot h)
  reserved id h := by
    rcases reserved with rfl | rfl
    · cases h
    · exact .inl h

theorem Issues.of_same {before after : Option Id} (grows : s.store.ids ≤ s'.store.ids)
    (entries : s'.store.entries = s.store.entries) (records : s'.jobs.records = s.jobs.records)
    (reserved : after = none ∨ after = before) : Issues s s' before after :=
  .of_subset grows (fun _ _ h => entries ▸ h) (fun _ slot h => ⟨slot, records ▸ h⟩) reserved

theorem Issues.of_entries {before : Option Id} (entries : Table Id Entry)
    (sub : ∀ id e, entries.get id = some e → s.store.entries.get id = some e) :
    Issues s { s with store := { s.store with entries } } before none where
  grows := Nat.le_refl _
  entries id e h := .inl ⟨e, sub id e h, fun fits => fits⟩
  records _ slot h := .inl ⟨slot, h⟩
  reserved := reserves_none

theorem upload_fits {u u' : Upload} {k : Id} (h : (Entry.upload u).fits k) :
    (Entry.upload u').fits k := by
  cases k with
  | upload n => trivial
  | file | job => exact h

/-- An upload is changed in place. -/
theorem get_set_upload {entries : Table Id Entry} {id : Id} {u u' : Upload}
    (found : entries.get id = some (.upload u)) {k : Id} {e : Entry}
    (h : (entries.set id (.upload u')).get k = some e) :
    ∃ e', entries.get k = some e' ∧ (e'.fits k → e.fits k) := by
  rw [Table.get_set] at h
  split at h
  · rename_i same
    cases h
    exact ⟨.upload u, same ▸ found, upload_fits⟩
  · exact ⟨e, h, fun fits => fits⟩

theorem get_remove_some {entries : Table Id Entry} {id k : Id} {e : Entry}
    (h : (entries.remove id).get k = some e) : entries.get k = some e := by
  rw [Table.get_remove] at h
  split at h
  · cases h
  · exact h

theorem get_keep_some {entries : Table Id Entry} {p : Id → Entry → Bool} {k : Id} {e : Entry}
    (h : (entries.keep p).get k = some e) : entries.get k = some e :=
  (Table.get_keep_some.mp h).1

end Issues

/-- An upload handler. -/
theorem UploadTurn.issues {env : Env} {s : Shared} {pc : UploadPc} {o : UploadOutcome}
    (turn : UploadTurn env s.store pc o) :
    Issues s { s with store := o.state } pc.reserves (o.next.bind UploadPc.reserves) := by
  have inPlace : ∀ {id : Id} {u u' : Upload} {before after : Option Id}
      (_ : s.store.entries.get id = some (.upload u)) (_ : after = none ∨ after = before),
      Issues s { s with store := { s.store with entries := s.store.entries.set id (.upload u') } }
        before after := fun found reserved =>
    { grows := Nat.le_refl _
      entries := fun id e h => .inl (get_set_upload found h)
      records := fun id slot h => .inl ⟨slot, h⟩
      reserved := fun id h => by
        rcases reserved with rfl | rfl
        · cases h
        · exact .inl h }
  cases turn with
  | reject | read | receive | received | fail | completed =>
    exact .of_same (Nat.le_refl _) rfl rfl (.inl rfl)
  | cleanup req =>
    exact .of_entries _ fun id e h => get_keep_some h
  | start req valid small =>
    refine ⟨Nat.le_succ _, fun id e h => .inl ⟨e, h, fun fits => fits⟩,
      fun id slot h => .inl ⟨slot, h⟩, fun id h => .inr ?_⟩
    cases h
    exact ⟨Nat.le_refl _, Nat.lt_succ_self _, rfl⟩
  | metadata n req now ttl c s' charged | input n req now ttl metadata c s' charged =>
    obtain ⟨ledger, -, rfl⟩ := Store.reserve_some charged
    exact .of_same (Nat.le_refl _) rfl rfl (.inr rfl)
  | commit n req now ttl metadata reservation u made =>
    refine ⟨Nat.le_refl _, fun id e h => ?_, fun id slot h => .inl ⟨slot, h⟩, reserves_none⟩
    change (Table.set _ _ _).get id = _ at h
    rw [Table.get_set] at h
    split at h
    · rename_i same
      cases h
      subst same
      exact .inr (.inl ⟨rfl, rfl, trivial⟩)
    · exact .inl ⟨e, h, fun fits => fits⟩
  | grant id contentLength u reservation next found writable reserved writer =>
    refine inPlace found (.inl ?_)
    rcases writer with rfl | ⟨e, rfl⟩ <;> rfl
  | broken id contentLength u found | store w data u u' found => exact inPlace found (.inl rfl)
  | guard | cancel id | delete id =>
    exact .of_entries _ fun id e h => get_remove_some h
  | complete id digest u bytes object found live first stored made =>
    refine ⟨Nat.le_succ _, fun k e h => ?_, fun id slot h => .inl ⟨slot, h⟩, reserves_none⟩
    change (Table.set _ _ _).get k = _ at h
    rw [Table.get_set, Table.get_set] at h
    split at h
    · rename_i same
      cases h
      exact .inl ⟨.upload u, same ▸ found, upload_fits⟩
    · split at h
      · rename_i same
        cases h
        subst same
        exact .inr (.inr ⟨_, rfl, Nat.lt_succ_self _, trivial⟩)
      · exact .inl ⟨e, h, fun fits => fits⟩

theorem setRecord_records {j : Jobs} {id k : Id} {r : JobRecord} {slot : JobSlot}
    (h : (j.setRecord id r).records.get k = some slot) : ∃ slot', j.records.get k = some slot' := by
  unfold Jobs.setRecord at h
  split at h
  · rename_i old found
    rw [Table.get_set] at h
    split at h
    · rename_i same
      exact ⟨old, same ▸ found⟩
    · exact ⟨slot, h⟩
  · exact ⟨slot, h⟩

theorem notifyOne_records (j : Jobs) : j.notifyOne.records = j.records := by
  unfold Jobs.notifyOne
  split <;> rfl

theorem Issues.of_records {s s' : Shared} {before : Option Id}
    (grows : s.store.ids ≤ s'.store.ids) (entries : s'.store.entries = s.store.entries)
    (records : ∀ id slot, s'.jobs.records.get id = some slot →
      ∃ slot', s.jobs.records.get id = some slot') : Issues s s' before none :=
  .of_subset grows (fun _ _ h => entries ▸ h) records (.inl rfl)

/-- One of the other handlers. -/
theorem JobTurn.issues {env : Env} {s : Shared} {held : Id → Bool} {pc : JobPc} {o : JobOutcome}
    (turn : JobTurn env s held pc o) :
    Issues s o.state pc.reserves (o.next.bind JobPc.reserves) := by
  have same : ∀ {before}, Issues s s before none := .of_same (Nat.le_refl _) rfl rfl (.inl rfl)
  cases turn with
  | refuse | sizes | sized | lease | read | stopList | stopSkip | awaited | parserDown => exact same
  | refuseCharged req metadata budget rest files n c store dropped e charged
  | metadata req c store charged | budget req metadata c store charged
  | take req metadata budget file rest files prepared n store charged =>
    obtain ⟨ledger, -, rfl⟩ := Store.reserve_some charged
    exact .of_same (Nat.le_refl _) rfl rfl (.inl rfl)
  | made req metadata budget files =>
    refine ⟨Nat.le_succ _, fun id e h => .inl ⟨e, h, fun fits => fits⟩,
      fun id slot h => .inl ⟨slot, h⟩, fun id h => .inr ?_⟩
    cases h
    exact ⟨Nat.le_refl _, Nat.lt_succ_self _, rfl⟩
  | commit n record running =>
    refine ⟨Nat.le_refl _, fun id e h => .inl ⟨e, h, fun fits => fits⟩, fun id slot h => ?_, reserves_none⟩
    change (Jobs.notifyOne _).records.get id = _ at h
    rw [notifyOne_records, Table.get_set] at h
    split at h
    · rename_i same
      exact .inr ⟨same ▸ rfl, rfl⟩
    · exact .inl ⟨slot, h⟩
  | cancelQueued | cancelRunning =>
    exact .of_records (Nat.le_refl _) rfl fun k slot h =>
      setRecord_records (j := { s.jobs with cancelCalls := s.jobs.cancelCalls + 1 }) h
  | sweep =>
    exact .of_records (Nat.le_refl _) rfl fun k slot h => ⟨slot, (Table.get_keep_some.mp h).1⟩
  | handle | stopWake => exact .of_same (Nat.le_refl _) rfl rfl (.inl rfl)
  | stopMark id ids shutdown r found live =>
    exact .of_records (Nat.le_refl _) rfl fun k slot h => setRecord_records h
  | stopped shutdown next reply after =>
    have none : next.bind JobPc.reserves = none := by
      rcases after with rfl | rfl <;> rfl
    exact .of_same (Nat.le_refl _) rfl rfl (.inl none)
  | takeRunner handle next after =>
    have none : (some next).bind JobPc.reserves = none := by
      rcases after with rfl | rfl <;> rfl
    exact .of_same (Nat.le_refl _) rfl rfl (.inl none)
  | clear =>
    refine .of_records (Nat.le_refl _) rfl fun k slot h => ?_
    change (Table.map _ _).get k = _ at h
    rw [Table.get_map] at h
    obtain ⟨slot', found, -⟩ := Option.map_eq_some_iff.mp h
    exact ⟨slot', found⟩
  | clearStore =>
    refine .of_entries _ fun id e h => ?_
    cases h

/-- What handlers and requests do to the identifiers. -/
theorem handler_issues {env : Env} {s : Shared} {held : Id → Bool} {pc : Pc} {input : Input}
    {o : ServiceOutcome} (run : handlerSection env s held pc input = some o) :
    Issues s o.state pc.reserves (o.next.bind Pc.reserves) := by
  rcases handlerSection_turn run with ⟨upc, uo, rfl, turn, rfl⟩ | ⟨jpc, jo, rfl, turn, rfl⟩
  · have issues := turn.issues
    obtain ⟨state, next, dropped, reply⟩ := uo
    cases next <;> exact issues
  · have issues := turn.issues
    obtain ⟨state, next, dropped, reply⟩ := jo
    cases next <;> exact issues

theorem firstSection_issues (s : Shared) (request : Request) :
    Issues s (firstSection s request).state none ((firstSection s request).next.bind Pc.reserves) ∧
      (firstSection s request).next.bind Pc.reserves = none := by
  have same : ∀ {before}, Issues s s before none := .of_same (Nat.le_refl _) rfl rfl (.inl rfl)
  have cleanup : ∀ next : Pc, next.reserves = none →
      Issues s (cleanupFirst s next).state none ((cleanupFirst s next).next.bind Pc.reserves) ∧
        (cleanupFirst s next).next.bind Pc.reserves = none := by
    intro next none
    refine ⟨?_, none⟩
    change Issues _ _ _ next.reserves
    rw [none]
    exact .of_entries _ fun id e h => get_keep_some h
  cases request with
  | createUpload req =>
    simp only [firstSection, createAccepting]
    split <;> exact ⟨same, rfl⟩
  | prepareJob req slot =>
    simp only [firstSection, prepareStart]
    split
    · exact ⟨same, rfl⟩
    · split
      · exact ⟨same, rfl⟩
      · split <;> exact ⟨same, rfl⟩
  | getJob | cancelJob =>
    simp only [firstSection, lookupJob]
    split <;> exact ⟨same, rfl⟩
  | start =>
    simp only [firstSection, startRunner]
    split
    · exact ⟨.of_same (Nat.le_refl _) rfl rfl (.inl rfl), rfl⟩
    · exact ⟨same, rfl⟩
  | stopAdmissions | stopStore | shutdown =>
    exact ⟨.of_same (Nat.le_refl _) rfl rfl (.inl rfl), rfl⟩
  | getUpload | putUpload | completeUpload | cancelUpload | getFile | deleteFile | fileContent
  | sweep => exact cleanup _ rfl

/-! ## The runner -/

/-- The artifacts of a publication have file identifiers that were given out. -/
def Publication.Named (ids : Nat) (p : Publication) : Prop :=
  ∀ a ∈ p.named, ∃ n, a.2.1.id = .file n ∧ n < ids

def RunPc.Named (ids : Nat) : RunPc → Prop
  | naming p | publishCommit p => p.Named ids
  | _ => True

def Runner.Named (ids : Nat) : Runner → Prop
  | running run => run.pc.Named ids
  | _ => True

theorem Publication.Named.mono {p : Publication} {ids ids' : Nat} (h : p.Named ids)
    (le : ids ≤ ids') : p.Named ids' := by
  intro a mem
  obtain ⟨n, is, lt⟩ := h a mem
  exact ⟨n, is, Nat.lt_of_lt_of_le lt le⟩

theorem Runner.Named.mono {runner : Runner} {ids ids' : Nat} (h : runner.Named ids)
    (le : ids ≤ ids') : runner.Named ids' := by
  cases runner with
  | running run =>
    change run.pc.Named ids at h
    change run.pc.Named ids'
    generalize run.pc = pc at *
    cases pc with
    | naming | publishCommit => exact Publication.Named.mono h le
    | _ => trivial
  | _ => trivial

theorem RunTurn.issues {env : Env} {s s' : Shared} {run : Run} {r : JobRecord} {next : Option Run}
    (turn : RunTurn env s run r s' next) (named : run.pc.Named s.store.ids) :
    Issues s s' none none ∧ ((next.map Runner.running).getD .top).Named s'.store.ids := by
  have same : Issues s s none none := .of_same (Nat.le_refl _) rfl rfl (.inl rfl)
  have set : ∀ r', Issues s (s.setRecord run.job r') none none := fun r' =>
    .of_records (Nat.le_refl _) rfl fun k slot h => setRecord_records h
  cases turn with
  | skip | enter | leave | abort | fail | late => exact ⟨same, trivial⟩
  | start | markRunning | mark | markLast => exact ⟨set _, trivial⟩
  | work pc works store is ledger =>
    rw [is]
    refine ⟨.of_same (Nat.le_refl _) rfl rfl (.inl rfl), ?_⟩
    generalize at_ : run.pc = pc' at works
    cases works with
    | named p done =>
      rw [at_] at named
      exact named
    | _ => trivial
  | parsed outcome pc =>
    refine ⟨same, ?_⟩
    cases outcome with
    | none => trivial
    | some result =>
      change Runner.Named _ (.running (if _ then _ else _))
      split <;> trivial
  | take result p file pc there rendered made =>
    refine ⟨same, ?_⟩
    rw [made]
    exact List.forall_mem_nil _
  | name p format bytes rest object pc next made =>
    refine ⟨.of_same (Nat.le_succ _) rfl rfl (.inl rfl), fun a mem => ?_⟩
    rw [pc] at named
    rcases List.mem_append.mp mem with old | new
    · obtain ⟨n, is, lt⟩ := named a old
      exact ⟨n, is, Nat.lt_succ_of_lt lt⟩
    · rw [List.mem_singleton.mp new, made]
      exact ⟨_, rfl, Nat.lt_succ_self _⟩
  | publish p charged ledger pc clear splits free =>
    refine ⟨⟨Nat.le_refl _, fun id e h => ?_, fun id slot h => .inl (setRecord_records h), reserves_none⟩,
      trivial⟩
    rw [pc] at named
    rcases Store.insertFiles_get charged _ h with ⟨f, mem, is, rfl⟩ | old
    · have object : f.object ∈ (p.named.map Prod.snd).map Prod.fst :=
        splits.objects ▸ List.mem_map.mpr ⟨f, mem, rfl⟩
      obtain ⟨b, there, eq⟩ := List.mem_map.mp object
      obtain ⟨a, mem, rfl⟩ := List.mem_map.mp there
      obtain ⟨n, file, lt⟩ := named a mem
      rw [eq, is] at file
      subst file
      exact .inr (.inr ⟨n, rfl, lt, trivial⟩)
    · exact .inl ⟨e, old, fun fits => fits⟩
  | count pages pc => exact ⟨.of_same (Nat.le_refl _) rfl rfl (.inl rfl), trivial⟩
  | finalize pc =>
    exact ⟨.of_records (Nat.le_refl _) rfl fun k slot h => setRecord_records h, trivial⟩

theorem RunnerTurn.issues {env : Env} {s s' : Shared} (turn : RunnerTurn env s s')
    (named : s.jobs.runner.Named s.store.ids) :
    Issues s s' none none ∧ s'.jobs.runner.Named s'.store.ids := by
  have same : ∀ {s' : Shared}, s'.store = s.store → s'.jobs.records = s.jobs.records →
      Issues s s' none none := fun store records =>
    .of_same (Nat.le_of_eq (by rw [store])) (by rw [store]) records (.inl rfl)
  cases turn with
  | job run r s₁ next at_ pc found turn =>
    rw [at_] at named
    obtain ⟨issues, named⟩ := turn.issues named
    exact ⟨⟨issues.grows, issues.entries, issues.records, issues.reserved⟩, named⟩
  | arm | pop | empty | leave | wait | permit | register | called | woken | missed | looked =>
    exact ⟨same rfl rfl, trivial⟩

/-! ## Runs -/

/-- What a step does to the identifiers: the sections of one handler, or of none. -/
structure Moves (s s' : Service) (i : Nat) (before after : Option Id) : Prop where
  issues : Issues s.shared s'.shared before after
  was : ∀ id, before = some id → ∃ t, s.tasks.get i = some t ∧ t.reserves = some id
  tasks : ∀ j u, s'.tasks.get j = some u →
    (j = i ∧ u.reserves = after) ∨ (j ≠ i ∧ s.tasks.get j = some u)

/-- An identifier that was given out and that no handler still has for itself. -/
def Issued (s : Service) (id : Id) : Prop :=
  id.number < s.shared.store.ids ∧ ∀ i t, s.tasks.get i = some t → t.reserves ≠ some id

/-- Identifiers are reserved by one handler at most, and records have identifiers given out. -/
structure Numbered (s : Service) : Prop where
  below : ∀ i t id, s.tasks.get i = some t → t.reserves = some id →
    id.number < s.shared.store.ids
  once : ∀ i j t u id, s.tasks.get i = some t → s.tasks.get j = some u →
    t.reserves = some id → u.reserves = some id → i = j
  records : ∀ id slot, s.shared.jobs.records.get id = some slot → Issued s id
  named : s.shared.jobs.runner.Named s.shared.store.ids

section Moves

variable {s s' : Service} {i : Nat} {before after : Option Id}

/-- No step takes an identifier back. -/
theorem Moves.issued (moves : Moves s s' i before after) {id : Id} (h : Issued s id) :
    Issued s' id := by
  refine ⟨Nat.lt_of_lt_of_le h.1 moves.issues.grows, fun j u found reserves => ?_⟩
  rcases moves.tasks j u found with ⟨rfl, is⟩ | ⟨-, old⟩
  · rcases moves.issues.reserved id (is ▸ reserves) with same | ⟨fresh, -, -⟩
    · obtain ⟨t, there, had⟩ := moves.was id same
      exact h.2 _ t there had
    · exact absurd h.1 (Nat.not_lt.mpr fresh)
  · exact h.2 j u old reserves

/-- An identifier that its handler used is given out. -/
theorem Moves.used (moves : Moves s s' i before after) (h : Numbered s) {id : Id}
    (same : before = some id) (none : after = none) : Issued s' id := by
  obtain ⟨t, there, had⟩ := moves.was id same
  refine ⟨Nat.lt_of_lt_of_le (h.below i t id there had) moves.issues.grows,
    fun j u found reserves => ?_⟩
  rcases moves.tasks j u found with ⟨-, is⟩ | ⟨other, old⟩
  · rw [none, reserves] at is
    cases is
  · exact other (h.once j i u t id old there reserves had)

theorem Moves.numbered (moves : Moves s s' i before after) (h : Numbered s)
    (named : s'.shared.jobs.runner.Named s'.shared.store.ids) : Numbered s' where
  below j u id found reserves := by
    rcases moves.tasks j u found with ⟨rfl, is⟩ | ⟨-, old⟩
    · rcases moves.issues.reserved id (is ▸ reserves) with same | ⟨-, below, -⟩
      · obtain ⟨t, there, had⟩ := moves.was id same
        exact Nat.lt_of_lt_of_le (h.below _ t id there had) moves.issues.grows
      · exact below
    · exact Nat.lt_of_lt_of_le (h.below j u id old reserves) moves.issues.grows
  once j k u v id foundU foundV reservesU reservesV := by
    have other : ∀ {j k : Nat} {u v : Task}, (j = i ∧ u.reserves = after) →
        (k ≠ i ∧ s.tasks.get k = some v) → u.reserves = some id → v.reserves = some id →
        j = k := by
      intro j k u v first second reservesU reservesV
      rcases moves.issues.reserved id (first.2 ▸ reservesU) with same | ⟨fresh, -, -⟩
      · obtain ⟨t, there, had⟩ := moves.was id same
        exact absurd (h.once _ _ t v id there second.2 had reservesV).symm second.1
      · exact absurd (h.below k v id second.2 reservesV) (Nat.not_lt.mpr fresh)
    rcases moves.tasks j u foundU with first | first <;>
      rcases moves.tasks k v foundV with second | second
    · exact first.1.trans second.1.symm
    · exact other first second reservesU reservesV
    · exact (other second first reservesV reservesU).symm
    · exact h.once j k u v id first.2 second.2 reservesU reservesV
  records id slot found := by
    rcases moves.issues.records id slot found with ⟨slot', old⟩ | ⟨same, none⟩
    · exact moves.issued (h.records id slot' old)
    · exact moves.used h same none
  named := named

end Moves

/-- The handler that took a section has what the section left it. -/
theorem setTask_moves {s : Service} {shared : Shared} {n i : Nat} {t : Task} {before : Option Id}
    (issues : Issues s.shared shared before t.reserves)
    (was : ∀ id, before = some id → ∃ u, s.tasks.get i = some u ∧ u.reserves = some id) :
    Moves s (({ s with shared, nextTask := n } : Service).setTask i t) i before t.reserves where
  issues := issues
  was := was
  tasks j u found := by
    rcases setTask_get_some found with ⟨rfl, rfl⟩ | ⟨other, old⟩
    · exact .inl ⟨rfl, rfl⟩
    · exact .inr ⟨other, old⟩

theorem same_moves {s : Service} {shared : Shared} (issues : Issues s.shared shared none none) :
    ∃ i before after, Moves s { s with shared } i before after := by
  refine ⟨0, ((s.tasks.get 0).bind Task.reserves), ((s.tasks.get 0).bind Task.reserves),
    ⟨issues.grows, fun id e h => ?_, fun id slot h => ?_, fun id h => .inl h⟩, fun id h => ?_,
    fun j u found => ?_⟩
  · rcases issues.entries id e h with old | ⟨none, -⟩ | new
    · exact .inl old
    · cases none
    · exact .inr (.inr new)
  · rcases issues.records id slot h with old | ⟨none, -⟩
    · exact .inl old
    · cases none
  · exact Option.bind_eq_some_iff.mp h
  · by_cases at_ : j = 0
    · subst at_
      exact .inl ⟨rfl, by rw [found]; rfl⟩
    · exact .inr ⟨at_, found⟩

theorem Issues.refl (s : Shared) (before : Option Id) : Issues s s before before :=
  .of_same (Nat.le_refl _) rfl rfl (.inr rfl)

theorem Turn.moves {env : Env} {s s' : Service} {r : Reply} (turn : Turn env s s' r)
    (named : s.shared.jobs.runner.Named s.shared.store.ids) :
    ∃ i before after, Moves s s' i before after := by
  cases turn with
  | clock seconds => exact same_moves (.of_same (Nat.le_refl _) rfl rfl (.inl rfl))
  | foreign => exact same_moves (.of_same (Nat.le_succ _) rfl rfl (.inl rfl))
  | call request o first =>
    subst first
    exact ⟨_, _, _, setTask_moves (firstSection_issues s.shared request).1 nofun⟩
  | drop i t found =>
    exact ⟨i, t.reserves, t.reserves,
      setTask_moves (t := { t with dropping := [] }) (.refl _ _) fun id h => ⟨t, found, h⟩⟩
  | resume i pc input o found run =>
    exact ⟨i, _, _, setTask_moves (t := ⟨o.dropped, o.next⟩) (handler_issues run)
      fun id h => ⟨_, found, h⟩⟩
  | abandon i w data found =>
    exact ⟨i, none, none, setTask_moves (t := ⟨[], some (.upload (.failing w none))⟩) (.refl _ _)
      nofun⟩
  | run input shared step =>
    exact same_moves ((runnerStep_turn step).issues named).1

end Mineru.Official
