import Mineru.Laws.Official.Uploads

/-!
# The budget of the store

The three counters stay what the live reservations add up to, and every entry and every record has a
unit of metadata. Entries share their metadata reservations: an upload has two units, one of which
is for its file. A record, and a handler that prepares one, has its own reservation for itself, with
a unit for each artifact that its job may still publish.

`Funded` is the invariant. Its balance is a fact about the ledger alone (`Draws.balanced`), and is
kept by every section because a section draws from the ledger in one of the few ways that `Draws`
lists. That a section finds what it counts on is a fact about all the others: `Spares` says what an
operation on one reservation leaves alone, and `Spends` what one turn of a handler does to the rest
of the service.

Reservations live as long as something refers to them, so the last clause of `store_budget` is about
what the service holds, not about when the memory of a dropped value is given back.
-/

set_option autoImplicit false

namespace Mineru.Official

open Logic

variable {env : Env} {now : Nat}

/-! ## Holders of metadata -/

def Entry.cell : Entry → Nat
  | upload u => u.metadata
  | file f => f.metadata.getD 0

/-- The units that an entry has of its reservation. -/
def Entry.parts : Entry → Nat
  | upload u => if u.fileId.isNone then 2 else 1
  | file f => if f.metadata.isSome then 1 else 0

def UploadPc.share (c : Nat) : UploadPc → Nat
  | createInput _ _ _ _ metadata | createCommit _ _ _ _ metadata _ => if metadata = c then 2 else 0
  | _ => 0

def JobPc.sole (c : Nat) : JobPc → Nat
  | prepareBudget _ metadata | prepareSizes _ metadata _ _ _ | prepareFiles _ metadata _ _ _ =>
    if metadata = c then 1 else 0
  | prepareCommit _ record => if record.metadata = c then 1 else 0
  | _ => 0

def Pc.share (c : Nat) : Pc → Nat
  | upload pc => pc.share c
  | job _ => 0

def Pc.sole (c : Nat) : Pc → Nat
  | upload _ => 0
  | job pc => pc.sole c

def Task.share (c : Nat) (t : Task) : Nat := (t.next.map (Pc.share c)).getD 0

def Task.sole (c : Nat) (t : Task) : Nat := (t.next.map (Pc.sole c)).getD 0

/-- The parts of a cell that entries have. -/
def entryShares (entries : Table Id Entry) (c : Nat) : Nat :=
  entries.total fun _ e => if e.cell = c then e.parts else 0

/-- The records whose reservation a cell is. -/
def recordSoles (records : Table Id JobSlot) (c : Nat) : Nat :=
  records.total fun _ slot => if slot.record.metadata = c then 1 else 0

def Service.shares (s : Service) (c : Nat) : Nat :=
  entryShares s.shared.store.entries c + s.tasks.total fun _ t => t.share c

def Service.soles (s : Service) (c : Nat) : Nat :=
  recordSoles s.shared.jobs.records c + s.tasks.total fun _ t => t.sole c

/-! ## What holders count on -/

/-- The ledger has that many units of metadata in the cell. -/
def Units (l : Ledger Pool) (n c : Nat) : Prop := n ≤ l.backing .metadata c

/-- A handler that prepares a job has a unit for the job and one for each artifact. -/
def JobPc.Paid (l : Ledger Pool) : JobPc → Prop
  | prepareBudget req metadata => Units l (1 + req.files.length * req.outputFormats.length) metadata
  | prepareSizes req metadata budget _ _ =>
    Units l (1 + req.files.length * req.outputFormats.length) metadata ∧ l.Apart .metadata budget
  | prepareFiles req metadata budget rest files =>
    Units l (1 + (rest.length + files.length) * req.outputFormats.length) metadata ∧
      l.Apart .metadata budget
  | prepareCommit _ r =>
    Units l (1 + r.files.length * r.response.outputFormats.length) r.metadata ∧
      l.Apart .metadata r.artifactBudget
  | _ => True

structure JobRecord.Paid (l : Ledger Pool) (r : JobRecord) : Prop where
  unit : Units l 1 r.metadata
  budget : l.Apart .metadata r.artifactBudget
  queued : r.response.status = .queued →
    Units l (1 + r.files.length * r.response.outputFormats.length) r.metadata

/-- The run is past the publication of its file. -/
def RunPc.spent : RunPc → Nat
  | .count _ | .publishFailed | .mark _ _ _ | .finalize => 1
  | _ => 0

/-- The files whose artifacts are still to be published. -/
def Run.owed (run : Run) : Nat := run.files.length - (run.index + run.pc.spent)

structure Run.Paid (l : Ledger Pool) (run : Run) (r : JobRecord) : Prop where
  units : Units l (1 + run.owed * r.response.outputFormats.length) r.metadata
  same : ∀ p, run.pc = .naming p ∨ run.pc = .publishCommit p →
    p.metadata = r.metadata ∧ p.budget = r.artifactBudget

/-- No cell of metadata but these loses a unit. -/
structure Spares (l l' : Ledger Pool) (but : Nat → Prop) : Prop where
  units : ∀ c, ¬ but c → l.backing .metadata c ≤ l'.backing .metadata c
  apart : ∀ c, l.Apart .metadata c → l'.Apart .metadata c

section Spares

variable {l l' : Ledger Pool} {but : Nat → Prop}

theorem Spares.refl (l : Ledger Pool) (but : Nat → Prop) : Spares l l but :=
  ⟨fun _ _ => Nat.le_refl _, fun _ => id⟩

/-- Who holds units of a reservation that is spared still has them. -/
theorem Spares.use (h : Spares l l' but) {n c : Nat} (held : ¬ but c) (units : Units l n c) :
    Units l' n c := Nat.le_trans units (h.units c held)

/-- A handler between two sections keeps what it counts on, whatever the others do with reservations
that are not its own. -/
theorem JobPc.Paid.spare {pc : JobPc} (paid : pc.Paid l) (h : Spares l l' but)
    (held : ∀ c, pc.sole c ≠ 0 → ¬ but c) : pc.Paid l' := by
  cases pc with
  | prepareBudget req metadata => exact h.use (held _ (by simp [JobPc.sole])) paid
  | prepareSizes | prepareFiles | prepareCommit =>
    exact ⟨h.use (held _ (by simp [JobPc.sole])) paid.1, h.apart _ paid.2⟩
  | _ => trivial

theorem JobRecord.Paid.spare {r : JobRecord} (paid : r.Paid l) (h : Spares l l' but)
    (held : ¬ but r.metadata) : r.Paid l' :=
  ⟨h.use held paid.unit, h.apart _ paid.budget, fun queued => h.use held (paid.queued queued)⟩

theorem Run.Paid.spare {run : Run} {r : JobRecord} (paid : run.Paid l r) (h : Spares l l' but)
    (held : ¬ but r.metadata) : run.Paid l' r := ⟨h.use held paid.units, paid.same⟩

end Spares

/-- The counters are what they should be, and whoever holds metadata has the units that it counts
on. -/
structure Funded (s : Service) : Prop where
  balanced : s.shared.store.ledger.Balanced Pool.cap
  files : ∀ id f, s.shared.store.entries.get id = some (.file f) → f.metadata.isSome = true
  covered : s.shared.store.ledger.Covered .metadata s.shares s.soles
  tasks : ∀ i t pc, s.tasks.get i = some t → t.next = some (.job pc) →
    pc.Paid s.shared.store.ledger
  records : ∀ id r, s.shared.jobs.record id = some r → r.Paid s.shared.store.ledger
  running : ∀ run r, s.shared.jobs.runner = .running run → run.pc.started = true →
    s.shared.jobs.record run.job = some r → run.Paid s.shared.store.ledger r

theorem funded_start (env : Env) (now : Nat) : Funded (service env now).start where
  balanced := Ledger.empty_balanced
  files id f found := by cases (Table.get_empty (α := Entry) id).symm.trans found
  covered c := ⟨Nat.le_refl _, .inl rfl⟩
  tasks i t pc found := by cases (Table.get_empty (α := Task) i).symm.trans found
  records id r found := by
    obtain ⟨slot, there, -⟩ := record_get.mp found
    cases (Table.get_empty (α := JobSlot) id).symm.trans there
  running run r at_ := by cases at_

/-! ## Who holds what -/

section Holders

variable {s : Service}

/-- A reservation that is held for a single record has one holder at most. -/
theorem Funded.soles_le (h : Funded s) (c : Nat) : s.soles c ≤ 1 := by
  obtain ⟨-, alone⟩ := h.covered c
  omega

theorem sole_of_record {id : Id} {r : JobRecord} (found : s.shared.jobs.record id = some r) :
    1 ≤ recordSoles s.shared.jobs.records r.metadata := by
  obtain ⟨slot, there, rfl⟩ := record_get.mp found
  have le := Table.le_total there fun _ a =>
    if a.record.metadata = slot.record.metadata then 1 else 0
  rwa [if_pos rfl] at le

theorem sole_of_task {i : Nat} {t : Task} {pc : JobPc} (found : s.tasks.get i = some t)
    (next : t.next = some (.job pc)) (c : Nat) :
    pc.sole c ≤ s.tasks.total fun _ t => t.sole c := by
  have le := Table.le_total found fun _ t => t.sole c
  unfold Task.sole at le
  rw [next] at le
  exact le

/-- Two records have two reservations. -/
theorem Funded.apart (h : Funded s) {id id' : Id} {r r' : JobRecord}
    (found : s.shared.jobs.record id = some r) (found' : s.shared.jobs.record id' = some r')
    (other : id ≠ id') : r.metadata ≠ r'.metadata := by
  intro same
  obtain ⟨slot, there, rfl⟩ := record_get.mp found
  obtain ⟨slot', there', rfl⟩ := record_get.mp found'
  have two := Table.add_le_total there there' other fun _ a =>
    if a.record.metadata = slot.record.metadata then 1 else 0
  rw [if_pos rfl, if_pos same.symm] at two
  have one := h.soles_le slot.record.metadata
  unfold Service.soles recordSoles at one
  omega

/-- A handler that prepares a job has another reservation than any record. -/
theorem Funded.apart_task (h : Funded s) {id : Id} {r : JobRecord} {i : Nat} {t : Task}
    {pc : JobPc} (found : s.shared.jobs.record id = some r) (there : s.tasks.get i = some t)
    (next : t.next = some (.job pc)) {c : Nat} (sole : pc.sole c ≠ 0) : c ≠ r.metadata := by
  rintro rfl
  have one := h.soles_le r.metadata
  have := sole_of_record found
  have := sole_of_task there next r.metadata
  unfold Service.soles at one
  omega

/-- A record is the only holder of its reservation. -/
theorem Funded.sole (h : Funded s) {id : Id} {r : JobRecord}
    (found : s.shared.jobs.record id = some r) : s.soles r.metadata = 1 := by
  have one := h.soles_le r.metadata
  have := sole_of_record found
  unfold Service.soles at one ⊢
  omega

end Holders

/-! ## Taking units from the ledger -/

/-- What a section takes from the ledger, with the parts and the holders that the new cell may have
then. -/
inductive Draws (l : Ledger Pool) : Ledger Pool → (Nat → Nat) → (Nat → Nat) → Prop where
  | nothing : Draws l l (fun _ => 0) (fun _ => 0)
  | other (pool : Pool) (n c : Nat) (l' : Ledger Pool)
    (run : l.charge Pool.cap pool n = some (c, l')) (differs : pool ≠ .metadata) :
    Draws l l' (fun _ => 0) (fun _ => 0)
  | metadata (n c parts holders : Nat) (l' : Ledger Pool)
    (run : l.charge Pool.cap .metadata n = some (c, l'))
    (fits : parts ≤ n ∧ holders = 0 ∨ parts = 0 ∧ holders ≤ 1 ∧ 1 ≤ n) :
    Draws l l' (fun e => if e = c then parts else 0) (fun e => if e = c then holders else 0)

section Draws

variable {l l' : Ledger Pool} {parts holders : Nat → Nat}

/-- Each of the ways in which a section draws keeps the counters equal to the sums. -/
theorem Draws.balanced (h : Draws l l' parts holders) (balanced : l.Balanced Pool.cap) :
    l'.Balanced Pool.cap := by
  cases h with
  | nothing => exact balanced
  | other pool n c l' run | metadata n c parts holders l' run =>
    exact Ledger.charge_balanced balanced run

/-- A new reservation leaves all the others as they were. -/
theorem charge_spares {pool : Pool} {n c : Nat} (balanced : l.Balanced Pool.cap)
    (run : l.charge Pool.cap pool n = some (c, l')) : Spares l l' fun _ => False := by
  refine ⟨fun e _ => ?_, fun e apart => apart.charge run⟩
  rw [Ledger.charge_backing run]
  split
  · rename_i same
    have zero : l.backing .metadata e = 0 := by
      rw [same, (Ledger.charge_some run).1]
      unfold Ledger.backing
      rw [balanced.get_next]
    rw [zero]
    exact Nat.zero_le _
  · exact Nat.le_refl _

theorem Draws.spares (h : Draws l l' parts holders) (balanced : l.Balanced Pool.cap) :
    Spares l l' fun _ => False := by
  cases h with
  | nothing => exact .refl _ _
  | other pool n c l' run | metadata n c parts holders l' run => exact charge_spares balanced run

/-- The shares and the sole holders of each reservation still fit in it, when the section adds no
more of them than it has drawn for. -/
theorem Draws.covered (h : Draws l l' parts holders) (balanced : l.Balanced Pool.cap)
    {shares soles shares' soles' : Nat → Nat} (covered : l.Covered .metadata shares soles)
    (fewer : ∀ c, shares' c ≤ shares c + parts c) (less : ∀ c, soles' c ≤ soles c + holders c) :
    l'.Covered .metadata shares' soles' := by
  cases h with
  | nothing => exact covered.mono fewer less
  | other pool n c l' run differs =>
    exact (covered.charge_other balanced.get_next run differs).mono fewer less
  | metadata n c parts holders l' run fits =>
    exact covered.charge balanced.get_next run fits fewer less

end Draws

/-! ## Sections of the upload handlers -/

/-- An entry that is set adds its own parts, and the one in its place gives its parts back. -/
theorem entryShares_set (entries : Table Id Entry) (id : Id) (e : Entry) (c : Nat) :
    entryShares (entries.set id e) c +
        ((entries.get id).map fun e => if e.cell = c then e.parts else 0).getD 0 ≤
      entryShares entries c + if e.cell = c then e.parts else 0 :=
  Table.total_set_le entries id e _

theorem entryShares_remove (entries : Table Id Entry) (id : Id) (c : Nat) :
    entryShares (entries.remove id) c ≤ entryShares entries c :=
  Nat.le_trans (Nat.le_add_right _ _) (Table.total_remove_le entries id _)

theorem entryShares_keep (entries : Table Id Entry) (p : Id → Entry → Bool) (c : Nat) :
    entryShares (entries.keep p) c ≤ entryShares entries c :=
  Table.total_keep_le entries p _

/-- The parts that the next section of a handler has. -/
def nextShare (c : Nat) (next : Option UploadPc) : Nat := (next.map (UploadPc.share c)).getD 0

/-- Every file has a reservation of metadata. -/
def FilesPaid (entries : Table Id Entry) : Prop :=
  ∀ id f, entries.get id = some (.file f) → f.metadata.isSome = true

/-- A section of a handler of uploads hands on no more parts than it had or takes. -/
structure UploadFunds (s : Store) (pc : UploadPc) (o : UploadOutcome) : Prop where
  draws : ∃ parts holders, Draws s.ledger o.state.ledger parts holders ∧
    ∀ c, entryShares o.state.entries c + nextShare c o.next ≤
      entryShares s.entries c + pc.share c + parts c
  files : FilesPaid s.entries → FilesPaid o.state.entries

section Uploads

variable {s s' : Store} {pc : UploadPc} {next : Option UploadPc} {dropped : Cells} {reply : Reply}

theorem UploadFunds.of_same (ledger : s'.ledger = s.ledger)
    (fewer : ∀ c, entryShares s'.entries c + nextShare c next ≤ entryShares s.entries c + pc.share c)
    (files : FilesPaid s.entries → FilesPaid s'.entries) :
    UploadFunds s pc ⟨s', next, dropped, reply⟩ := by
  refine ⟨⟨fun _ => 0, fun _ => 0, ?_, fewer⟩, files⟩
  change Draws s.ledger s'.ledger _ _
  rw [ledger]
  exact .nothing

/-- An entry is replaced by one that has no more parts of the same cell. -/
theorem UploadFunds.of_set {id : Id} {u u' : Upload} (found : s.entries.get id = some (.upload u))
    (cell : u'.metadata = u.metadata) (fileId : u'.fileId = u.fileId)
    (none : ∀ c, nextShare c next = 0) :
    UploadFunds s pc ⟨{ s with entries := s.entries.set id (.upload u') }, next, dropped, reply⟩ := by
  refine .of_same rfl (fun c => ?_) fun files k f there => ?_
  · have le := entryShares_set s.entries id (.upload u') c
    rw [found] at le
    simp only [Option.map_some, Option.getD_some, Entry.cell, Entry.parts, cell, fileId] at le
    rw [none]
    exact Nat.le_trans (Nat.le_of_add_le_add_right le) (Nat.le_add_right _ _)
  · rw [Table.get_set] at there
    split at there
    · cases there
    · exact files k f there

theorem UploadFunds.of_remove (id : Id) :
    UploadFunds s pc ⟨{ s with entries := s.entries.remove id }, none, dropped, reply⟩ := by
  refine .of_same rfl (fun c => ?_) fun files k f there => ?_
  · exact Nat.le_trans (entryShares_remove _ _ _) (Nat.le_add_right _ _)
  · rw [Table.get_remove] at there
    split at there
    · cases there
    · exact files k f there

end Uploads

/-- Every section of the upload and file handlers takes no more from the ledger than the entries it
leaves stand for. -/
theorem UploadTurn.funds {s : Store} {pc : UploadPc} {o : UploadOutcome}
    (turn : UploadTurn env s pc o) : UploadFunds s pc o := by
  cases turn with
  | reject | read | fail | completed => exact .of_same rfl (fun c => Nat.le_add_right _ _) id
  | cleanup req =>
    refine .of_same rfl (fun c => ?_) fun files k f there => ?_
    · exact Nat.le_trans (entryShares_keep _ _ _) (Nat.le_add_right _ _)
    · exact files k f (Table.get_keep_some.mp there).1
  | start | receive | received => exact .of_same rfl (fun c => Nat.le_refl _) id
  | metadata n req now ttl m s' charged =>
    obtain ⟨ledger, run, rfl⟩ := Store.reserve_some charged
    refine ⟨⟨_, _, .metadata 2 m 2 0 ledger run (.inl ⟨Nat.le_refl _, rfl⟩), fun c => ?_⟩, id⟩
    simp only [Outcome.goto, nextShare, Option.map_some, Option.getD_some, UploadPc.share,
      Nat.add_zero, eq_comm (a := m), Nat.le_refl]
  | input n req now ttl metadata c s' charged =>
    obtain ⟨ledger, run, rfl⟩ := Store.reserve_some charged
    exact ⟨⟨_, _, .other .input _ c ledger run (by decide), fun c => Nat.le_refl _⟩, id⟩
  | commit n req now ttl metadata reservation u made =>
    refine .of_same rfl (fun c => ?_) fun files k f there => ?_
    · have le := entryShares_set s.entries (.upload n) (.upload u) c
      rw [made] at le ⊢
      simp only [Entry.cell, Entry.parts, Option.isNone_none, if_true] at le
      change entryShares _ c + 0 ≤ entryShares s.entries c + if metadata = c then 2 else 0
      dsimp only
      omega
    · change (s.entries.set _ _).get k = _ at there
      rw [Table.get_set] at there
      split at there
      · cases there
      · exact files k f there
  | grant k contentLength u reservation next found writable reserved writer =>
    refine .of_set found rfl rfl fun c => ?_
    rcases writer with rfl | ⟨e, rfl⟩ <;> rfl
  | broken k contentLength u found writable missing => exact .of_set found rfl rfl fun c => rfl
  | store w data u u' found declared made =>
    rw [made]
    exact .of_set found rfl rfl fun c => rfl
  | guard w error dropped reply => exact .of_remove w.id
  | complete k digest u bytes object found live first stored made =>
    refine .of_same rfl (fun c => ?_) fun files j f there => ?_
    · -- the upload keeps one of its two units, and its file has the other
      have file := entryShares_set s.entries (.file s.ids)
        (.file { object, bytes, source := true, metadata := some u.metadata }) c
      have upload := entryShares_set (s.entries.set (.file s.ids)
        (.file { object, bytes, source := true, metadata := some u.metadata })) k
        (.upload { u with fileId := some (.file s.ids), bytes := none }) c
      rw [Table.get_set] at upload
      simp only [Entry.cell, Entry.parts, Option.getD_some, Option.isSome_some, if_true,
        Option.isNone_some, Bool.false_eq_true, if_false] at file upload
      change entryShares _ c + 0 ≤ entryShares s.entries c + 0
      by_cases same : k = .file s.ids
      · subst same
        rw [if_pos rfl] at upload
        rw [found] at file
        simp only [Option.map_some, Option.getD_some, first, Option.isNone_none, if_true,
          Option.isSome_some] at file upload
        dsimp only
        by_cases here : u.metadata = c <;> simp only [here, if_true, if_false] at file upload ⊢ <;> omega
      · rw [if_neg same, found] at upload
        simp only [Option.map_some, Option.getD_some, first, Option.isNone_none, if_true] at upload
        dsimp only
        by_cases here : u.metadata = c <;> simp only [here, if_true, if_false] at file upload ⊢ <;> omega
    · change ((s.entries.set _ _).set _ _).get j = _ at there
      rw [Table.get_set, Table.get_set] at there
      split at there
      · cases there
      · split at there
        · cases there
          rfl
        · exact files j f there
  | cancel k | delete k => exact .of_remove k

/-! ## Sections of the other handlers -/

/-- A record has the same debt as before: its reservations, its formats, and its files while it is
queued. -/
structure Carries (r r' : JobRecord) : Prop where
  metadata : r'.metadata = r.metadata
  budget : r'.artifactBudget = r.artifactBudget
  formats : r'.response.outputFormats = r.response.outputFormats
  queued : r'.response.status = .queued → r.response.status = .queued ∧ r'.files = r.files

theorem Carries.refl (r : JobRecord) : Carries r r := ⟨rfl, rfl, rfl, fun queued => ⟨queued, rfl⟩⟩

/-- A change of a record's state, events or times leaves its reservation and its debt alone. -/
theorem Touched.carries {r r' : JobRecord} (h : Touched env now r r') : Carries r r' := by
  cases h with
  | settle queued => exact ⟨rfl, rfl, rfl, fun is => by cases is⟩
  | flag live => exact ⟨rfl, rfl, rfl, fun is => ⟨is, rfl⟩⟩

/-- A record that keeps its debt is still paid for. -/
theorem Carries.paid {l : Ledger Pool} {r r' : JobRecord} (h : Carries r r') (paid : r.Paid l) :
    r'.Paid l where
  unit := h.metadata ▸ paid.unit
  budget := h.budget ▸ paid.budget
  queued is := by
    obtain ⟨queued, files⟩ := h.queued is
    rw [h.metadata, h.formats, files]
    exact paid.queued queued

theorem Carries.runPaid {l : Ledger Pool} {run : Run} {r r' : JobRecord} (h : Carries r r')
    (paid : run.Paid l r) : run.Paid l r' where
  units := by
    rw [h.metadata, h.formats]
    exact paid.units
  same p at_ := by
    rw [h.metadata, h.budget]
    exact paid.same p at_

/-- The next section of a handler that holds a reservation alone. -/
def nextSole (c : Nat) (next : Option JobPc) : Nat := (next.map (JobPc.sole c)).getD 0

/-- Records are replaced in place, so the holders of each reservation stay. -/
theorem recordSoles_setRecord {j : Jobs} {id : Id} {r r' : JobRecord} (found : j.record id = some r)
    (same : r'.metadata = r.metadata) (c : Nat) :
    recordSoles (j.setRecord id r').records c = recordSoles j.records c := by
  obtain ⟨slot, there, rfl⟩ := record_get.mp found
  have swap := Table.total_set there { slot with record := r' }
    fun _ slot => if slot.record.metadata = c then 1 else 0
  unfold Jobs.setRecord
  rw [there]
  dsimp only at swap ⊢
  rw [same] at swap
  exact Nat.add_right_cancel swap

theorem recordSoles_keep (records : Table Id JobSlot) (p : Id → JobSlot → Bool) (c : Nat) :
    recordSoles (records.keep p) c ≤ recordSoles records c := Table.total_keep_le records p _

/-- A section of a handler hands on no more holders than it had or takes. -/
def JobFunds (s : Shared) (pc : JobPc) (o : JobOutcome) : Prop :=
  ∃ parts holders, Draws s.store.ledger o.state.store.ledger parts holders ∧
    ∀ c, recordSoles o.state.jobs.records c + nextSole c o.next ≤
      recordSoles s.jobs.records c + pc.sole c + holders c

theorem JobFunds.of_same {s s' : Shared} {pc : JobPc} {next : Option JobPc} {dropped : Cells}
    {reply : Reply} (ledger : s'.store.ledger = s.store.ledger)
    (less : ∀ c, recordSoles s'.jobs.records c + nextSole c next ≤
      recordSoles s.jobs.records c + pc.sole c) :
    JobFunds s pc ⟨s', next, dropped, reply⟩ := by
  refine ⟨fun _ => 0, fun _ => 0, ?_, less⟩
  change Draws s.store.ledger s'.store.ledger _ _
  rw [ledger]
  exact .nothing

/-- Every section but the cancellation of a queued job only takes from the ledger. -/
theorem JobTurn.funds {s : Shared} {held : Id → Bool} {pc : JobPc} {o : JobOutcome}
    (turn : JobTurn env s held pc o) :
    JobFunds s pc o ∨ ∃ id r, s.jobs.record id = some r ∧ r.response.status = .queued ∧
      o = .answer
        ((({ s with jobs := { s.jobs with cancelCalls := s.jobs.cancelCalls + 1 } } :
          Shared).shrinkReservations r).setRecord id
            (({ r with cancel := true } : JobRecord).cancelQueued env s.store.now)) []
        (.canceled id) := by
  have same : ∀ {s' : Shared} {next : Option JobPc} {dropped : Cells} {reply : Reply},
      s'.store.ledger = s.store.ledger →
      (∀ c, recordSoles s'.jobs.records c + nextSole c next ≤
        recordSoles s.jobs.records c + pc.sole c) → JobFunds s pc ⟨s', next, dropped, reply⟩ :=
    fun ledger less => .of_same ledger less
  cases turn with
  | refuse pc dropped e ended => exact .inl (same rfl fun c => Nat.le_add_right _ _)
  | refuseCharged req metadata budget rest files n c store dropped e charged =>
    obtain ⟨ledger, run, rfl⟩ := Store.reserve_some charged
    exact .inl ⟨_, _, .other .input n c ledger run (by decide), fun c => Nat.le_add_right _ _⟩
  | metadata req c store charged =>
    obtain ⟨ledger, run, rfl⟩ := Store.reserve_some charged
    refine .inl ⟨_, _, .metadata _ c 0 1 ledger run
      (.inr ⟨rfl, Nat.le_refl _, Nat.le_add_right _ _⟩), fun e => ?_⟩
    simp only [Outcome.goto, nextSole, Option.map_some, Option.getD_some, JobPc.sole,
      Nat.add_zero, eq_comm (a := c), Nat.le_refl]
  | budget req metadata c store charged =>
    obtain ⟨ledger, run, rfl⟩ := Store.reserve_some charged
    exact .inl ⟨_, _, .other .artifact _ c ledger run (by decide), fun c => Nat.le_refl _⟩
  | sizes | sized | lease | made | read | handle | stopList | stopSkip | stopWake | awaited
  | parserDown | clearStore =>
    exact .inl (same rfl fun c => Nat.le_refl _)
  | take req metadata budget file rest files prepared n store charged =>
    obtain ⟨ledger, run, rfl⟩ := Store.reserve_some charged
    exact .inl ⟨_, _, .other .input n _ ledger run (by decide), fun c => Nat.le_refl _⟩
  | commit n record running =>
    refine .inl (same rfl fun c => ?_)
    have le := Table.total_set_le s.jobs.records (.job n) ⟨record, true⟩
      fun _ slot => if slot.record.metadata = c then 1 else 0
    rw [notifyOne_records]
    exact Nat.le_trans (Nat.add_le_add_right (Nat.le_of_add_right_le le) 0) (Nat.le_refl _)
  | cancelQueued id r found queued => exact .inr ⟨id, r, found, queued, rfl⟩
  | cancelRunning id r found running =>
    have keep : ({ r with cancel := true } : JobRecord).metadata = r.metadata := rfl
    exact .inl (same rfl fun c => Nat.le_of_eq (recordSoles_setRecord
      (j := { s.jobs with cancelCalls := s.jobs.cancelCalls + 1 }) found keep c))
  | sweep => exact .inl (same rfl fun c => recordSoles_keep s.jobs.records _ c)
  | stopMark id ids shutdown r found live =>
    have keep : ({ r with cancel := true } : JobRecord).metadata = r.metadata := rfl
    exact .inl (same rfl fun c => Nat.le_of_eq (recordSoles_setRecord found keep c))
  | stopped shutdown next reply after | takeRunner handle next after =>
    refine .inl (same rfl fun c => ?_)
    rcases after with rfl | rfl <;> exact Nat.le_refl _
  | clear =>
    refine .inl (same rfl fun c => ?_)
    unfold recordSoles
    rw [Table.total_map]
    exact Nat.le_refl _

theorem prepared_length (file : SubmittedFile) (prepared : PreparedFile)
    (rest : List SubmittedFile) (files : List PreparedFile) :
    rest.length + (files ++ [prepared]).length = (file :: rest).length + files.length := by
  simp only [List.length_append, List.length_cons, List.length_nil]
  omega

/-- What a handler counts on is there for its next section. -/
theorem JobTurn.paid {s : Shared} {held : Id → Bool} {pc next : JobPc} {o : JobOutcome}
    (turn : JobTurn env s held pc o) (balanced : s.store.ledger.Balanced Pool.cap)
    (paid : pc.Paid s.store.ledger) (is : o.next = some next) : next.Paid o.state.store.ledger := by
  cases turn with
  | metadata req c store charged =>
    cases is
    obtain ⟨ledger, run, rfl⟩ := Store.reserve_some charged
    change _ ≤ ledger.backing .metadata c
    rw [Ledger.charge_backing run, if_pos rfl, if_pos rfl]
  | budget req metadata c store charged =>
    cases is
    obtain ⟨ledger, run, rfl⟩ := Store.reserve_some charged
    exact ⟨(charge_spares balanced run).use id paid, .of_charge run (by decide)⟩
  | sizes req metadata budget file rest total total' =>
    cases is
    exact paid
  | sized req metadata budget total =>
    cases is
    exact ⟨paid.1, paid.2⟩
  | lease req metadata budget file rest files prepared id object leased =>
    cases is
    exact ⟨(prepared_length file prepared rest files).symm ▸ paid.1, paid.2⟩
  | take req metadata budget file rest files prepared n store charged =>
    cases is
    obtain ⟨ledger, run, rfl⟩ := Store.reserve_some charged
    have spares := charge_spares balanced run
    exact ⟨spares.use id ((prepared_length file prepared rest files).symm ▸ paid.1),
      spares.apart _ paid.2⟩
  | made req metadata budget files =>
    cases is
    have units := paid.1
    rw [List.length_nil, Nat.zero_add] at units
    exact ⟨units, paid.2⟩
  | stopped shutdown next' reply after =>
    rcases after with rfl | rfl <;> cases is
    trivial
  | takeRunner handle next' after =>
    rcases after with rfl | rfl <;> cases is <;> trivial
  | _ => cases is <;> trivial

/-! ## Turns of the handlers -/

/-- What the handler weighs before its turn. -/
def Service.weight (s : Service) (i : Nat) (w : Task → Nat) : Nat := ((s.tasks.get i).map w).getD 0

/-- A handler that goes on counts with its next section instead of the one before. -/
theorem setTask_total (s : Service) (i : Nat) (t : Task) (w : Task → Nat)
    (gone : w ⟨[], none⟩ = 0) :
    ((s.setTask i t).tasks.total fun _ u => w u) + s.weight i w ≤
      (s.tasks.total fun _ u => w u) + w t := by
  unfold Service.setTask Service.weight
  obtain ⟨dropping, next⟩ := t
  cases next with
  | some pc => exact Table.total_set_le _ _ _ _
  | none =>
    cases dropping with
    | nil =>
      rw [gone]
      exact Table.total_remove_le _ _ _
    | cons c cs => exact Table.total_set_le _ _ _ _

/-- A section of handler `i` that only takes from the ledger. -/
structure Spends (s : Service) (i : Nat) (o : ServiceOutcome) : Prop where
  draws : ∃ parts holders,
    Draws s.shared.store.ledger o.state.store.ledger parts holders ∧
    (∀ c, entryShares o.state.store.entries c + Task.share c ⟨o.dropped, o.next⟩ ≤
      entryShares s.shared.store.entries c + s.weight i (Task.share c) + parts c) ∧
    ∀ c, recordSoles o.state.jobs.records c + Task.sole c ⟨o.dropped, o.next⟩ ≤
      recordSoles s.shared.jobs.records c + s.weight i (Task.sole c) + holders c
  files : FilesPaid s.shared.store.entries → FilesPaid o.state.store.entries
  next : ∀ pc, o.next = some (.job pc) → pc.Paid o.state.store.ledger
  records : ∀ id r', o.state.jobs.record id = some r' →
    (∃ r, s.shared.jobs.record id = some r ∧ Carries r r') ∨
      (¬ Issued s id ∧ r'.Paid s.shared.store.ledger)
  runner : ∀ run, o.state.jobs.runner = .running run → s.shared.jobs.runner = .running run

section Turns

variable {s : Service} {i : Nat}

/-- The invariant after one turn of a handler, from what the turn spends. -/
theorem Spends.funded {o : ServiceOutcome} {n : Nat} (spends : Spends s i o) (h : Funded s)
    (inv : JobsInv s) :
    Funded (({ s with shared := o.state, nextTask := n } : Service).setTask i
      ⟨o.dropped, o.next⟩) := by
  obtain ⟨parts, holders, draws, fewer, less⟩ := spends.draws
  have spares := draws.spares h.balanced
  refine ⟨draws.balanced h.balanced, spends.files h.files,
    draws.covered h.balanced h.covered (fun c => ?_) (fun c => ?_), fun j t pc found next => ?_,
    fun id r' found => ?_, fun run r' at_ started found => ?_⟩
  · have total := setTask_total ({ s with shared := o.state, nextTask := n } : Service) i
      ⟨o.dropped, o.next⟩ (Task.share c) rfl
    have fewer := fewer c
    unfold Service.weight Service.shares at *
    simp only [setTask_shared] at *
    omega
  · have total := setTask_total ({ s with shared := o.state, nextTask := n } : Service) i
      ⟨o.dropped, o.next⟩ (Task.sole c) rfl
    have less := less c
    unfold Service.weight Service.soles at *
    simp only [setTask_shared] at *
    omega
  · rcases setTask_get_some found with ⟨rfl, rfl⟩ | ⟨-, old⟩
    · exact spends.next pc next
    · exact (h.tasks j t pc old next).spare spares fun _ _ => id
  · rcases spends.records id r' found with ⟨r, old, carries⟩ | ⟨-, paid⟩
    · exact carries.paid ((h.records id r old).spare spares False.elim)
    · exact paid.spare spares False.elim
  · have before := spends.runner run at_
    rcases spends.records run.job r' found with ⟨r, old, carries⟩ | ⟨fresh, -⟩
    · exact carries.runPaid ((h.running run r before started old).spare spares False.elim)
    · exact absurd (inv.taken run before started) fresh

/-- A handler goes on, and touches nothing. -/
theorem Spends.of_idle {next : Option Pc} {dropped : Cells} {reply : Reply}
    (fewer : ∀ c, Task.share c ⟨dropped, next⟩ ≤ s.weight i (Task.share c))
    (less : ∀ c, Task.sole c ⟨dropped, next⟩ ≤ s.weight i (Task.sole c))
    (paid : ∀ pc, next = some (.job pc) → pc.Paid s.shared.store.ledger) :
    Spends s i ⟨s.shared, next, dropped, reply⟩ :=
  ⟨⟨_, _, .nothing, fun c => Nat.add_le_add_left (fewer c) _,
    fun c => Nat.add_le_add_left (less c) _⟩, id, paid, fun _ r' found => .inl ⟨r', found, .refl r'⟩,
    fun _ => id⟩

/-- A turn of an upload handler spends what its section draws. -/
theorem Spends.of_upload {pc : UploadPc} {o : UploadOutcome}
    (found : s.tasks.get i = some ⟨[], some (.upload pc)⟩)
    (turn : UploadTurn env s.shared.store pc o) : Spends s i (liftUpload s.shared o) := by
  have funds := turn.funds
  obtain ⟨parts, holders, draws, fewer⟩ := funds.draws
  have share : ∀ c, s.weight i (Task.share c) = pc.share c := by
    intro c
    unfold Service.weight
    rw [found]
    rfl
  refine ⟨⟨parts, holders, draws, fun c => ?_, fun c => ?_⟩, funds.files, fun pc is => ?_,
    fun _ r' found => .inl ⟨r', found, .refl r'⟩, fun _ => id⟩
  · have same : Task.share c ⟨o.dropped, o.next.map .upload⟩ = nextShare c o.next := by
      cases o.next <;> rfl
    change _ + Task.share c ⟨o.dropped, o.next.map .upload⟩ ≤ _
    rw [share, same]
    exact fewer c
  · have none : Task.sole c ⟨o.dropped, o.next.map .upload⟩ = 0 := by
      cases o.next <;> rfl
    change _ + Task.sole c ⟨o.dropped, o.next.map .upload⟩ ≤ _
    rw [none]
    exact Nat.le_trans (Nat.le_add_right _ _) (Nat.le_add_right _ _)
  · obtain ⟨upc, -, same⟩ := Option.map_eq_some_iff.mp is
    cases same

/-- A turn of a job handler, except the cancellation of a queued job, spends what its section
draws. -/
theorem Spends.of_job {held : Id → Bool} {pc : JobPc} {o : JobOutcome}
    (found : s.tasks.get i = some ⟨[], some (.job pc)⟩) (turn : JobTurn env s.shared held pc o)
    (funds : JobFunds s.shared pc o) (h : Funded s) : Spends s i (liftJob o) := by
  obtain ⟨parts, holders, draws, less⟩ := funds
  have sole : ∀ c, s.weight i (Task.sole c) = pc.sole c := by
    intro c
    unfold Service.weight
    rw [found]
    rfl
  refine ⟨⟨parts, holders, draws, fun c => ?_, fun c => ?_⟩, fun files id f there => ?_,
    fun next is => ?_, fun id r' there => ?_, fun run => (turn.frame.1 run).mp⟩
  · have none : Task.share c ⟨o.dropped, o.next.map .job⟩ = 0 := by
      cases o.next <;> rfl
    have fewer := Table.total_mono (fun id e there => turn.entries there)
      fun _ e => if e.cell = c then e.parts else 0
    change entryShares _ _ + Task.share c ⟨o.dropped, o.next.map .job⟩ ≤ _
    rw [none]
    exact Nat.le_trans fewer (Nat.le_trans (Nat.le_add_right _ _) (Nat.le_add_right _ _))
  · have same : Task.sole c ⟨o.dropped, o.next.map .job⟩ = nextSole c o.next := by
      cases o.next <;> rfl
    change _ + Task.sole c ⟨o.dropped, o.next.map .job⟩ ≤ _
    rw [sole, same]
    exact less c
  · exact files id f (turn.entries there)
  · obtain ⟨jpc, there, same⟩ := Option.map_eq_some_iff.mp is
    cases same
    exact turn.paid h.balanced (h.tasks i _ _ found rfl) there
  · rcases turn.record there with old | ⟨n, rfl, rfl⟩ | ⟨r, old, touched, -⟩
    · exact .inl ⟨r', old, .refl r'⟩
    · obtain ⟨units, budget⟩ := h.tasks i _ _ found rfl
      exact .inr ⟨not_issued found, Nat.le_trans (Nat.le_add_right _ _) units, budget,
        fun _ => units⟩
    · exact .inl ⟨r, old, touched.carries⟩

end Turns

/-- The first section of a request takes nothing, and its handler holds nothing yet. -/
structure Unheld (s : Shared) (o : ServiceOutcome) : Prop where
  ledger : o.state.store.ledger = s.store.ledger
  next : ∀ pc, o.next = some pc → (∀ c, pc.share c = 0 ∧ pc.sole c = 0) ∧
    ∀ l jpc, pc = .job jpc → jpc.Paid l

theorem Unheld.of_same {s s' : Shared} {next : Option Pc} {dropped : Cells} {reply : Reply}
    (ledger : s'.store.ledger = s.store.ledger)
    (empty : ∀ pc, next = some pc → (∀ c, pc.share c = 0 ∧ pc.sole c = 0) ∧
      ∀ l jpc, pc = .job jpc → jpc.Paid l) : Unheld s ⟨s', next, dropped, reply⟩ := ⟨ledger, empty⟩

/-- The first section of a request draws nothing yet: it checks and looks up. -/
theorem firstSection_unheld (s : Shared) (request : Request) : Unheld s (firstSection s request) := by
  have none : ∀ {s' : Shared} {dropped : Cells} {reply : Reply},
      s'.store.ledger = s.store.ledger → Unheld s ⟨s', none, dropped, reply⟩ :=
    fun ledger => .of_same ledger fun pc is => by cases is
  have upload : ∀ {s' : Shared} {upc : UploadPc} {dropped : Cells} {reply : Reply},
      s'.store.ledger = s.store.ledger → (∀ c, upc.share c = 0) →
      Unheld s ⟨s', some (.upload upc), dropped, reply⟩ := by
    refine fun ledger free => .of_same ledger fun pc is => ?_
    cases is
    exact ⟨fun c => ⟨free c, rfl⟩, fun l jpc same => by cases same⟩
  have job : ∀ {s' : Shared} {jpc : JobPc} {dropped : Cells} {reply : Reply},
      s'.store.ledger = s.store.ledger → (∀ c, jpc.sole c = 0) → (∀ l, jpc.Paid l) →
      Unheld s ⟨s', some (.job jpc), dropped, reply⟩ := by
    refine fun ledger free paid => .of_same ledger fun pc is => ?_
    cases is
    refine ⟨fun c => ⟨rfl, free c⟩, fun l jpc same => ?_⟩
    cases same
    exact paid l
  cases request with
  | createUpload req =>
    simp only [firstSection, createAccepting]
    split
    · exact upload rfl fun c => rfl
    · exact none rfl
  | prepareJob req slot =>
    simp only [firstSection, prepareStart]
    split
    · exact none rfl
    · split
      · exact none rfl
      · split
        · exact job rfl (fun c => rfl) fun l => trivial
        · exact none rfl
  | getJob | cancelJob =>
    simp only [firstSection, lookupJob]
    split
    · exact job rfl (fun c => rfl) fun l => trivial
    · exact none rfl
  | start =>
    simp only [firstSection, startRunner]
    split
    · exact job rfl (fun c => rfl) fun l => trivial
    · exact none rfl
  | stopAdmissions | shutdown | sweep => exact job rfl (fun c => rfl) fun l => trivial
  | stopStore => exact none rfl
  | getUpload | putUpload | completeUpload | cancelUpload | getFile | deleteFile | fileContent =>
    exact upload rfl fun c => rfl

theorem Spends.of_first (s : Service) (request : Request) :
    Spends s s.nextTask (firstSection s.shared request) := by
  obtain ⟨ledger, empty⟩ := firstSection_unheld s.shared request
  obtain ⟨entries, -⟩ := firstSection_entries s.shared request
  obtain ⟨runner, -, records, -⟩ := firstSection_opened s.shared request
  generalize firstSection s.shared request = o at *
  have share : ∀ c, Task.share c ⟨o.dropped, o.next⟩ = 0 := by
    intro c
    unfold Task.share
    cases is : o.next with
    | none => rfl
    | some pc => exact ((empty pc is).1 c).1
  have sole : ∀ c, Task.sole c ⟨o.dropped, o.next⟩ = 0 := by
    intro c
    unfold Task.sole
    cases is : o.next with
    | none => rfl
    | some pc => exact ((empty pc is).1 c).2
  refine ⟨⟨fun _ => 0, fun _ => 0, ledger ▸ .nothing, fun c => ?_, fun c => ?_⟩,
    fun files id f there => ?_, fun pc is => (empty _ is).2 _ pc rfl, fun id r' there => ?_,
    fun run => (runner run).mp⟩
  · have fewer := Table.total_mono entries fun _ e => if e.cell = c then e.parts else 0
    rw [share]
    exact Nat.le_trans fewer (Nat.le_add_right _ _)
  · rw [sole, records]
    exact Nat.le_add_right _ _
  · exact files id f (entries id _ there)
  · unfold Jobs.record at there
    rw [records] at there
    exact .inl ⟨r', there, .refl r'⟩

/-! ## A job spends its reservations -/

theorem Pool.cap_lt (pool : Pool) : pool.cap < word := by
  cases pool <;> decide

theorem Units.of_cell {l : Ledger Pool} {n c : Nat} (units : Units l n c) {cell : Cell Pool}
    (found : l.cells.get c = some cell) : n ≤ cell.size := by
  unfold Units Ledger.backing at units
  rw [found] at units
  dsimp only at units
  split at units <;> omega

section Spend

variable {s s' : Service} {id : Id} {r : JobRecord}

/-- A job that ends gives back all but one unit of its metadata. -/
theorem Funded.shrink (h : Funded s) (found : s.shared.jobs.record id = some r) {l : Ledger Pool}
    (is : l = (s.shared.store.ledger.shrinkTo r.artifactBudget 0).shrinkTo r.metadata 1) :
    l.Balanced Pool.cap ∧ l.Covered .metadata s.shares s.soles ∧ Units l 1 r.metadata ∧
      Spares s.shared.store.ledger l fun c => c = r.metadata := by
  subst is
  have paid := h.records id r found
  have same := paid.budget.shrinkTo_backing (n := 0)
  have unit : Units (s.shared.store.ledger.shrinkTo r.artifactBudget 0) 1 r.metadata := by
    unfold Units
    rw [same]
    exact paid.unit
  have there := Ledger.shrinkTo_backing (n := 1) (Nat.ne_of_gt unit)
  have balanced := Ledger.shrinkTo_balanced (c := r.artifactBudget) (n := 0) h.balanced Pool.cap_lt
    fun cell _ => Nat.zero_le cell.size
  refine ⟨Ledger.shrinkTo_balanced balanced Pool.cap_lt fun cell => unit.of_cell,
    (h.covered.shrinkTo_other paid.budget).shrinkTo (h.sole found) (Nat.le_refl 1), ?_,
    fun c other => ?_, fun c apart => apart.shrinkTo.shrinkTo⟩
  · unfold Units
    rw [there, if_pos rfl]
  · rw [there, if_neg other, same]

/-- The job's own record has ended or runs, and everything else is spared. -/
theorem Funded.spend (h : Funded s) (found : s.shared.jobs.record id = some r)
    (balanced : s'.shared.store.ledger.Balanced Pool.cap)
    (covered : s'.shared.store.ledger.Covered .metadata s'.shares s'.soles)
    (unit : Units s'.shared.store.ledger 1 r.metadata)
    (spares : Spares s.shared.store.ledger s'.shared.store.ledger fun c => c = r.metadata)
    (files : FilesPaid s'.shared.store.entries)
    (tasks : ∀ i t pc, s'.tasks.get i = some t → t.next = some (.job pc) →
      s.tasks.get i = some t)
    (records : ∀ k r', s'.shared.jobs.record k = some r' →
      (k = id ∧ Carries r r' ∧ r'.response.status ≠ .queued) ∨
        (k ≠ id ∧ s.shared.jobs.record k = some r'))
    (running : ∀ run r', s'.shared.jobs.runner = .running run → run.pc.started = true →
      s'.shared.jobs.record run.job = some r' → run.Paid s'.shared.store.ledger r') :
    Funded s' := by
  refine ⟨balanced, files, covered, fun i t pc there next => ?_, fun k r' there => ?_, running⟩
  · have old := tasks i t pc there next
    exact (h.tasks i t pc old next).spare spares fun c sole => h.apart_task found old next sole
  · rcases records k r' there with ⟨-, carries, ended⟩ | ⟨other, old⟩
    · refine ⟨carries.metadata ▸ unit, ?_, fun queued => absurd queued ended⟩
      rw [carries.budget]
      exact spares.apart _ (h.records id r found).budget
    · exact (h.records k r' old).spare spares (h.apart old found other)

/-- A queued job is canceled. -/
theorem Funded.cancel (h : Funded s) (inv : JobsInv s) {i : Nat}
    (found : s.shared.jobs.record id = some r) (queued : r.response.status = .queued) {jobs : Jobs}
    {r' : JobRecord} (carries : Carries r r') (ended : r'.response.status ≠ .queued)
    (soles : ∀ c, recordSoles jobs.records c = recordSoles s.shared.jobs.records c)
    (records : ∀ k, jobs.record k = if k = id then some r' else s.shared.jobs.record k)
    (runner : jobs.runner = s.shared.jobs.runner) {shared : Shared}
    (is : shared = { store := (s.shared.store.shrinkTo r.artifactBudget 0).shrinkTo r.metadata 1
                     jobs }) :
    Funded (({ s with shared } : Service).setTask i ⟨[], none⟩) := by
  subst is
  obtain ⟨balanced, covered, unit, spares⟩ := h.shrink found rfl
  refine h.spend found balanced (covered.mono (fun c => ?_) fun c => ?_) unit spares h.files
    (fun j t pc there next => ?_) (fun k r'' there => ?_) fun run r'' at_ started there => ?_
  · have total := setTask_total s i ⟨[], none⟩ (Task.share c) rfl
    exact Nat.add_le_add_left (Nat.le_trans (Nat.le_add_right _ _) total) _
  · have total := setTask_total s i ⟨[], none⟩ (Task.sole c) rfl
    exact Nat.add_le_add (Nat.le_of_eq (soles c)) (Nat.le_trans (Nat.le_add_right _ _) total)
  · rcases setTask_get_some there with ⟨rfl, rfl⟩ | ⟨-, old⟩
    · cases next
    · exact old
  · have after := (records k).symm.trans there
    split at after
    · rename_i same
      cases after
      exact .inl ⟨same, carries, ended⟩
    · rename_i other
      exact .inr ⟨other, after⟩
  · -- the runner is not past the start of a queued job
    have before : s.shared.jobs.runner = .running run := runner.symm.trans at_
    have after := (records run.job).symm.trans there
    split at after
    · rename_i same
      have idle : Idle s.shared.jobs.runner id := by
        cases (inv.orderly.records id r found).2 with
        | fresh fresh idle | settled settled idle => exact idle
        | running run' at' job started progress =>
          have status := progress.status
          rw [queued] at status
          cases status
      rw [idle run before same] at started
      cases started
    · rename_i other
      exact (h.running run r'' before started after).spare spares (h.apart after found other)

end Spend

/-! ## The publication of a file -/

namespace Store

variable {metadata reservation : Nat}

/-- A batch that fails gave away at most one unit of metadata for each of its files. -/
theorem chargeBatch_parted (files : List (FileObject × List UInt8)) :
    ∀ s : Store, After (chargeBatch metadata reservation files) s (fun _ _ => True)
      (fun _ s' => ∃ ms, ms.length ≤ files.length ∧
        Ledger.Parted reservation metadata s.ledger ms s'.ledger) := by
  induction files with
  | nil => exact fun s => trivial
  | cons file files ih =>
    obtain ⟨object, data⟩ := file
    intro s
    refine After.bind ((split_after _ _ _).errors fun _ s' failed => ?_) ?_
    · exact ⟨[], Nat.zero_le _, failed.1 ▸ .stop _⟩
    rintro b s₁ ⟨l₁, bytes, rfl⟩
    refine After.bind ((split_after _ _ _).errors fun _ s' failed => ?_) ?_
    · exact ⟨[], Nat.zero_le _, failed.1 ▸ .other bytes (.stop _)⟩
    rintro m s₂ ⟨l₂, own, rfl⟩
    refine After.bind ((ih _).errors fun _ s' failed => ?_) fun _ _ _ => After.pure trivial
    obtain ⟨ms, few, parted⟩ := failed
    exact ⟨m :: ms, Nat.succ_le_succ few, .other bytes (.unit own parted)⟩

/-- The batch splits its metadata off the job's reservation, one unit for each file, and stops at
the first one that fails. -/
theorem publish_parted (files : List (FileObject × List UInt8)) (s : Store) :
    After (publishArtifactBatch files metadata reservation) s (fun _ _ => True)
      (fun _ s' => ∃ ms, ms.length ≤ files.length ∧
        Ledger.Parted reservation metadata s.ledger ms s'.ledger) := by
  have stop : ∃ ms, ms.length ≤ files.length ∧
      Ledger.Parted reservation metadata s.ledger ms s.ledger := ⟨[], Nat.zero_le _, .stop _⟩
  unfold publishArtifactBatch
  cases batchTotal files with
  | none => exact After.throw stop
  | some total =>
    refine After.get ?_
    dsimp only
    split
    · exact After.throw stop
    · split
      · exact After.throw stop
      · split
        · exact After.throw stop
        · exact After.bind (chargeBatch_parted files _) fun _ _ _ => After.modify trivial

/-- The units that the files of a batch have got are those that the job's reservation has lost. -/
theorem Splits.parted {l l' : Ledger Pool} {files : List (FileObject × List UInt8)}
    {charged : List File} (h : Splits metadata reservation l files charged l') :
    Ledger.Parted reservation metadata l (charged.map fun f => f.metadata.getD 0) l' := by
  induction h with
  | nil l => exact .stop l
  | cons bytes own tail ih => exact .other bytes (.unit own ih)

theorem Splits.paid {l l' : Ledger Pool} {files : List (FileObject × List UInt8)}
    {charged : List File} (h : Splits metadata reservation l files charged l') :
    ∀ f ∈ charged, f.metadata.isSome = true := by
  induction h with
  | nil => exact nofun
  | cons _ _ _ ih =>
    intro f mem
    rcases List.mem_cons.mp mem with rfl | mem
    · rfl
    · exact ih f mem

end Store

/-- Each file of a batch has one part. -/
theorem entryShares_insertFiles (files : List File) (c : Nat) :
    ∀ entries : Table Id Entry, entryShares (Store.insertFiles entries files) c ≤
      entryShares entries c + (files.map fun f => f.metadata.getD 0).count c := by
  induction files with
  | nil => exact fun entries => Nat.le_refl _
  | cons f files ih =>
    intro entries
    have rest := ih (entries.set f.object.id (.file f))
    have first := Nat.le_of_add_right_le (entryShares_set entries f.object.id (.file f) c)
    have one : (if (Entry.file f).cell = c then (Entry.file f).parts else 0) ≤
        if f.metadata.getD 0 = c then 1 else 0 := by
      unfold Entry.cell Entry.parts
      dsimp only
      split
      · split <;> omega
      · exact Nat.le_refl _
    rw [List.map_cons, List.count_cons, beq_eq_decide]
    simp only [decide_eq_true_eq]
    exact Nat.le_trans rest (by omega)

theorem filesPaid_insertFiles {entries : Table Id Entry} {files : List File}
    (paid : ∀ f ∈ files, f.metadata.isSome = true) (before : FilesPaid entries) :
    FilesPaid (Store.insertFiles entries files) := by
  intro id f found
  rcases Store.insertFiles_get files entries found with ⟨g, mem, -, same⟩ | old
  · cases same
    exact paid f mem
  · exact before id f old

/-- A publication fails after it gave away at most one unit of metadata for each artifact, or puts
the whole batch into the store. -/
theorem publishCommit_cases (s : Shared) (run : Run) (r : JobRecord) (p : Publication) :
    (∃ ledger ms, ms.length ≤ p.named.length ∧
      Ledger.Parted p.budget p.metadata s.store.ledger ms ledger ∧
      publishCommit s run r p =
        ({ s with store := { s.store with ledger } }, { run with pc := .publishFailed })) ∨
    ∃ charged ledger, Store.Splits p.metadata p.budget s.store.ledger (p.named.map Prod.snd) charged
        ledger ∧
      publishCommit s run r p =
        (({ s with store := { s.store with
          entries := Store.insertFiles s.store.entries charged, ledger } } : Shared).setRecord
            run.job (r.published run.index p),
          { run with aggregate := run.aggregate + p.total, pc := .count p.pages }) := by
  unfold publishCommit
  split
  · exact .inl ⟨s.store.ledger, [], Nat.zero_le _, .stop _, rfl⟩
  · have after : After (Store.publishArtifactBatch (p.named.map Prod.snd) p.metadata p.budget)
        s.store _ _ := Store.publish_after _ _
    have parts : After (Store.publishArtifactBatch (p.named.map Prod.snd) p.metadata p.budget)
        s.store _ _ := Store.publish_parted _ _
    unfold After at after parts
    split
    · rename_i store failed
      rw [failed] at after parts
      obtain ⟨ledger, rfl⟩ := after
      obtain ⟨ms, few, parted⟩ := parts
      rw [List.length_map] at few
      exact .inl ⟨ledger, ms, few, parted, rfl⟩
    · rename_i store done
      rw [done] at after
      obtain ⟨charged, ledger, splits, -, rfl⟩ := after
      exact .inr ⟨charged, ledger, splits, rfl⟩

/-! ## Sections of the run -/

section RunTurns

variable {s s' : Shared} {run run' : Run} {r : JobRecord} {next : Option Run}

/-- The record of the run's job keeps its debt. -/
theorem RunTurn.carries (turn : RunTurn env s run r s' next)
    (found : s.jobs.record run.job = some r) {id : Id} {r' : JobRecord}
    (there : s'.jobs.record id = some r') :
    (id = run.job ∧ Carries r r') ∨ (id ≠ run.job ∧ s.jobs.record id = some r') := by
  have set : ∀ {r₁ : JobRecord}, (s.jobs.setRecord run.job r₁).record id = some r' →
      Carries r r₁ → (id = run.job ∧ Carries r r') ∨ (id ≠ run.job ∧ s.jobs.record id = some r') := by
    intro r₁ there carries
    rw [record_setRecord found] at there
    split at there
    · rename_i same
      cases there
      exact .inl ⟨same, carries⟩
    · rename_i other
      exact .inr ⟨other, there⟩
  have keep : s.jobs.record id = some r' →
      (id = run.job ∧ Carries r r') ∨ (id ≠ run.job ∧ s.jobs.record id = some r') := by
    intro there
    by_cases same : id = run.job
    · subst same
      cases found.symm.trans there
      exact .inl ⟨rfl, .refl r⟩
    · exact .inr ⟨same, there⟩
  cases turn with
  | start pc queued => exact set there ⟨rfl, rfl, rfl, fun is => by cases is⟩
  | markRunning | publish | mark | markLast => exact set there ⟨rfl, rfl, rfl, fun is => ⟨is, rfl⟩⟩
  | finalize pc =>
    refine set there ⟨rfl, rfl, rfl, fun is => ?_⟩
    have terminal := finalStatus_terminal (s.jobs.flagged r) run.successes run.failures
    change finalStatus _ _ _ = _ at is
    rw [is] at terminal
    cases terminal
  | _ => exact keep there

/-- A turn of the run replaces its record, and every reservation keeps its holders. -/
theorem RunTurn.soles (turn : RunTurn env s run r s' next)
    (found : s.jobs.record run.job = some r) (c : Nat) :
    recordSoles s'.jobs.records c = recordSoles s.jobs.records c := by
  have set : ∀ {r₁ : JobRecord}, r₁.metadata = r.metadata →
      recordSoles (s.jobs.setRecord run.job r₁).records c = recordSoles s.jobs.records c :=
    fun same => recordSoles_setRecord found same c
  cases turn with
  | start | markRunning | publish | mark | markLast | finalize => exact set rfl
  | _ => rfl

/-- Only a publication and the end of the job touch the store's ledger or its entries. -/
theorem RunTurn.store (turn : RunTurn env s run r s' next) :
    (s'.store.ledger = s.store.ledger ∧ s'.store.entries = s.store.entries) ∨
      (∃ p, run.pc = .publishCommit p) ∨ run.pc = .finalize := by
  cases turn with
  | work pc works store same ledger =>
    rcases ledger with rfl | publishes
    · exact .inl ⟨rfl, rfl⟩
    · exact .inr (.inl publishes)
  | publish p charged ledger pc clear splits free => exact .inr (.inl ⟨p, pc⟩)
  | finalize pc => exact .inr (.inr pc)
  | _ => exact .inl ⟨rfl, rfl⟩

/-- A run that goes on owes no more artifacts than before. -/
theorem Run.Paid.onward {l : Ledger Pool} (paid : run.Paid l r) (files : run'.files = run.files)
    (further : run.index + run.pc.spent ≤ run'.index + run'.pc.spent)
    (same : ∀ p, run'.pc = .naming p ∨ run'.pc = .publishCommit p →
      p.metadata = r.metadata ∧ p.budget = r.artifactBudget) : run'.Paid l r := by
  refine ⟨Nat.le_trans ?_ paid.units, same⟩
  refine Nat.add_le_add_left (Nat.mul_le_mul_right _ ?_) _
  unfold Run.owed
  rw [files]
  omega

/-- A run that works on counts on the same units. -/
theorem Works.paid {l : Ledger Pool} {pc : RunPc} (works : Works run.pc pc) (paid : run.Paid l r) :
    ({ run with pc } : Run).Paid l r := by
  have same := paid.same
  generalize is : run.pc = before at works same
  cases works with
  | named p done =>
    refine paid.onward rfl ?_ fun q at_ => ?_
    · rw [is]
      exact Nat.le_refl _
    · rcases at_ with at_ | at_
      · cases at_
      · cases at_
        exact same p (.inl rfl)
  | _ =>
    refine paid.onward rfl ?_ fun q at_ => ?_
    · rw [is]
      exact Nat.add_le_add_left (Nat.zero_le _) _
    · rcases at_ with at_ | at_ <;> cases at_

/-- A run past its start goes on, with what it counts on. -/
theorem RunTurn.runPaid {l : Ledger Pool} (turn : RunTurn env s run r s' (some run'))
    (started : run.pc.started = true) (paid : run.Paid l r) : run'.Paid l r := by
  have plain : ∀ {run' : Run}, run'.files = run.files →
      run.index + run.pc.spent ≤ run'.index + run'.pc.spent →
      (∀ p, run'.pc ≠ .naming p ∧ run'.pc ≠ .publishCommit p) → run'.Paid l r :=
    fun files further none => paid.onward files further fun p at_ =>
      absurd at_ (not_or.mpr (none p))
  have spends : ∀ pc : RunPc, pc.spent ≤ 1 := fun pc => by
    cases pc <;> simp [RunPc.spent]
  cases turn with
  | start pc queued =>
    rw [pc] at started
    cases started
  | enter pc | markRunning pc | mark status message pc =>
    exact plain rfl (by rw [pc]; exact Nat.le_refl _) fun p => ⟨nofun, nofun⟩
  | leave pc out => exact plain rfl (by rw [pc]; exact Nat.le_succ _) fun p => ⟨nofun, nofun⟩
  | work pc works store same ledger => exact works.paid paid
  | abort | fail | late | publish p | count | markLast =>
    exact plain rfl (Nat.add_le_add_left (spends _) _) fun p => ⟨nofun, nofun⟩
  | parsed outcome pc =>
    have kept : (run.onParsed outcome).files = run.files ∧ (run.onParsed outcome).index = run.index ∧
        ∀ p, (run.onParsed outcome).pc ≠ .naming p ∧ (run.onParsed outcome).pc ≠ .publishCommit p := by
      cases outcome with
      | none => exact ⟨rfl, rfl, fun p => ⟨nofun, nofun⟩⟩
      | some result =>
        unfold Run.onParsed
        dsimp only
        split
        · exact ⟨rfl, rfl, fun p => ⟨nofun, nofun⟩⟩
        · exact ⟨rfl, rfl, fun p => ⟨nofun, nofun⟩⟩
    refine plain kept.1 ?_ kept.2.2
    rw [kept.2.1, pc]
    exact Nat.add_le_add_left (Nat.zero_le _) _
  | take result p file pc there rendered made =>
    refine paid.onward rfl (by rw [pc]; exact Nat.le_refl _) fun q at_ => ?_
    rcases at_ with at_ | at_ <;> cases at_
    rw [made]
    exact ⟨rfl, rfl⟩
  | name p format bytes rest object pc next made =>
    refine paid.onward rfl (by rw [pc]; exact Nat.le_refl _) fun q at_ => ?_
    rcases at_ with at_ | at_ <;> cases at_
    exact paid.same p (.inl pc)

end RunTurns

/-! ## Turns of the runner -/

section Runner

variable {s s' : Service} {run : Run} {r : JobRecord}

/-- A turn that leaves the ledger and the entries alone. -/
theorem Funded.quiet (h : Funded s) (ledger : s'.shared.store.ledger = s.shared.store.ledger)
    (entries : s'.shared.store.entries = s.shared.store.entries) (tasks : s'.tasks = s.tasks)
    (soles : ∀ c, recordSoles s'.shared.jobs.records c ≤ recordSoles s.shared.jobs.records c)
    (records : ∀ id r', s'.shared.jobs.record id = some r' →
      ∃ r, s.shared.jobs.record id = some r ∧ Carries r r')
    (running : ∀ run r', s'.shared.jobs.runner = .running run → run.pc.started = true →
      s'.shared.jobs.record run.job = some r' → run.Paid s.shared.store.ledger r') : Funded s' := by
  refine ⟨ledger ▸ h.balanced, entries ▸ h.files, ?_, fun i t pc there next => ?_,
    fun id r' there => ?_, ledger ▸ running⟩
  · rw [ledger]
    refine h.covered.mono (fun c => ?_) fun c => ?_
    · unfold Service.shares
      rw [entries, tasks]
    · unfold Service.soles
      rw [tasks]
      exact Nat.add_le_add_right (soles c) _
  · rw [tasks] at there
    exact ledger ▸ h.tasks i t pc there next
  · obtain ⟨r, old, carries⟩ := records id r' there
    exact ledger ▸ carries.paid (h.records id r old)

/-- The run is past its start, and its record is in progress. -/
theorem JobsInv.progress (inv : JobsInv s) (at_ : s.shared.jobs.runner = .running run)
    (found : s.shared.jobs.record run.job = some r) (started : run.pc.started = true) :
    Progress s.shared.jobs.stopping r run := by
  cases (inv.orderly.records run.job r found).2 with
  | fresh fresh idle | settled settled idle => cases (idle run at_ rfl).symm.trans started
  | running run' at' job started' progress =>
    cases at_.symm.trans at'
    exact progress

/-- What a publication gives away is what the job still owes for the file. -/
theorem Funded.publish (h : Funded s) (inv : JobsInv s)
    (at_ : s.shared.jobs.runner = .running run) {p : Publication} (pc : run.pc = .publishCommit p)
    (found : s.shared.jobs.record run.job = some r) {ms : List Nat}
    (parted : Ledger.Parted p.budget p.metadata s.shared.store.ledger ms
      s'.shared.store.ledger)
    (few : ms.length ≤ p.named.length) (shares : ∀ c, s'.shares c ≤ s.shares c + ms.count c)
    (soles : ∀ c, s'.soles c = s.soles c) (files : FilesPaid s'.shared.store.entries)
    (tasks : s'.tasks = s.tasks)
    (records : ∀ k r', s'.shared.jobs.record k = some r' →
      (k = run.job ∧ Carries r r') ∨ (k ≠ run.job ∧ s.shared.jobs.record k = some r'))
    {run' : Run} (runner : s'.shared.jobs.runner = .running run') (job : run'.job = run.job)
    (same : run'.files = run.files) (further : run.index + 1 ≤ run'.index + run'.pc.spent)
    (past : ∀ q, run'.pc ≠ .naming q ∧ run'.pc ≠ .publishCommit q) : Funded s' := by
  have started : run.pc.started = true := by
    rw [pc]
    rfl
  have paid := h.running run r at_ started found
  have progress := inv.progress at_ found started
  obtain ⟨metadata, budget⟩ := paid.same p (.inr pc)
  rw [metadata, budget] at parted
  -- the file is there, and its artifacts are in the requested formats
  obtain ⟨before, ahead, all, index, -, -, -, rest⟩ := progress.split
  have formats : p.named.length = r.response.outputFormats.length ∧ run.index < run.files.length := by
    rw [pc] at rest
    cases ahead with
    | nil =>
      rcases rest with is | is <;> cases is
    | cons f after =>
      refine ⟨?_, ?_⟩
      · rw [← rest.1.2, List.length_map]
      · rw [progress.length, all, List.length_append, List.length_cons, index]
        omega
  have units : ms.length + (1 + run'.owed * r.response.outputFormats.length) ≤
      s.shared.store.ledger.backing .metadata r.metadata := by
    refine Nat.le_trans ?_ paid.units
    have less : run'.owed + 1 ≤ run.owed := by
      unfold Run.owed
      rw [same, pc]
      change _ ≤ run.files.length - (run.index + 0)
      omega
    have whole := Nat.mul_le_mul_right r.response.outputFormats.length less
    rw [Nat.add_mul, Nat.one_mul] at whole
    omega
  obtain ⟨balanced, covered, left, others, apart⟩ := parted.keeps h.balanced
    (h.records run.job r found).budget h.covered (h.sole found) units (Nat.le_add_right _ _)
  refine h.spend found balanced (covered.mono shares fun c => Nat.le_of_eq (soles c))
    (Nat.le_trans (Nat.le_add_right _ _) left) ⟨others, apart⟩ files
    (fun i t pc there _ => tasks ▸ there) (fun k r' there => ?_) fun run'' r' is _ there => ?_
  · rcases records k r' there with ⟨is, carries⟩ | old
    · refine .inl ⟨is, carries, fun queued => ?_⟩
      have status := progress.status
      rw [(carries.queued queued).1] at status
      cases status
    · exact .inr old
  · cases runner.symm.trans is
    rcases records _ r' there with ⟨-, carries⟩ | ⟨other, -⟩
    · exact carries.runPaid ⟨left, fun q is => absurd is (not_or.mpr (past q))⟩
    · exact absurd job other

/-- A run that goes on counts on what is there. -/
theorem Funded.goesOn (h : Funded s) (inv : JobsInv s) (at_ : s.shared.jobs.runner = .running run)
    (pc : run.pc ≠ .lookup) (found : s.shared.jobs.record run.job = some r) {shared : Shared}
    {run' : Run} (turn : RunTurn env s.shared run r shared (some run')) :
    run'.job = run.job ∧ run'.Paid s.shared.store.ledger r := by
  obtain ⟨r', forward, -⟩ := turn.advance inv.orderly at_ pc found
  refine ⟨forward.ends.1, ?_⟩
  cases started : run.pc.started with
  | true => exact turn.runPaid started (h.running run r at_ started found)
  | false =>
    have start : run.pc = .start := by
      generalize run.pc = before at started pc
      cases before with
      | start => rfl
      | lookup => exact absurd rfl pc
      | _ => cases started
    obtain ⟨-, -, index⟩ := inv.orderly.zero run at_ started
    rcases turn.at_start start with ⟨-, -, none⟩ | ⟨queued, -, some⟩
    · cases none
    · cases some
      refine ⟨?_, fun p is => by rcases is with is | is <;> cases is⟩
      change Units _ (1 + (r.files.length - (run.index + 0)) * _) _
      rw [index]
      exact (h.records run.job r found).queued queued

/-- The service after a section of the run. -/
def Service.ran (s : Service) (shared : Shared) (next : Option Run) : Service :=
  { s with shared := { shared with
    jobs := { shared.jobs with runner := (next.map Runner.running).getD .top } } }

/-- A section of the run keeps the invariant. The two that touch the ledger are a publication and
the end of the job, and each has a lemma of its own. -/
theorem Funded.section_ (h : Funded s) (inv : JobsInv s)
    (at_ : s.shared.jobs.runner = .running run) (held : run.pc ≠ .lookup)
    (found : s.shared.jobs.record run.job = some r) {input : RunInput} {shared : Shared}
    {next : Option Run} (ran : runSection env s.shared run r input = some (shared, next)) :
    Funded (s.ran shared next) := by
  have turn := runSection_turn ran
  have soles : ∀ c, (s.ran shared next).soles c = s.soles c := fun c =>
    congrArg (· + _) (turn.soles found c)
  have records : ∀ k r', (s.ran shared next).shared.jobs.record k = some r' →
      (k = run.job ∧ Carries r r') ∨ (k ≠ run.job ∧ s.shared.jobs.record k = some r') :=
    fun k r' there => turn.carries found there
  rcases turn.store with ⟨ledger, entries⟩ | ⟨p, pc⟩ | pc
  · refine h.quiet ledger entries rfl (fun c => Nat.le_of_eq (turn.soles found c))
      (fun k r' there => ?_) fun run' r' is started there => ?_
    · rcases records k r' there with ⟨rfl, carries⟩ | ⟨-, old⟩
      · exact ⟨r, found, carries⟩
      · exact ⟨r', old, .refl r'⟩
    · cases next with
      | none => cases is
      | some run'' =>
        cases is
        obtain ⟨job, paid⟩ := h.goesOn inv at_ held found turn
        rcases records _ r' there with ⟨-, carries⟩ | ⟨other, -⟩
        · exact carries.runPaid paid
        · exact absurd job other
  · have ends : shared = (publishCommit s.shared run r p).1 ∧
        next = some (publishCommit s.shared run r p).2 := by
      unfold runSection at ran
      rw [pc] at ran
      exact (Prod.mk.inj (Option.some.inj ran)).imp Eq.symm Eq.symm
    obtain ⟨rfl, rfl⟩ := ends
    rcases publishCommit_cases s.shared run r p with ⟨ledger, ms, few, parted, is⟩ |
      ⟨charged, ledger, splits, is⟩
    · rw [is] at soles records ⊢
      exact h.publish inv at_ pc found parted few (fun c => Nat.le_add_right _ _) soles h.files rfl
        records rfl rfl rfl (Nat.le_refl _) fun q => ⟨nofun, nofun⟩
    · rw [is] at soles records ⊢
      have length := congrArg List.length splits.objects
      simp only [List.length_map] at length
      refine h.publish inv at_ pc found splits.parted ?_ (fun c => ?_) soles
        (filesPaid_insertFiles splits.paid h.files) rfl records rfl rfl rfl
        (Nat.le_refl _) fun q => ⟨nofun, nofun⟩
      · rw [List.length_map]
        exact Nat.le_of_eq length
      · exact Nat.le_trans
          (Nat.add_le_add_right (entryShares_insertFiles charged c s.shared.store.entries) _)
          (Nat.le_of_eq (Nat.add_right_comm _ _ _))
  · have ends : shared = finalizeJob env s.shared run r ∧ next = none := by
      unfold runSection at ran
      rw [pc] at ran
      cases ran
      exact ⟨rfl, rfl⟩
    obtain ⟨rfl, rfl⟩ := ends
    obtain ⟨balanced, covered, unit, spares⟩ := h.shrink found rfl
    refine h.spend found balanced (covered.mono (fun c => Nat.le_refl _) fun c =>
      Nat.le_of_eq (soles c)) unit spares h.files (fun i t pc there _ => there)
      (fun k r' there => ?_) fun run' r' is => by cases is
    rcases records k r' there with ⟨same, carries⟩ | old
    · refine .inl ⟨same, carries, fun queued => ?_⟩
      have progress := inv.progress at_ found (by rw [pc]; rfl)
      have status := progress.status
      rw [(carries.queued queued).1] at status
      cases status
    · exact .inr old

/-- The runner goes through its loop. -/
theorem Funded.loops (h : Funded s) {queue : List Id} {notify : Notify} {runner : Runner}
    (idle : ∀ run, runner = .running run → run.pc.started = false) :
    Funded { s with shared := { s.shared with
      jobs := { s.shared.jobs with queue, notify, runner } } } := by
  refine h.quiet rfl rfl rfl (fun c => Nat.le_refl _) (fun id r' there => ⟨r', there, .refl r'⟩)
    fun run r' is started there => ?_
  rw [idle run is] at started
  cases started

/-- Every step of the runner keeps the invariant. -/
theorem Funded.runner (h : Funded s) (inv : JobsInv s) {input : RunInput} {shared : Shared}
    (step : runnerStep env s.shared input = some shared) : Funded { s with shared } := by
  by_cases holds : ∃ run, s.shared.jobs.runner = .running run ∧ run.pc ≠ .lookup
  · obtain ⟨run, at_, pc⟩ := holds
    unfold runnerStep at step
    rw [at_] at step
    obtain ⟨⟨after, next⟩, ran, rfl⟩ := Option.map_eq_some_iff.mp step
    unfold runStep at ran
    split at ran
    · rename_i lookup
      exact absurd lookup pc
    · obtain ⟨r, found, ran⟩ := Option.bind_eq_some_iff.mp ran
      exact h.section_ inv at_ pc found ran
  · cases runnerStep_turn step with
    | job run r after next at_ pc found turn => exact absurd ⟨run, at_, pc⟩ holds
    | pop | looked run => exact h.loops fun run is => by cases is; rfl
    | _ => exact h.loops fun run is => by cases is

end Runner

/-! ## What is let go -/

section Collect

variable {s : Service}

/-- What an entry refers to is referred to by the service, and is not collected. -/
theorem mem_entryRefs {id : Id} {e : Entry} (found : s.shared.store.entries.get id = some e)
    {c : Nat} (mem : c ∈ e.refs) : c ∈ s.refs := by
  unfold Service.refs
  rw [List.append_assoc, List.append_assoc]
  exact List.mem_append_left _ (List.mem_flatMap.mpr ⟨(id, e), Table.mem_rows.mpr found, mem⟩)

theorem mem_recordRefs {id : Id} {slot : JobSlot}
    (found : s.shared.jobs.records.get id = some slot) {c : Nat} (mem : c ∈ slot.record.refs) :
    c ∈ s.refs := by
  have there : c ∈ recordRefs s.shared.jobs.records :=
    List.mem_flatMap.mpr ⟨(id, slot), Table.mem_rows.mpr found, mem⟩
  unfold Service.refs
  simp only [List.mem_append, there, or_true, true_or]

theorem mem_taskRefs {i : Nat} {t : Task} (found : s.tasks.get i = some t) {c : Nat}
    (mem : c ∈ t.refs) : c ∈ s.refs := by
  have there : c ∈ taskRefs s.tasks :=
    List.mem_flatMap.mpr ⟨(i, t), Table.mem_rows.mpr found, mem⟩
  unfold Service.refs
  simp only [List.mem_append, there, or_true, true_or]

theorem Entry.mem_cell {e : Entry} {c : Nat} (counts : (if e.cell = c then e.parts else 0) ≠ 0) :
    c ∈ e.refs := by
  split at counts
  · rename_i same
    subst same
    cases e with
    | upload u => exact List.mem_cons_self
    | file f =>
      cases is : f.metadata with
      | none =>
        dsimp only [Entry.parts] at counts
        rw [is] at counts
        exact absurd rfl counts
      | some m => simp [Entry.cell, Entry.refs, File.refs, is]
  · exact absurd rfl counts

theorem JobPc.mem_sole {pc : JobPc} {c : Nat} (counts : pc.sole c ≠ 0) : c ∈ pc.refs := by
  cases pc <;> simp only [JobPc.sole, ne_eq, not_true_eq_false, ite_eq_right_iff, one_ne_zero,
    imp_false, Decidable.not_not] at counts
  all_goals
    subst counts
    exact List.mem_cons_self

theorem UploadPc.mem_share {pc : UploadPc} {c : Nat} (counts : pc.share c ≠ 0) : c ∈ pc.refs := by
  cases pc <;> simp only [UploadPc.share, ne_eq, not_true_eq_false, ite_eq_right_iff,
    OfNat.ofNat_ne_zero, imp_false, Decidable.not_not] at counts
  all_goals
    subst counts
    exact List.mem_cons_self

theorem Task.mem_refs {t : Task} {c : Nat} (counts : t.share c ≠ 0 ∨ t.sole c ≠ 0) :
    c ∈ t.refs := by
  unfold Task.share Task.sole at counts
  refine List.mem_append_right _ ?_
  cases is : t.next with
  | none =>
    rw [is] at counts
    rcases counts with counts | counts <;> exact absurd rfl counts
  | some pc =>
    rw [is] at counts
    cases pc with
    | upload pc =>
      rcases counts with counts | counts
      · exact UploadPc.mem_share counts
      · exact absurd rfl counts
    | job pc =>
      rcases counts with counts | counts
      · exact absurd rfl counts
      · exact JobPc.mem_sole counts

/-- Whoever holds a cell refers to it. -/
theorem held_refs {c : Nat} (counts : s.shares c ≠ 0 ∨ s.soles c ≠ 0) : c ∈ s.refs := by
  have task : ∀ w : Task → Nat, (∀ t, w t ≠ 0 → c ∈ t.refs) →
      (s.tasks.total fun _ t => w t) ≠ 0 → c ∈ s.refs := by
    intro w refs counts
    obtain ⟨i, t, found, counts⟩ := Table.exists_of_total counts
    exact mem_taskRefs found (refs t counts)
  rcases counts with counts | counts
  · by_cases none : entryShares s.shared.store.entries c = 0
    · refine task _ (fun t counts => Task.mem_refs (.inl counts)) fun zero => counts ?_
      unfold Service.shares
      rw [none, zero]
    · obtain ⟨id, e, found, counts⟩ := Table.exists_of_total none
      exact mem_entryRefs found (Entry.mem_cell counts)
  · by_cases none : recordSoles s.shared.jobs.records c = 0
    · refine task _ (fun t counts => Task.mem_refs (.inr counts)) fun zero => counts ?_
      unfold Service.soles
      rw [none, zero]
    · obtain ⟨id, slot, found, counts⟩ := Table.exists_of_total none
      split at counts
      · rename_i same
        exact mem_recordRefs found (same ▸ List.mem_cons_self)
      · exact absurd rfl counts

/-- Records that the service gives up free their reservations. -/
theorem Funded.dropRecords (h : Funded s) : Funded s.dropRecords := by
  have kept : ∀ {id r}, s.dropRecords.shared.jobs.record id = some r →
      s.shared.jobs.record id = some r := by
    intro id r found
    obtain ⟨slot, there, is⟩ := record_get.mp found
    exact record_get.mpr ⟨slot, (Table.get_keep_some.mp there).1, is⟩
  exact h.quiet rfl rfl rfl (fun c => recordSoles_keep s.shared.jobs.records _ c)
    (fun id r found => ⟨r, kept found, .refl r⟩)
    fun run r at_ started found => h.running run r at_ started (kept found)

theorem Funded.releaseCells (h : Funded s) : Funded s.releaseCells := by
  have spares : Spares s.shared.store.ledger s.releaseCells.shared.store.ledger
      fun c => c ∉ s.refs := by
    refine ⟨fun c held => ?_, fun c apart => apart.collect _⟩
    have own : decide (c ∈ s.refs) = true := decide_eq_true (Decidable.not_not.mp held)
    change _ ≤ (Ledger.collect _ _).backing _ _
    rw [Ledger.collect_backing, if_pos own]
  have mine : ∀ {id r}, s.shared.jobs.record id = some r → ¬ r.metadata ∉ s.refs := by
    intro id r found
    obtain ⟨slot, there, rfl⟩ := record_get.mp found
    exact not_not_intro (mem_recordRefs there List.mem_cons_self)
  refine ⟨Ledger.collect_balanced h.balanced Pool.cap_lt _, h.files,
    h.covered.collect fun c counts => decide_eq_true (held_refs counts),
    fun i t pc found next => ?_, fun id r found => (h.records id r found).spare spares (mine found),
    fun run r at_ started found => (h.running run r at_ started found).spare spares (mine found)⟩
  refine (h.tasks i t pc found next).spare spares fun c sole => not_not_intro ?_
  refine mem_taskRefs found (Task.mem_refs (.inr ?_))
  unfold Task.sole
  rw [next]
  exact sole

/-- Reservations that nothing refers to are given back. Nobody counts on those (`held_refs`). -/
theorem Funded.collect (h : Funded s) : Funded s.collect := h.dropRecords.releaseCells

end Collect

/-! ## Runs -/

/-- One step of the service, of whichever party, keeps the invariant. -/
theorem Turn.funded {s s' : Service} {reply : Reply} (turn : Turn env s s' reply) (h : Funded s)
    (inv : JobsInv s) : Funded s' := by
  cases turn with
  | clock | foreign => exact ⟨h.balanced, h.files, h.covered, h.tasks, h.records, h.running⟩
  | call request o first =>
    subst first
    exact (Spends.of_first s request).funded h inv
  | drop i t found =>
    have same : ∀ w : Task → Nat, s.weight i w = w t := by
      intro w
      unfold Service.weight
      rw [found]
      rfl
    have spends : Spends s i ⟨s.shared, t.next, [], .pending⟩ :=
      .of_idle (fun c => (same (Task.share c)).ge) (fun c => (same (Task.sole c)).ge)
        fun pc next => h.tasks i t pc found next
    exact spends.funded h inv
  | resume i pc input o found run =>
    rcases handlerSection_turn run with ⟨upc, uo, rfl, turn, rfl⟩ | ⟨jpc, jo, rfl, turn, rfl⟩
    · exact (Spends.of_upload found turn).funded h inv
    · rcases turn.funds with funds | ⟨id, r, there, queued, rfl⟩
      · exact (Spends.of_job found turn funds h).funded h inv
      · have carries : Carries r
            (({ r with cancel := true } : JobRecord).cancelQueued env s.shared.store.now) :=
          (Touched.settle queued).carries
        exact h.cancel inv there queued carries nofun
          (recordSoles_setRecord (j := { s.shared.jobs with
            cancelCalls := s.shared.jobs.cancelCalls + 1 }) there carries.metadata)
          (record_setRecord (j := { s.shared.jobs with
            cancelCalls := s.shared.jobs.cancelCalls + 1 }) there _)
          (setRecord_runner _ _ _) rfl
  | abandon i w data found =>
    have spends : Spends s i ⟨s.shared, some (.upload (.failing w none)), [], .pending⟩ :=
      .of_idle (fun c => Nat.zero_le _) (fun c => Nat.zero_le _) fun pc next => by cases next
    exact spends.funded h inv
  | run input shared step => exact h.runner inv step

/-- The invariant holds in every reachable state. -/
theorem reachable_funded {s : Service} (reach : (service env now).Reachable s) : Funded s := by
  have both : Funded s ∧ JobsInv s := by
    refine reach.invariant (P := fun s => Funded s ∧ JobsInv s)
      ⟨funded_start env now, jobsInv_start env now⟩ fun s a s' reply _ h step => ?_
    obtain ⟨s₁, -, turn, rfl⟩ := step_turn step
    exact ⟨(turn.funded h.1 h.2).collect, (turn.inv h.2).collect⟩
  exact both.1

theorem Entry.one_le_parts {s : Service} (h : Funded s) {id : Id} {e : Entry}
    (found : s.shared.store.entries.get id = some e) : 1 ≤ e.parts := by
  cases e with
  | upload u =>
    unfold Entry.parts
    dsimp only
    split <;> decide
  | file f =>
    unfold Entry.parts
    dsimp only
    rw [h.files id f found]
    decide

/-- The entries and the records have a unit of metadata each. -/
theorem Funded.metadata {s : Service} (h : Funded s) :
    s.shared.store.entries.size + s.shared.jobs.records.size ≤
      s.shared.store.ledger.used .metadata := by
  have held : ∀ c, s.shares c ≠ 0 ∨ s.soles c ≠ 0 →
      (s.shared.store.ledger.cells.get c).isSome = true := by
    intro c counts
    by_contra missing
    obtain ⟨share, sole⟩ := h.covered.none (c := c) (by
      unfold Ledger.backing
      rw [Option.not_isSome_iff_eq_none.mp missing])
    exact counts.elim (· share) (· sole)
  have entries : s.shared.store.entries.size ≤
      s.shared.store.ledger.cells.total fun c _ => entryShares s.shared.store.entries c := by
    rw [Table.size_eq_total]
    refine Nat.le_trans (Table.total_le fun id e found => Entry.one_le_parts h found)
      (Nat.le_of_eq (Ledger.total_by_cell _ Entry.cell Entry.parts fun id e found some => ?_))
    have le := Table.le_total found fun _ e' => if e'.cell = e.cell then e'.parts else 0
    rw [if_pos rfl] at le
    refine held _ (.inl ?_)
    unfold Service.shares entryShares
    omega
  have records : s.shared.jobs.records.size =
      s.shared.store.ledger.cells.total fun c _ => recordSoles s.shared.jobs.records c := by
    rw [Table.size_eq_total]
    refine Ledger.total_by_cell _ (fun slot : JobSlot => slot.record.metadata) (fun _ => 1)
      fun id slot found _ => ?_
    have one := sole_of_record (record_get.mpr ⟨slot, found, rfl⟩)
    refine held _ (.inr ?_)
    unfold Service.soles
    omega
  rw [h.balanced.sums]
  refine Nat.le_trans ?_ h.covered.sum_le
  rw [records]
  refine Nat.le_trans (Nat.add_le_add_right entries _) ?_
  rw [← Table.total_add]
  refine Table.total_le fun c cell _ => ?_
  exact Nat.add_le_add (Nat.le_add_right _ _) (Nat.le_add_right _ _)

/-- Every reservation has an owner. -/
theorem reachable_owned {s : Service} (reach : (service env now).Reachable s) {c : Nat}
    {cell : Cell Pool} (found : s.shared.store.ledger.cells.get c = some cell) : c ∈ s.refs := by
  have owned : ∀ c cell, s.shared.store.ledger.cells.get c = some cell → c ∈ s.refs := by
    refine reach.invariant
      (P := fun s => ∀ c cell, s.shared.store.ledger.cells.get c = some cell → c ∈ s.refs)
      (fun c cell found => ?_) fun s a s' reply _ _ step c cell found => ?_
    · cases (Table.get_empty (α := Cell Pool) c).symm.trans found
    · obtain ⟨s₁, -, -, rfl⟩ := step_turn step
      have kept := (Ledger.collect_get _ _ c).symm.trans found
      split at kept
      · rename_i own
        exact of_decide_eq_true own
      · cases kept
  exact owned c cell found

/-- Over all interleavings the three counters are what the live reservations add up to and stay
within their caps; the entries of the store and the jobs it retains never exceed the metadata in
use; and when nothing refers to a reservation any more, nothing is in use. -/
theorem store_budget (env : Env) (now : Nat) {s : Service} (reach : (service env now).Reachable s) :
    (∀ pool, s.shared.store.ledger.used pool = s.shared.store.ledger.sum pool ∧
      s.shared.store.ledger.used pool ≤ pool.cap) ∧
    s.shared.store.entries.size + s.shared.jobs.records.size ≤
      s.shared.store.ledger.used .metadata ∧
    (s.refs = [] → ∀ pool, s.shared.store.ledger.used pool = 0) := by
  have funded := reachable_funded reach
  refine ⟨fun pool => ⟨funded.balanced.sums pool, funded.balanced.capped pool⟩, funded.metadata,
    fun none pool => ?_⟩
  rw [funded.balanced.sums]
  by_contra counts
  obtain ⟨c, cell, found, -⟩ := Table.exists_of_total counts
  have owned := reachable_owned reach found
  rw [none] at owned
  cases owned

/-- A job has been submitted and waits. -/
theorem store_budget_submitted : ∃ s, (service smallEnv 0).Reachable s ∧
    (s.shared.jobs.record (.job 1)).isSome = true ∧
    s.shared.store.entries.size + s.shared.jobs.records.size ≤
      s.shared.store.ledger.used .metadata := by
  obtain ⟨s, t, r, played, step, found, -⟩ := submitted_canceled
  have reach := (Machine.Reachable.start.play played).step step
  exact ⟨t, reach, by rw [found]; rfl, (store_budget smallEnv 0 reach).2.1⟩

end Mineru.Official
