import Mineru.Laws.Official.Jobs

/-!
# Uploads and the files they become

A `put` past its admission is the only one its upload ever has, and what it stores is as long as
declared and has the digest that the upload then shows. A completion makes one file of it.
`UploadsInv` is the invariant, with one case for each kind of turn of the store (`StoreTurn`), and
`Later` says how an upload is found again.

`StoreTurn` is what the many sections of the service come down to for an upload: it is created, a
writer is admitted, its bytes are stored, it is completed, files are published, or nothing happens
to it (`UploadsInv.create` to `UploadsInv.quiet`). A new section needs a case there and no new
invariant.

The bytes are compared with what the client declared. That they arrive as they were sent is not a
matter of the service.
-/

set_option autoImplicit false

namespace Mineru.Official

open Logic

/-! ## Writers -/

/-- The `put` that a handler is past the admission of. -/
def UploadPc.writer : UploadPc → Option Writer
  | receiving w _ | putCommit w _ | failing w _ => some w
  | _ => none

/-- A body is never longer than declared, and as long as declared when it is stored. -/
def UploadPc.Counted : UploadPc → Prop
  | receiving w data => data.length ≤ w.expected
  | putCommit w data => data.length = w.expected
  | _ => True

def Pc.writing : Pc → Option UploadPc
  | upload pc => if pc.writer.isSome then some pc else none
  | job _ => none

/-- Where the handler is in a `put` past its admission. -/
def Task.writing (t : Task) : Option UploadPc := t.next.bind Pc.writing

/-- Who writes to an upload is in one of the sections behind the admission. -/
theorem writing_writer {t : Task} {pc : UploadPc} (h : t.writing = some pc) :
    t.next = some (.upload pc) ∧ ∃ w, pc.writer = some w := by
  obtain ⟨next, is, h⟩ := Option.bind_eq_some_iff.mp h
  cases next with
  | job pc => cases h
  | upload pc' =>
    change (if pc'.writer.isSome then some pc' else none) = some pc at h
    split at h
    · rename_i writer
      cases h
      exact ⟨is, Option.isSome_iff_exists.mp writer⟩
    · cases h

theorem writing_of_writer {pc : UploadPc} {w : Writer} (h : pc.writer = some w) (dropping : Cells) :
    (⟨dropping, some (.upload pc)⟩ : Task).writing = some pc := by
  show (if pc.writer.isSome then some pc else none) = some pc
  rw [h]
  rfl

/-- The handler goes on with its `put`. -/
def GoesOn (pc next : UploadPc) : Prop :=
  next.writer = pc.writer ∧ (pc.Counted → next.Counted)

/-! ## Turns of the store -/

/-- What the tasks of a service are after a turn, as far as writers go: they went on, or ended. -/
def WritersStay (s s' : Service) : Prop :=
  ∀ j t' next, s'.tasks.get j = some t' → t'.writing = some next →
    ∃ t pc, s.tasks.get j = some t ∧ t.writing = some pc ∧ GoesOn pc next

/-- The artifacts that the runner has named. -/
def RunPc.named : RunPc → List FileObject
  | naming p | publishCommit p => p.named.map fun a => a.2.1
  | _ => []

def Runner.named : Runner → List FileObject
  | running run => run.pc.named
  | _ => []

/-- What a turn does to the entries, and to the handlers that write one. -/
inductive StoreTurn (env : Env) (s s' : Service) : Prop where
  | quiet (subset : ∀ id e, s'.shared.store.entries.get id = some e →
      s.shared.store.entries.get id = some e)
    (writers : WritersStay s s')
    (named : ∀ o ∈ s'.shared.jobs.runner.named, o ∈ s.shared.jobs.runner.named ∨
      ∃ n, o.id = .file n ∧ s.shared.store.ids ≤ n)
  | create (i n : Nat) (t : Task) (u : Upload) (found : s.tasks.get i = some t)
    (reserves : t.reserves = some (.upload n))
    (made : u.bytes = none ∧ u.fileId = none)
    (entries : s'.shared.store.entries = s.shared.store.entries.set (.upload n) (.upload u))
    (writers : WritersStay s s') (named : s'.shared.jobs.runner = s.shared.jobs.runner)
  | grant (i : Nat) (id : Id) (u : Upload)
    (found : s.shared.store.entries.get id = some (.upload u))
    (writable : u.writable s.shared.store.now = true)
    (entries : s'.shared.store.entries =
      s.shared.store.entries.set id (.upload { u with uploading := true }))
    (writer : ∀ t next, s'.tasks.get i = some t → t.writing = some next →
      ∃ w, next.writer = some w ∧ w.id = id ∧ w.expected = u.request.bytes ∧ next.Counted)
    (others : ∀ j, j ≠ i → s'.tasks.get j = s.tasks.get j)
    (named : s'.shared.jobs.runner = s.shared.jobs.runner)
  | store (i : Nat) (t : Task) (w : Writer) (data : List UInt8) (u : Upload)
    (at_ : s.tasks.get i = some t) (writing : t.writing = some (.putCommit w data))
    (found : s.shared.store.entries.get w.id = some (.upload u))
    (declared : ∀ d, u.request.sha256sum = some d → d = env.sha256 data)
    (entries : s'.shared.store.entries = s.shared.store.entries.set w.id (.upload { u with
      bytes := some ⟨data, w.reservation⟩
      request := { u.request with sha256sum := some (env.sha256 data) }
      reservation := none
      uploading := false }))
    (writers : WritersStay s s') (named : s'.shared.jobs.runner = s.shared.jobs.runner)
    (ended : ∀ t, s'.tasks.get i = some t → t.writing = none)
  | complete (id : Id) (u : Upload) (bytes : Charged) (object : FileObject)
    (found : s.shared.store.entries.get id = some (.upload u)) (first : u.fileId = none)
    (stored : u.bytes = some bytes)
    (made : object = { id := .file s.shared.store.ids, bytes := u.request.bytes
                       createdAt := u.created, expiresAt := some u.expires
                       filename := u.request.filename, purpose := u.request.purpose
                       sha256sum := u.request.sha256sum })
    (ids : s'.shared.store.ids = s.shared.store.ids + 1)
    (entries : s'.shared.store.entries = (s.shared.store.entries.set (.file s.shared.store.ids)
      (.file { object, bytes, source := true, metadata := some u.metadata })).set id
        (.upload { u with fileId := some (.file s.shared.store.ids), bytes := none }))
    (writers : WritersStay s s') (named : s'.shared.jobs.runner = s.shared.jobs.runner)
  | publish (charged : List File)
    (entries : s'.shared.store.entries = Store.insertFiles s.shared.store.entries charged)
    (free : ∀ f ∈ charged, s.shared.store.entries.get f.object.id = none)
    (artifacts : ∀ f ∈ charged, f.source = false ∧ f.object ∈ s.shared.jobs.runner.named)
    (writers : WritersStay s s') (named : s'.shared.jobs.runner.named = [])

/-! ## Classification -/

theorem GoesOn.refl (pc : UploadPc) : GoesOn pc pc := ⟨rfl, fun h => h⟩

theorem WritersStay.of_tasks {s s' : Service} (tasks : s'.tasks = s.tasks) : WritersStay s s' := by
  intro j t next found writing
  rw [tasks] at found
  exact ⟨t, next, found, writing, .refl _⟩

/-- Handler `i` is left with a task that writes nothing, or goes on with its `put`. -/
theorem WritersStay.of_setTask {s : Service} {shared : Shared} {n i : Nat} {t : Task}
    (stays : ∀ next, t.writing = some next →
      ∃ u pc, s.tasks.get i = some u ∧ u.writing = some pc ∧ GoesOn pc next) :
    WritersStay s (({ s with shared, nextTask := n } : Service).setTask i t) := by
  intro j u next found writing
  rcases setTask_get_some found with ⟨rfl, rfl⟩ | ⟨-, old⟩
  · exact stays next writing
  · exact ⟨u, next, old, writing, .refl _⟩

theorem not_writing {t : Task} (h : ∀ pc, t.next = some (.upload pc) → pc.writer = none)
    {P : UploadPc → Prop} : ∀ next, t.writing = some next → P next := by
  intro next writing
  obtain ⟨is, w, writer⟩ := writing_writer writing
  rw [h next is] at writer
  cases writer

/-- Upload handler `i` ends, or goes on with a `put` or without one. -/
theorem upload_writers {s : Service} {i : Nat} {pc : UploadPc} {dropping dropped : Cells}
    (found : s.tasks.get i = some ⟨dropping, some (.upload pc)⟩) (shared : Shared)
    (after : Option UploadPc)
    (goes : ∀ next w, after = some next → next.writer = some w →
      pc.writer = some w ∧ (pc.Counted → next.Counted)) :
    WritersStay s (({ s with shared } : Service).setTask i ⟨dropped, after.map .upload⟩) := by
  refine WritersStay.of_setTask fun next writing => ?_
  obtain ⟨is, w, writer⟩ := writing_writer writing
  obtain ⟨next', there, same⟩ := Option.map_eq_some_iff.mp is
  cases same
  obtain ⟨before, counted⟩ := goes next w there writer
  exact ⟨_, pc, found, writing_of_writer before dropping, writer.trans before.symm, counted⟩

/-- Each turn of the service is one of the kinds, here those of the upload handlers. -/
theorem UploadTurn.storeTurn {env : Env} {s : Service} {i : Nat} {pc : UploadPc} {o : UploadOutcome}
    (turn : UploadTurn env s.shared.store pc o)
    (found : s.tasks.get i = some ⟨[], some (.upload pc)⟩) :
    StoreTurn env s (({ s with shared := { s.shared with store := o.state } } : Service).setTask i
      ⟨o.dropped, o.next.map .upload⟩) := by
  have ends : ∀ {shared : Shared} {dropped : Cells},
      WritersStay s (({ s with shared } : Service).setTask i ⟨dropped, none⟩) := by
    intro shared dropped
    exact upload_writers found shared none fun next w is => by cases is
  have plain : ∀ {shared : Shared} {dropped : Cells} {next : UploadPc}, next.writer = none →
      WritersStay s (({ s with shared } : Service).setTask i ⟨dropped, some (.upload next)⟩) := by
    intro shared dropped next none
    refine upload_writers found shared (some next) fun next' w is writer => ?_
    cases is
    rw [none] at writer
    cases writer
  have same : ∀ o ∈ s.shared.jobs.runner.named, o ∈ s.shared.jobs.runner.named ∨
      ∃ n, o.id = .file n ∧ s.shared.store.ids ≤ n := fun o mem => .inl mem
  cases turn with
  | reject _ | read _ | completed => exact .quiet (fun _ _ h => h) ends same
  | cleanup req => exact .quiet (fun _ _ h => get_keep_some h) (plain rfl) same
  | start req valid small => exact .quiet (fun _ _ h => h) (plain rfl) same
  | metadata n req now ttl c s' charged | input n req now ttl metadata c s' charged =>
    obtain ⟨ledger, -, rfl⟩ := Store.reserve_some charged
    exact .quiet (fun _ _ h => h) (plain rfl) same
  | commit n req now ttl metadata reservation u made =>
    exact .create i n _ u found rfl (by rw [made]; exact ⟨rfl, rfl⟩) rfl ends rfl
  | grant id contentLength u reservation next there writable reserved writer =>
    refine .grant i id u there writable rfl (fun t next' is writing => ?_) (fun j other => ?_) rfl
    · obtain ⟨-, rfl⟩ | ⟨other, -⟩ := setTask_get_some is
      · obtain ⟨at_, w, -⟩ := writing_writer writing
        cases at_
        rcases writer with rfl | ⟨e, rfl⟩
        · exact ⟨_, rfl, rfl, rfl, Nat.zero_le _⟩
        · exact ⟨_, rfl, rfl, rfl, trivial⟩
      · exact absurd rfl other
    · exact (setTask_get _ _ _ _).trans (if_neg other)
  | broken id contentLength u there writable missing =>
    refine .grant i id u there writable rfl (fun t next' is writing => ?_) (fun j other => ?_) rfl
    · obtain ⟨-, rfl⟩ | ⟨other, -⟩ := setTask_get_some is
      · obtain ⟨at_, -⟩ := writing_writer writing
        cases at_
      · exact absurd rfl other
    · exact (setTask_get _ _ _ _).trans (if_neg other)
  | receive w data chunk fits =>
    refine .quiet (fun _ _ h => h) (upload_writers found _ (some _) fun next w' is writer => ?_) same
    cases is
    exact ⟨writer, fun _ => fits⟩
  | received w data whole =>
    refine .quiet (fun _ _ h => h) (upload_writers found _ (some _) fun next w' is writer => ?_) same
    cases is
    exact ⟨writer, fun _ => whole⟩
  | fail _ w data e writing =>
    refine .quiet (fun _ _ h => h) (upload_writers found _ (some _) fun next w' is writer => ?_) same
    cases is
    rcases writing with rfl | rfl
    · exact ⟨writer, fun _ => trivial⟩
    · exact ⟨writer, fun _ => trivial⟩
  | store w data u u' there declared made =>
    refine .store i _ w data u found (writing_of_writer rfl []) there declared ?_ ends rfl ?_
    · rw [made]
      rfl
    · intro t is
      obtain ⟨-, rfl⟩ | ⟨other, -⟩ := setTask_get_some is
      · rfl
      · exact absurd rfl other
  | guard | cancel | delete => exact .quiet (fun _ _ h => get_remove_some h) ends same
  | complete id digest u bytes object there live first stored made =>
    exact .complete id u bytes object there first stored made rfl rfl ends rfl

/-- The other handlers add no entry. -/
theorem JobTurn.entries {env : Env} {s : Shared} {held : Id → Bool} {pc : JobPc} {o : JobOutcome}
    (turn : JobTurn env s held pc o) {id : Id} {e : Entry}
    (h : o.state.store.entries.get id = some e) : s.store.entries.get id = some e := by
  cases turn with
  | refuseCharged req metadata budget rest files n c store dropped e charged
  | metadata req c store charged | budget req metadata c store charged
  | take req metadata budget file rest files prepared n store charged =>
    obtain ⟨ledger, -, rfl⟩ := Store.reserve_some charged
    exact h
  | clearStore => cases (Table.get_empty (α := Entry) id).symm.trans h
  | _ => exact h

theorem named_congr {runner runner' : Runner}
    (same : ∀ run, runner' = .running run ↔ runner = .running run) :
    runner'.named = runner.named := by
  cases at_ : runner with
  | running run => rw [(same run).mpr at_]
  | _ =>
    cases at' : runner' with
    | running run => rw [(same run).mp at'] at at_; cases at_
    | _ => rfl

/-- The first section of a request removes entries at most, and starts no `put`. -/
theorem firstSection_entries (s : Shared) (request : Request) :
    (∀ id e, (firstSection s request).state.store.entries.get id = some e →
      s.store.entries.get id = some e) ∧
    ∀ pc, (firstSection s request).next = some (.upload pc) → pc.writer = none := by
  have cleanup : ∀ next : Pc, (∀ pc, next = .upload pc → pc.writer = none) →
      (∀ id e, (cleanupFirst s next).state.store.entries.get id = some e →
        s.store.entries.get id = some e) ∧
      ∀ pc, (cleanupFirst s next).next = some (.upload pc) → pc.writer = none := by
    intro next none
    refine ⟨fun id e h => get_keep_some h, fun pc is => ?_⟩
    exact none pc (Option.some.inj is)
  cases request with
  | createUpload req =>
    simp only [firstSection, createAccepting]
    split
    · exact ⟨fun _ _ h => h, fun pc is => by cases is; rfl⟩
    · exact ⟨fun _ _ h => h, fun pc is => by cases is⟩
  | prepareJob req slot =>
    obtain ⟨state, -⟩ := prepareStart_outcome s req slot
    refine ⟨fun id e h => ?_, fun pc is => ?_⟩
    · simp only [firstSection, liftJob, state] at h
      exact h
    · obtain ⟨next, -, same⟩ := Option.map_eq_some_iff.mp is
      cases same
  | getJob | cancelJob =>
    simp only [firstSection, lookupJob]
    split <;> exact ⟨fun _ _ h => h, fun pc is => by cases is⟩
  | start =>
    simp only [firstSection, startRunner]
    split <;> exact ⟨fun _ _ h => h, fun pc is => by cases is⟩
  | stopAdmissions | stopStore | shutdown => exact ⟨fun _ _ h => h, fun pc is => by cases is⟩
  | sweep => exact cleanup _ fun pc is => by cases is
  | getUpload | putUpload | completeUpload | cancelUpload | getFile | deleteFile | fileContent =>
    exact cleanup _ fun pc is => by cases is; rfl

theorem RunnerTurn.storeTurn {env : Env} {s : Service} {shared : Shared}
    (turn : RunnerTurn env s.shared shared) : StoreTurn env s { s with shared } := by
  have stays : ∀ {shared : Shared}, WritersStay s { s with shared } := WritersStay.of_tasks rfl
  have silent : ∀ {shared : Shared}, shared.store = s.shared.store →
      shared.jobs.runner.named = [] → StoreTurn env s { s with shared } := by
    intro shared store none
    refine .quiet (fun id e h => ?_) stays fun o mem => ?_
    · rw [store] at h
      exact h
    · rw [none] at mem
      cases mem
  cases turn with
  | job run r s₁ next at_ pc found turn =>
    cases turn with
    | publish p charged ledger pc clear splits free =>
      have artifacts : ∀ f ∈ charged, f.object ∈ p.named.map fun a => a.2.1 := by
        intro f mem
        have there : f.object ∈ (p.named.map Prod.snd).map Prod.fst :=
          splits.objects ▸ List.mem_map.mpr ⟨f, mem, rfl⟩
        rwa [List.map_map] at there
      refine .publish charged rfl (fun f mem => ?_) (fun f mem => ⟨splits.source f mem, ?_⟩) stays rfl
      · obtain ⟨a, there, same⟩ := List.mem_map.mp (artifacts f mem)
        rw [← same]
        exact free a there
      · rw [at_]
        show f.object ∈ run.pc.named
        rw [pc]
        exact artifacts f mem
    | name p format bytes rest object pc next made =>
      refine .quiet (fun _ _ h => h) stays fun o mem => ?_
      change o ∈ (p.named ++ [(format, object, bytes)]).map fun a => a.2.1 at mem
      rw [List.map_append, List.mem_append] at mem
      rcases mem with old | new
      · left
        rw [at_]
        show o ∈ run.pc.named
        rw [pc]
        exact old
      · right
        rw [List.mem_singleton.mp new, made]
        exact ⟨_, rfl, Nat.le_refl _⟩
    | work pc works store same ledger =>
      refine .quiet (fun id e h => ?_) stays fun o mem => .inl ?_
      · change store.entries.get id = some e at h
        rw [same] at h
        exact h
      · rw [at_]
        show o ∈ run.pc.named
        generalize run.pc = before at works
        cases works with
        | named p done => exact mem
        | _ => cases mem
    | parsed outcome pc =>
      refine silent rfl ?_
      cases outcome with
      | none => rfl
      | some result =>
        show RunPc.named (Run.onParsed run (some result)).pc = []
        unfold Run.onParsed
        dsimp only
        split <;> rfl
    | take result p file pc there rendered made =>
      refine silent rfl ?_
      show p.named.map _ = []
      rw [made]
      rfl
    | finalize pc => exact .quiet (fun _ _ h => h) stays fun o mem => by cases mem
    | _ => exact silent rfl rfl
  | _ => exact silent rfl rfl

theorem Turn.storeTurn {env : Env} {s s' : Service} {reply : Reply}
    (turn : Turn env s s' reply) : StoreTurn env s s' := by
  have same : ∀ o ∈ s.shared.jobs.runner.named, o ∈ s.shared.jobs.runner.named ∨
      ∃ n, o.id = .file n ∧ s.shared.store.ids ≤ n := fun o mem => .inl mem
  cases turn with
  | clock | foreign => exact .quiet (fun _ _ h => h) (WritersStay.of_tasks rfl) same
  | call request o first =>
    subst first
    obtain ⟨entries, plain⟩ := firstSection_entries s.shared request
    refine .quiet (fun id e h => entries id e h) ?_ fun o mem => .inl ?_
    · exact WritersStay.of_setTask (t := ⟨_, (firstSection s.shared request).next⟩)
        (not_writing plain)
    · rw [← named_congr (firstSection_opened s.shared request).runner]
      exact mem
  | drop i t found =>
    refine .quiet (fun _ _ h => h) ?_ same
    exact WritersStay.of_setTask (t := { t with dropping := [] }) fun next writing =>
      ⟨t, next, found, writing, .refl _⟩
  | abandon i w data found =>
    refine .quiet (fun _ _ h => h) (upload_writers found s.shared (some (.failing w none)) ?_) same
    intro next w' is writer
    cases is
    exact ⟨writer, fun _ => trivial⟩
  | resume i pc input o found run =>
    rcases handlerSection_turn run with ⟨upc, uo, rfl, turn, rfl⟩ | ⟨jpc, jo, rfl, turn, rfl⟩
    · exact turn.storeTurn found
    · refine .quiet (fun id e h => turn.entries h) ?_ fun o mem => .inl ?_
      · refine WritersStay.of_setTask (t := ⟨_, jo.next.map .job⟩) (not_writing fun pc is => ?_)
        obtain ⟨next, -, same⟩ := Option.map_eq_some_iff.mp is
        cases same
      · rw [← named_congr turn.frame.1]
        exact mem
  | run input shared step => exact (runnerStep_turn step).storeTurn

/-! ## The invariant -/

/-- Handler `i` is past the admission of a `put`. -/
def Puts (s : Service) (i : Nat) (pc : UploadPc) (w : Writer) : Prop :=
  ∃ t, s.tasks.get i = some t ∧ t.writing = some pc ∧ pc.writer = some w

/-- A writer has been one before the turn, no further on than now. -/
theorem WritersStay.puts {s s' : Service} (stays : WritersStay s s') {i : Nat} {next : UploadPc}
    {w : Writer} (h : Puts s' i next w) :
    ∃ pc, Puts s i pc w ∧ (pc.Counted → next.Counted) := by
  obtain ⟨t', found, writing, writer⟩ := h
  obtain ⟨t, pc, there, before, same, counted⟩ := stays i t' next found writing
  exact ⟨pc, ⟨t, there, before, same.symm.trans writer⟩, counted⟩

/-- What an upload with content, or with a file, has to show for it. -/
structure UploadOk (env : Env) (s : Store) (u : Upload) : Prop where
  stored : ∀ b, u.bytes = some b → b.data.length = u.request.bytes ∧
    u.request.sha256sum = some (env.sha256 b.data)
  filed : ∀ fid, u.fileId = some fid → (∃ n, fid = .file n ∧ n < s.ids) ∧
    ∀ f, s.entries.get fid = some (.file f) → f.object.id = fid ∧
      f.object.bytes = u.request.bytes ∧ f.object.sha256sum = u.request.sha256sum

/-- The upload of a writer waits for it. -/
structure Awaits (u : Upload) (w : Writer) : Prop where
  uploading : u.uploading = true
  bytes : u.bytes = none
  fileId : u.fileId = none
  expected : u.request.bytes = w.expected

structure UploadsInv (env : Env) (s : Service) : Prop where
  files : ∀ id f, s.shared.store.entries.get id = some (.file f) → ∃ n, id = .file n
  placed : ∀ id u, s.shared.store.entries.get id = some (.upload u) →
    (∃ n, id = .upload n) ∧ Issued s id
  uploads : ∀ id u, s.shared.store.entries.get id = some (.upload u) → UploadOk env s.shared.store u
  sources : ∀ id f, s.shared.store.entries.get id = some (.file f) → f.source = true →
    f.bytes.data.length = f.object.bytes ∧ f.object.sha256sum = some (env.sha256 f.bytes.data)
  writers : ∀ i pc w, Puts s i pc w → Issued s w.id ∧ pc.Counted ∧
    ∀ u, s.shared.store.entries.get w.id = some (.upload u) → Awaits u w
  sole : ∀ i j pc pc' w w', Puts s i pc w → Puts s j pc' w' → w.id = w'.id → i = j
  named : ∀ o ∈ s.shared.jobs.runner.named, ∀ id u,
    s.shared.store.entries.get id = some (.upload u) → u.fileId ≠ some o.id

theorem set_get_some {entries : Table Id Entry} {id k : Id} {e e' : Entry}
    (h : (entries.set id e).get k = some e') :
    (k = id ∧ e' = e) ∨ (k ≠ id ∧ entries.get k = some e') := by
  rw [Table.get_set] at h
  split at h
  · rename_i same
    exact .inl ⟨same, (Option.some.inj h).symm⟩
  · rename_i other
    exact .inr ⟨other, h⟩

/-- An upload that keeps its bytes, its request and its file stays as it should be. -/
theorem UploadOk.keep {env : Env} {s s' : Store} {u u' : Upload} (h : UploadOk env s u)
    (bytes : u'.bytes = u.bytes) (fileId : u'.fileId = u.fileId) (request : u'.request = u.request)
    (grows : s.ids ≤ s'.ids)
    (files : ∀ n f, n < s.ids → u.fileId = some (.file n) →
      s'.entries.get (.file n) = some (.file f) → s.entries.get (.file n) = some (.file f)) :
    UploadOk env s' u' where
  stored b is := by
    rw [request]
    exact h.stored b (bytes ▸ is)
  filed fid is := by
    rw [fileId] at is
    obtain ⟨⟨n, rfl, lt⟩, file⟩ := h.filed fid is
    rw [request]
    exact ⟨⟨n, rfl, Nat.lt_of_lt_of_le lt grows⟩, fun f there => file f (files n f lt is there)⟩

theorem Runner.Named.mem {ids : Nat} {runner : Runner} (h : runner.Named ids) :
    ∀ o ∈ runner.named, ∃ n, o.id = .file n ∧ n < ids := by
  cases runner with
  | running run =>
    change run.pc.Named ids at h
    change ∀ o ∈ run.pc.named, _
    generalize run.pc = pc at h
    intro o mem
    cases pc with
    | naming | publishCommit =>
      obtain ⟨a, there, rfl⟩ := List.mem_map.mp mem
      exact h a there
    | _ => cases mem
  | _ =>
    intro o mem
    cases mem

section Step

variable {env : Env} {s s' : Service}

/-- A turn in which every writer went on or ended. -/
theorem UploadsInv.of_stays (h : UploadsInv env s) (issued : ∀ id, Issued s id → Issued s' id)
    (stays : WritersStay s s')
    (files : ∀ id f, s'.shared.store.entries.get id = some (.file f) → (∃ n, id = .file n) ∧
      (f.source = true → f.bytes.data.length = f.object.bytes ∧
        f.object.sha256sum = some (env.sha256 f.bytes.data)))
    (uploads : ∀ id u, s'.shared.store.entries.get id = some (.upload u) →
      ((∃ n, id = .upload n) ∧ Issued s' id) ∧ UploadOk env s'.shared.store u)
    (awaits : ∀ i pc next w u, Puts s i pc w → Puts s' i next w →
      s'.shared.store.entries.get w.id = some (.upload u) → Awaits u w)
    (named : ∀ o ∈ s'.shared.jobs.runner.named, ∀ id u,
      s'.shared.store.entries.get id = some (.upload u) → u.fileId ≠ some o.id) :
    UploadsInv env s' where
  files id f there := (files id f there).1
  placed id u there := (uploads id u there).1
  uploads id u there := (uploads id u there).2
  sources id f there := (files id f there).2
  writers i next w puts := by
    obtain ⟨pc, before, counted⟩ := stays.puts puts
    obtain ⟨given, old, -⟩ := h.writers i pc w before
    exact ⟨issued _ given, counted old, fun u there => awaits i pc next w u before puts there⟩
  sole i j pc pc' w w' first second same := by
    obtain ⟨_, first, -⟩ := stays.puts first
    obtain ⟨_, second, -⟩ := stays.puts second
    exact h.sole i j _ _ w w' first second same
  named := named

/-- Nothing is added to the entries, as when one expires. -/
theorem UploadsInv.quiet (h : UploadsInv env s) (issued : ∀ id, Issued s id → Issued s' id)
    (grows : s.shared.store.ids ≤ s'.shared.store.ids)
    (subset : ∀ id e, s'.shared.store.entries.get id = some e →
      s.shared.store.entries.get id = some e)
    (stays : WritersStay s s')
    (named : ∀ o ∈ s'.shared.jobs.runner.named, o ∈ s.shared.jobs.runner.named ∨
      ∃ n, o.id = .file n ∧ s.shared.store.ids ≤ n) : UploadsInv env s' := by
  refine h.of_stays issued stays ?_ ?_ ?_ ?_
  · exact fun id f there => ⟨h.files id f (subset _ _ there), h.sources id f (subset _ _ there)⟩
  · intro id u there
    obtain ⟨kind, given⟩ := h.placed id u (subset _ _ there)
    exact ⟨⟨kind, issued id given⟩, (h.uploads id u (subset _ _ there)).keep rfl rfl rfl grows
      fun n f _ _ there => subset _ _ there⟩
  · exact fun i pc next w u before _ there => (h.writers i pc w before).2.2 u (subset _ _ there)
  · intro o mem id u there is
    rcases named o mem with old | ⟨n, file, fresh⟩
    · exact h.named o old id u (subset _ _ there) is
    · obtain ⟨⟨m, same, lt⟩, -⟩ := (h.uploads id u (subset _ _ there)).filed _ is
      rw [file] at same
      cases same
      exact absurd lt (Nat.not_lt.mpr fresh)

theorem UploadsInv.create (h : UploadsInv env s) (issued : ∀ id, Issued s id → Issued s' id)
    (grows : s.shared.store.ids ≤ s'.shared.store.ids) {i n : Nat} {t : Task} {u : Upload}
    (found : s.tasks.get i = some t) (reserves : t.reserves = some (.upload n))
    (made : u.bytes = none ∧ u.fileId = none)
    (entries : s'.shared.store.entries = s.shared.store.entries.set (.upload n) (.upload u))
    (given : Issued s' (.upload n)) (stays : WritersStay s s')
    (named : s'.shared.jobs.runner = s.shared.jobs.runner) : UploadsInv env s' := by
  have get : ∀ id e, s'.shared.store.entries.get id = some e →
      (id = .upload n ∧ e = .upload u) ∨
        (id ≠ .upload n ∧ s.shared.store.entries.get id = some e) := by
    intro id e there
    rw [entries] at there
    exact set_get_some there
  have old : ∀ id f, s'.shared.store.entries.get id = some (.file f) →
      s.shared.store.entries.get id = some (.file f) := by
    intro id f there
    rcases get id _ there with ⟨-, same⟩ | ⟨-, old⟩
    · cases same
    · exact old
  refine h.of_stays issued stays ?_ ?_ ?_ ?_
  · exact fun id f there => ⟨h.files id f (old id f there), h.sources id f (old id f there)⟩
  · intro id u' there
    rcases get id _ there with ⟨rfl, same⟩ | ⟨-, before⟩
    · cases same
      refine ⟨⟨⟨n, rfl⟩, given⟩, fun b is => ?_, fun fid is => ?_⟩
      · rw [made.1] at is
        cases is
      · rw [made.2] at is
        cases is
    · obtain ⟨kind, given⟩ := h.placed id u' before
      exact ⟨⟨kind, issued id given⟩, (h.uploads id u' before).keep rfl rfl rfl grows
        fun n f _ _ there => old _ f there⟩
  · intro j pc next w u' before _ there
    obtain ⟨taken, -, awaits⟩ := h.writers j pc w before
    rcases get w.id _ there with ⟨same, -⟩ | ⟨-, there⟩
    · rw [same] at taken
      exact absurd reserves (taken.2 i t found)
    · exact awaits u' there
  · intro o mem id u' there is
    rw [named] at mem
    rcases get id _ there with ⟨-, same⟩ | ⟨-, before⟩
    · cases same
      rw [made.2] at is
      cases is
    · exact h.named o mem id u' before is

/-- A writer is admitted. The flag of the upload was down, so there is no other one. -/
theorem UploadsInv.grant (h : UploadsInv env s) (issued : ∀ id, Issued s id → Issued s' id)
    (grows : s.shared.store.ids ≤ s'.shared.store.ids) {i : Nat} {id : Id} {u : Upload}
    (found : s.shared.store.entries.get id = some (.upload u))
    (writable : u.writable s.shared.store.now = true)
    (entries : s'.shared.store.entries =
      s.shared.store.entries.set id (.upload { u with uploading := true }))
    (writer : ∀ t next, s'.tasks.get i = some t → t.writing = some next →
      ∃ w, next.writer = some w ∧ w.id = id ∧ w.expected = u.request.bytes ∧ next.Counted)
    (others : ∀ j, j ≠ i → s'.tasks.get j = s.tasks.get j)
    (named : s'.shared.jobs.runner = s.shared.jobs.runner) : UploadsInv env s' := by
  have get : ∀ k e, s'.shared.store.entries.get k = some e →
      (k = id ∧ e = .upload { u with uploading := true }) ∨
        (k ≠ id ∧ s.shared.store.entries.get k = some e) := by
    intro k e there
    rw [entries] at there
    exact set_get_some there
  have old : ∀ k f, s'.shared.store.entries.get k = some (.file f) →
      s.shared.store.entries.get k = some (.file f) := by
    intro k f there
    rcases get k _ there with ⟨-, same⟩ | ⟨-, old⟩
    · cases same
    · exact old
  have open_ : u.uploading = false ∧ u.bytes = none ∧ u.fileId = none := by
    unfold Upload.writable at writable
    simp only [Bool.and_eq_true, Option.isNone_iff_eq_none, Bool.not_eq_true'] at writable
    exact ⟨writable.2, writable.1.2, writable.1.1.2⟩
  -- No handler was writing the upload before.
  have alone : ∀ j pc w, Puts s j pc w → w.id ≠ id := by
    intro j pc w puts same
    have uploading := ((h.writers j pc w puts).2.2 u (same ▸ found)).uploading
    rw [open_.1] at uploading
    exact Bool.false_ne_true uploading
  have puts : ∀ j pc w, Puts s' j pc w →
      (j = i ∧ w.id = id ∧ w.expected = u.request.bytes ∧ pc.Counted) ∨
        (j ≠ i ∧ Puts s j pc w) := by
    rintro j pc w ⟨t, there, writing, is⟩
    by_cases at_ : j = i
    · subst at_
      obtain ⟨w', is', same, expected, counted⟩ := writer t pc there writing
      rw [is] at is'
      cases is'
      exact .inl ⟨rfl, same, expected, counted⟩
    · rw [others j at_] at there
      exact .inr ⟨at_, t, there, writing, is⟩
  have uploads : ∀ k u', s'.shared.store.entries.get k = some (.upload u') →
      ∃ before, s.shared.store.entries.get k = some (.upload before) ∧
        u'.bytes = before.bytes ∧ u'.fileId = before.fileId ∧ u'.request = before.request := by
    intro k u' there
    rcases get k _ there with ⟨rfl, same⟩ | ⟨-, before⟩
    · cases same
      exact ⟨u, found, rfl, rfl, rfl⟩
    · exact ⟨u', before, rfl, rfl, rfl⟩
  refine ⟨?_, ?_, ?_, ?_, ?_, ?_, ?_⟩
  · exact fun k f there => h.files k f (old k f there)
  · intro k u' there
    obtain ⟨before, was, -⟩ := uploads k u' there
    obtain ⟨kind, given⟩ := h.placed k before was
    exact ⟨kind, issued k given⟩
  · intro k u' there
    obtain ⟨before, was, bytes, fileId, request⟩ := uploads k u' there
    exact (h.uploads k before was).keep bytes fileId request grows
      fun n f _ _ there => old _ f there
  · exact fun k f there => h.sources k f (old k f there)
  · intro j pc w now
    rcases puts j pc w now with ⟨-, same, expected, counted⟩ | ⟨-, before⟩
    · refine ⟨same ▸ issued id (h.placed id u found).2, counted, fun u' there => ?_⟩
      rcases get w.id _ there with ⟨-, is⟩ | ⟨other, -⟩
      · cases is
        exact ⟨rfl, open_.2.1, open_.2.2, expected.symm⟩
      · exact absurd same other
    · obtain ⟨given, counted, awaits⟩ := h.writers j pc w before
      refine ⟨issued _ given, counted, fun u' there => ?_⟩
      rcases get w.id _ there with ⟨same, -⟩ | ⟨-, was⟩
      · exact absurd same (alone j pc w before)
      · exact awaits u' was
  · intro j k pc pc' w w' first second same
    rcases puts j pc w first with ⟨rfl, here, -⟩ | ⟨-, first⟩ <;>
      rcases puts k pc' w' second with ⟨rfl, there, -⟩ | ⟨-, second⟩
    · rfl
    · exact absurd (same.symm.trans here) (alone k pc' w' second)
    · exact absurd (same.trans there) (alone j pc w first)
    · exact h.sole j k pc pc' w w' first second same
  · intro o mem k u' there is
    rw [named] at mem
    obtain ⟨before, was, -, fileId, -⟩ := uploads k u' there
    exact h.named o mem k before was (fileId ▸ is)

/-- The bytes of a writer are stored once their length and digest have been checked. -/
theorem UploadsInv.store (h : UploadsInv env s) (issued : ∀ id, Issued s id → Issued s' id)
    (grows : s.shared.store.ids ≤ s'.shared.store.ids) {i : Nat} {t : Task} {w : Writer}
    {data : List UInt8} {u : Upload} (at_ : s.tasks.get i = some t)
    (writing : t.writing = some (.putCommit w data))
    (found : s.shared.store.entries.get w.id = some (.upload u))
    (entries : s'.shared.store.entries = s.shared.store.entries.set w.id (.upload { u with
      bytes := some ⟨data, w.reservation⟩
      request := { u.request with sha256sum := some (env.sha256 data) }
      reservation := none
      uploading := false }))
    (stays : WritersStay s s') (named : s'.shared.jobs.runner = s.shared.jobs.runner)
    (ended : ∀ t, s'.tasks.get i = some t → t.writing = none) : UploadsInv env s' := by
  have get := fun (k : Id) (e : Entry) (there : s'.shared.store.entries.get k = some e) =>
    set_get_some ((congrArg (Table.get · k) entries).symm.trans there)
  have old : ∀ k f, s'.shared.store.entries.get k = some (.file f) →
      s.shared.store.entries.get k = some (.file f) := by
    intro k f there
    rcases get k _ there with ⟨-, same⟩ | ⟨-, old⟩
    · cases same
    · exact old
  have puts : Puts s i (.putCommit w data) w := ⟨t, at_, writing, rfl⟩
  obtain ⟨given, whole, awaits⟩ := h.writers i _ w puts
  have awaits := awaits u found
  refine h.of_stays issued stays ?_ ?_ ?_ ?_
  · exact fun k f there => ⟨h.files k f (old k f there), h.sources k f (old k f there)⟩
  · intro k u' there
    rcases get k _ there with ⟨rfl, same⟩ | ⟨-, before⟩
    · cases same
      refine ⟨⟨(h.placed _ u found).1, issued _ given⟩, fun b is => ?_, fun fid is => ?_⟩
      · cases is
        exact ⟨Eq.trans whole awaits.expected.symm, rfl⟩
      · change u.fileId = some fid at is
        rw [awaits.fileId] at is
        cases is
    · obtain ⟨kind, given⟩ := h.placed k u' before
      exact ⟨⟨kind, issued k given⟩, (h.uploads k u' before).keep rfl rfl rfl grows
        fun n f _ _ there => old _ f there⟩
  · intro j pc next w' u' before after there
    rcases get w'.id _ there with ⟨same, -⟩ | ⟨-, was⟩
    · obtain rfl := h.sole j i pc _ w' w before puts same
      obtain ⟨t', now, writing', -⟩ := after
      rw [ended t' now] at writing'
      cases writing'
    · exact (h.writers j pc w' before).2.2 u' was
  · intro o mem k u' there is
    rw [named] at mem
    rcases get k _ there with ⟨rfl, same⟩ | ⟨-, before⟩
    · cases same
      exact h.named o mem _ u found is
    · exact h.named o mem k u' before is

/-- An upload with its bytes becomes a file. The name of the file is new. -/
theorem UploadsInv.complete (h : UploadsInv env s) (numbered : Numbered s)
    (issued : ∀ id, Issued s id → Issued s' id) {id : Id} {u : Upload} {bytes : Charged}
    {object : FileObject} (found : s.shared.store.entries.get id = some (.upload u))
    (stored : u.bytes = some bytes)
    (made : object = { id := .file s.shared.store.ids, bytes := u.request.bytes
                       createdAt := u.created, expiresAt := some u.expires
                       filename := u.request.filename, purpose := u.request.purpose
                       sha256sum := u.request.sha256sum })
    (ids : s'.shared.store.ids = s.shared.store.ids + 1)
    (entries : s'.shared.store.entries = (s.shared.store.entries.set (.file s.shared.store.ids)
      (.file { object, bytes, source := true, metadata := some u.metadata })).set id
        (.upload { u with fileId := some (.file s.shared.store.ids), bytes := none }))
    (stays : WritersStay s s') (named : s'.shared.jobs.runner = s.shared.jobs.runner) :
    UploadsInv env s' := by
  have get : ∀ k e, s'.shared.store.entries.get k = some e →
      (k = id ∧ e = .upload { u with
        fileId := some (.file s.shared.store.ids), bytes := none }) ∨
      (k = .file s.shared.store.ids ∧
        e = .file { object, bytes, source := true, metadata := some u.metadata }) ∨
      (k ≠ .file s.shared.store.ids ∧ s.shared.store.entries.get k = some e) := by
    intro k e there
    rw [entries] at there
    rcases set_get_some there with first | ⟨-, there⟩
    · exact .inl first
    · exact .inr (set_get_some there)
  have grows : s.shared.store.ids ≤ s'.shared.store.ids := by omega
  have old : ∀ n f, n < s.shared.store.ids → s'.shared.store.entries.get (.file n) = some (.file f) →
      s.shared.store.entries.get (.file n) = some (.file f) := by
    intro n f lt there
    rcases get _ _ there with ⟨-, same⟩ | ⟨same, -⟩ | ⟨-, old⟩
    · cases same
    · cases same
      exact absurd lt (Nat.lt_irrefl _)
    · exact old
  obtain ⟨length, digest⟩ := (h.uploads id u found).stored bytes stored
  obtain ⟨kind, given⟩ := h.placed id u found
  refine h.of_stays issued stays ?_ ?_ ?_ ?_
  · intro k f there
    rcases get k _ there with ⟨-, same⟩ | ⟨rfl, same⟩ | ⟨-, before⟩
    · cases same
    · cases same
      rw [made]
      exact ⟨⟨_, rfl⟩, fun _ => ⟨length, digest⟩⟩
    · exact ⟨h.files k f before, h.sources k f before⟩
  · intro k u' there
    rcases get k _ there with ⟨rfl, same⟩ | ⟨-, same⟩ | ⟨-, before⟩
    · cases same
      refine ⟨⟨kind, issued _ given⟩, fun b is => (by cases is), fun fid is => ?_⟩
      cases is
      refine ⟨⟨_, rfl, by omega⟩, fun f file => ?_⟩
      rcases get _ _ file with ⟨-, same⟩ | ⟨-, same⟩ | ⟨other, -⟩
      · cases same
      · cases same
        rw [made]
        exact ⟨rfl, rfl, rfl⟩
      · exact absurd rfl other
    · cases same
    · obtain ⟨kind, given⟩ := h.placed k u' before
      exact ⟨⟨kind, issued k given⟩, (h.uploads k u' before).keep rfl rfl rfl grows
        fun n f lt _ there => old n f lt there⟩
  · intro j pc next w u' before _ there
    have awaits := (h.writers j pc w before).2.2
    rcases get w.id _ there with ⟨same, -⟩ | ⟨-, same⟩ | ⟨-, was⟩
    · have none := (awaits u (same ▸ found)).bytes
      rw [stored] at none
      cases none
    · cases same
    · exact awaits u' was
  · intro o mem k u' there is
    rw [named] at mem
    rcases get k _ there with ⟨-, same⟩ | ⟨-, same⟩ | ⟨-, before⟩
    · cases same
      obtain ⟨n, file, lt⟩ := numbered.named.mem o mem
      rw [file] at is
      cases is
      exact Nat.lt_irrefl _ lt
    · cases same
    · exact h.named o mem k u' before is

/-- Artifacts are files without an upload. -/
theorem UploadsInv.publish (h : UploadsInv env s) (numbered : Numbered s)
    (issued : ∀ id, Issued s id → Issued s' id)
    (grows : s.shared.store.ids ≤ s'.shared.store.ids) {charged : List File}
    (entries : s'.shared.store.entries = Store.insertFiles s.shared.store.entries charged)
    (artifacts : ∀ f ∈ charged, f.source = false ∧ f.object ∈ s.shared.jobs.runner.named)
    (stays : WritersStay s s') (named : s'.shared.jobs.runner.named = []) : UploadsInv env s' := by
  have upload : ∀ k u, s'.shared.store.entries.get k = some (.upload u) →
      s.shared.store.entries.get k = some (.upload u) := by
    intro k u there
    rw [entries] at there
    rcases Store.insertFiles_get charged _ there with ⟨f, -, -, same⟩ | old
    · cases same
    · exact old
  refine h.of_stays issued stays ?_ ?_ ?_ ?_
  · intro k f there
    rw [entries] at there
    rcases Store.insertFiles_get charged _ there with ⟨f', mem, rfl, same⟩ | old
    · cases same
      obtain ⟨source, artifact⟩ := artifacts f mem
      obtain ⟨n, is, -⟩ := numbered.named.mem _ artifact
      refine ⟨⟨n, is⟩, fun is => ?_⟩
      rw [source] at is
      cases is
    · exact ⟨h.files k f old, h.sources k f old⟩
  · intro k u there
    have before := upload k u there
    obtain ⟨kind, given⟩ := h.placed k u before
    refine ⟨⟨kind, issued k given⟩, (h.uploads k u before).keep rfl rfl rfl grows ?_⟩
    intro n f _ is file
    rw [entries] at file
    rcases Store.insertFiles_get charged _ file with ⟨f', mem, same, -⟩ | old
    · exact absurd (same ▸ is) (h.named f'.object (artifacts f' mem).2 k u before)
    · exact old
  · exact fun j pc next w u before _ there =>
      (h.writers j pc w before).2.2 u (upload _ u there)
  · intro o mem
    rw [named] at mem
    cases mem

end Step

/-! ## Steps and runs -/

theorem uploadsInv_start (env : Env) (now : Nat) : UploadsInv env (service env now).start := by
  have noEntry : ∀ id e, (service env now).start.shared.store.entries.get id ≠ some e := by
    intro id e found
    cases (Table.get_empty (α := Entry) id).symm.trans found
  have noTask : ∀ i pc w, ¬ Puts (service env now).start i pc w := by
    rintro i pc w ⟨t, found, -⟩
    cases (Table.get_empty (α := Task) i).symm.trans found
  refine ⟨?_, ?_, ?_, ?_, ?_, ?_, ?_⟩
  · exact fun id f there => absurd there (noEntry id _)
  · exact fun id u there => absurd there (noEntry id _)
  · exact fun id u there => absurd there (noEntry id _)
  · exact fun id f there => absurd there (noEntry id _)
  · exact fun i pc w puts => absurd puts (noTask i pc w)
  · exact fun i j pc pc' w w' puts => absurd puts (noTask i pc w)
  · exact fun o mem => by cases mem

/-- The invariant over one turn, by its kind. -/
theorem UploadsInv.turn {env : Env} {s s' : Service} {reply : Reply} (h : UploadsInv env s)
    (jobs : JobsInv s) (turn : Turn env s s' reply) : UploadsInv env s' := by
  obtain ⟨i, before, after, moves⟩ := turn.moves jobs.numbered.named
  have issued : ∀ id, Issued s id → Issued s' id := fun id => moves.issued
  have grows := moves.issues.grows
  cases turn.storeTurn with
  | quiet subset writers named => exact h.quiet issued grows subset writers named
  | create j n t u found reserves made entries writers named =>
    refine h.create issued grows found reserves made entries ?_ writers named
    have there : s'.shared.store.entries.get (.upload n) = some (.upload u) := by
      rw [entries, Table.get_set, if_pos rfl]
    rcases moves.issues.entries _ _ there with ⟨e, old, -⟩ | ⟨same, none, -⟩ | ⟨m, file, -⟩
    · cases e with
      | upload u' => exact absurd reserves ((h.placed _ u' old).2.2 j t found)
      | file f => cases (h.files _ f old).choose_spec
    · exact moves.used jobs.numbered same none
    · cases file
  | grant j id u found writable entries writer others named =>
    exact h.grant issued grows found writable entries writer others named
  | store j t w data u at_ writing found declared entries writers named ended =>
    exact h.store issued grows at_ writing found entries writers named ended
  | complete id u bytes object found first stored made ids entries writers named =>
    exact h.complete jobs.numbered issued found stored made ids entries writers named
  | publish charged entries free artifacts writers named =>
    exact h.publish jobs.numbered issued grows entries artifacts writers named

/-- The content of an upload is taken up, or it has become a file. -/
def Upload.Closed (u : Upload) : Prop :=
  u.uploading = true ∨ u.bytes.isSome = true ∨ u.fileId.isSome = true

/-- How an upload is found again: what was declared and what was set stays. -/
structure Later (u u' : Upload) : Prop where
  bytes : u'.request.bytes = u.request.bytes
  digest : ∀ d, u.request.sha256sum = some d → u'.request.sha256sum = some d
  file : ∀ fid, u.fileId = some fid → u'.fileId = some fid
  closed : u.Closed → u'.Closed

theorem Later.refl (u : Upload) : Later u u := ⟨rfl, fun _ h => h, fun _ h => h, fun h => h⟩

theorem Later.trans {u v w : Upload} (h : Later u v) (h' : Later v w) : Later u w :=
  ⟨h'.bytes.trans h.bytes, fun d is => h'.digest d (h.digest d is),
    fun fid is => h'.file fid (h.file fid is), fun closed => h'.closed (h.closed closed)⟩

/-- An upload that is found after a turn was there before it, if its identifier was given out. -/
theorem Turn.later {env : Env} {s s' : Service} {reply : Reply} (turn : Turn env s s' reply)
    {id : Id} (issued : Issued s id) {u' : Upload}
    (there : s'.shared.store.entries.get id = some (.upload u')) :
    ∃ u, s.shared.store.entries.get id = some (.upload u) ∧ Later u u' := by
  cases turn.storeTurn with
  | quiet subset writers named => exact ⟨u', subset _ _ there, .refl _⟩
  | create j n t u found reserves made entries writers named =>
    rw [entries] at there
    rcases set_get_some there with ⟨rfl, -⟩ | ⟨-, old⟩
    · exact absurd reserves (issued.2 j t found)
    · exact ⟨u', old, .refl _⟩
  | grant j k u found writable entries writer others named =>
    rw [entries] at there
    rcases set_get_some there with ⟨rfl, same⟩ | ⟨-, old⟩
    · cases same
      exact ⟨u, found, rfl, fun _ h => h, fun _ h => h, fun _ => .inl rfl⟩
    · exact ⟨u', old, .refl _⟩
  | store j t w data u at_ writing found declared entries writers named ended =>
    rw [entries] at there
    rcases set_get_some there with ⟨rfl, same⟩ | ⟨-, old⟩
    · cases same
      refine ⟨u, found, rfl, fun d is => ?_, fun _ h => h, fun _ => .inr (.inl rfl)⟩
      exact congrArg some (declared d is).symm
    · exact ⟨u', old, .refl _⟩
  | complete k u bytes object found first stored made ids entries writers named =>
    rw [entries] at there
    rcases set_get_some there with ⟨rfl, same⟩ | ⟨-, there⟩
    · cases same
      refine ⟨u, found, rfl, fun _ h => h, fun fid is => ?_, fun _ => .inr (.inr rfl)⟩
      rw [first] at is
      cases is
    · rcases set_get_some there with ⟨-, same⟩ | ⟨-, old⟩
      · cases same
      · exact ⟨u', old, .refl _⟩
  | publish charged entries free artifacts writers named =>
    rw [entries] at there
    rcases Store.insertFiles_get charged _ there with ⟨f, -, -, same⟩ | old
    · cases same
    · exact ⟨u', old, .refl _⟩

/-- What all reachable states have. -/
structure StoreInv (env : Env) (s : Service) : Prop where
  jobs : JobsInv s
  uploads : UploadsInv env s
  tasks : ∀ i t, s.tasks.get i = some t → i < s.nextTask

theorem Turn.tasks {env : Env} {s s' : Service} {reply : Reply} (turn : Turn env s s' reply)
    (h : ∀ i t, s.tasks.get i = some t → i < s.nextTask) :
    ∀ i t, s'.tasks.get i = some t → i < s'.nextTask := by
  intro i t found
  cases turn with
  | clock | foreign | run => exact h i t found
  | call request o first =>
    rcases setTask_get_some found with ⟨rfl, -⟩ | ⟨-, old⟩
    · exact Nat.lt_succ_self _
    · exact Nat.lt_succ_of_lt (h i t old)
  | drop j u there =>
    rcases setTask_get_some found with ⟨rfl, -⟩ | ⟨-, old⟩
    · exact h i u there
    · exact h i t old
  | resume j pc input o there | abandon j w data there =>
    rcases setTask_get_some found with ⟨rfl, -⟩ | ⟨-, old⟩
    · exact h i _ there
    · exact h i t old

/-- One step keeps the invariant of the store, together with that of the jobs, whose names it
needs. -/
theorem storeInv_step {env : Env} {now : Nat} {s s' : Service} {a : Action} {reply : Reply}
    (h : StoreInv env s) (step : (service env now).step s a = some (s', reply)) :
    StoreInv env s' := by
  obtain ⟨s₁, -, turn, rfl⟩ := step_turn step
  have uploads := h.uploads.turn h.jobs turn
  exact ⟨(turn.inv h.jobs).collect, ⟨uploads.files, uploads.placed,
    fun id u there => ⟨((uploads.uploads id u there).stored), (uploads.uploads id u there).filed⟩,
    uploads.sources, uploads.writers, uploads.sole, uploads.named⟩, turn.tasks h.tasks⟩

theorem reachable_storeInv {env : Env} {now : Nat} {s : Service}
    (reach : (service env now).Reachable s) : StoreInv env s := by
  refine reach.invariant ⟨jobsInv_start env now, uploadsInv_start env now, ?_⟩
    fun _ _ _ _ _ h step => storeInv_step h step
  intro i t found
  cases (Table.get_empty (α := Task) i).symm.trans found

end Mineru.Official
