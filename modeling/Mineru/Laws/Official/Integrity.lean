import Mineru.Laws.Official.Uploads

/-!
# The integrity of uploads

From one state of a run to a later one: an upload keeps what was declared for it, has one writer, and
becomes one file, which a later completion finds again. An upload whose `put` failed after its
admission, or that was canceled, is gone and becomes none.

A `put` that is refused at its admission is not a writer of the upload and leaves it as it is, so
nothing is said of it here but that (`refused_put_keeps`). That a handler goes on at all is not
promised: a failed `put` removes its upload in its next section, whenever that one runs.
-/

set_option autoImplicit false

namespace Mineru.Official

open Logic

variable {env : Env} {now : Nat}

/-- A handler of uploads that resumes runs its section. -/
theorem resume_upload {s s₁ : Service} {i : Nat} {pc : UploadPc} {input : Input} {reply : Reply}
    (found : s.tasks.get i = some ⟨[], some (.upload pc)⟩)
    (act : s.act env (.resume i input) = some (s₁, reply)) :
    ∃ o, uploadSection env s.shared.store pc input = some o ∧ reply = o.reply ∧
      s₁.shared.store = o.state := by
  simp only [Service.act, Service.resume, found, handlerSection, Option.map_map] at act
  obtain ⟨o, section_, out⟩ := Option.map_eq_some_iff.mp act
  cases out
  exact ⟨o, section_, rfl, rfl⟩

/-- What a completion that succeeds says: its file shows what the upload shows. -/
structure Completed (s s' : Service) (id : Id) (object : FileObject) (u : Upload) : Prop where
  upload : s.shared.store.entries.get id = some (.upload u)
  ready : u.fileId.isSome = true ∨ u.bytes.isSome = true
  bytes : object.bytes = u.request.bytes
  digest : object.sha256sum = u.request.sha256sum
  file : ∀ fid, u.fileId = some fid → object.id = fid
  after : ∃ u', s'.shared.store.entries.get id = some (.upload u') ∧ u'.fileId = some object.id

theorem complete_step {s s' : Service} {i : Nat} {id : Id} {digest : Option Text} {input : Input}
    {resp : UploadResponse} (inv : StoreInv env s)
    (at_ : s.tasks.get i = some ⟨[], some (.upload (.complete id digest))⟩)
    (step : (service env now).step s (.resume i input) = some (s', .upload resp)) :
    ∃ u object, resp.file = some object ∧ Completed s s' id object u := by
  obtain ⟨s₁, act, -, rfl⟩ := step_turn step
  obtain ⟨o, section_, replied, store⟩ := resume_upload at_ act
  have turn := uploadSection_turn section_
  have entries : s₁.collect.shared.store.entries = o.state.entries :=
    (collect_entries s₁).trans (congrArg Store.entries store)
  cases turn with
  | reject => cases replied
  | read _ k dropped reply reads => rcases reads with is | is | is <;> cases is
  | fail _ w data e writing => rcases writing with is | is <;> cases is
  | complete _ _ u bytes object found live first stored made =>
    cases replied
    refine ⟨u, object, rfl, found, .inr (by rw [stored]; rfl), by rw [made], by rw [made],
      fun fid is => ?_, ?_⟩
    · rw [first] at is
      cases is
    · refine ⟨{ u with fileId := some object.id, bytes := none }, ?_, rfl⟩
      rw [entries, made]
      exact (Table.get_set _ _ _ _).trans (if_pos rfl)
  | completed _ _ u fileId f found known file =>
    cases replied
    obtain ⟨same, bytes, digest⟩ := ((inv.uploads.uploads id u found).filed fileId known).2 f file
    refine ⟨u, f.object, rfl, found, .inl (by rw [known]; rfl), bytes, digest, fun fid is => ?_, ?_⟩
    · rw [known] at is
      cases is
      exact same
    · exact ⟨u, by rw [entries]; exact found, by rw [known, same]⟩

/-- A cancellation that succeeds removes an upload without a file. -/
theorem cancelUpload_step {s s' : Service} {i : Nat} {id : Id} {input : Input}
    {resp : UploadResponse}
    (at_ : s.tasks.get i = some ⟨[], some (.upload (.cancelUpload id))⟩)
    (step : (service env now).step s (.resume i input) = some (s', .upload resp)) :
    (∃ u, s.shared.store.entries.get id = some (.upload u) ∧ u.fileId = none) ∧
      s'.shared.store.entries.get id = none := by
  obtain ⟨s₁, act, -, rfl⟩ := step_turn step
  obtain ⟨o, section_, replied, store⟩ := resume_upload at_ act
  have entries : s₁.collect.shared.store.entries = o.state.entries :=
    (collect_entries s₁).trans (congrArg Store.entries store)
  cases uploadSection_turn section_ with
  | reject => cases replied
  | read _ k dropped reply reads => rcases reads with is | is | is <;> cases is
  | fail _ w data e writing => rcases writing with is | is <;> cases is
  | cancel _ u found open_ =>
    refine ⟨⟨u, found, open_⟩, ?_⟩
    rw [entries]
    exact (Table.get_remove _ _ _).trans (if_pos rfl)

/-- The drop of `WriterGuard` removes the upload. -/
theorem failing_step {s s' : Service} {i : Nat} {w : Writer} {error : Option WireError}
    {input : Input} {reply : Reply}
    (at_ : s.tasks.get i = some ⟨[], some (.upload (.failing w error))⟩)
    (step : (service env now).step s (.resume i input) = some (s', reply)) :
    s'.shared.store.entries.get w.id = none := by
  obtain ⟨s₁, act, -, rfl⟩ := step_turn step
  obtain ⟨o, section_, -, store⟩ := resume_upload at_ act
  cases section_
  have entries := congrArg Store.entries store
  change s₁.shared.store.entries.get w.id = none
  rw [entries]
  exact (Table.get_remove _ _ _).trans (if_pos rfl)

/-- A source file comes from an upload that had no file yet, and shows what that upload shows. -/
theorem source_created {s s' : Service} {a : Action} {reply : Reply} {id : Id} {f : File}
    (step : (service env now).step s a = some (s', reply))
    (there : s'.shared.store.entries.get id = some (.file f)) (source : f.source = true) :
    s.shared.store.entries.get id = some (.file f) ∨
      ∃ k u u', s.shared.store.entries.get k = some (.upload u) ∧ u.fileId = none ∧
        s'.shared.store.entries.get k = some (.upload u') ∧ u'.fileId = some id ∧
        f.object.bytes = u.request.bytes ∧ f.object.sha256sum = u.request.sha256sum := by
  obtain ⟨s₁, -, turn, rfl⟩ := step_turn step
  change s₁.shared.store.entries.get id = _ at there
  have old : ∀ {k u}, s₁.shared.store.entries = s.shared.store.entries.set k (.upload u) →
      s.shared.store.entries.get id = some (.file f) := by
    intro k u entries
    rw [entries] at there
    rcases set_get_some there with ⟨-, same⟩ | ⟨-, old⟩
    · cases same
    · exact old
  cases turn.storeTurn with
  | quiet subset writers named => exact .inl (subset _ _ there)
  | create j n t u found reserves made entries | grant j k u found writable entries
  | store j t w data u at_ writing found declared entries => exact .inl (old entries)
  | publish charged entries free artifacts writers named =>
    rw [entries] at there
    rcases Store.insertFiles_get charged _ there with ⟨g, mem, -, same⟩ | before
    · cases same
      rw [(artifacts f mem).1] at source
      cases source
    · exact .inl before
  | complete k u bytes object found first stored made ids entries writers named =>
    rw [entries] at there
    rcases set_get_some there with ⟨-, same⟩ | ⟨-, there⟩
    · cases same
    · rcases set_get_some there with ⟨rfl, same⟩ | ⟨-, before⟩
      · cases same
        refine .inr ⟨k, u, { u with fileId := some (.file s.shared.store.ids), bytes := none }, found,
          first, ?_, rfl, by rw [made], by rw [made]⟩
        change s₁.shared.store.entries.get k = _
        rw [entries]
        exact (Table.get_set _ _ _ _).trans (if_pos rfl)
      · exact .inl before

/-! ## Along a run -/

/-- What has become of the upload of a state. -/
structure Followed (env : Env) (s₀ : Service) (id : Id) (t : Service) : Prop where
  inv : StoreInv env t
  issued : Issued t id
  later : ∀ u', t.shared.store.entries.get id = some (.upload u') →
    ∃ u, s₀.shared.store.entries.get id = some (.upload u) ∧ Later u u'

theorem Followed.run {s t : Service} {h : List (Action × Reply)} {id : Id} (inv : StoreInv env s)
    (issued : Issued s id) (run : (service env now).Run s h t) : Followed env s id t := by
  refine run.keeps (P := Followed env s id) ?_ ⟨inv, issued, fun u there => ⟨u, there, .refl u⟩⟩
  intro t a t' reply followed step
  obtain ⟨t₁, -, turn, rfl⟩ := step_turn step
  refine ⟨storeInv_step followed.inv step, turn.issued followed.inv.jobs followed.issued,
    fun u' there => ?_⟩
  obtain ⟨v, before, second⟩ := turn.later followed.issued there
  obtain ⟨u, first, later⟩ := followed.later v before
  exact ⟨u, first, later.trans second⟩

/-- The upload has had its writer. -/
structure Sealed (env : Env) (i : Nat) (id : Id) (t : Service) : Prop where
  inv : StoreInv env t
  issued : Issued t id
  closed : ∀ u, t.shared.store.entries.get id = some (.upload u) → u.Closed
  only : ∀ j pc w, Puts t j pc w → w.id = id → j = i

theorem writable_open {u : Upload} {now : Nat} (writable : u.writable now = true) : ¬ u.Closed := by
  unfold Upload.writable at writable
  simp only [Bool.and_eq_true, Option.isNone_iff_eq_none, Bool.not_eq_true'] at writable
  obtain ⟨⟨⟨-, fileId⟩, bytes⟩, uploading⟩ := writable
  simp [Upload.Closed, fileId, bytes, uploading]

theorem Sealed.step {s s' : Service} {a : Action} {reply : Reply} {i : Nat} {id : Id}
    (h : Sealed env i id s) (step : (service env now).step s a = some (s', reply)) :
    Sealed env i id s' := by
  obtain ⟨s₁, -, turn, rfl⟩ := step_turn step
  refine ⟨storeInv_step h.inv step, turn.issued h.inv.jobs h.issued, fun u there => ?_, ?_⟩
  · obtain ⟨before, was, later⟩ := turn.later h.issued there
    exact later.closed (h.closed before was)
  · have stay : WritersStay s s₁ → ∀ j pc w, Puts s₁ j pc w → w.id = id → j = i := by
      intro stays j pc w puts same
      obtain ⟨pc', before, -⟩ := stays.puts puts
      exact h.only j pc' w before same
    cases turn.storeTurn with
    | quiet subset writers | create j n t u found reserves made entries writers
    | store j t w data u at_ writing found declared entries writers
    | complete k u bytes object found first stored made ids entries writers
    | publish charged entries free artifacts writers => exact stay writers
    | grant k id' u found writable entries writer others named =>
      rintro j pc w ⟨t, there, writing, is⟩ same
      change s₁.tasks.get j = some t at there
      by_cases at_ : j = k
      · subst at_
        obtain ⟨w', is', here, -⟩ := writer t pc there writing
        rw [is] at is'
        cases is'
        rw [← here, same] at found
        exact absurd (h.closed u found) (writable_open writable)
      · rw [others j at_] at there
        exact h.only j pc w ⟨t, there, writing, is⟩ same

/-- The `put` of the upload has failed: its handler is about to remove the upload, or has. -/
structure Failed (env : Env) (i : Nat) (w : Writer) (t : Service) : Prop where
  inv : StoreInv env t
  issued : Issued t w.id
  gone : (∃ error, t.tasks.get i = some ⟨[], some (.upload (.failing w error))⟩) ∨
    ∀ u, t.shared.store.entries.get w.id ≠ some (.upload u)

theorem Failed.step {s s' : Service} {a : Action} {reply : Reply} {i : Nat} {w : Writer}
    (h : Failed env i w s) (step : (service env now).step s a = some (s', reply)) :
    Failed env i w s' := by
  have inv := storeInv_step h.inv step
  obtain ⟨s₁, -, turn, rfl⟩ := step_turn step
  refine ⟨inv, turn.issued h.inv.jobs h.issued, ?_⟩
  suffices gone : (∃ error, s₁.tasks.get i = some ⟨[], some (.upload (.failing w error))⟩) ∨
      ∀ u, s₁.shared.store.entries.get w.id ≠ some (.upload u) from gone
  rcases h.gone with ⟨error, found⟩ | gone
  · have stays : ∀ (s₂ : Service) (j : Nat) (t : Task), s₂.tasks = s.tasks → j ≠ i →
        (s₂.setTask j t).tasks.get i = some ⟨[], some (.upload (.failing w error))⟩ := by
      intro s₂ j t tasks other
      rw [setTask_get, if_neg (Ne.symm other), tasks]
      exact found
    cases turn with
    | clock | foreign | run => exact .inl ⟨error, found⟩
    | call request o first =>
      refine .inl ⟨error, stays _ _ _ rfl ?_⟩
      exact (Nat.ne_of_lt (h.inv.tasks i _ found)).symm
    | drop j t there =>
      by_cases at_ : j = i
      · subst at_
        rw [found] at there
        cases there
        refine .inl ⟨error, ?_⟩
        rw [setTask_get, if_pos rfl]
        rfl
      · exact .inl ⟨error, stays _ _ _ rfl at_⟩
    | abandon j w' data there =>
      by_cases at_ : j = i
      · subst at_
        rw [found] at there
        cases there
      · exact .inl ⟨error, stays _ _ _ rfl at_⟩
    | resume j pc input o there run =>
      by_cases at_ : j = i
      · subst at_
        rw [found] at there
        cases there
        cases run
        refine .inr fun u entry => ?_
        cases ((Table.get_remove _ _ _).trans (if_pos rfl)).symm.trans entry
      · exact .inl ⟨error, stays _ _ _ rfl at_⟩
  · refine .inr fun u there => ?_
    obtain ⟨before, was, -⟩ := turn.later h.issued there
    exact gone before was

/-- After a failed `put` no completion succeeds. -/
theorem Failed.not_completed {t t' : Service} {i : Nat} {w : Writer} {object : FileObject}
    {u : Upload} (h : Failed env i w t) : ¬ Completed t t' w.id object u := by
  intro completed
  rcases h.gone with ⟨error, found⟩ | gone
  · have puts : Puts t i (.failing w error) w := ⟨_, found, writing_of_writer rfl _, rfl⟩
    have awaits := (h.inv.uploads.writers i _ w puts).2.2 u completed.upload
    have ready := completed.ready
    rw [awaits.fileId, awaits.bytes] at ready
    rcases ready with ready | ready <;> cases ready
  · exact gone u completed.upload

/-- A handler of uploads that resumes is left with what its section says. -/
theorem resume_left {s s₁ : Service} {i : Nat} {pc : UploadPc} {input : Input} {reply : Reply}
    {o : UploadOutcome} (found : s.tasks.get i = some ⟨[], some (.upload pc)⟩)
    (section_ : uploadSection env s.shared.store pc input = some o)
    (act : s.act env (.resume i input) = some (s₁, reply)) :
    reply = o.reply ∧ s₁ = (({ s with shared := { s.shared with store := o.state } } : Service).setTask
      i ⟨o.dropped, o.next.map .upload⟩) := by
  simp only [Service.act, Service.resume, found, handlerSection, section_, Option.map_some] at act
  cases act
  exact ⟨rfl, rfl⟩

/-- A section of a `put` past its admission goes on with it, stores its content, or removes its upload.
Only the sections that go on with it leave it unanswered. -/
theorem writer_section {store : Store} {pc : UploadPc} {w : Writer} {input : Input} {o : UploadOutcome}
    (writer : pc.writer = some w) (section_ : uploadSection env store pc input = some o) :
    (o.reply = .pending ∧ ∃ next, o.next = some next ∧ next.writer = some w) ∨
      o.reply = .stored ∨ o.state.entries.get w.id = none := by
  cases pc with
  | receiving w' data =>
    cases writer
    simp only [uploadSection] at section_
    cases input with
    | go | flag => cases section_
    | interrupted | deadline =>
      cases section_
      exact .inl ⟨rfl, _, rfl, rfl⟩
    | chunk | eof =>
      simp only [receive] at section_
      split at section_ <;> cases section_ <;> exact .inl ⟨rfl, _, rfl, rfl⟩
  | putCommit w' data =>
    cases writer
    cases section_
    unfold putCommit
    dsimp only
    split
    · split
      · exact .inr (.inl rfl)
      · exact .inl ⟨rfl, _, rfl, rfl⟩
    · exact .inl ⟨rfl, _, rfl, rfl⟩
  | failing w' error =>
    cases writer
    cases section_
    exact .inr (.inr ((Table.get_remove _ _ _).trans (if_pos rfl)))
  | _ => cases writer

/-- A step leaves a `put` past its admission where it is, goes on with it, or ends it: its content is
stored then, or its upload removed. -/
theorem put_step {s s' : Service} {i : Nat} {pc : UploadPc} {w : Writer} {a : Action} {reply : Reply}
    (inv : StoreInv env s) (puts : Puts s i pc w)
    (step : (service env now).step s a = some (s', reply)) :
    (∃ pc', Puts s' i pc' w) ∨ reply = .stored ∨ s'.shared.store.entries.get w.id = none := by
  obtain ⟨s₁, -, turn, rfl⟩ := step_turn step
  change (∃ pc', Puts s₁ i pc' w) ∨ reply = .stored ∨ s₁.shared.store.entries.get w.id = none
  obtain ⟨t, found, writing, writer⟩ := puts
  -- A turn of another handler leaves this one where it is.
  have stays : ∀ (s₂ : Service) (j : Nat) (u : Task), s₂.tasks = s.tasks → j ≠ i →
      ∃ pc', Puts (s₂.setTask j u) i pc' w := by
    intro s₂ j u tasks other
    refine ⟨pc, t, ?_, writing, writer⟩
    rw [setTask_get, if_neg (Ne.symm other), tasks]
    exact found
  cases turn with
  | clock | foreign | run => exact .inl ⟨pc, t, found, writing, writer⟩
  | call request o first => exact .inl (stays _ _ _ rfl (Nat.ne_of_lt (inv.tasks i _ found)).symm)
  | drop j u there =>
    by_cases at_ : j = i
    · subst at_
      cases found.symm.trans there
      obtain ⟨next, -⟩ := writing_writer writing
      refine .inl ⟨pc, { t with dropping := [] }, ?_, writing, writer⟩
      rw [setTask_get, if_pos rfl]
      simp [next]
    · exact .inl (stays _ _ _ rfl at_)
  | abandon j w' data there =>
    by_cases at_ : j = i
    · subst at_
      cases found.symm.trans there
      cases writing
      cases writer
      refine .inl ⟨.failing w none, _, ?_, writing_of_writer rfl [], rfl⟩
      rw [setTask_get, if_pos rfl]
      rfl
    · exact .inl (stays _ _ _ rfl at_)
  | resume j pc' input o there run =>
    by_cases at_ : j = i
    · subst at_
      cases found.symm.trans there
      obtain ⟨next, -⟩ := writing_writer writing
      cases Option.some.inj next
      obtain ⟨o, section_, rfl⟩ := Option.map_eq_some_iff.mp run
      rcases writer_section writer section_ with ⟨-, next', is, goes⟩ | stored | removed
      · refine .inl ⟨next', ⟨o.dropped, some (.upload next')⟩, ?_, writing_of_writer goes _, goes⟩
        rw [setTask_get, if_pos rfl]
        simp [liftUpload, is]
      · exact .inr (.inl stored)
      · exact .inr (.inr removed)
    · exact .inl (stays _ _ _ rfl at_)

/-- A `put` past its admission that is answered with an error has removed its upload. -/
theorem put_rejected {s s' : Service} {i : Nat} {pc : UploadPc} {w : Writer} {input : Input}
    {e : WireError} (puts : Puts s i pc w)
    (step : (service env now).step s (.resume i input) = some (s', .rejected e)) :
    s'.shared.store.entries.get w.id = none := by
  obtain ⟨s₁, act, -, rfl⟩ := step_turn step
  obtain ⟨⟨dropping, next⟩, found, writing, writer⟩ := puts
  obtain ⟨is, -⟩ := writing_writer writing
  cases is
  cases dropping with
  | cons c rest =>
    simp only [Service.act, Service.resume, found] at act
    cases act
  | nil =>
    obtain ⟨o, section_, replied, store⟩ := resume_upload found act
    change s₁.shared.store.entries.get w.id = none
    rw [store]
    rcases writer_section writer section_ with ⟨pending, -⟩ | stored | removed
    · rw [pending] at replied
      cases replied
    · rw [stored] at replied
      cases replied
    · exact removed

/-- What makes a `put` fail past its admission: the declared length of its body is another one, its
client goes away, its body breaks off, comes too late, is too long or too short, or has another digest
than declared, or its upload is gone. -/
inductive PutFails (env : Env) (s : Service) (i : Nat) (w : Writer) : Action → Prop where
  | contentLength {id : Id} {u : Upload} {length : Nat} {input : Input}
    (at_ : s.tasks.get i = some ⟨[], some (.upload (.putAdmit id (some length)))⟩)
    (found : s.shared.store.entries.get id = some (.upload u))
    (writable : u.writable s.shared.store.now = true)
    (small : u.request.bytes ≤ env.fileCap ∧ u.request.bytes ≤ env.bodyCap)
    (writer : w.id = id ∧ w.expected = u.request.bytes ∧ u.reservation = some w.reservation)
    (differs : length ≠ w.expected) : PutFails env s i w (.resume i input)
  | abandoned {data : List UInt8}
    (at_ : s.tasks.get i = some ⟨[], some (.upload (.receiving w data))⟩) :
    PutFails env s i w (.abandon i)
  | interrupted {data : List UInt8}
    (at_ : s.tasks.get i = some ⟨[], some (.upload (.receiving w data))⟩) :
    PutFails env s i w (.resume i .interrupted)
  | deadline {data : List UInt8}
    (at_ : s.tasks.get i = some ⟨[], some (.upload (.receiving w data))⟩) :
    PutFails env s i w (.resume i .deadline)
  | tooLong {data chunk : List UInt8}
    (at_ : s.tasks.get i = some ⟨[], some (.upload (.receiving w data))⟩)
    (long : w.expected < data.length + chunk.length) : PutFails env s i w (.resume i (.chunk chunk))
  | tooShort {data : List UInt8}
    (at_ : s.tasks.get i = some ⟨[], some (.upload (.receiving w data))⟩)
    (short : data.length ≠ w.expected) : PutFails env s i w (.resume i .eof)
  | digest {data : List UInt8} {u : Upload} {d : Text} {input : Input}
    (at_ : s.tasks.get i = some ⟨[], some (.upload (.putCommit w data))⟩)
    (found : s.shared.store.entries.get w.id = some (.upload u))
    (declared : u.request.sha256sum = some d) (differs : d ≠ env.sha256 data) :
    PutFails env s i w (.resume i input)
  | gone {data : List UInt8} {input : Input}
    (at_ : s.tasks.get i = some ⟨[], some (.upload (.putCommit w data))⟩)
    (none : ∀ u, s.shared.store.entries.get w.id ≠ some (.upload u)) :
    PutFails env s i w (.resume i input)

/-- A `put` that fails is about to remove its upload. -/
theorem PutFails.failing {s s' : Service} {i : Nat} {w : Writer} {a : Action} {reply : Reply}
    (h : PutFails env s i w a) (step : (service env now).step s a = some (s', reply)) :
    ∃ error, s'.tasks.get i = some ⟨[], some (.upload (.failing w error))⟩ := by
  obtain ⟨s₁, act, -, rfl⟩ := step_turn step
  change ∃ error, s₁.tasks.get i = _
  have left : ∀ {pc : UploadPc} {input : Input},
      s.tasks.get i = some ⟨[], some (.upload pc)⟩ →
      (∃ store error,
        uploadSection env s.shared.store pc input = some (.goto store (.failing w error))) →
      s.act env (.resume i input) = some (s₁, reply) →
      ∃ error, s₁.tasks.get i = some ⟨[], some (.upload (.failing w error))⟩ := by
    rintro pc input at_ ⟨store, error, section_⟩ act
    obtain ⟨-, rfl⟩ := resume_left at_ section_ act
    refine ⟨error, ?_⟩
    rw [setTask_get, if_pos rfl]
    rfl
  cases h with
  | @contentLength id u length input at_ found writable small writer differs =>
    obtain ⟨id', expected, reservation⟩ := w
    obtain ⟨rfl, rfl, reserved⟩ := writer
    refine left at_ ?_ act
    simp only [uploadSection, putAdmit, found, if_pos writable, reserved]
    rw [if_neg (by omega), if_pos (by simpa using differs)]
    exact ⟨_, _, rfl⟩
  | @abandoned data at_ =>
    simp only [Service.act, Service.abandon, at_] at act
    cases act
    refine ⟨none, ?_⟩
    rw [setTask_get, if_pos rfl]
    rfl
  | interrupted at_ | deadline at_ => exact left at_ ⟨_, _, rfl⟩ act
  | tooLong at_ long =>
    refine left at_ ?_ act
    simp only [uploadSection, receive, if_pos long]
    exact ⟨_, _, rfl⟩
  | tooShort at_ short =>
    refine left at_ ?_ act
    simp only [uploadSection, receive, if_neg short]
    exact ⟨_, _, rfl⟩
  | digest at_ found declared differs =>
    refine left at_ ?_ act
    simp only [uploadSection, putCommit, found, declared, Option.all_some, decide_eq_true_eq,
      if_neg differs]
    exact ⟨_, _, rfl⟩
  | gone at_ none =>
    refine left at_ ?_ act
    simp only [uploadSection, putCommit]
    exact ⟨_, _, rfl⟩

/-- The upload is gone, or the next section of the handler removes it. -/
def Removing (env : Env) (now : Nat) (t : Service) (i : Nat) (w : Writer) : Prop :=
  (∀ u, t.shared.store.entries.get w.id ≠ some (.upload u)) ∨
    ∀ input, ∃ t' reply, (service env now).step t (.resume i input) = some (t', reply) ∧
      t'.shared.store.entries.get w.id = none

theorem Failed.removing {t : Service} {i : Nat} {w : Writer} (h : Failed env i w t) (now : Nat) :
    Removing env now t i w := by
  rcases h.gone with ⟨error, found⟩ | gone
  · right
    intro input
    have act : ∃ t₁ reply, t.act env (.resume i input) = some (t₁, reply) := by
      simp only [Service.act, Service.resume, found, handlerSection, uploadSection, Option.map_some]
      exact ⟨_, _, rfl⟩
    obtain ⟨t₁, reply, act⟩ := act
    have step : (service env now).step t (.resume i input) = some (t₁.collect, reply) := by
      show (t.act env (.resume i input)).map _ = _
      rw [act]
      rfl
    exact ⟨t₁.collect, reply, step, failing_step found step⟩
  · exact .inl gone

/-! ## Results -/

/-- The clients create an upload of one byte, put it twice, and complete it. -/
def putTwice : List Action :=
  .call (.createUpload
    { filename := text "a", bytes := 1, mimeType := text "b", purpose := text "parse"
      sha256sum := none, expiresAfter := none }) ::
    List.replicate 5 (.resume 0 .go) ++
  .call (.putUpload (.upload 1) none) :: .resume 1 .go :: .resume 1 (.chunk [7]) ::
    .resume 1 .eof :: .resume 1 .go :: .resume 1 .go :: [.call (.putUpload (.upload 1) none)]

/-- The handler is at a section of an upload, with nothing to drop. -/
def atUpload (task : Option Task) (pc : UploadPc) : Bool :=
  match task with
  | some ⟨[], some (.upload pc')⟩ => decide (pc' = pc)
  | _ => false

theorem atUpload_some {task : Option Task} {pc : UploadPc} (h : atUpload task pc = true) :
    task = some ⟨[], some (.upload pc)⟩ := by
  unfold atUpload at h
  split at h
  · rw [of_decide_eq_true h]
  · cases h

def Reply.refuses (e : WireError) : Reply → Bool
  | rejected e' => decide (e' = e)
  | _ => false

def Reply.isUpload : Reply → Bool
  | upload _ => true
  | _ => false

theorem putTwice_runs : ∃ s s' t t' r resp,
    (service smallEnv 0).play (service smallEnv 0).start putTwice = some s ∧
    s.tasks.get 2 = some ⟨[], some (.upload (.putAdmit (.upload 1) none))⟩ ∧
    (service smallEnv 0).step s (.resume 2 .go) = some (s', .rejected notWritable) ∧
    (service smallEnv 0).step s' (.call (.completeUpload (.upload 1) none)) = some (t, r) ∧
    t.tasks.get 3 = some ⟨[], some (.upload (.complete (.upload 1) none))⟩ ∧
    (service smallEnv 0).step t (.resume 3 .go) = some (t', .upload resp) := by
  have check : (((service smallEnv 0).play (service smallEnv 0).start putTwice).any fun s =>
      atUpload (s.tasks.get 2) (.putAdmit (.upload 1) none) &&
      ((service smallEnv 0).step s (.resume 2 .go)).any fun p => p.2.refuses notWritable &&
        ((service smallEnv 0).step p.1 (.call (.completeUpload (.upload 1) none))).any fun q =>
          atUpload (q.1.tasks.get 3) (.complete (.upload 1) none) &&
          ((service smallEnv 0).step q.1 (.resume 3 .go)).any fun o => o.2.isUpload) = true := by
    decide +kernel
  obtain ⟨s, first, rest⟩ := (Option.any_eq_true _ _).mp check
  obtain ⟨admitting, rest⟩ := (Bool.and_eq_true _ _).mp rest
  obtain ⟨⟨s', reply⟩, second, rest⟩ := (Option.any_eq_true _ _).mp rest
  obtain ⟨refused, rest⟩ := (Bool.and_eq_true _ _).mp rest
  obtain ⟨⟨t, r⟩, third, rest⟩ := (Option.any_eq_true _ _).mp rest
  obtain ⟨completing, rest⟩ := (Bool.and_eq_true _ _).mp rest
  obtain ⟨⟨t', last⟩, fourth, completed⟩ := (Option.any_eq_true _ _).mp rest
  cases reply with
  | rejected e =>
    cases last with
    | upload resp =>
      rw [of_decide_eq_true refused] at second
      exact ⟨s, s', t, t', r, resp, first, atUpload_some admitting, second, third,
        atUpload_some completing, fourth⟩
    | _ => cases completed
  | _ => cases refused

/-- A `put` that is refused removes nothing: the upload is completed after it. -/
theorem refused_put_keeps : ¬ ∀ (s s' t t' : Service) (h : List (Action × Reply)) (e : WireError)
    (resp : UploadResponse), (service smallEnv 0).Reachable s →
    s.tasks.get 2 = some ⟨[], some (.upload (.putAdmit (.upload 1) none))⟩ →
    (service smallEnv 0).step s (.resume 2 .go) = some (s', .rejected e) →
    (service smallEnv 0).Run s' h t →
    t.tasks.get 3 = some ⟨[], some (.upload (.complete (.upload 1) none))⟩ →
    (service smallEnv 0).step t (.resume 3 .go) ≠ some (t', .upload resp) := by
  intro removes
  obtain ⟨s, s', t, t', r, resp, first, admitting, second, third, completing, last⟩ := putTwice_runs
  exact removes s s' t t' _ _ resp (Machine.Reachable.start.play first) admitting second
    ((Machine.Run.refl s').snoc third) completing last

/-- Uploads keep their integrity from a reachable state on, whatever the handlers and the clock do
between `s` and `t`. A `put` past its admission ends with its content stored or with its upload
removed; one that fails is never stored, and its upload never completed. -/
theorem upload_integrity (env : Env) (now : Nat) {s t : Service} {h : List (Action × Reply)}
    (reach : (service env now).Reachable s) (run : (service env now).Run s h t) :
    -- One `put` of an upload is ever past its admission.
    (∀ i j pc pc' w w', Puts s i pc w → Puts t j pc' w' → w'.id = w.id → j = i) ∧
    -- A source file has the length and the digest it shows.
    (∀ id f, s.shared.store.entries.get id = some (.file f) → f.source = true →
      f.bytes.data.length = f.object.bytes ∧
      f.object.sha256sum = some (env.sha256 f.bytes.data)) ∧
    -- It is created when its upload first gets a file, and shows what that upload shows.
    (∀ id f a s' reply, (service env now).step s a = some (s', reply) →
      s'.shared.store.entries.get id = some (.file f) → f.source = true →
      s.shared.store.entries.get id = some (.file f) ∨
      ∃ k u u', s.shared.store.entries.get k = some (.upload u) ∧ u.fileId = none ∧
        s'.shared.store.entries.get k = some (.upload u') ∧ u'.fileId = some id ∧
        f.object.bytes = u.request.bytes ∧ f.object.sha256sum = u.request.sha256sum) ∧
    -- An upload keeps what was declared for it and its file, and the file shows what was declared.
    (∀ id u u', s.shared.store.entries.get id = some (.upload u) →
      t.shared.store.entries.get id = some (.upload u') →
      u'.request.bytes = u.request.bytes ∧
      (∀ d, u.request.sha256sum = some d → u'.request.sha256sum = some d) ∧
      (∀ fid, u.fileId = some fid → u'.fileId = some fid) ∧
      ∀ fid f, u'.fileId = some fid → t.shared.store.entries.get fid = some (.file f) →
        f.object.id = fid ∧ f.object.bytes = u.request.bytes ∧
        ∀ d, u.request.sha256sum = some d → f.object.sha256sum = some d) ∧
    -- A completion shows what was declared before, and the file of an earlier completion.
    (∀ j id digest input t' resp,
      t.tasks.get j = some ⟨[], some (.upload (.complete id digest))⟩ →
      (service env now).step t (.resume j input) = some (t', .upload resp) →
      ∃ u' object, resp.file = some object ∧ Completed t t' id object u' ∧
        ∀ u, s.shared.store.entries.get id = some (.upload u) →
          object.bytes = u.request.bytes ∧
          (∀ d, u.request.sha256sum = some d → object.sha256sum = some d) ∧
          ∀ fid, u.fileId = some fid → object.id = fid) ∧
    -- A `put` past its admission goes on, is stored, or has removed its upload.
    (∀ i pc w a s' reply, Puts s i pc w → (service env now).step s a = some (s', reply) →
      (∃ pc', Puts s' i pc' w) ∨ reply = .stored ∨ s'.shared.store.entries.get w.id = none) ∧
    (∀ i pc w input s' e, Puts s i pc w →
      (service env now).step s (.resume i input) = some (s', .rejected e) →
      s'.shared.store.entries.get w.id = none) ∧
    -- One that fails removes the upload, and no completion succeeds on it.
    (∀ i w a s' reply, PutFails env s i w a → (service env now).step s a = some (s', reply) →
      ∀ h' t', (service env now).Run s' h' t' → Removing env now t' i w ∧
        ∀ t'' object u, ¬ Completed t' t'' w.id object u) ∧
    -- A canceled upload has no file, and is gone from then on.
    (∀ i id input s' resp, s.tasks.get i = some ⟨[], some (.upload (.cancelUpload id))⟩ →
      (service env now).step s (.resume i input) = some (s', .upload resp) →
      (∃ u, s.shared.store.entries.get id = some (.upload u) ∧ u.fileId = none) ∧
      ∀ h' t', (service env now).Run s' h' t' →
        ∀ u, t'.shared.store.entries.get id ≠ some (.upload u)) := by
  have inv := reachable_storeInv reach
  have follow : ∀ {id u}, s.shared.store.entries.get id = some (.upload u) →
      Followed env s id t := fun there => .run inv (inv.uploads.placed _ _ there).2 run
  refine ⟨?_, ?_, ?_, ?_, ?_, fun i pc w a s' reply puts step => put_step inv puts step,
    fun i pc w input s' e puts step => put_rejected puts step, ?_, ?_⟩
  · intro i j pc pc' w w' first second same
    obtain ⟨given, -, awaits⟩ := inv.uploads.writers i pc w first
    have start : Sealed env i w.id s := ⟨inv, given, fun u there => .inl (awaits u there).uploading,
      fun k pc'' w'' puts is => inv.uploads.sole k i pc'' pc w'' w puts first is⟩
    exact (run.keeps (P := Sealed env i w.id) (fun _ _ _ _ h step => h.step step) start).only
      j pc' w' second same
  · exact inv.uploads.sources
  · exact fun id f a s' reply step there source => source_created step there source
  · intro id u u' there later
    have after := reachable_storeInv (reach.run run)
    obtain ⟨before, was, same⟩ := (follow there).later u' later
    rw [there] at was
    cases was
    refine ⟨same.bytes, same.digest, same.file, fun fid f is file => ?_⟩
    obtain ⟨known, bytes, digest⟩ := ((after.uploads.uploads id u' later).filed fid is).2 f file
    exact ⟨known, bytes.trans same.bytes, fun d declared => digest.trans (same.digest d declared)⟩
  · intro j id digest input t' resp at_ step
    have after := (reachable_storeInv (reach.run run))
    obtain ⟨u', object, file, completed⟩ := complete_step after at_ step
    refine ⟨u', object, file, completed, fun u there => ?_⟩
    obtain ⟨before, was, same⟩ := (follow there).later u' completed.upload
    rw [there] at was
    cases was
    refine ⟨completed.bytes.trans same.bytes, fun d is => ?_, fun fid is => ?_⟩
    · exact completed.digest.trans (same.digest d is)
    · exact completed.file fid (same.file fid is)
  · intro i w a s' reply fails step h' t' later
    obtain ⟨error, at_⟩ := fails.failing step
    have inv' := storeInv_step inv step
    have puts : Puts s' i (.failing w error) w := ⟨_, at_, writing_of_writer rfl _, rfl⟩
    have start : Failed env i w s' :=
      ⟨inv', (inv'.uploads.writers i _ w puts).1, .inl ⟨error, at_⟩⟩
    have failed := later.keeps (P := Failed env i w) (fun _ _ _ _ h step => h.step step) start
    exact ⟨failed.removing now, fun t'' object u => failed.not_completed⟩
  · intro i id input s' resp at_ step
    obtain ⟨⟨u, there, none⟩, gone⟩ := cancelUpload_step at_ step
    refine ⟨⟨u, there, none⟩, fun h' t' later v found => ?_⟩
    have given : Issued s' id := by
      obtain ⟨s₁, -, turn, rfl⟩ := step_turn step
      exact turn.issued inv.jobs (inv.uploads.placed id u there).2
    obtain ⟨before, was, -⟩ :=
      (Followed.run (storeInv_step inv step) given later).later v found
    rw [gone] at was
    cases was

/-- Two clients put the same upload, the second of them is refused, and the upload is then
completed. -/
theorem upload_integrity_putTwice : ∃ t t' resp u object,
    (service smallEnv 0).Reachable t ∧
    (service smallEnv 0).step t (.resume 3 .go) = some (t', .upload resp) ∧
    resp.file = some object ∧ Completed t t' (.upload 1) object u := by
  obtain ⟨s, s', t, t', r, resp, first, -, second, third, found, last⟩ := putTwice_runs
  have reach := ((Machine.Reachable.start.play first).step second).step third
  obtain ⟨u, object, file, completed, -⟩ :=
    (upload_integrity smallEnv 0 reach (.refl t)).2.2.2.2.1 3 _ none .go t' resp found last
  exact ⟨t, t', resp, u, object, reach, last, file, completed⟩

end Mineru.Official
