import Mineru.Worker.Persistent

/-!
# Results are never misattributed

The log of the owner says for every answer how it came about. `Inv` ties the log to where the owner
stands: while a request is under way its entries are the newest ones, and a session that is kept has
no request under way. Every step keeps it, so every log is `Attributed`.

A session is in the log from its start on, so a failed handshake retires it as a failed request does.
That an answer ever comes is not proved: the worker may stay silent until the deadline.
-/

set_option autoImplicit false

namespace Mineru.Worker

open Logic

/-! ## Logs -/

/-- The session of an entry. -/
def Obs.serial : Obs → Option Nat
  | .started serial => some serial
  | .began serial _ _ => some serial
  | .wrote serial => some serial
  | .read serial _ => some serial
  | .answered _ _ => none

/-- How many requests a session was sent. -/
def sent (log : List Obs) (serial : Nat) : Nat :=
  log.countP fun
    | .began n _ _ => n == serial
    | _ => false

theorem sent_answered (log : List Obs) (requestId : Text) (answer : Answer) (serial : Nat) :
    sent (.answered requestId answer :: log) serial = sent log serial := by
  simp [sent]

theorem sent_started (log : List Obs) (n serial : Nat) :
    sent (.started n :: log) serial = sent log serial := by
  simp [sent]

/-- A failure that is no document error was answered after the session had been started. -/
def Retired (log : List Obs) (serial : Nat) : Prop :=
  ∃ newer requestId failure older, log = newer ++ .answered requestId (.dead failure) :: older ∧
    ∃ o ∈ older, o.serial = some serial

/-- The newest entries are the request of the id and the first frame that was read after it. -/
def Exchange (p : Protocol) (log : List Obs) (requestId : Text) (frame : ResultFrame) : Prop :=
  ∃ serial sequence bytes older,
    log = .read serial bytes :: .wrote serial :: .began serial requestId sequence :: older ∧
    p.parse (stripNewline bytes) = .ok (.result frame) ∧
    frame.matches p requestId sequence = true

/-- What an entry promises about the entries before it: a session that starts is a new one, a request
has the next number of a session that is not retired, and an answer but a failure comes from the
exchange of its own request. -/
def Entry (p : Protocol) (older : List Obs) : Obs → Prop
  | .started serial => ∀ o ∈ older, o.serial ≠ some serial
  | .began serial _ sequence =>
    ¬ Retired older serial ∧ sequence = min (sent older serial + 1) (2 ^ 64 - 1)
  | .wrote serial => ¬ Retired older serial
  | .read serial _ => ¬ Retired older serial
  | .answered requestId .ok => ∃ frame, Exchange p older requestId frame ∧ frame.status = text "ok"
  | .answered requestId (.document error) => ∃ frame, Exchange p older requestId frame ∧
    frame.status = text "error" ∧ frame.error = some error
  | .answered _ (.dead _) => True

/-- Every entry keeps its promise. -/
def Attributed (p : Protocol) (log : List Obs) : Prop :=
  ∀ newer o older, log = newer ++ o :: older → Entry p older o

variable {p : Protocol} {s : Owner}

theorem attributed_nil : Attributed p [] := by
  intro newer o older split
  cases newer <;> cases split

theorem Attributed.cons {log : List Obs} (h : Attributed p log) {o : Obs} (entry : Entry p log o) :
    Attributed p (o :: log) := by
  intro newer o' older split
  cases newer with
  | nil =>
    cases split
    exact entry
  | cons first newer =>
    obtain ⟨-, rest⟩ := List.cons.inj split
    exact h newer o' older rest

/-- An entry that is no failure retires nothing. -/
theorem retired_cons {log : List Obs} {o : Obs} {serial : Nat}
    (alive : ∀ requestId failure, o ≠ .answered requestId (.dead failure))
    (h : Retired (o :: log) serial) : Retired log serial := by
  obtain ⟨newer, requestId, failure, older, split, used⟩ := h
  cases newer with
  | nil =>
    obtain ⟨same, -⟩ := List.cons.inj split
    exact absurd same (alive requestId failure)
  | cons first newer =>
    obtain ⟨-, rest⟩ := List.cons.inj split
    exact ⟨newer, requestId, failure, older, rest, used⟩

/-! ## The invariant -/

/-- The session of a log that is kept, with its sequence number. -/
structure Kept (s : Owner) (child : Child) : Prop where
  known : child.serial < s.spawned
  fresh : ¬ Retired s.log child.serial

/-- The session is new and was not sent a request. -/
def Starting (s : Owner) : Prop :=
  ∃ child, s.child = some child ∧ child.sequence = 1 ∧ sent s.log child.serial = 0

/-- A request is under way, with its entries on top of the log. -/
def Asking (s : Owner) (c : Command) (sequence : Nat) (entries : Nat → List Obs) : Prop :=
  ∃ child older, s.child = some child ∧ child.sequence = sequence ∧
    sequence = min (sent older child.serial + 1) (2 ^ 64 - 1) ∧
    s.log = entries child.serial ++ .began child.serial c.requestId sequence :: older

/-- What the owner's place promises. -/
def Stands (s : Owner) : Prop :=
  match s.pc with
  | .idle => ∀ child, s.child = some child →
      child.sequence = min (sent s.log child.serial + 1) (2 ^ 64 - 1)
  | .spawning _ => s.child = none
  | .startWrite _ => Starting s
  | .startRead _ _ => Starting s
  | .startFlush _ _ => Starting s
  | .requestWrite c sequence => Asking s c sequence fun _ => []
  | .requestRead c sequence _ => Asking s c sequence fun serial => [.wrote serial]
  | .requestFlush c sequence bytes =>
    Asking s c sequence fun serial => [.read serial bytes, .wrote serial]
  | .stopped => s.child = none

structure Inv (p : Protocol) (s : Owner) : Prop where
  attributed : Attributed p s.log
  known : ∀ o ∈ s.log, ∀ serial, o.serial = some serial → serial < s.spawned
  kept : ∀ child, s.child = some child → Kept s child
  stands : Stands s

theorem inv_start : Inv p .start where
  attributed := attributed_nil
  known := by
    intro o mem
    cases mem
  kept := by
    intro child is
    cases is
  stands := by
    intro child is
    cases is

/-- The session is discarded. -/
theorem Inv.dead (h : Inv p s) (c : Command) (failure : Failure) : Inv p (s.dead c failure) where
  attributed := h.attributed.cons trivial
  known := by
    intro o mem serial is
    rcases List.mem_cons.mp mem with rfl | old
    · cases is
    · exact h.known o old serial is
  kept := by
    intro child is
    cases is
  stands := by
    intro child is
    cases is

/-- A request begins, with the number of the session. -/
theorem Inv.beginRequest (h : Inv p s) {child : Child} (is : s.child = some child)
    (sequence : child.sequence = min (sent s.log child.serial + 1) (2 ^ 64 - 1)) (c : Command) :
    Inv p (s.beginRequest child c) := by
  unfold Owner.beginRequest
  split
  · exact h.dead c _
  · split
    · exact h.dead c _
    · split
      · exact h.dead c _
      · next recent _ =>
        have kept := h.kept child is
        refine ⟨h.attributed.cons ⟨kept.fresh, sequence⟩, ?_, ?_, ?_⟩
        · intro o mem serial known
          rcases List.mem_cons.mp mem with rfl | old
          · cases known
            exact kept.known
          · exact h.known o old serial known
        · intro child' is'
          cases is'
          refine ⟨kept.known, fun retired => kept.fresh (retired_cons ?_ retired)⟩
          intro _ _ same
          cases same
        · exact ⟨_, s.log, rfl, rfl, sequence, rfl⟩

section Touch

variable {child child' : Child}

theorem Kept.touch (h : Kept s child) (serial : child'.serial = child.serial) {s' : Owner}
    (spawned : s'.spawned = s.spawned) (log : s'.log = s.log) : Kept s' child' where
  known := by
    rw [serial, spawned]
    exact h.known
  fresh := by
    rw [serial, log]
    exact h.fresh

theorem Starting.touch (h : Starting s) (is : s.child = some child)
    (serial : child'.serial = child.serial) (sequence : child'.sequence = child.sequence)
    {s' : Owner} (is' : s'.child = some child') (log : s'.log = s.log) : Starting s' := by
  obtain ⟨old, there, one, none_⟩ := h
  rw [is] at there
  cases there
  exact ⟨child', is', sequence.trans one, by rw [log, serial]; exact none_⟩

theorem Asking.touch {c : Command} {number : Nat} {entries : Nat → List Obs}
    (h : Asking s c number entries) (is : s.child = some child)
    (serial : child'.serial = child.serial) (sequence : child'.sequence = child.sequence)
    {s' : Owner} (is' : s'.child = some child') (log : s'.log = s.log) :
    Asking s' c number entries := by
  obtain ⟨old, older, there, same, count, newest⟩ := h
  rw [is] at there
  cases there
  refine ⟨child', older, is', sequence.trans same, ?_, ?_⟩
  · rw [serial]
    exact count
  · rw [log, serial]
    exact newest

/-- The worker changes what it left to be read, or exits. -/
theorem Inv.touch (h : Inv p s) (child' : Child) (is : s.child = some child)
    (serial : child'.serial = child.serial) (sequence : child'.sequence = child.sequence) :
    Inv p { s with child := some child' } := by
  refine ⟨h.attributed, h.known, ?_, ?_⟩
  · intro other is'
    cases is'
    exact (h.kept child is).touch serial rfl rfl
  · have stands := h.stands
    unfold Stands at stands ⊢
    dsimp only
    split <;> rename_i pc <;> rw [pc] at stands
    · intro other is'
      cases is'
      rw [serial, sequence]
      exact stands child is
    · exact absurd (is.symm.trans stands) (Option.some_ne_none child)
    · exact Starting.touch stands is serial sequence rfl rfl
    · exact Starting.touch stands is serial sequence rfl rfl
    · exact Starting.touch stands is serial sequence rfl rfl
    · exact Asking.touch stands is serial sequence rfl rfl
    · exact Asking.touch stands is serial sequence rfl rfl
    · exact Asking.touch stands is serial sequence rfl rfl
    · exact absurd (is.symm.trans stands) (Option.some_ne_none child)

end Touch

/-! ## The steps of the owner -/

theorem Inv.receive (h : Inv p s) (idle : s.pc = .idle) (c : Command) (queue : List Command) :
    Inv p (s.receive c queue) := by
  have stands := h.stands
  unfold Stands at stands
  rw [idle] at stands
  have same : Inv p { s with queue } := by
    refine ⟨h.attributed, h.known, fun child is => ⟨(h.kept child is).known, (h.kept child is).fresh⟩, ?_⟩
    unfold Stands
    dsimp only
    rw [idle]
    exact stands
  unfold Owner.receive
  split
  · next child is => exact same.beginRequest is (stands child is) c
  · next is =>
    refine ⟨h.attributed, h.known, ?_, is⟩
    intro child is'
    exact absurd (is'.symm.trans is) (Option.some_ne_none child)

/-- A number that no entry has yet. -/
theorem Inv.unused (h : Inv p s) : sent s.log s.spawned = 0 ∧ ¬ Retired s.log s.spawned := by
  constructor
  · unfold sent
    rw [List.countP_eq_zero]
    intro o mem began
    cases o with
    | started | wrote | read | answered => cases began
    | began serial requestId sequence =>
      have lt := h.known _ mem serial rfl
      have same : serial = s.spawned := beq_iff_eq.mp began
      omega
  · intro retired
    obtain ⟨newer, requestId, failure, older, split, o, mem, serial⟩ := retired
    have there : o ∈ s.log := by
      rw [split]
      exact List.mem_append_right _ (List.mem_cons_of_mem _ mem)
    exact Nat.lt_irrefl _ (h.known o there _ serial)

theorem Inv.spawn (h : Inv p s) (c : Command) : Inv p (s.spawn c) := by
  obtain ⟨none_, fresh⟩ := h.unused
  refine ⟨h.attributed.cons ?_, ?_, ?_, ?_⟩
  · intro o mem is
    exact Nat.lt_irrefl _ (h.known o mem s.spawned is)
  · intro o mem serial is
    rcases List.mem_cons.mp mem with rfl | old
    · cases is
      exact Nat.lt_succ_self _
    · exact Nat.lt_succ_of_lt (h.known o old serial is)
  · intro child is
    cases is
    refine ⟨Nat.lt_succ_self _, fun retired => fresh (retired_cons ?_ retired)⟩
    intro _ _ same
    cases same
  · exact ⟨_, rfl, rfl, (sent_started _ _ _).trans none_⟩

/-- An entry of the running request. -/
theorem Inv.note (h : Inv p s) {child : Child} (is : s.child = some child) {o : Obs}
    (entry : Entry p s.log o) (serial : o.serial = some child.serial) {s' : Owner}
    (log : s'.log = o :: s.log) (spawned : s'.spawned = s.spawned)
    (child' : ∀ child', s'.child = some child' → child'.serial = child.serial)
    (stands : Stands s') : Inv p s' := by
  have kept := h.kept child is
  have alive : ∀ requestId failure, o ≠ .answered requestId (.dead failure) := by
    rintro requestId failure rfl
    cases serial
  refine ⟨?_, ?_, ?_, stands⟩
  · rw [log]
    exact h.attributed.cons entry
  · rw [log, spawned]
    intro o' mem n known
    rcases List.mem_cons.mp mem with rfl | old
    · rw [serial] at known
      cases known
      exact kept.known
    · exact h.known o' old n known
  · intro other is'
    refine ⟨?_, ?_⟩
    · rw [child' other is', spawned]
      exact kept.known
    · rw [log, child' other is']
      exact fun retired => kept.fresh (retired_cons alive retired)

/-- The next entry of the request. -/
theorem Asking.note {c : Command} {sequence : Nat} {entries : Nat → List Obs} {child : Child}
    (h : Asking s c sequence entries) (is : s.child = some child) (o : Nat → Obs) {s' : Owner}
    {child' : Child} (is' : s'.child = some child') (serial : child'.serial = child.serial)
    (same : child'.sequence = child.sequence) (log : s'.log = o child.serial :: s.log) :
    Asking s' c sequence fun n => o n :: entries n := by
  obtain ⟨old, older, there, number, count, newest⟩ := h
  rw [is] at there
  cases there
  refine ⟨child', older, is', same.trans number, ?_, ?_⟩
  · rw [serial]
    exact count
  · rw [log, newest, serial]
    rfl

theorem Inv.written (h : Inv p s) {child : Child} (is : s.child = some child) {s' : Owner}
    (taken : s.written p child = some s') : Inv p s' := by
  have stands := h.stands
  unfold Stands at stands
  unfold Owner.written at taken
  split at taken
  · next c pc =>
    rw [pc] at stands
    cases taken
    split
    · exact h.dead c _
    · exact ⟨h.attributed, h.known, fun other is' => (h.kept other is').touch rfl rfl rfl,
        Starting.touch stands is rfl rfl is rfl⟩
  · next c sequence pc =>
    rw [pc] at stands
    cases taken
    split
    · exact h.dead c _
    · refine h.note is (o := .wrote child.serial) (h.kept child is).fresh rfl ?_ ?_ ?_ ?_
      · rfl
      · rfl
      · intro other is'
        rw [show s.child = some other from is'] at is
        cases is
        rfl
      · exact Asking.note stands is .wrote is rfl rfl rfl
  · cases taken

theorem Inv.fill (h : Inv p s) {child : Child} (is : s.child = some child) {size : Nat}
    {s' : Owner} (taken : s.fill child size = some s') : Inv p s' := by
  have stands := h.stands
  unfold Stands at stands
  unfold Owner.fill at taken
  dsimp only at taken
  split at taken
  · next c frame pc =>
    rw [pc] at stands
    split at taken
    · split at taken
      · cases taken
        exact h.dead c _
      · cases taken
    · cases taken
      split
      · exact h.dead c _
      · next frame' rest _ =>
        have touched := h.touch { child with stdout := rest } is rfl rfl
        refine ⟨h.attributed, h.known, fun other is' => (touched.kept other is').touch rfl rfl rfl,
          Starting.touch stands is ?_ ?_ rfl rfl⟩ <;> rfl
      · next frame' rest _ =>
        have touched := h.touch { child with stdout := rest } is rfl rfl
        refine ⟨h.attributed, h.known, fun other is' => (touched.kept other is').touch rfl rfl rfl,
          Starting.touch stands is ?_ ?_ rfl rfl⟩ <;> rfl
  · next c sequence frame pc =>
    rw [pc] at stands
    split at taken
    · split at taken
      · cases taken
        exact h.dead c _
      · cases taken
    · cases taken
      split
      · exact h.dead c _
      · next frame' rest _ =>
        have touched := h.touch { child with stdout := rest } is rfl rfl
        refine ⟨h.attributed, h.known, fun other is' => (touched.kept other is').touch rfl rfl rfl,
          Asking.touch stands is ?_ ?_ rfl rfl⟩ <;> rfl
      · next frame' rest _ =>
        refine h.note is (o := .read child.serial frame') (h.kept child is).fresh rfl ?_ ?_ ?_ ?_
        · rfl
        · rfl
        · intro other is'
          cases is'
          rfl
        · refine Asking.note stands is (.read · frame') rfl ?_ ?_ ?_ <;> rfl
  · cases taken

/-- The frame is judged a result for the request. -/
theorem judgeResult_ok {requestId : Text} {sequence : Nat} {bytes : Bytes} {frame : ResultFrame}
    (is : judgeResult p requestId sequence bytes = .ok frame) :
    p.parse (stripNewline bytes) = .ok (.result frame) ∧
      frame.matches p requestId sequence = true ∧
      (frame.status = text "error" → frame.error ≠ none) := by
  unfold judgeResult at is
  split at is
  · cases is
  · split at is <;> cases is
  · cases is
  · next frame' parsed =>
    split at is
    · cases is
    · next fits =>
      split at is
      · cases is
      · next complete =>
        cases is
        rw [Bool.not_eq_true', Bool.not_eq_false] at fits
        exact ⟨parsed, fits, fun error none_ => complete ⟨error, none_⟩⟩

theorem ResultFrame.matches_status {requestId : Text} {sequence : Nat} {frame : ResultFrame}
    (fits : frame.matches p requestId sequence = true) :
    frame.status = text "ok" ∨ frame.status = text "error" := by
  unfold ResultFrame.matches at fits
  rw [Bool.and_eq_true, Bool.or_eq_true, decide_eq_true_eq, decide_eq_true_eq] at fits
  exact fits.2

/-- A result answers its own request, and the session goes on with the next number. -/
theorem Inv.finishRequest (h : Inv p s) {child : Child} (is : s.child = some child) {c : Command}
    {sequence : Nat} {bytes : Bytes} (pc : s.pc = .requestFlush c sequence bytes) :
    Inv p (s.finishRequest p child c sequence bytes) := by
  have stands := h.stands
  unfold Stands at stands
  rw [pc] at stands
  obtain ⟨child', older, is', same, number, log⟩ := stands
  rw [is] at is'
  cases is'
  unfold Owner.finishRequest
  cases judged : judgeResult p c.requestId sequence bytes with
  | error failure => exact h.dead c failure
  | ok frame =>
    dsimp only
    obtain ⟨parsed, fits, complete⟩ := judgeResult_ok judged
    have exchange : Exchange p s.log c.requestId frame :=
      ⟨child.serial, sequence, bytes, older, log, parsed, fits⟩
    split
    · exact h.dead c _
    · have entry : Entry p s.log (.answered c.requestId
          (if frame.status = text "error" then
            .document (frame.error.getD (text "official persistent document failed"))
          else .ok)) := by
        by_cases failed : frame.status = text "error"
        · rw [if_pos failed]
          obtain ⟨error, there⟩ := Option.ne_none_iff_exists'.mp (complete failed)
          refine ⟨frame, exchange, failed, ?_⟩
          rw [there]
          rfl
        · rw [if_neg failed]
          exact ⟨frame, exchange, (ResultFrame.matches_status fits).resolve_right failed⟩
      have alive : ∀ requestId failure, Obs.answered c.requestId
          (if frame.status = text "error" then
            .document (frame.error.getD (text "official persistent document failed"))
          else .ok) ≠ .answered requestId (.dead failure) := by
        intro requestId failure equal
        split at equal <;> cases equal
      have kept := h.kept child is
      refine ⟨h.attributed.cons entry, ?_, ?_, ?_⟩
      · intro o mem serial known
        rcases List.mem_cons.mp mem with rfl | old
        · cases known
        · exact h.known o old serial known
      · intro other is'
        cases is'
        exact ⟨kept.known, fun retired => kept.fresh (retired_cons alive retired)⟩
      · intro other is'
        cases is'
        show min (child.sequence + 1) (2 ^ 64 - 1) =
          min (sent (_ :: s.log) child.serial + 1) (2 ^ 64 - 1)
        have count : sent s.log child.serial = sent older child.serial + 1 := by
          rw [log]
          unfold sent
          simp
        rw [sent_answered, count, same, number]
        omega

theorem Inv.finishStart (h : Inv p s) {child : Child} (is : s.child = some child) {c : Command}
    {bytes : Bytes} (pc : s.pc = .startFlush c bytes) : Inv p (s.finishStart p child c bytes) := by
  have stands := h.stands
  unfold Stands at stands
  rw [pc] at stands
  obtain ⟨child', is', one, none_⟩ := stands
  rw [is] at is'
  cases is'
  unfold Owner.finishStart
  split
  · exact h.dead c _
  · apply h.beginRequest is
    rw [one, none_]
    rfl

/-! ## Every run -/

/-- Only the queue or the shutdown flag changes. -/
theorem Inv.outside (h : Inv p s) (queue : List Command) (shutdown : Bool) :
    Inv p { s with queue, shutdown } := by
  refine ⟨h.attributed, h.known, fun other is => (h.kept other is).touch rfl rfl rfl, ?_⟩
  have stands := h.stands
  unfold Stands at stands ⊢
  dsimp only
  split <;> rename_i pc <;> rw [pc] at stands <;> exact stands

theorem step_inv {s' : Owner} {a : Action} (h : Inv p s) (taken : s.step p a = some s') :
    Inv p s' := by
  cases a with
  | submit c =>
    simp only [Owner.step] at taken
    split at taken
    · cases taken
      exact h.outside [c] s.shutdown
    · cases taken
  | requestShutdown =>
    cases taken
    exact h.outside s.queue true
  | emit bytes =>
    obtain ⟨child, is, same⟩ := Option.map_eq_some_iff.mp taken
    split at same
    · exact same ▸ h
    · exact same ▸ h.touch _ is rfl rfl
  | close | exit =>
    obtain ⟨child, is, same⟩ := Option.map_eq_some_iff.mp taken
    exact same ▸ h.touch _ is rfl rfl
  | receive =>
    simp only [Owner.step] at taken
    split at taken
    · next c queue idle _ =>
      cases taken
      exact h.receive idle c queue
    · cases taken
  | stop =>
    simp only [Owner.step] at taken
    split at taken
    · cases taken
      refine ⟨h.attributed, h.known, ?_, rfl⟩
      intro child is
      cases is
    · cases taken
  | spawnFailed message =>
    simp only [Owner.step] at taken
    split at taken
    · cases taken
      exact h.dead _ _
    · cases taken
  | spawn =>
    simp only [Owner.step] at taken
    split at taken
    · cases taken
      exact h.spawn _
    · cases taken
  | written =>
    obtain ⟨child, is, taken⟩ := Option.bind_eq_some_iff.mp taken
    exact h.written is taken
  | fill size =>
    obtain ⟨child, is, taken⟩ := Option.bind_eq_some_iff.mp taken
    exact h.fill is taken
  | flushed =>
    obtain ⟨child, is, taken⟩ := Option.bind_eq_some_iff.mp taken
    unfold Owner.flushed at taken
    split at taken
    · next pc =>
      cases taken
      exact h.finishStart is pc
    · next pc =>
      cases taken
      exact h.finishRequest is pc
    · cases taken
  | interrupt why =>
    simp only [Owner.step] at taken
    split at taken
    · cases taken
    · obtain ⟨child, is, taken⟩ := Option.bind_eq_some_iff.mp taken
      obtain ⟨c, -, same⟩ := Option.map_eq_some_iff.mp taken
      exact same ▸ h.dead c _

/-- **Results are never misattributed.** Whatever the worker emits and whenever an operation is cut
off: an answer `ok` is preceded, in one session, by its own request frame and the first frame read
after it, which is an `ok` result with that id and that number; every other answer but a document
error of that id retires all sessions that were started before it, also one whose handshake failed, so
that no later request is sent to one of them; and the requests of a session are numbered from one. -/
theorem persistent_attributed (p : Protocol) (s : Owner) (reach : (persistent p).Reachable s) :
    Attributed p s.log := by
  have inv : Inv p s := by
    apply Machine.Reachable.invariant inv_start _ reach
    intro t a t' r _ h taken
    obtain ⟨next, step, same⟩ := Option.map_eq_some_iff.mp taken
    cases same
    exact step_inv h step
  exact inv.attributed

/-- The bytes of a text of ASCII characters. -/
def ascii (s : String) : Bytes := s.toList.map fun c => UInt8.ofNat c.toNat

def readyFrame : Bytes := ascii (
  "\x7b\"type\":\"handshake\",\"protocol\":\"mineru-rs-official-worker/2\",\"status\":\"ready\"," ++
  "\"package_version\":\"4.0.12\",\"schema_version\":\"2.0\",\"max_in_flight\":1,\"capabilities\":\x7b\x7d\x7d")

def resultFrame : Bytes := ascii (
  "\x7b\"type\":\"result\",\"protocol\":\"mineru-rs-official-worker/2\",\"request_id\":\"7-0\"," ++
  "\"sequence\":1,\"status\":\"ok\",\"package_version\":\"4.0.12\",\"schema_version\":\"2.0\"," ++
  "\"bundle_name\":\"hybrid-v4\"\x7d")

/-- A protocol whose parser knows the two frames. -/
def twoFrames : Protocol where
  packageVersion := text "4.0.12"
  schemaVersion := text "2.0"
  isCapabilities _ := true
  startFrame := ascii "start"
  requestFrame _ _ := ascii "request"
  parse bytes :=
    if bytes = readyFrame then .ok (.handshake {
      frameType := text "handshake", protocol := persistentProtocol, status := text "ready",
      packageVersion := text "4.0.12", schemaVersion := text "2.0", maxInFlight := 1,
      capabilities := .object [], diagnostic := none })
    else if bytes = resultFrame then .ok (.result {
      frameType := text "result", protocol := persistentProtocol, requestId := text "7-0",
      sequence := 1, status := text "ok", packageVersion := text "4.0.12",
      schemaVersion := text "2.0", bundleName := Worker.bundleName, error := none,
      diagnostic := none })
    else .error "official persistent protocol JSON is invalid"

theorem ascii_ofList (t : List Char) :
    ascii (String.ofList t) = t.map fun c => UInt8.ofNat c.toNat := by
  rw [ascii, String.toList_ofList]

theorem ascii_append (s t : String) : ascii (s ++ t) = ascii s ++ ascii t := by
  unfold ascii
  rw [String.toList_append, List.map_append]

/-- One request that is answered. -/
def answeredRun : List Action :=
  [.submit ⟨text "7-0"⟩, .receive, .spawn, .written, .emit (readyFrame ++ [10]), .fill 8192, .flushed,
    .written, .emit (resultFrame ++ [10]), .fill 8192, .flushed]

/-- A request is answered by its own session. -/
theorem persistent_attributed_answered : ∃ s, (persistent twoFrames).Reachable s ∧
    s.log.head? = some (.answered (text "7-0") .ok) ∧ Attributed twoFrames s.log := by
  have run : ((persistent twoFrames).play .start answeredRun).bind (fun s => s.log.head?) =
      some (.answered (text "7-0") .ok) := by
    -- the frames as bytes, since decoding a literal of their length takes seconds
    have ready : readyFrame = _ :=
      (ascii_append _ _).trans (congrArg₂ (· ++ ·) (ascii_ofList _) (ascii_ofList _))
    have result : resultFrame = _ := (ascii_append _ _).trans (congrArg₂ (· ++ ·)
      ((ascii_append _ _).trans (congrArg₂ (· ++ ·) (ascii_ofList _) (ascii_ofList _))) (ascii_ofList _))
    unfold answeredRun twoFrames
    rw [ready, result]
    decide +kernel
  obtain ⟨s, played, newest⟩ := Option.bind_eq_some_iff.mp run
  have reach := Machine.Reachable.start.play played
  exact ⟨s, reach, newest, persistent_attributed twoFrames s reach⟩

end Mineru.Worker
