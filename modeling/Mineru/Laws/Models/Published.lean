import Mineru.Laws.Models.Calls

/-!
# What the model cache publishes

Over all orders of the steps of all tasks: an artifact has the bytes of the manifest or is as it was
before, requests go to approved hosts and are few, and no temporary file outlives its task. A lone
`verify_layout` on a disk with both artifacts can return `Ok`.

That a call of `ensure_layout` ends is not proved: the network may keep it waiting. The digests are
those of the parameter `sha256`, so nothing is said about what bytes have a pinned digest.
-/

set_option autoImplicit false

namespace Mineru.Models

open Logic

variable {w : World} {d₀ d : Disk} {t : Task}

/-! ## The invariant of all tasks -/

/-- Two tasks have different temporary files, before a step of one of them and behind it. -/
theorem Good.apart {u : Task} {o : Outcome} (good : Good w d₀ d t o) (sound : Sound w d₀ d)
    (theirs : Own w d₀ d u) (apart : Apart t u) : Apart o.2.1 u where
  temps a b mine has := by
    rcases good.temps a mine with before | new
    · exact apart.temps a b before has
    · have old := (theirs.held has).lt
      omega
  reads check i taken b pc has := by
    rcases good.reads check i taken pc with ⟨taken, before⟩ | ⟨slot, found⟩ | ⟨a, mine, rfl⟩
    · exact apart.reads check i taken b before has
    · exact sound.lookup_ne found (theirs.held has)
    · exact apart.temps a b mine has
  read check i taken a pc mine := by
    rcases good.temps a mine with before | new
    · exact apart.read check i taken a pc before
    · have ok := theirs.pc
      rw [pc] at ok
      have old := ok.2.1
      omega

theorem begins_cases {w : World} {t : Task} (begins : (code w).begins t = true) :
    t = ensureLayout t.policy ∨ t = verifyLayout t.policy := by
  simpa [code] using begins

/-- A new task relies on nothing yet. -/
theorem own_begins (begins : (code w).begins t = true) : Own w d₀ d t := by
  rcases begins_cases begins with same | same <;> rw [same]
  · refine ⟨trivial, fun slot ne mem => ?_, fun passive => ?_⟩
    · cases slot with
      | layout => exact absurd List.mem_cons_self mem
      | layoutConfig => exact absurd rfl ne
    · simpa [ensureLayout, Task.passive, Task.calm] using passive
  · refine ⟨trivial, fun slot ne mem => ?_, fun _ => rfl⟩
    cases slot with
    | layout => exact absurd rfl ne
    | layoutConfig => exact absurd List.mem_cons_self mem

theorem apart_begins {u : Task} (begins : (code w).begins t = true) : Apart t u := by
  have pc : t.pc.temp = none ∧ ∀ check i taken, t.pc ≠ .read check i taken := by
    rcases begins_cases begins with same | same <;> rw [same] <;>
      exact ⟨rfl, fun _ _ _ => nofun⟩
  refine ⟨fun a b mine _ => ?_, fun check i taken b same _ => absurd same (pc.2 check i taken),
    fun check i taken a _ mine => ?_⟩
  · rw [pc.1] at mine
    cases mine
  · rw [pc.1] at mine
    cases mine

/-- What holds of the disk, of each task and of each two tasks. -/
def invariant (w : World) (d₀ : Disk) : (code w).Invariant where
  shared := Sound w d₀
  own := Own w d₀
  apart := Apart
  symm := Apart.symm
  begins _ begins := ⟨own_begins begins, fun _ _ => apart_begins begins⟩
  step sound own taken :=
    have good := step_good sound own taken
    ⟨good.effect.sound sound own, good.own⟩
  other sound own theirs apart taken :=
    have good := step_good sound own taken
    ⟨theirs.other good.effect sound own apart, good.apart sound theirs apart⟩

theorem sound_start (w : World) (d : Disk) : Sound w d d where
  grows := Nat.le_refl _
  kept _ _ := rfl
  origin _ := .kept rfl
  single p _ i new there _ :=
    absurd (d.below p _ there i (List.mem_singleton.mpr rfl)) (Nat.not_lt.mpr new)

/-- The invariant of all tasks together, in every reachable state. It is the one of each task, and
that they are apart. -/
theorem holds {st : Threads Nat Disk Task} (reach : (machine w d).Reachable st) :
    (invariant w d).Holds st :=
  (invariant w d).holds (sound_start w d) reach

/-- A step of the machine, with what is known of the task. -/
theorem good_of_step {st st' : Threads Nat Disk Task} {k : Nat} {event : Event}
    {r : Option Reply} (now : (invariant w d).Holds st)
    (taken : (machine w d).step st (.run k event) = some (st', r)) :
    ∃ t t' reply, st.own.get k = some t ∧ Good w d st.shared t (st'.shared, t', reply) ∧
      st'.own = st.own.set k t' ∧ r = some reply := by
  obtain ⟨t, s', t', reply, found, step, rfl, same⟩ := Code.step_run taken
  exact ⟨t, t', reply, found, step_good now.shared (now.own k t found) step, rfl, same⟩

/-! ## Artifacts -/

/-- What is found at the path of an artifact is as at the start, with the same bytes. -/
structure Untouched (w : World) (d₀ d : Disk) (slot : Slot) : Prop where
  lookup : d.lookup (w.destination slot) = d₀.lookup (w.destination slot)
  content : ∀ i, d₀.lookup (w.destination slot) = .ok (some (.file i)) → d.content i = d₀.content i

/-- An artifact is genuine, or it is what was there at the start. -/
theorem Sound.artifact (sound : Sound w d₀ d) (slot : Slot) :
    Verified w d slot ∨ Untouched w d₀ d slot := by
  have above : ∀ q ∈ (w.destination slot).dropLast.inits, d.leaf q = d₀.leaf q := by
    intro q mem
    rw [destination_dropLast] at mem
    have short := length_of_mem_inits mem
    cases sound.origin q with
    | kept same => exact Disk.leaf_congr same
    | created _ _ vacant there =>
      rw [Disk.leaf_eq_none fun leaf => by rw [there]; simp,
        Disk.leaf_eq_none fun leaf => by rw [vacant]; simp]
    | temp other temp path _ _ _ =>
      rw [path, List.length_append, World.parent, artifactDir_length] at short
      simp at short
    | placed other _ path _ _ =>
      rw [path, destination_length] at short
      omega
  cases sound.origin (w.destination slot) with
  | kept same =>
    exact .inr ⟨Disk.lookup_congr same above, fun i found =>
      sound.kept i (Disk.lookup_file_lt found)⟩
  | created other mem _ _ =>
    have short := length_of_mem_inits mem
    rw [destination_length] at short
    omega
  | temp other temp path _ _ _ =>
    have names := List.singleton_inj.mp (List.append_inj' path rfl).2
    exact absurd names.symm (tempName_ne temp slot)
  | placed other i path there genuine =>
    obtain rfl := destination_injective path
    exact .inl ⟨i, Disk.lookup_file there, genuine⟩

/-- Once it is verified, an artifact stays verified. -/
theorem verified_stays {st st' : Threads Nat Disk Task} {history : List _}
    (reach : (machine w d).Reachable st) (run : (machine w d).Run st history st') {slot : Slot}
    (now : Verified w st.shared slot) : Verified w st'.shared slot := by
  refine (run.keeps (P := fun st => (invariant w d).Holds st ∧ Verified w st.shared slot)
    (fun st move st' r before taken => ?_) ⟨holds reach, now⟩).2
  refine ⟨(invariant w d).holds_step before.1 taken, ?_⟩
  cases move with
  | fork k t =>
    obtain ⟨-, -, rfl, -⟩ := Code.step_fork taken
    exact before.2
  | run k event =>
    obtain ⟨t, t', reply, found, good, -, -⟩ := good_of_step before.1 taken
    exact good.effect.verified before.1.shared (before.1.own k t found) before.2

/-- An empty disk, with the cache at its root. -/
def emptyDisk : Disk where
  tree := FileTree.ofNodes (Finmap.singleton [] .dir) rfl (by decide)
  content _ := []
  next := 0
  below p leaf there := by
    by_cases root : p = []
    · rw [root] at there
      cases there
    · have none : (Finmap.singleton [] Node.dir : Finmap fun _ : Path => Node Leaf).lookup p =
          Option.none := by
        rw [Finmap.lookup_eq_none, Finmap.mem_singleton]
        exact root
      cases none.symm.trans there

def plainWorld : World where
  root := []
  sha256 _ := []
  join _ _ := .error []
  statusText _ := []

/-- A call of `ensure_layout` up to its first request, beside one that is offline. -/
def firstRequest : List (Move Nat Task Event) :=
  [.fork 0 (ensureLayout .auto), .run 0 .go, .fork 1 (ensureLayout .offline), .run 0 .go,
    .run 0 .go, .run 1 .go, .run 0 .go, .run 0 .go, .run 0 .go, .run 0 .go,
    .run 0 (.suffix (text "aaaaaa")), .run 0 .go]

theorem firstRequest_plays :
    ((machine plainWorld emptyDisk).play (machine plainWorld emptyDisk).start firstRequest).isSome =
      true := by
  decide

/-- **An artifact is as at the start or has the bytes of the manifest**, in every run and at every
moment of it. After a call that returned `Ok` both artifacts have the bytes of the manifest, from
then on, whatever the other tasks do. -/
theorem artifacts_verified (w : World) (d : Disk) {history : List (Move Nat Task Event × Option Reply)}
    {st : Threads Nat Disk Task} (run : (machine w d).Run (machine w d).start history st) :
    (∀ slot, Verified w st.shared slot ∨ Untouched w d st.shared slot) ∧
      ∀ move path, (move, some (.returned (.ok path))) ∈ history →
        path = w.destination .layout ∧ ∀ slot, Verified w st.shared slot := by
  refine ⟨(holds ⟨_, run⟩).shared.artifact, fun move path mem => ?_⟩
  obtain ⟨u, v, before, after, -, first, taken, rest⟩ := run.exists_step mem
  have reach : (machine w d).Reachable u := ⟨_, first⟩
  cases move with
  | fork k t =>
    obtain ⟨-, -, -, same⟩ := Code.step_fork taken
    cases same
  | run k event =>
    obtain ⟨t, t', reply, -, good, -, same⟩ := good_of_step (holds reach) taken
    cases same
    exact ⟨good.reply.1, fun slot => verified_stays (reach.step taken) rest (good.reply.2 slot)⟩

/-! ## A lone call -/

/-- A run with these answers leads to this disk and this task, the first one. -/
def Leads (w : World) (d₀ d : Disk) (t : Task) (history : List (Move Nat Task Event × Option Reply)) :
    Prop :=
  ∃ st, (machine w d₀).Run (machine w d₀).start history st ∧ st.shared = d ∧ st.own.get 0 = some t

theorem leads_begins (begins : (code w).begins t = true) :
    Leads w d d t [(.fork 0 t, none)] := by
  have fork : (machine w d).step (machine w d).start (.fork 0 t) =
      some (⟨d, (∅ : Table Nat Task).set 0 t⟩, none) := by
    refine if_pos ?_
    rw [begins]
    rfl
  exact ⟨_, (Machine.Run.refl _).snoc fork, rfl, (Table.get_set _ _ _ _).trans (if_pos rfl)⟩

/-- A run of one task is continued by one event. -/
theorem Leads.step {history : List (Move Nat Task Event × Option Reply)} {d' : Disk} {t' : Task}
    {event : Event} {r : Reply} (leads : Leads w d₀ d t history)
    (taken : Models.step w d t event = some (d', t', r)) :
    Leads w d₀ d' t' (history ++ [(.run 0 event, some r)]) := by
  obtain ⟨st, run, rfl, own⟩ := leads
  have next : (machine w d₀).step st (.run 0 event) =
      some (⟨d', st.own.set 0 t'⟩, some r) := by
    show ((st.own.get 0).bind fun t => ((code w).step st.shared t event).map fun (s, t, r) =>
      (({ shared := s, own := st.own.set 0 t } : Threads Nat Disk Task), some r)) = _
    rw [own, Option.bind_some, show (code w).step st.shared t event = _ from taken]
    rfl
  exact ⟨_, run.snoc next, rfl, (Table.get_set _ _ _ _).trans (if_pos rfl)⟩

/-- A file with the bytes of the manifest is read to its end. -/
theorem step_read {check : Check} {inode n : Nat} (pinned : (d.content inode).length = t.slot.artifact.size)
    (more : n < (d.content inode).length) (pc : t.pc = .read check inode ((d.content inode).take n)) :
    Models.step w d t (.chunk 1) =
      some (d, t.goto (.read check inode ((d.content inode).take (n + 1))), .silent) := by
  have going : t.pc.isOver = false := by rw [pc]; rfl
  unfold Models.step
  rw [going, if_neg Bool.false_ne_true, pc]
  show t.read w d check inode _ 1 = _
  unfold Task.read
  have short : ((d.content inode).take n).length = n := List.length_take_of_le more.le
  dsimp only
  rw [short, if_neg Nat.one_ne_zero, if_pos (by omega), List.take_add]
  rfl

/-- An open file is read to its end, byte by byte. -/
theorem leads_read {history : List (Move Nat Task Event × Option Reply)} {check : Check} {inode : Nat}
    (pinned : (d.content inode).length = t.slot.artifact.size)
    (leads : Leads w d₀ d (t.goto (.read check inode [])) history) {n : Nat}
    (within : n ≤ (d.content inode).length) :
    ∃ later, Leads w d₀ d (t.goto (.read check inode ((d.content inode).take n))) (history ++ later) := by
  induction n with
  | zero => exact ⟨[], by rwa [List.append_nil]⟩
  | succ n ih =>
    obtain ⟨later, here⟩ := ih (Nat.le_of_succ_le within)
    have next := here.step (step_read pinned within rfl)
    rw [List.append_assoc] at next
    exact ⟨_, next⟩

/-- A verified artifact is opened and read, and found. -/
theorem leads_found {history : List (Move Nat Task Event × Option Reply)}
    (there : Verified w d t.slot) (leads : Leads w d₀ d (t.goto (.stat .verify)) history) :
    ∃ later inode bytes, Leads w d₀ d (t.goto (.read .verify inode bytes)) (history ++ later) ∧
      Models.step w d (t.goto (.read .verify inode bytes)) (.chunk 0) =
        some ((t.goto (.read .verify inode bytes)).found w d) := by
  obtain ⟨inode, found, genuine⟩ := there
  have pinned : (d.content inode).length = t.slot.artifact.size := by
    unfold World.genuine at genuine
    rw [Bool.and_eq_true, beq_iff_eq] at genuine
    exact genuine.1
  have stat : Models.step w d (t.goto (.stat .verify)) .go =
      some (d, t.goto (.openFile .verify), .silent) := by
    show some ((t.goto (.stat .verify)).stat w d .verify) = _
    unfold Task.stat
    rw [show d.lookup (Check.path w (t.goto (.stat .verify)).slot .verify) = _ from found]
    dsimp only
    rw [if_neg (not_not.mpr
      (show (d.content inode).length = (t.goto (.stat .verify)).slot.artifact.size from pinned))]
    rfl
  have opens : Models.step w d (t.goto (.openFile .verify)) .go =
      some (d, t.goto (.read .verify inode []), .silent) := by
    show some ((t.goto (.openFile .verify)).openFile w d .verify) = _
    unfold Task.openFile
    rw [show d.lookup (Check.path w (t.goto (.openFile .verify)).slot .verify) = _ from found]
    rfl
  obtain ⟨later, whole⟩ := leads_read pinned ((leads.step stat).step opens) (Nat.le_refl _)
  rw [List.take_length, List.append_assoc, List.append_assoc] at whole
  refine ⟨_, inode, d.content inode, whole, ?_⟩
  show (t.goto (.read .verify inode (d.content inode))).read w d .verify inode _ 0 = _
  unfold Task.read
  dsimp only
  rw [if_pos rfl, Nat.sub_self, Nat.min_zero, if_pos rfl]
  show some ((t.goto (.read .verify inode (d.content inode))).conclude w d .verify
    (w.genuine t.slot (d.content inode))) = _
  rw [genuine]
  rfl

/-- On a disk with both artifacts, a lone `verify_layout` can return the path of the layout model. -/
theorem verifyLayout_returns (there : ∀ slot, Verified w d slot) (policy : DownloadPolicy) :
    ∃ history st, (machine w d).Run (machine w d).start history st ∧
      ∃ move, (move, some (.returned (.ok (w.destination .layout)))) ∈ history := by
  have begins : (code w).begins (verifyLayout policy) = true := by simp [code, verifyLayout]
  obtain ⟨later, inode, bytes, whole, found⟩ :=
    leads_found (t := verifyLayout policy) (there .layout) (leads_begins begins)
  let second : Task := { verifyLayout policy with slot := .layoutConfig, rest := [] }
  have next : Leads w d d (second.goto (.stat .verify)) _ := whole.step found
  obtain ⟨later', inode', bytes', whole', found'⟩ :=
    leads_found (t := second) (there .layoutConfig) next
  obtain ⟨st, run, -⟩ := whole'.step found'
  exact ⟨_, st, run, _, List.mem_append_right _ (List.mem_singleton_self _)⟩

/-! ## A disk with both artifacts -/

def hexValue (c : Char) : Nat := if c.isDigit then c.toNat - 48 else c.toNat - 87

/-- The bytes of a digest in hexadecimal digits. -/
def unhex : Text → Bytes
  | high :: low :: rest => UInt8.ofNat (16 * hexValue high + hexValue low) :: unhex rest
  | _ => []

/-- The pinned digests are spelled in hexadecimal, so there are bytes for them. -/
theorem hexDigest_unhex (slot : Slot) :
    hexDigest (unhex slot.artifact.sha256) = slot.artifact.sha256 := by
  cases slot <;> decide

/-- A world in which bytes have the digest of the artifact of their size. -/
def pinnedWorld : World where
  root := []
  sha256 bytes := unhex (if bytes.length = Slot.layout.artifact.size then
    Slot.layout.artifact.sha256 else Slot.layoutConfig.artifact.sha256)
  join _ _ := .error []
  statusText _ := []

def zeros (slot : Slot) : Bytes := List.replicate slot.artifact.size 0

theorem genuine_zeros (slot : Slot) : pinnedWorld.genuine slot (zeros slot) = true := by
  have length : (zeros slot).length = slot.artifact.size := List.length_replicate
  unfold World.genuine pinnedWorld
  dsimp only
  rw [length, beq_self_eq_true, Bool.true_and, beq_iff_eq]
  cases slot
  · rw [if_pos rfl, hexDigest_unhex]
  · rw [if_neg (by decide), hexDigest_unhex]

/-- The directories and the two empty files. -/
def emptyArtifacts : Option Disk := do
  let d ← (pinnedWorld.parent .layout).inits.tail.foldlM Disk.createDir emptyDisk
  let d ← d.createDir (pinnedWorld.parent .layoutConfig)
  let d ← d.createFile (pinnedWorld.destination .layout)
  d.createFile (pinnedWorld.destination .layoutConfig)

theorem emptyArtifacts_there : emptyArtifacts.any (fun d =>
    d.content 0 = [] ∧ d.content 1 = [] ∧
      d.lookup (pinnedWorld.destination .layout) = .ok (some (.file 0)) ∧
      d.lookup (pinnedWorld.destination .layoutConfig) = .ok (some (.file 1))) = true := by
  decide +kernel

theorem pinned_disk : ∃ d, ∀ slot, Verified pinnedWorld d slot := by
  obtain ⟨d, -, there⟩ := (Option.any_eq_true _ _).mp emptyArtifacts_there
  obtain ⟨first, second, layout, config⟩ := of_decide_eq_true there
  refine ⟨(d.append 0 (zeros .layout)).append 1 (zeros .layoutConfig), fun slot => ?_⟩
  cases slot with
  | layout =>
    refine ⟨0, layout, ?_⟩
    have whole : ((d.append 0 (zeros .layout)).append 1 (zeros .layoutConfig)).content 0 =
        zeros .layout := by
      simp [Disk.append, first]
    rw [whole]
    exact genuine_zeros .layout
  | layoutConfig =>
    refine ⟨1, config, ?_⟩
    have whole : ((d.append 0 (zeros .layout)).append 1 (zeros .layoutConfig)).content 1 =
        zeros .layoutConfig := by
      simp [Disk.append, second]
    rw [whole]
    exact genuine_zeros .layoutConfig

/-- A lone `verify_layout` reads both artifacts to their ends and returns `Ok`. -/
theorem artifacts_verified_returned : ∃ d history st move path,
    (machine pinnedWorld d).Run (machine pinnedWorld d).start history st ∧
      (move, some (.returned (.ok path))) ∈ history ∧
      path = pinnedWorld.destination .layout ∧ ∀ slot, Verified pinnedWorld st.shared slot := by
  obtain ⟨d, there⟩ := pinned_disk
  obtain ⟨history, st, run, move, mem⟩ := verifyLayout_returns there .auto
  exact ⟨d, history, st, move, _, run, mem, (artifacts_verified pinnedWorld d run).2 move _ mem⟩

/-! ## Requests -/

/-- The requests that a task sends at most for one artifact: one for each hop of its download. -/
def Task.allowance (t : Task) : Nat := if t.passive then 0 else maxRedirects + 1

/-- What is left of the allowance for an artifact. -/
def Task.budget (slot : Slot) (t : Task) : Nat := if t.passive then 0 else t.requests slot

/-- A task begins with no more requests ahead of it than its allowance. -/
theorem budget_begins (slot : Slot) (begins : (code w).begins t = true) :
    t.budget slot ≤ t.allowance := by
  unfold Task.budget Task.allowance
  split
  · exact Nat.le_refl _
  · rcases begins_cases begins with same | same <;> rw [same] <;> cases slot <;>
      exact Nat.le_of_ble_eq_true rfl

/-- Each request is paid from the budget of its slot, and no step adds to it. -/
theorem Good.pays {o : Outcome} (good : Good w d₀ d t o) (slot : Slot) :
    o.2.2.requests slot + o.2.1.budget slot ≤ t.budget slot ∧ o.2.1.allowance = t.allowance := by
  unfold Task.budget Task.allowance
  rw [good.passive]
  refine ⟨?_, rfl⟩
  split
  · rename_i passive
    rw [(good.rests passive).2]
  · exact good.requests slot

/-- A run in which only passive tasks begin changes nothing. -/
theorem passive_run {history : List (Move Nat Task Event × Option Reply)}
    {st : Threads Nat Disk Task} (run : (machine w d).Run (machine w d).start history st)
    (begins : ∀ k t r, (Move.fork k t, r) ∈ history → t.passive = true) :
    st.shared = d ∧ ∀ k t, st.own.get k = some t → t.passive = true := by
  generalize first : (machine w d).start = s₀ at run
  induction run with
  | refl =>
    subst first
    exact ⟨rfl, fun _ _ found => nomatch found⟩
  | @snoc st st' history move r run taken ih =>
    subst first
    obtain ⟨same, tasks⟩ := ih fun k t r mem => begins k t r (List.mem_append_left _ mem)
    cases move with
    | fork j u =>
      obtain ⟨-, -, rfl, -⟩ := Code.step_fork taken
      refine ⟨same, fun k t found => ?_⟩
      rw [Table.get_set] at found
      split at found
      · cases found
        exact begins j _ r (List.mem_append_right _ (List.mem_singleton.mpr rfl))
      · exact tasks k t found
    | run j event =>
      obtain ⟨u, u', reply, there, good, own, -⟩ := good_of_step (holds ⟨_, run⟩) taken
      have passive := tasks j u there
      refine ⟨(good.rests passive).1.trans same, fun k t found => ?_⟩
      rw [own, Table.get_set] at found
      split at found
      · cases found
        exact good.passive.trans passive
      · exact tasks k t found

/-- In every run, every request goes to an approved URL, a task sends at most `maxRedirects + 1` for each
artifact, and none if it is offline or only verifies; if there are only such tasks, the disk stays as
it is. -/
theorem requests_approved (w : World) (d : Disk)
    {history : List (Move Nat Task Event × Option Reply)} {st : Threads Nat Disk Task}
    (run : (machine w d).Run (machine w d).start history st) :
    (∀ move slot url, (move, some (.sent slot url)) ∈ history → approved url = true) ∧
      (∀ k t, st.own.get k = some t →
        ∀ slot, ((Code.repliesOf k history).map (Reply.requests slot)).sum ≤ t.allowance) ∧
      ((∀ k t r, (Move.fork k t, r) ∈ history → t.passive = true) → st.shared = d) := by
  refine ⟨fun move slot url mem => ?_, fun k t found slot => ?_, fun begins => (passive_run run begins).1⟩
  · obtain ⟨u, v, before, after, -, first, taken, -⟩ := run.exists_step mem
    cases move with
    | fork k t =>
      obtain ⟨-, -, -, same⟩ := Code.step_fork taken
      cases same
    | run k event =>
      obtain ⟨t, t', reply, -, good, -, same⟩ := good_of_step (holds ⟨_, first⟩) taken
      cases same
      exact good.reply
  · refine (Nat.le_add_right _ (t.budget slot)).trans ?_
    refine Code.cost_le (invariant w d) (sound_start w d) (Reply.requests slot) (Task.budget slot)
      Task.allowance (fun t begins => budget_begins slot begins) (fun s t a s' t' r sound own taken => ?_) run found
    exact (step_good sound own taken).pays slot

/-- A task sends its first request. -/
theorem requests_approved_request :
    ∃ (history : List (Move Nat Task Event × Option Reply)) (st : Threads Nat Disk Task),
    history.map Prod.fst = firstRequest ∧
      (∀ move slot url, (move, some (.sent slot url)) ∈ history → approved url = true) ∧
      (∀ k t, st.own.get k = some t →
        ∀ slot, ((Code.repliesOf k history).map (Reply.requests slot)).sum ≤ t.allowance) ∧
      ((∀ k t r, (Move.fork k t, r) ∈ history → t.passive = true) → st.shared = emptyDisk) := by
  obtain ⟨st, played⟩ := Option.isSome_iff_exists.mp firstRequest_plays
  obtain ⟨history, run, moves⟩ := Machine.Run.of_play played
  exact ⟨history, st, moves, requests_approved plainWorld emptyDisk run⟩

/-! ## Temporary files -/

theorem parent_injective {slot slot' : Slot} (same : w.parent slot = w.parent slot') :
    slot = slot' := by
  have hashes : slot.artifact.sha256 = slot'.artifact.sha256 := by
    have parts := List.append_cancel_left same
    simpa using parts
  cases slot with
  | layout =>
    cases slot' with
    | layout => rfl
    | layoutConfig => exact absurd hashes (by decide)
  | layoutConfig =>
    cases slot' with
    | layout => exact absurd hashes (by decide)
    | layoutConfig => rfl

/-- A file is from the start, an artifact, or the temporary file of a task. -/
def Accounted (w : World) (d : Disk) (st : Threads Nat Disk Task) : Prop :=
  ∀ p i, st.shared.tree.get p = some (.leaf (.file i)) →
    d.tree.get p = some (.leaf (.file i)) ∨ (∃ slot, p = w.destination slot) ∨
      ∃ k t a, st.own.get k = some t ∧ t.pc.temp = some a ∧ p = t.tempPath w a

/-- A step leaves no temporary file that is not accounted for by a task that still has it, or was
killed. -/
theorem accounted_step {st st' : Threads Nat Disk Task} {move : Move Nat Task Event}
    {r : Option Reply} (now : (invariant w d).Holds st) (before : Accounted w d st)
    (taken : (machine w d).step st move = some (st', r)) : Accounted w d st' := by
  cases move with
  | fork j u =>
    obtain ⟨-, vacant, rfl, -⟩ := Code.step_fork taken
    intro p i there
    rcases before p i there with start | artifact | ⟨k, t, a, found, has, path⟩
    · exact .inl start
    · exact .inr (.inl artifact)
    · refine .inr (.inr ⟨k, t, a, ?_, has, path⟩)
      rw [Table.get_set, if_neg]
      · exact found
      · rintro rfl
        rw [vacant] at found
        cases found
  | run j event =>
    obtain ⟨u, u', reply, mine, good, own, -⟩ := good_of_step now taken
    intro p i there
    rcases good.made p i there with old | artifact | ⟨a, has, path⟩
    · rcases before p i old with start | artifact | ⟨k, t, a, found, has, path⟩
      · exact .inl start
      · exact .inr (.inl artifact)
      · by_cases same : k = j
        · subst same
          obtain rfl := Option.some.inj (mine.symm.trans found)
          rcases good.left a has with ⟨still, slot⟩ | gone
          · refine .inr (.inr ⟨k, u', a, ?_, still, ?_⟩)
            · rw [own, Table.get_set, if_pos rfl]
            · rw [path, Task.tempPath, Task.tempPath, slot]
          · rw [path] at there
            have absent := gone.symm.trans there
            cases absent
        · refine .inr (.inr ⟨k, t, a, ?_, has, path⟩)
          rw [own, Table.get_set, if_neg same]
          exact found
    · exact .inr (.inl artifact)
    · refine .inr (.inr ⟨j, u', a, ?_, has, path⟩)
      rw [own, Table.get_set, if_pos rfl]

/-- Every temporary file on the disk belongs to a task, in every reachable state. -/
theorem files_accounted {st : Threads Nat Disk Task} (reach : (machine w d).Reachable st) :
    Accounted w d st := by
  refine (reach.invariant (P := fun st => (invariant w d).Holds st ∧ Accounted w d st) ?_
    fun st move st' r _ before taken => ?_).2
  · exact ⟨holds Machine.Reachable.start, fun p i there => .inl there⟩
  · exact ⟨(invariant w d).holds_step before.1 taken, accounted_step before.1 before.2 taken⟩

/-- The temporary file of a task is no larger than the artifact. -/
theorem Own.temp_fits (own : Own w d₀ d t) (sound : Sound w d₀ d) {a : Temp}
    (has : t.pc.temp = some a) : (d.content a.inode).length ≤ t.slot.artifact.size := by
  have held := own.held has
  cases sound.origin (t.tempPath w a) with
  | kept same =>
    have empty := held.vacant sound
    rw [← same, Task.tempPath, held.there] at empty
    cases empty
  | created _ _ _ there =>
    rw [Task.tempPath, held.there] at there
    cases there
  | temp slot b path _ there fits =>
    obtain rfl := parent_injective (List.append_inj' path rfl).1
    have same := Leaf.file.inj (Node.leaf.inj (Option.some.inj (held.there.symm.trans there)))
    rw [same]
    exact fits
  | placed slot _ path _ _ => exact absurd path (tempPath_ne t a slot)

/-- In every reachable state, what stands at a path is as at the start, with the bytes of a file that was
there, a new directory above an artifact, an artifact with the bytes of the manifest, or the temporary
file of a task, which is no larger than its artifact. -/
theorem nothing_left (w : World) (d : Disk) {st : Threads Nat Disk Task}
    (reach : (machine w d).Reachable st) (p : Path) :
    (st.shared.tree.get p = d.tree.get p ∧
        ∀ i, d.tree.get p = some (.leaf (.file i)) → st.shared.content i = d.content i) ∨
      (d.tree.get p = none ∧ st.shared.tree.get p = some .dir ∧
        ∃ slot, p ∈ (w.parent slot).inits) ∨
      (∃ slot, p = w.destination slot ∧ Verified w st.shared slot) ∨
      ∃ k t a, st.own.get k = some t ∧ t.pc.temp = some a ∧ p = t.tempPath w a ∧
        (st.shared.content a.inode).length ≤ t.slot.artifact.size := by
  have now := holds reach
  cases now.shared.origin p with
  | kept same =>
    exact .inl ⟨same, fun i old =>
      now.shared.kept i (d.below p _ old i (List.mem_singleton.mpr rfl))⟩
  | created slot mem vacant there => exact .inr (.inl ⟨vacant, there, slot, mem⟩)
  | placed slot i path there genuine =>
    rw [path] at there
    exact .inr (.inr (.inl ⟨slot, path, i, Disk.lookup_file there, genuine⟩))
  | temp slot temp path vacant there fits =>
    rcases files_accounted reach p temp.inode there with start | ⟨other, artifact⟩ |
      ⟨k, t, a, found, has, own_path⟩
    · rw [vacant] at start
      cases start
    · have names := List.singleton_inj.mp (List.append_inj' (path.symm.trans artifact) rfl).2
      exact absurd names (tempName_ne temp other)
    · exact .inr (.inr (.inr ⟨k, t, a, found, has, own_path,
        (now.own k t found).temp_fits now.shared has⟩))

/-- In the middle of its download the task has its temporary file, and nothing else is new but
directories. -/
theorem nothing_left_request : ∃ st,
    (machine plainWorld emptyDisk).play (machine plainWorld emptyDisk).start firstRequest = some st ∧
      ∀ p, (st.shared.tree.get p = emptyDisk.tree.get p ∧ ∀ i,
          emptyDisk.tree.get p = some (.leaf (.file i)) →
            st.shared.content i = emptyDisk.content i) ∨
        (emptyDisk.tree.get p = none ∧ st.shared.tree.get p = some .dir ∧
          ∃ slot, p ∈ (plainWorld.parent slot).inits) ∨
        (∃ slot, p = plainWorld.destination slot ∧ Verified plainWorld st.shared slot) ∨
        ∃ k t a, st.own.get k = some t ∧ t.pc.temp = some a ∧ p = t.tempPath plainWorld a ∧
          (st.shared.content a.inode).length ≤ t.slot.artifact.size := by
  obtain ⟨st, played⟩ := Option.isSome_iff_exists.mp firstRequest_plays
  exact ⟨st, played, nothing_left plainWorld emptyDisk (Machine.Reachable.start.play played)⟩

end Mineru.Models
