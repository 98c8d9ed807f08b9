import Mineru.Laws.Models.Cache

/-!
# The calls of a task

One lemma for each call of `cache.rs`: what the step does to the disk is an `Effect`, the task can
still rely on what it relied on, and what it replies is true. `step_good` puts them together.

What a task relies on is in `Own`: it is about the files that only this task writes, and about those
that it has open. An answer about a path that another task can replace is never relied on at a later
call. A passive task, which is offline or only verifies, writes nothing and sends nothing.

The calls take place one at a time, in any order among the tasks. What a call may answer is in
`World`, failures included.
-/

set_option autoImplicit false

namespace Mineru.Models

open Logic

variable {w : World} {d₀ d d' : Disk} {t t' : Task}

/-! ## Requests -/

/-- The requests that a call may still send before it has its artifact. -/
def Check.requests : Check → Nat
  | .present => maxRedirects + 1
  | .downloaded _ | .winner _ | .placed | .verify => 0

def Pc.requests : Pc → Nat
  | .stat check | .openFile check | .read check _ _ => check.requests
  | .createDirs _ | .statParent | .newTemp => maxRedirects + 1
  | .send _ _ redirects => maxRedirects + 1 - redirects
  | .answer _ _ redirects => maxRedirects - redirects
  | .reopen _ | .receive _ _ | .sync _ | .persist _ | .ended | .killed _ => 0

/-- For one artifact: what the present call may still send, and all for an artifact that is to come. -/
def Task.requests (slot : Slot) (t : Task) : Nat :=
  (if t.slot = slot then t.pc.requests else 0) + (maxRedirects + 1) * t.rest.count slot

def Reply.requests (slot : Slot) : Reply → Nat
  | .sent asked _ => if asked = slot then 1 else 0
  | .silent | .returned _ => 0

/-- What a reply promises. -/
def ReplyOk (w : World) (d : Disk) : Reply → Prop
  | .sent _ url => approved url = true
  | .returned (.ok path) => path = w.destination .layout ∧ ∀ slot, Verified w d slot
  | .silent | .returned (.error _) => True

/-! ## Every call keeps what its task relies on -/

/-- What a step comes to. -/
structure Good (w : World) (d₀ d : Disk) (t : Task) (o : Outcome) : Prop where
  effect : Effect w d t o.1
  own : Own w d₀ o.1 o.2.1
  reply : ReplyOk w o.1 o.2.2
  temps : ∀ a, o.2.1.pc.temp = some a → t.pc.temp = some a ∨ a.inode = d.next
  reads : ∀ check i taken, o.2.1.pc = .read check i taken →
    (∃ taken, t.pc = .read check i taken) ∨
      (∃ slot, d.lookup (w.destination slot) = .ok (some (.file i))) ∨
      ∃ a, t.pc.temp = some a ∧ a.inode = i
  requests : ∀ slot, o.2.2.requests slot + o.2.1.requests slot ≤ t.requests slot
  passive : o.2.1.passive = t.passive
  rests : t.passive = true → o.1 = d ∧ ∀ slot, o.2.2.requests slot = 0
  left : ∀ a, t.pc.temp = some a → (o.2.1.pc.temp = some a ∧ o.2.1.slot = t.slot) ∨
    o.1.tree.get (t.tempPath w a) = none
  made : ∀ p i, o.1.tree.get p = some (.leaf (.file i)) → d.tree.get p = some (.leaf (.file i)) ∨
    (∃ slot, p = w.destination slot) ∨ ∃ a, o.2.1.pc.temp = some a ∧ p = o.2.1.tempPath w a

/-- The task is in one of the calls of `verified_file`. -/
def Task.At (t : Task) (check : Check) : Prop :=
  t.pc = .stat check ∨ t.pc = .openFile check ∨ ∃ i taken, t.pc = .read check i taken

namespace Task.At

variable {check : Check}

/-- A check that is under way holds no temporary file of its own, but that of the download it
belongs to. -/
theorem temp (at_ : t.At check) : t.pc.temp = check.temp := by
  rcases at_ with pc | pc | ⟨i, taken, pc⟩ <;> rw [pc] <;> rfl

theorem requests (at_ : t.At check) : t.pc.requests = check.requests := by
  rcases at_ with pc | pc | ⟨i, taken, pc⟩ <;> rw [pc] <;> rfl

theorem ok (at_ : t.At check) (own : Own w d₀ d t) : CheckOk w d₀ d t.slot check := by
  have ok := own.pc
  rcases at_ with pc | pc | ⟨i, taken, pc⟩
  · rw [pc] at ok
    exact ok
  · rw [pc] at ok
    exact ok
  · rw [pc] at ok
    exact ok.1

theorem calm (at_ : t.At check) (own : Own w d₀ d t) (passive : t.passive = true) :
    check = .verify ∨ check = .present ∧ t.policy = .offline := by
  have calm := own.calm passive
  unfold Task.calm at calm
  rcases at_ with pc | pc | ⟨i, taken, pc⟩ <;> rw [pc] at calm <;>
    cases check <;> simp_all

end Task.At

theorem requests_le {pc : Pc} (le : pc.requests ≤ t.pc.requests)
    (slot : Slot) : (0 : Nat) + (t.goto pc).requests slot ≤ t.requests slot := by
  change 0 + ((if t.slot = slot then pc.requests else 0) + (maxRedirects + 1) * t.rest.count slot) ≤
    (if t.slot = slot then t.pc.requests else 0) + (maxRedirects + 1) * t.rest.count slot
  split <;> omega

/-- The sizes of the manifest leave room for the one byte by which a file is found too long. -/
theorem size_lt (slot : Slot) : slot.artifact.size < 2 ^ 64 - 1 := by
  cases slot <;> decide

section Calls

variable (sound : Sound w d₀ d) (own : Own w d₀ d t)

include sound own

omit sound in
theorem Own.temp_none (passive : t.passive = true) : t.pc.temp = none := by
  have calm := own.calm passive
  unfold Task.calm at calm
  split at calm <;> simp_all [Pc.temp, Check.temp]

omit sound in
/-- A passive task has no temporary file, and leaves the disk alone. -/
theorem Task.dropTemp_rests (passive : t.passive = true) : t.dropTemp w d = d := by
  unfold Task.dropTemp
  rw [own.temp_none passive]

omit sound in
/-- Behind the end of a task there is no temporary file of it. -/
theorem Task.dropTemp_get {a : Temp} (has : t.pc.temp = some a) :
    (t.dropTemp w d).tree.get (t.tempPath w a) = none := by
  obtain ⟨d', made⟩ := Disk.removeFile_isSome (own.held has).there
  unfold Task.dropTemp
  rw [has]
  change ((d.removeFile (t.tempPath w a)).getD d).tree.get _ = none
  rw [show d.removeFile (t.tempPath w a) = some d' from made, Option.getD_some,
    Disk.get_removeFile made]
  exact if_pos rfl

omit sound own in
/-- The end of a task removes no other file. -/
theorem Task.dropTemp_files (w : World) (d : Disk) (t : Task) (p : Path) (i : Nat)
    (there : (t.dropTemp w d).tree.get p = some (.leaf (.file i))) :
    d.tree.get p = some (.leaf (.file i)) := by
  unfold Task.dropTemp at there
  split at there
  · rename_i a _
    cases made : d.removeFile (t.tempPath w a) with
    | none =>
      rw [made] at there
      exact there
    | some d' =>
      rw [made, Option.getD_some, Disk.get_removeFile made] at there
      split at there
      · cases there
      · exact there
  · exact there

/-- A result is good news only when all artifacts are verified at this moment. -/
theorem Task.finish_good {result : Except ModelError Path}
    (ok : ∀ p, result = .ok p → p = w.destination .layout ∧ ∀ slot, Verified w d slot) :
    Good w d₀ d t (t.finish w d result) where
  effect := t.dropTemp_effect w d
  own :=
    { pc := trivial
      done := fun slot ne mem => (t.dropTemp_effect w d).verified sound own (own.done slot ne mem)
      calm := fun _ => rfl }
  reply := by
    cases result with
    | error => trivial
    | ok p =>
      obtain ⟨path, done⟩ := ok p rfl
      exact ⟨path, fun slot => (t.dropTemp_effect w d).verified sound own (done slot)⟩
  temps := fun _ has => nomatch has
  reads := fun _ _ _ pc => nomatch pc
  requests := requests_le (Nat.zero_le _)
  passive := rfl
  rests passive := ⟨Task.dropTemp_rests own passive, fun _ => rfl⟩
  left _ has := .inr (Task.dropTemp_get own has)
  made p i there := .inl (t.dropTemp_files w d p i there)

/-- An error of a call ends the task, with its temporary file removed. -/
theorem Task.fault_good (error : ModelError) : Good w d₀ d t (t.fault w d error) :=
  Task.finish_good sound own fun _ same => nomatch same

theorem Task.invalid_good (message : String) : Good w d₀ d t (t.invalid w d message) :=
  Task.fault_good sound own _

/-- A call that goes on, with what it did to the disk. -/
theorem Task.goes_good (effect : Effect w d t d') {pc : Pc} (ok : PcOk w d₀ d' t.slot pc)
    (calm : t.passive = true → (t.goto pc).calm = true ∧ d' = d)
    (temps : ∀ a, pc.temp = some a → t.pc.temp = some a ∨ a.inode = d.next)
    (left : ∀ a, t.pc.temp = some a → pc.temp = some a ∨ d'.tree.get (t.tempPath w a) = none)
    (made : ∀ p i, d'.tree.get p = some (.leaf (.file i)) →
      d.tree.get p = some (.leaf (.file i)) ∨ (∃ slot, p = w.destination slot) ∨
        ∃ a, pc.temp = some a ∧ p = t.tempPath w a)
    (reads : ∀ check i taken, pc = .read check i taken →
      (∃ taken, t.pc = .read check i taken) ∨
        (∃ slot, d.lookup (w.destination slot) = .ok (some (.file i))) ∨
        ∃ a, t.pc.temp = some a ∧ a.inode = i)
    (requests : pc.requests ≤ t.pc.requests) : Good w d₀ d t (t.go d' pc) where
  effect := effect
  own := ⟨ok, fun slot ne mem => effect.verified sound own (own.done slot ne mem),
    fun passive => (calm passive).1⟩
  reply := trivial
  temps := temps
  reads := reads
  requests := requests_le requests
  passive := rfl
  rests passive := ⟨(calm passive).2, fun _ => rfl⟩
  left a has := (left a has).imp_left fun still => ⟨still, rfl⟩
  made := made

/-- A call that leaves the disk alone. -/
theorem Task.go_good {pc : Pc} (ok : PcOk w d₀ d t.slot pc)
    (calm : t.passive = true → (t.goto pc).calm = true) (temp : pc.temp = t.pc.temp)
    (reads : ∀ check i taken, pc = .read check i taken →
      (∃ taken, t.pc = .read check i taken) ∨
        (∃ slot, d.lookup (w.destination slot) = .ok (some (.file i))) ∨
        ∃ a, t.pc.temp = some a ∧ a.inode = i)
    (requests : pc.requests ≤ t.pc.requests) : Good w d₀ d t (t.go d pc) :=
  Task.goes_good sound own .same ok (fun passive => ⟨calm passive, rfl⟩)
    (fun _ has => .inl (temp ▸ has)) (fun _ has => .inl (temp.symm ▸ has))
    (fun _ _ there => .inl there) reads requests

theorem Task.found_good (verified : Verified w d t.slot) : Good w d₀ d t (t.found w d) := by
  have effect := t.dropTemp_effect w d
  have empty : (Pc.stat t.kind.firstCheck).temp = none := by
    cases t.kind <;> rfl
  unfold Task.found
  split
  · rename_i slot rest more
    exact
      { effect := effect
        own := by
          refine ⟨?_, fun other ne mem => ?_, fun passive => ?_⟩
          · cases t.kind <;> trivial
          · by_cases same : other = t.slot
            · rw [same]
              exact effect.verified sound own verified
            · refine effect.verified sound own (own.done other same ?_)
              rw [more]
              exact List.not_mem_cons_of_ne_of_not_mem ne mem
          · cases kind : t.kind with
            | verify => simp [Task.calm, Kind.firstCheck]
            | ensure =>
              have offline : t.policy = .offline := by
                simpa [Task.passive, kind] using passive
              simp [Task.calm, Kind.firstCheck, offline]
        reply := trivial
        temps := fun a has => nomatch empty.symm.trans has
        reads := fun _ _ _ pc => nomatch pc
        requests := by
          have first : (Pc.stat t.kind.firstCheck).requests ≤ maxRedirects + 1 := by
            cases t.kind <;> simp [Pc.requests, Kind.firstCheck, Check.requests]
          intro other
          change 0 + ((if slot = other then (Pc.stat t.kind.firstCheck).requests else 0) +
            (maxRedirects + 1) * rest.count other) ≤ t.requests other
          rw [Task.requests, more, List.count_cons, Nat.mul_add]
          simp only [beq_iff_eq]
          split <;> omega
        passive := rfl
        rests := fun passive => ⟨Task.dropTemp_rests own passive, fun _ => rfl⟩
        left := fun _ has => .inr (Task.dropTemp_get own has)
        made := fun p i there => .inl (t.dropTemp_files w d p i there) }
  · rename_i last
    refine Task.finish_good sound own fun _ same => ⟨(Except.ok.inj same).symm, fun slot => ?_⟩
    by_cases same : slot = t.slot
    · rw [same]
      exact verified
    · exact own.done slot same (by rw [last]; exact List.not_mem_nil)

/-- What `verified_file` found. -/
theorem Task.conclude_good {check : Check} (at_ : t.At check) (b : Bool)
    (fresh : ∀ temp, check = .downloaded temp → b = true →
      w.genuine t.slot (d.content temp.inode) = true)
    (there : (∀ temp, check ≠ .downloaded temp) → b = true → Verified w d t.slot) :
    Good w d₀ d t (t.conclude w d check b) := by
  have ok := at_.ok own
  have temp := at_.temp
  cases b with
  | true =>
    cases check with
    | present | winner | placed | verify =>
      exact Task.found_good sound own (there (fun _ => nofun) rfl)
    | downloaded file =>
      refine Task.go_good sound own ⟨ok, fresh file rfl rfl⟩ (fun passive => ?_) temp.symm
        (fun _ _ _ pc => nomatch pc) (Nat.zero_le _)
      rcases at_.calm own passive with same | ⟨same, -⟩ <;> cases same
  | false =>
    cases check with
    | present =>
      change Good w d₀ d t (if t.policy = .offline then _ else _)
      split
      · exact Task.fault_good sound own _
      · rename_i online
        refine Task.go_good sound own (fun p mem => List.mem_of_mem_tail mem) (fun passive => ?_)
          temp.symm (fun _ _ _ pc => nomatch pc) at_.requests.ge
        rcases at_.calm own passive with same | ⟨-, offline⟩
        · cases same
        · exact absurd offline online
    | downloaded | placed | verify => exact Task.invalid_good sound own _
    | winner file =>
      refine Task.go_good sound own ok (fun passive => ?_) temp.symm
        (fun _ _ _ pc => nomatch pc) (Nat.zero_le _)
      rcases at_.calm own passive with same | ⟨same, -⟩ <;> cases same

/-! ### `verified_file` -/

/-- The question whether the artifact is there. Its answer may be out of date at the next call, and
nothing rests on it. -/
theorem Task.stat_good {check : Check} (pc : t.pc = .stat check) :
    Good w d₀ d t (t.stat w d check) := by
  have at_ : t.At check := .inl pc
  have no : Good w d₀ d t (t.conclude w d check false) :=
    Task.conclude_good sound own at_ false (fun _ _ => nofun) fun _ => nofun
  unfold Task.stat
  split
  · exact Task.fault_good sound own _
  · exact no
  · exact Task.invalid_good sound own _
  · exact no
  · split
    · exact no
    · refine Task.go_good sound own (at_.ok own) (fun passive => ?_) at_.temp.symm
        (fun _ _ _ pc => nomatch pc) at_.requests.ge
      rcases at_.calm own passive with rfl | ⟨rfl, offline⟩
      · rfl
      · exact decide_eq_true offline

omit sound in
/-- The file that is opened is the one at the path. -/
theorem Task.lookup_reads {check : Check} (at_ : t.At check) {i : Nat}
    (found : d.lookup (check.path w t.slot) = .ok (some (.file i))) :
    Reads w d t.slot i check ∧
      ((∃ slot, d.lookup (w.destination slot) = .ok (some (.file i))) ∨
        ∃ a, t.pc.temp = some a ∧ a.inode = i) := by
  have ok := at_.ok own
  have temp := at_.temp
  cases check with
  | downloaded a =>
    have there := (Disk.lookup_file (Held.there ok)).symm.trans found
    have same : a.inode = i := by simpa using there
    exact ⟨same.symm, .inr ⟨a, temp, same⟩⟩
  | present | winner | placed | verify => exact ⟨.inl found, .inl ⟨_, found⟩⟩

theorem Task.openFile_good {check : Check} (pc : t.pc = .openFile check) :
    Good w d₀ d t (t.openFile w d check) := by
  have at_ : t.At check := .inr (.inl pc)
  unfold Task.openFile
  split
  · exact Task.fault_good sound own _
  · exact Task.fault_good sound own _
  · exact Task.fault_good sound own _
  · exact Task.conclude_good sound own at_ false (fun _ _ => nofun) fun _ => nofun
  · rename_i i found
    obtain ⟨reads, from_⟩ := Task.lookup_reads own at_ found
    refine Task.go_good sound own ⟨at_.ok own, Disk.lookup_file_lt found, rfl, Nat.zero_le _, reads⟩
      (fun passive => ?_) at_.temp.symm (fun check' j taken same => ?_) at_.requests.ge
    · rcases at_.calm own passive with rfl | ⟨rfl, offline⟩
      · rfl
      · exact decide_eq_true offline
    · cases same
      exact .inr from_

/-- A part of the open file. What has been read so far is a beginning of that file's content, which
no one changes. -/
theorem Task.read_good {check : Check} {i : Nat} {taken : Bytes} (pc : t.pc = .read check i taken)
    {count : Nat} {o : Outcome} (taken_ : t.read w d check i taken count = some o) :
    Good w d₀ d t o := by
  have at_ : t.At check := .inr (.inr ⟨i, taken, pc⟩)
  have ok := own.pc
  rw [pc] at ok
  obtain ⟨check_ok, old, prefix_, short, reads⟩ := ok
  unfold Task.read at taken_
  dsimp only at taken_
  split at taken_
  · split at taken_
    · rename_i done
      obtain rfl := Option.some.inj taken_
      -- the limit is one more than the size, so what has that size is the whole file
      have whole : w.genuine t.slot taken = true → d.content i = taken := by
        intro genuine
        have size : taken.length = t.slot.artifact.size := by
          simp only [World.genuine, Bool.and_eq_true, beq_iff_eq] at genuine
          exact genuine.1
        rw [prefix_, List.take_of_length_le]
        omega
      refine Task.conclude_good sound own at_ _ (fun temp same genuine => ?_)
        fun other genuine => ?_
      · subst same
        have own_file : i = temp.inode := reads
        rw [← own_file, whole genuine]
        exact genuine
      · have artifact : d.lookup (w.destination t.slot) = .ok (some (.file i)) ∨
            Verified w d t.slot := by
          cases check with
          | downloaded temp => exact absurd rfl (other temp)
          | present | winner | placed | verify => exact reads
        rcases artifact with found | done
        · refine ⟨i, found, ?_⟩
          rw [whole genuine]
          exact genuine
        · exact done
    · cases taken_
  · split at taken_
    · rename_i more fits
      obtain rfl := Option.some.inj taken_
      have length : (((d.content i).drop taken.length).take count).length = count := by
        rw [List.length_take, List.length_drop]
        omega
      refine Task.go_good sound own ⟨check_ok, old, ?_, ?_, reads⟩ (fun passive => ?_) at_.temp.symm
        (fun check' j taken' same => ?_) at_.requests.ge
      · rw [List.length_append, length, List.take_add, ← prefix_]
      · rw [List.length_append, length]
        omega
      · rcases at_.calm own passive with rfl | ⟨rfl, offline⟩
        · rfl
        · exact decide_eq_true offline
      · cases same
        exact .inl ⟨taken, pc⟩
    · cases taken_

/-! ### `ensure_artifact` -/

omit sound in
/-- A task that is not to touch anything makes no such call. -/
theorem Own.active (busy : t.calm = false) {P : Prop} (passive : t.passive = true) : P := by
  rw [own.calm passive] at busy
  cases busy

/-- The directories on the way to the artifact are created one by one, or have been there. -/
theorem Task.createDirs_good {todo : List Path} (pc : t.pc = .createDirs todo) :
    Good w d₀ d t (t.createDirs w d todo) := by
  have ok := own.pc
  have busy : t.calm = false := by
    unfold Task.calm
    rw [pc]
  have requests : t.pc.requests = maxRedirects + 1 := by
    rw [pc]
    rfl
  have empty : t.pc.temp = none := by
    rw [pc]
    rfl
  rw [pc] at ok
  cases todo with
  | nil =>
    exact Task.go_good sound own trivial (own.active busy) empty.symm
      (fun _ _ _ pc => nomatch pc) requests.ge
  | cons p todo =>
    have rest : ∀ q ∈ todo, q ∈ (w.parent t.slot).inits := fun q mem =>
      ok q (List.mem_cons_of_mem p mem)
    rw [Task.createDirs]
    split
    · exact Task.go_good sound own rest (own.active busy) empty.symm
        (fun _ _ _ pc => nomatch pc) requests.ge
    · split
      · rename_i d' made
        refine Task.goes_good sound own (.createDir (ok p List.mem_cons_self) made) rest
          (own.active busy) (fun _ has => nomatch has)
          (fun _ has => nomatch empty.symm.trans has) (fun q i there => .inl ?_)
          (fun _ _ _ pc => nomatch pc) requests.ge
        rw [Disk.get_createDir made] at there
        split at there
        · cases there
        · exact there
      · exact Task.fault_good sound own _

theorem Task.statParent_good (pc : t.pc = .statParent) : Good w d₀ d t (t.statParent w d) := by
  have busy : t.calm = false := by
    unfold Task.calm
    rw [pc]
  have next : Good w d₀ d t (t.go d .newTemp) := by
    refine Task.go_good sound own trivial (own.active busy) ?_ (fun _ _ _ pc => nomatch pc) ?_
    · rw [pc]
      rfl
    · rw [pc]
      exact Nat.le_refl _
  unfold Task.statParent
  split
  · exact Task.fault_good sound own _
  · exact Task.fault_good sound own _
  · exact Task.invalid_good sound own _
  · exact next
  · exact next

/-- The temporary file is new: its name is drawn, and no file of that name was there. -/
theorem Task.newTemp_good (pc : t.pc = .newTemp) (suffix : Text) :
    Good w d₀ d t (t.newTemp w d suffix) := by
  have busy : t.calm = false := by
    unfold Task.calm
    rw [pc]
  have empty : t.pc.temp = none := by
    rw [pc]
    rfl
  unfold Task.newTemp
  dsimp only
  split
  · rename_i d' made
    have there := Disk.get_createFile made (t.tempPath w ⟨suffix, d.next⟩)
    rw [if_pos rfl] at there
    have fresh : d'.content d.next = [] := by
      rw [(Disk.createFile_rest made).1]
      exact Function.update_self ..
    refine Task.goes_good sound own (.createTemp made) ⟨⟨there, sound.grows⟩, fresh, Nat.zero_le _⟩
      (own.active busy) (fun a has => ?_) (fun _ has => nomatch empty.symm.trans has)
      (fun p i there => ?_) (fun _ _ _ pc => nomatch pc) ?_
    · cases has
      exact .inr rfl
    · rw [Disk.get_createFile made] at there
      split at there
      · rename_i same
        exact .inr (.inr ⟨_, rfl, same⟩)
      · exact .inl there
    · rw [pc]
      exact Nat.le_refl _
  · split
    · refine Task.go_good sound own trivial (own.active busy) empty.symm
        (fun _ _ _ pc => nomatch pc) ?_
      rw [pc]
    · exact Task.fault_good sound own _

/-- The rename puts the verified temporary file in the place of the artifact. This is the one step
by which an artifact comes to be. -/
theorem Task.persist_good {temp : Temp} (pc : t.pc = .persist temp) :
    Good w d₀ d t (t.persist w d temp) := by
  have busy : t.calm = false := by
    unfold Task.calm
    rw [pc]
  unfold Task.persist
  split
  · rename_i d' made
    have get := Disk.get_rename made
    refine Task.goes_good sound own (.persist pc made) trivial (own.active busy)
      (fun _ has => nomatch has) (fun a has => .inr ?_) (fun p i there => ?_)
      (fun _ _ _ pc => nomatch pc) (Nat.zero_le _)
    · rw [pc] at has
      cases has
      rw [get, if_neg (tempPath_ne t temp t.slot), if_pos rfl]
    · rw [get] at there
      split at there
      · rename_i same
        exact .inr (.inl ⟨t.slot, same⟩)
      · split at there
        · cases there
        · exact .inl there
  · exact Task.fault_good sound own _

/-! ### `download` -/

omit sound own in
/-- The check lets pass only what is approved: a secure address on one of the hosts, with no user,
no other port and no fragment. -/
theorem approved_of_checkUrl {url : Url} (ok : checkUrl url = .ok ()) : approved url = true := by
  unfold checkUrl at ok
  split at ok
  · assumption
  · cases ok

/-- A request goes out to an address that was checked just before, be it the first or one of a
redirect. -/
theorem Task.send_good {temp : Temp} {url : Url} {redirects : Nat}
    (pc : t.pc = .send temp url redirects) : Good w d₀ d t (t.send w d temp url redirects) := by
  have ok := own.pc
  have busy : t.calm = false := by
    unfold Task.calm
    rw [pc]
  rw [pc] at ok
  unfold Task.send
  split
  · exact Task.fault_good sound own _
  · rename_i checked
    exact
      { effect := .same
        own := ⟨ok, own.done, own.active busy⟩
        reply := approved_of_checkUrl checked
        temps := by
          intro a has
          rw [pc]
          exact .inl has
        reads := fun _ _ _ pc => nomatch pc
        requests := by
          have few := ok.2.2
          have now : t.pc.requests = maxRedirects + 1 - redirects := by
            rw [pc]
            rfl
          intro slot
          change (if t.slot = slot then 1 else 0) +
            ((if t.slot = slot then maxRedirects - redirects else 0) +
              (maxRedirects + 1) * t.rest.count slot) ≤ t.requests slot
          rw [Task.requests]
          split <;> omega
        passive := rfl
        rests := own.active busy
        left := by
          intro a has
          rw [pc] at has
          exact .inl ⟨has, rfl⟩
        made := fun _ _ there => .inl there }

/-- An answer to a request: a redirect is checked before it is followed, and a body is received when
its length is that of the manifest. -/
theorem Task.answer_good {temp : Temp} {url : Url} {redirects : Nat}
    (pc : t.pc = .answer temp url redirects) (response : Response) :
    Good w d₀ d t (t.answer w d temp url redirects response) := by
  have ok := own.pc
  have busy : t.calm = false := by
    unfold Task.calm
    rw [pc]
  rw [pc] at ok
  obtain ⟨held, empty, few⟩ := ok
  have keeps : some temp = t.pc.temp := by
    rw [pc]
    rfl
  unfold Task.answer
  split
  · unfold Task.redirect
    split
    · exact Task.invalid_good sound own _
    · rename_i more
      split
      · exact Task.invalid_good sound own _
      · split
        · exact Task.fault_good sound own _
        · split
          · exact Task.fault_good sound own _
          · refine Task.go_good sound own ⟨held, empty, by omega⟩ (own.active busy) keeps
              (fun _ _ _ pc => nomatch pc) ?_
            rw [pc]
            change maxRedirects + 1 - (redirects + 1) ≤ maxRedirects - redirects
            omega
  · split
    · exact Task.fault_good sound own _
    · split
      · exact Task.invalid_good sound own _
      · exact Task.go_good sound own ⟨held, empty⟩ (own.active busy) keeps
          (fun _ _ _ pc => nomatch pc) (Nat.zero_le _)

/-- A piece of the body goes to the temporary file and to the digest, never more than the artifact
has. -/
theorem Task.receive_good {temp : Temp} {size : Nat} (pc : t.pc = .receive temp size)
    (chunk : Bytes) : Good w d₀ d t (t.receive w d temp size chunk) := by
  have ok := own.pc
  have busy : t.calm = false := by
    unfold Task.calm
    rw [pc]
  rw [pc] at ok
  obtain ⟨held, length⟩ := ok
  unfold Task.receive
  dsimp only
  split
  · exact Task.invalid_good sound own _
  · rename_i small
    have top := size_lt t.slot
    have sum : min (size + chunk.length) (2 ^ 64 - 1) = size + chunk.length := by omega
    rw [sum] at small ⊢
    refine Task.goes_good sound own (.append pc (Nat.le_of_not_lt small))
      ⟨⟨held.there, held.new⟩, ?_⟩ (own.active busy) (fun a has => .inl ?_) (fun a has => .inl ?_)
      (fun _ _ there => .inl there) (fun _ _ _ pc => nomatch pc) (Nat.zero_le _)
    · change (Function.update d.content temp.inode _ temp.inode).length = _
      rw [Function.update_self, List.length_append, length]
    · rw [pc]
      exact has
    · rw [pc] at has
      exact has

/-! ### Steps -/

/-- Each event that a running task takes, by the lemma about its call. -/
theorem advance_good {event : Event} {o : Outcome} (taken : advance w d t t.pc event = some o) :
    Good w d₀ d t o := by
  have ok := own.pc
  have calm : t.calm = false → ∀ {P : Prop}, t.passive = true → P := fun busy => own.active busy
  generalize now : t.pc = pc at taken
  rw [now] at ok
  unfold advance at taken
  split at taken <;> (try cases taken)
  · exact Task.stat_good sound own now
  · exact Task.openFile_good sound own now
  · exact Task.read_good sound own now taken
  · exact Task.createDirs_good sound own now
  · exact Task.statParent_good sound own now
  · exact Task.newTemp_good sound own now _
  · exact Task.send_good sound own now
  · exact Task.answer_good sound own now _
  · exact Task.fault_good sound own _
  · refine Task.go_good sound own ⟨ok.1, by rw [ok.2]; rfl⟩ (calm ?_) ?_ (fun _ _ _ pc => nomatch pc)
      (Nat.zero_le _)
    · unfold Task.calm
      rw [now]
    · rw [now]
      rfl
  · exact Task.receive_good sound own now _
  · refine Task.go_good sound own ok.1 (calm ?_) ?_ (fun _ _ _ pc => nomatch pc) (Nat.zero_le _)
    · unfold Task.calm
      rw [now]
    · rw [now]
      rfl
  · exact Task.fault_good sound own _
  · refine Task.go_good sound own ok (calm ?_) ?_ (fun _ _ _ pc => nomatch pc) (Nat.zero_le _)
    · unfold Task.calm
      rw [now]
    · rw [now]
      rfl
  · exact Task.persist_good sound own now

/-- A task that is cancelled removes its temporary file. -/
theorem cancel_good : Good w d₀ d t (t.dropTemp w d, t.goto .ended, .silent) :=
  let done := Task.fault_good (t := t) sound own .timeout
  { done with reply := trivial }

omit sound in
/-- A killed process leaves its temporary file behind, and nothing else. -/
theorem kill_good : Good w d₀ d t (d, t.goto (.killed t.pc.temp), .silent) where
  effect := .same
  own := by
    refine ⟨fun a mem => own.held mem, own.done, fun passive => ?_⟩
    simp [Task.calm, Task.goto, own.temp_none passive]
  reply := trivial
  temps _ has := .inl has
  reads _ _ _ pc := nomatch pc
  requests := requests_le (Nat.zero_le _)
  passive := rfl
  rests _ := ⟨rfl, fun _ => rfl⟩
  left _ has := .inl ⟨has, rfl⟩
  made _ _ there := .inl there

/-- Every event of a task, whether it runs, is cancelled or is killed. -/
theorem step_good {event : Event} {o : Outcome} (taken : step w d t event = some o) :
    Good w d₀ d t o := by
  unfold step at taken
  split at taken
  · cases taken
  · split at taken
    · cases taken
      exact cancel_good sound own
    · cases taken
      exact kill_good own
    · split at taken
      · cases taken
        exact Task.fault_good sound own _
      · cases taken
    · split at taken
      · cases taken
        exact Task.fault_good sound own _
      · cases taken
    · exact advance_good sound own taken

end Calls

end Mineru.Models
