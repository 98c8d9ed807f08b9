import Mineru.Official.Store

/-!
# Laws of the file store

What a publication leaves: on success the batch is in the store, each file with two reservations of
its own, and on failure the entries are as before.

A batch is charged file by file and inserted in one piece (`chargeBatch_after`, `publish_after`).
When a charge fails, the files before it have been split off the reservation of the job already;
that they are given back is a matter of the ledger, and of who refers to them.
-/

set_option autoImplicit false

namespace Mineru.Official.Store

open Logic

variable {s : Store} {metadata reservation : Nat}

theorem reserve_some {s s' : Store} {pool : Pool} {n c : Nat}
    (h : s.reserve pool n = some (c, s')) :
    ∃ ledger, s.ledger.charge Pool.cap pool n = some (c, ledger) ∧ s' = { s with ledger } := by
  obtain ⟨⟨c', ledger⟩, charged, out⟩ := Option.map_eq_some_iff.mp h
  cases out
  exact ⟨ledger, charged, rfl⟩

theorem split_after (c n : Nat) (message : String) :
    After (split c n message) s
      (fun d s' => ∃ ledger, s.ledger.split c n = some (d, ledger) ∧ s' = { s with ledger })
      (fun _ s' => s' = s ∧ s.ledger.split c n = none) := by
  unfold After split
  cases found : s.ledger.split c n with
  | none => exact ⟨rfl, rfl⟩
  | some result => exact ⟨_, rfl, rfl⟩

/-- The ledgers that a batch passes through, file by file. -/
inductive Splits (metadata reservation : Nat) :
    Ledger Pool → List (FileObject × List UInt8) → List File → Ledger Pool → Prop where
  | nil (l : Ledger Pool) : Splits metadata reservation l [] [] l
  | cons {l l₁ l₂ l₃ : Ledger Pool} {object : FileObject} {data : List UInt8} {b m : Nat}
      {files : List (FileObject × List UInt8)} {rest : List File}
      (bytes : l.split reservation data.length = some (b, l₁))
      (own : l₁.split metadata 1 = some (m, l₂))
      (tail : Splits metadata reservation l₂ files rest l₃) :
    Splits metadata reservation l ((object, data) :: files)
      ({ object, bytes := ⟨data, b⟩, source := false, metadata := some m } :: rest) l₃

/-- The files of a batch that went through are the ones that were to be published. -/
theorem Splits.objects {l l' : Ledger Pool} {files : List (FileObject × List UInt8)}
    {charged : List File} (h : Splits metadata reservation l files charged l') :
    charged.map File.object = files.map Prod.fst := by
  induction h with
  | nil => rfl
  | cons _ _ _ ih => exact congrArg (_ :: ·) ih

/-- Artifacts are not sources. -/
theorem Splits.source {l l' : Ledger Pool} {files : List (FileObject × List UInt8)}
    {charged : List File} (h : Splits metadata reservation l files charged l') :
    ∀ f ∈ charged, f.source = false := by
  induction h with
  | nil => exact nofun
  | cons _ _ _ ih =>
    intro f mem
    rcases List.mem_cons.mp mem with rfl | mem
    · rfl
    · exact ih f mem

theorem chargeBatch_after (files : List (FileObject × List UInt8)) :
    ∀ s : Store, After (chargeBatch metadata reservation files) s
      (fun charged s' => ∃ ledger, Splits metadata reservation s.ledger files charged ledger ∧
        s' = { s with ledger })
      (fun _ s' => ∃ ledger, s' = { s with ledger }) := by
  induction files with
  | nil => exact fun s => ⟨s.ledger, .nil _, rfl⟩
  | cons file files ih =>
    obtain ⟨object, data⟩ := file
    intro s
    refine After.bind ((split_after _ _ _).errors fun _ _ h => ⟨_, h.1⟩) ?_
    rintro b s₁ ⟨l₁, bytes, rfl⟩
    refine After.bind ((split_after _ _ _).errors fun _ _ h => ⟨_, h.1⟩) ?_
    rintro m s₂ ⟨l₂, own, rfl⟩
    refine After.bind ((ih _).errors fun _ _ h => h) ?_
    rintro rest s₃ ⟨l₃, tail, rfl⟩
    exact After.pure ⟨l₃, .cons bytes own tail, rfl⟩

/-- A publication puts the whole batch into the store, or changes no entry. -/
theorem publish_after (files : List (FileObject × List UInt8)) (s : Store) :
    After (publishArtifactBatch files metadata reservation) s
      (fun _ s' => ∃ charged ledger, Splits metadata reservation s.ledger files charged ledger ∧
        (∀ f ∈ files, s.entries.get f.1.id = none) ∧
        s' = { s with entries := insertFiles s.entries charged, ledger })
      (fun _ s' => ∃ ledger, s' = { s with ledger }) := by
  unfold publishArtifactBatch
  cases batchTotal files with
  | none => exact After.throw ⟨_, rfl⟩
  | some total =>
    have read : After (get : Publish Store) s (fun a s' => a = s ∧ s' = s)
        (fun _ s' => ∃ ledger, s' = { s with ledger }) := ⟨rfl, rfl⟩
    refine read.bind ?_
    rintro _ _ ⟨rfl, rfl⟩
    dsimp only
    split
    · exact After.throw ⟨_, rfl⟩
    · split
      · exact After.throw ⟨_, rfl⟩
      · split
        · exact After.throw ⟨_, rfl⟩
        · rename_i free
          refine After.bind (chargeBatch_after files _) ?_
          rintro charged _ ⟨ledger, splits, rfl⟩
          refine After.modify ⟨charged, ledger, splits, fun f mem => ?_, rfl⟩
          cases found : Table.get _ f.1.id with
          | none => rfl
          | some e => exact absurd (List.any_eq_true.mpr ⟨f, mem, by rw [found]; rfl⟩) free

/-! ## Inserted files -/

/-- A file that was inserted, or an entry from before. -/
theorem insertFiles_get {id : Id} {e : Entry} (files : List File) :
    ∀ entries : Table Id Entry, (insertFiles entries files).get id = some e →
      (∃ f ∈ files, f.object.id = id ∧ e = .file f) ∨ entries.get id = some e := by
  induction files with
  | nil => exact fun _ h => .inr h
  | cons f files ih =>
    intro entries h
    rcases ih _ h with ⟨g, mem, same, eq⟩ | before
    · exact .inl ⟨g, List.mem_cons_of_mem _ mem, same, eq⟩
    · rw [Table.get_set] at before
      split at before
      · rename_i same
        exact .inl ⟨f, List.mem_cons_self, same.symm, (Option.some.inj before).symm⟩
      · exact .inr before

end Mineru.Official.Store
