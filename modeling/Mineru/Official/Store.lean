import Mineru.Logic.Ledger
import Mineru.Logic.Stateful
import Mineru.Official.Wire

/-!
# The file store

`OfficialFileStore` of `server/store.rs`: uploads and files, and the reservations that pay for them.
A reservation of the source is an `Arc` that returns its size when the last clone is dropped; here
it is a cell of the ledger, every clone is a reference to the cell, and the service releases the
cells that nothing refers to any more.

The mutexes are taken for one section at a time, so each section is one function of the store; a
poisoned mutex (a panic while it is held) is not modelled.
-/

set_option autoImplicit false

namespace Mineru.Official

open Logic

/-- What the store is configured with, and the functions it uses of other crates: the digest of
bytes in hex and the base64 decoder. -/
structure Env where
  retention : Nat
  fileCap : Nat
  bodyCap : Nat
  zipCap : Nat
  sha256 : List UInt8 → Text
  decode : Text → Option (List UInt8)
  /-- The check of `OfficialFileStore::new`. -/
  retention_ge : 3600 ≤ retention

/-- The three counters. -/
inductive Pool where
  | input
  | artifact
  | metadata
  deriving DecidableEq, Repr

/-- `INPUT_CAP`, the cap of `artifact_budget`, and `META_CAP`. -/
def Pool.cap : Pool → Nat
  | input => 256 * 1024 * 1024
  | artifact => 256 * 1024 * 1024
  | metadata => 1024

/-- A reference to a reservation. -/
abbrev Cells := List Nat

/-- `Bytes` that own the reservation they are charged to. -/
structure Charged where
  data : List UInt8
  reservation : Nat
  deriving DecidableEq, Repr

structure Upload where
  request : UploadCreate
  created : Nat
  expires : Nat
  bytes : Option Charged
  reservation : Option Nat
  metadata : Nat
  fileId : Option Id
  uploading : Bool
  deriving DecidableEq, Repr

structure File where
  object : FileObject
  bytes : Charged
  source : Bool
  metadata : Option Nat
  deriving DecidableEq, Repr

inductive Entry where
  | upload (u : Upload)
  | file (f : File)
  deriving DecidableEq, Repr

def Upload.refs (u : Upload) : Cells :=
  u.metadata :: (u.reservation.toList ++ (u.bytes.map Charged.reservation).toList)

def File.refs (f : File) : Cells := f.bytes.reservation :: f.metadata.toList

def Entry.refs : Entry → Cells
  | upload u => u.refs
  | file f => f.refs

/-- The shared state of the store, with the clock it reads and the number of the next identifier. -/
structure Store where
  now : Nat
  ids : Nat
  accepting : Bool
  entries : Table Id Entry
  ledger : Ledger Pool

/-- The references of all entries. -/
def entryRefs (entries : Table Id Entry) : Cells := entries.rows.flatMap fun e => e.2.refs

namespace Store

def empty (now : Nat) : Store where
  now := now
  ids := 1
  accepting := true
  entries := ∅
  ledger := .empty

def takeId (s : Store) : Store := { s with ids := s.ids + 1 }

/-! ## Reservations -/

def reserve (s : Store) (pool : Pool) (n : Nat) : Option (Nat × Store) :=
  (s.ledger.charge Pool.cap pool n).map fun (c, ledger) => (c, { s with ledger })

def inputReservation (s : Store) (bytes : Nat) : Option (Nat × Store) := s.reserve .input bytes

def artifactBudget (s : Store) (bytes : Nat) : Option (Nat × Store) := s.reserve .artifact bytes

def reserveMetadata (s : Store) (count : Nat) : Option (Nat × Store) := s.reserve .metadata count

/-- `Reservation::shrink_to` and `MetadataReservation::shrink_to`. -/
def shrinkTo (s : Store) (c n : Nat) : Store := { s with ledger := s.ledger.shrinkTo c n }

/-! ## Entries -/

/-- What `cleanup_expired` removes. -/
def expired (now : Nat) : Entry → Bool
  | .upload u => u.expires ≤ now
  | .file f => f.object.expiresAt.any (· ≤ now)

/-- The locked section of `cleanup_expired`; the removed entries are dropped after it. -/
def cleanupExpired (s : Store) : Store × Cells :=
  ({ s with entries := s.entries.keep fun _ e => !expired s.now e },
    entryRefs (s.entries.keep fun _ e => expired s.now e))

/-- The locked section of `clear_retained`. -/
def clearRetained (s : Store) : Store × Cells := ({ s with entries := ∅ }, entryRefs s.entries)

def stopAdmissions (s : Store) : Store := { s with accepting := false }

/-- A file that has not expired. -/
def fresh (now : Nat) (f : File) : Bool := f.object.expiresAt.all (now < ·)

def file (s : Store) (id : Id) : Option FileObject :=
  match s.entries.get id with
  | some (.file f) => if fresh s.now f then some f.object else none
  | _ => none

def inputLease (s : Store) (id : Id) : Option (FileObject × Charged) :=
  match s.entries.get id with
  | some (.file f) => if f.source && fresh s.now f then some (f.object, f.bytes) else none
  | _ => none

/-! ## Publication -/

/-- The 64 MiB that the inputs of a job, its artifacts, and one artifact may take. -/
def jobCap : Nat := 64 * 1024 * 1024

abbrev Publish := EStateM String Store

/-- `Reservation::split`. -/
def split (c n : Nat) (message : String) : Publish Nat := fun s =>
  match s.ledger.split c n with
  | none => .error message s
  | some (d, ledger) => .ok d { s with ledger }

/-- The total size of a batch whose files are each within the limit. -/
def batchTotal (files : List (FileObject × List UInt8)) : Option Nat :=
  files.foldlM (fun n f =>
    if n + f.2.length < word ∧ f.2.length ≤ jobCap then some (n + f.2.length) else none) 0

/-- Every file of a batch gets its part of the two reservations. -/
def chargeBatch (metadata reservation : Nat) :
    List (FileObject × List UInt8) → Publish (List File)
  | [] => pure []
  | (object, data) :: files => do
    let bytes ← split reservation data.length "artifact reservation exhausted"
    let fileMetadata ← split metadata 1 "metadata capacity exhausted"
    let rest ← chargeBatch metadata reservation files
    return { object, bytes := ⟨data, bytes⟩, source := false, metadata := some fileMetadata } :: rest

def insertFiles (entries : Table Id Entry) (files : List File) : Table Id Entry :=
  files.foldl (fun entries f => entries.set f.object.id (.file f)) entries

def reservedSize (s : Store) (c : Nat) : Nat := ((s.ledger.cells.get c).map Cell.size).getD 0

def publishArtifactBatch (files : List (FileObject × List UInt8)) (metadata reservation : Nat) :
    Publish Unit := do
  let some total := batchTotal files | throw "artifact exceeds per-file/job limit"
  let s ← get
  if total > s.reservedSize reservation then
    throw "artifact reservation exhausted"
  if s.entries.size + files.length > Pool.metadata.cap then
    throw "metadata capacity exhausted"
  if files.any fun f => (s.entries.get f.1.id).isSome then
    throw "artifact identifier conflict"
  let charged ← chargeBatch metadata reservation files
  modify fun s => { s with entries := insertFiles s.entries charged }

end Store

end Mineru.Official
