import Mineru.Official.Store

/-!
# Listings

The two list endpoints of the official API, `list` of `server/files.rs` and of
`server/jobs/query.rs`, and `Pagination::validate` of `wire.rs`. Both collect what they list from a
hash map, sort it by its creation and its identifier, drop everything through the cursor and return
one page of the rest.

Identifiers and the timestamps of jobs are compared as text. A mutex that a panic has poisoned and
the job that a listing waits for are not modelled: the listing sees the records as they are once it
holds their locks.
-/

set_option autoImplicit false

namespace Mineru.Official

open Logic

/-- `next_id`: sixteen hexadecimal digits behind the stem. -/
def Id.text : Id → Text
  | upload n => Mineru.text "upload_" ++ (Nat.toDigits 16 n).leftpad 16 '0'
  | file n => Mineru.text "file_" ++ (Nat.toDigits 16 n).leftpad 16 '0'
  | job n => Mineru.text "job_" ++ (Nat.toDigits 16 n).leftpad 16 '0'

inductive ListOrder where
  | asc | desc
  deriving DecidableEq, Repr

structure ListResponse (α : Type) where
  data : List α
  firstId : Option Text
  lastId : Option Text
  hasMore : Bool
  deriving DecidableEq, Repr

structure Pagination where
  after : Option Text
  limit : Option Nat
  order : Option ListOrder

/-- `Pagination::validate`. -/
def Pagination.validate (p : Pagination) (default max : Nat) : Except WireError Nat :=
  let limit := p.limit.getD default
  if limit = 0 ∨ limit > max then .error (.bad "limit" "Pagination limit is out of range.")
  else .ok limit

/-- `if c { return Err(e) }`. -/
def refuseIf (c : Prop) [Decidable c] (e : WireError) : Except WireError Unit :=
  if c then .error e else .ok ()

section
variable {α : Type}

/-- `data.sort_by` on a creation time and an identifier, and the reversal. -/
def sortListing {κ : Type} [LinearOrder κ] (created : α → κ) (id : α → Text)
    (order : Option ListOrder) (data : List α) : List α :=
  let data := data.insertionSort fun a b => toLex (created a, id a) ≤ toLex (created b, id b)
  if order = some .desc then data.reverse else data

/-- `data.drain(..=i)` for the position of the cursor. -/
def drainThrough (id : α → Text) (after : Option Text) (data : List α) : List α :=
  match after.bind fun after => data.findIdx? fun f => id f = after with
  | some i => data.drop (i + 1)
  | none => data

/-- The page at the front of what is left. -/
def ListResponse.page (id : α → Text) (limit : Nat) (data : List α) : ListResponse α where
  data := data.take limit
  firstId := (data.take limit).head?.map id
  lastId := (data.take limit).getLast?.map id
  hasMore := data.length > limit

end

/-! ## Files -/

structure FileQuery where
  after : Option Text
  limit : Option Nat
  order : Option ListOrder
  purpose : Option Text

/-- The files of the store with the purpose that is asked for. -/
def Store.listed (s : Store) (purpose : Option Text) : List FileObject :=
  s.entries.rows.filterMap fun row => match row.2 with
    | .file f => if purpose.all (· = f.object.purpose) then some f.object else none
    | .upload _ => none

/-- `list` of `files.rs`; `none` is a query string that the extractor rejects. -/
def listFiles (s : Store) (query : Option FileQuery) :
    (Store × Cells) × Except WireError (ListResponse FileObject) :=
  (s.cleanupExpired, do
    let query ← query.elim (.error (.bad "query" "Invalid file list query.")) .ok
    refuseIf (query.purpose.any fun p => p ∉ [text "parse", text "input_image"])
      (.bad "purpose" "Unsupported file purpose.")
    let limit ← Pagination.validate ⟨query.after, query.limit, query.order⟩ 100 1000
    let data := s.cleanupExpired.1.listed query.purpose
    let data := sortListing FileObject.createdAt (fun f => f.id.text) query.order data
    let data := drainThrough (fun f => f.id.text) query.after data
    return .page (fun f => f.id.text) limit data)

/-! ## Jobs -/

/-- The status of a job response. -/
def JobStatus.text : JobStatus → Text
  | queued => Mineru.text "queued"
  | running => Mineru.text "running"
  | completed => Mineru.text "completed"
  | partially => Mineru.text "partial"
  | failed => Mineru.text "failed"
  | canceled => Mineru.text "canceled"

structure JobListEntry where
  jobId : Text
  status : JobStatus
  createdAt : Text
  fileCount : Nat
  deriving DecidableEq, Repr

structure JobQuery where
  status : Option Text
  limit : Option Nat
  after : Option Text
  order : Option ListOrder
  createdAfter : Option Text

/-- The statuses that a query names. -/
def JobQuery.statuses (query : JobQuery) : List Text :=
  ((query.status.getD []).splitOn ',').filter fun v => !v.isEmpty

/-- `data.retain(|v| v.created_at >= after)`. -/
def retainCreated (createdAfter : Option Text) (data : List JobListEntry) : List JobListEntry :=
  match createdAfter with
  | some after => data.filter fun v => v.createdAt ≥ after
  | none => data

/-- `list` of `query.rs`, on the jobs of the service in the order of the hash map. -/
def listJobs (jobs : List JobListEntry) (query : Option JobQuery) :
    Except WireError (ListResponse JobListEntry) := do
  let query ← query.elim (.error (.bad "query" "Invalid job list query.")) .ok
  let limit ← Pagination.validate ⟨query.after, query.limit, query.order⟩ 20 100
  let statuses := query.statuses
  refuseIf (statuses.any fun s => s ∉ [text "queued", text "running", text "completed",
      text "partial", text "failed", text "canceled"])
    (.bad "status" "Unsupported job status.")
  let data := jobs.filter fun job => statuses.isEmpty || job.status.text ∈ statuses
  let data := sortListing JobListEntry.createdAt JobListEntry.jobId query.order data
  let data := drainThrough JobListEntry.jobId query.after data
  let data := retainCreated query.createdAfter data
  return .page JobListEntry.jobId limit data

end Mineru.Official
