/-
  The leased job queue (`cloud/queue.rs`).

  Every call holds the queue's lock, so a run is a sequence of calls. Instants are naturals, in
  nanoseconds. `HashMap` yields its entries in no particular order: the order in which expired
  leases go back to the pending jobs is an argument of a call, and any order is possible. `claim`
  reads the clock before it waits for the lock, the other calls after; so its reading may be older
  than that of a call before it. What the queue never looks at in a job or a result is a type
  variable.
-/
import Mathlib.Data.String.Basic
import Blut.Lib.Sorting

namespace Blut.Cloud

open Blut.Lib

/-- The token of one claim. -/
structure Assignment where
  owner : String
  generation : Nat
  deriving DecidableEq, Repr

structure CloudJob (P : Type) where
  id : String
  priority : Int
  payload : P
  deriving DecidableEq, Repr

inductive JobOutcome where
  | succeeded
  | failed
  | cancelled
  | timedOut
  deriving DecidableEq, Repr

structure ExecutionFailure where
  code : String
  message : String
  deriving DecidableEq, Repr

structure CloudResult (O : Type) where
  jobId : String
  assignment : Option Assignment
  outcome : JobOutcome
  output : Option O
  wallTimeMs : Nat
  failure : Option ExecutionFailure
  deriving DecidableEq, Repr

def CloudResult.cancelled {O : Type} (jobId reason : String) : CloudResult O where
  jobId := jobId
  assignment := none
  outcome := .cancelled
  output := none
  wallTimeMs := 0
  failure := some { code := "EXECUTION_CANCELLED", message := reason }

inductive CloudError where
  | badJobId (id : String)
  | duplicateJob (id : String)
  | leaseLost (id : String)
  deriving DecidableEq, Repr

structure ClaimedJob (P : Type) where
  job : CloudJob P
  assignment : Assignment
  deriving DecidableEq, Repr

inductive JobStatus (O : Type) where
  | queued
  | running (assignment : Assignment)
  | done (result : CloudResult O)
  | unknown
  deriving DecidableEq, Repr

structure Leased (P : Type) where
  job : CloudJob P
  /-- `until` -/
  expires : Nat
  assignment : Assignment
  deriving DecidableEq, Repr

structure Inner (P O : Type) where
  pending : List (CloudJob P)
  leased : BTreeMap String (Leased P)
  done : BTreeMap String (CloudResult O)
  nextGeneration : Nat

def hasDoubleDot : List Char → Bool
  | '.' :: '.' :: _ => true
  | _ :: rest => hasDoubleDot rest
  | [] => false

/-- Safe as an object-store key. -/
def isSafeJobId (id : String) : Bool :=
  !id.isEmpty && id.utf8ByteSize ≤ 128 && !hasDoubleDot id.toList
    && id.toList.all fun c => c.isAlphanum || c = '_' || c = '-' || c = '.'

/-- `Duration::from_secs`. -/
def fromSecs (secs : Nat) : Nat := secs * 1000000000

/-- `u64::MAX`. -/
def maxGeneration : Nat := 2 ^ 64 - 1

namespace Inner

variable {P O : Type}

def new : Inner P O where
  pending := []
  leased := BTreeMap.empty
  done := BTreeMap.empty
  nextGeneration := 0

/-- The ids of the leases that have elapsed. -/
def expired (q : Inner P O) (now : Nat) : List String :=
  (q.leased.entries.filter fun entry => entry.2.expires ≤ now).map Prod.fst

/-- One lease goes back to the end of the pending jobs. -/
def requeue (q : Inner P O) (id : String) : Inner P O :=
  match q.leased.get? id with
  | some lease => { q with pending := q.pending ++ [lease.job], leased := q.leased.erase id }
  | none => q

/-- `order` is the expired ids as the map yields them. -/
def reclaim (q : Inner P O) (order : List String) : Inner P O := order.foldl requeue q

def enqueue (q : Inner P O) (job : CloudJob P) : Inner P O × Except CloudError Unit :=
  if isSafeJobId job.id = false then (q, .error (.badJobId job.id))
  else if q.leased.contains job.id || q.done.contains job.id
      || q.pending.any fun j => j.id = job.id then
    (q, .error (.duplicateJob job.id))
  else ({ q with pending := q.pending ++ [job] }, .ok ())

/-- The key of `max_by_key`: priority first, then the earlier place. -/
def claimKey (entry : CloudJob P × Nat) : Int ×ₗ Natᵒᵈ :=
  toLex (entry.1.priority, OrderDual.toDual entry.2)

/-- The place of the job to hand out. -/
def best (pending : List (CloudJob P)) : Option (CloudJob P × Nat) :=
  maxBy claimKey pending.zipIdx

def claim (q : Inner P O) (workerId : String) (leaseSecs now : Nat) (order : List String) :
    Inner P O × Option (ClaimedJob P) :=
  let q := q.reclaim order
  match best q.pending with
  | none => (q, none)
  | some (job, idx) =>
    let generation := min (q.nextGeneration + 1) maxGeneration
    let assignment : Assignment := { owner := workerId, generation := generation }
    let lease : Leased P :=
      { job := job, expires := now + fromSecs leaseSecs, assignment := assignment }
    ({ q with
        pending := q.pending.eraseIdx idx
        leased := q.leased.insert job.id lease
        nextGeneration := generation },
      some { job := job, assignment := assignment })

/-- Only the holder of the lease completes the job; the stored result carries its assignment. -/
def complete (q : Inner P O) (assignment : Assignment) (result : CloudResult O)
    (order : List String) : Inner P O × Except CloudError Unit :=
  let q := q.reclaim order
  if (q.leased.get? result.jobId).any fun lease => lease.assignment = assignment then
    ({ q with
        leased := q.leased.erase result.jobId
        done := q.done.insert result.jobId { result with assignment := some assignment } },
      .ok ())
  else (q, .error (.leaseLost result.jobId))

/-- An expired lease is not reclaimed first. -/
def cancel (q : Inner P O) (jobId reason : String) : Inner P O × Bool :=
  if q.done.contains jobId then (q, false)
  else
    let place := q.pending.findIdx? fun job => job.id = jobId
    let existed := place.isSome || q.leased.contains jobId
    let q := { q with
      pending := match place with
        | some idx => q.pending.eraseIdx idx
        | none => q.pending
      leased := q.leased.erase jobId }
    if existed then
      ({ q with done := q.done.insert jobId (CloudResult.cancelled jobId reason) }, true)
    else (q, false)

def status (q : Inner P O) (jobId : String) (order : List String) : Inner P O × JobStatus O :=
  let q := q.reclaim order
  (q, match q.done.get? jobId, q.leased.get? jobId with
    | some result, _ => .done result
    | none, some lease => .running lease.assignment
    | none, none => if q.pending.any fun job => job.id = jobId then .queued else .unknown)

end Inner

/-! ## Runs -/

inductive Call (P O : Type) where
  | enqueue (job : CloudJob P)
  | claim (workerId : String) (leaseSecs : Nat)
  | complete (assignment : Assignment) (result : CloudResult O)
  | cancel (jobId reason : String)
  | status (jobId : String)
  | reclaimExpired

inductive Reply (P O : Type) where
  | enqueued (result : Except CloudError Unit)
  | claimed (job : Option (ClaimedJob P))
  | completed (result : Except CloudError Unit)
  | cancelled (existed : Bool)
  | status (status : JobStatus O)
  | reclaimed (count : Nat)

variable {P O : Type}

/-- A call, the clock it read, the order in which it found the expired leases, and its reply. -/
structure Event (P O : Type) where
  call : Call P O
  now : Nat
  order : List String
  reply : Reply P O

def Inner.run (q : Inner P O) (call : Call P O) (now : Nat) (order : List String) :
    Inner P O × Reply P O :=
  match call with
  | .enqueue job => ((q.enqueue job).1, .enqueued (q.enqueue job).2)
  | .claim workerId leaseSecs =>
    ((q.claim workerId leaseSecs now order).1, .claimed (q.claim workerId leaseSecs now order).2)
  | .complete assignment result =>
    ((q.complete assignment result order).1, .completed (q.complete assignment result order).2)
  | .cancel jobId reason => ((q.cancel jobId reason).1, .cancelled (q.cancel jobId reason).2)
  | .status jobId => ((q.status jobId order).1, .status (q.status jobId order).2)
  | .reclaimExpired => (q.reclaim order, .reclaimed order.length)

/-- Calls that do not reclaim expired leases first. -/
def Call.keepsLeases : Call P O → Bool
  | .enqueue _ | .cancel _ _ => true
  | _ => false

def Call.isClaim : Call P O → Bool
  | .claim _ _ => true
  | _ => false

/-- A call may find the expired leases in any order. It reads the clock under the lock, or, for a
    claim, at any time before. -/
structure Possible (q : Inner P O) (clock clock' : Nat) (call : Call P O) (now : Nat)
    (order : List String) : Prop where
  forward : clock ≤ clock'
  reading : if call.isClaim then now ≤ clock' else now = clock'
  found : if call.keepsLeases then order = [] else order.Perm (q.expired now)

/-- The events so far, the clock and the queue. -/
inductive Run : List (Event P O) → Nat → Inner P O → Prop
  | start (clock : Nat) : Run [] clock Inner.new
  | step {events : List (Event P O)} {clock clock' : Nat} {q : Inner P O} (call : Call P O)
      (now : Nat) (order : List String) (hrun : Run events clock q)
      (hpossible : Possible q clock clock' call now order) :
    Run (events ++ [⟨call, now, order, (q.run call now order).2⟩]) clock'
      (q.run call now order).1

end Blut.Cloud
