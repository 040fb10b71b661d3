import Tinyflows.Cron.Jobs
import Tinyflows.Storage.Leases

/-!
# The cron store

The collections of the cron store, and the admission ledger that every write of a job goes through.
Batches of writes are atomic.
-/

namespace Tinyflows.Cron
open Lib Storage

/-! ## Documents -/

/-- The lease of an occurrence is kept under the job and the instant of the occurrence. -/
inductive CronKey where
  | job (id : String)
  | run (seq : Nat)
  | ledger
  | lease (job : String) (occurrenceMs : Int)
  | runCounter
  deriving DecidableEq

structure Member where
  incarnation : Option String
  enabled : Bool
  deriving DecidableEq

structure Admission where
  limit : Option Nat := none
  jobs : AList (fun _ : String => Member) := ∅

abbrev CronDocs : CronKey → Type
  | .job _ => JobDoc
  | .run _ => RunDoc
  | .ledger => Admission
  | .lease _ _ => Body
  | .runCounter => Nat

structure ClaimLease where
  owner : String
  token : String
  epoch : Nat
  incarnation : String
  occurrence : Int
  startedAt : Int
  expiresAt : Int
  deriving DecidableEq

/-! ## What a write is for -/

inductive RowEvent where
  | created (incarnation : String)
  | acquired (claim : ClaimLease)
  | edited
  | removed
  | queued (claim : ClaimLease) (run : RunDoc)
  | completed (claim : ClaimLease) (run : RunDoc)
  | released (claim : ClaimLease)
  deriving DecidableEq

/-- A lease is taken by the clock of whoever takes it. It is given up on request, after its claim was
completed, or when no claim came of it, and it is freed by an edit or a removal of the job. -/
inductive LeaseEvent where
  | taken (reading : Nat) (body : Body)
  | renewed (body : Body)
  | released (body : Body)
  | settled (body : Body)
  | givenBack (body : Body)
  | freed (body : Body)
  deriving DecidableEq

inductive ImportEvent where
  | written (doc : JobDoc)
  | enrolled
  | takenBack
  deriving DecidableEq

inductive Event where
  | row (job : String) (event : RowEvent)
  | lease (job : String) (occurrence : Int) (event : LeaseEvent)
  | imported (job : String) (event : ImportEvent)
  deriving DecidableEq

abbrev CronStore := Store CronDocs Event

/-! ## Calls -/

abbrev Access := ExceptT CronError (Transaction CronDocs Event)

/-- A random identifier: all that matters of it is that none is drawn twice. -/
def uuidOf (n : Nat) : String :=
  .ofList (List.replicate n 'u')

namespace Access

def read (k : CronKey) : Access (Option (Versioned (CronDocs k))) :=
  ExceptT.mk do return (← Transaction.get k).mapError .storage

def write (ops : List (WriteOp CronDocs)) (note : Option Event) : Access Unit :=
  ExceptT.mk do return (← Transaction.write ops note).mapError .storage

def uuid : Access String :=
  ExceptT.mk do return .ok (uuidOf (← Transaction.unique))

def rows : Access (List (String × Versioned JobDoc)) :=
  ExceptT.mk do
    let found ← Transaction.list fun
      | .job _ => true
      | _ => false
    return (found.mapError .storage).map fun docs => docs.filterMap fun
      | ⟨.job id, row⟩ => some (id, row)
      | _ => none

def outcome {α : Type} (x : Access α) : Access (Except CronError α) :=
  ExceptT.mk do return .ok (← x.run)

def unlessConflict {α : Type} (x : Access α) : Access (Option α) := do
  match ← x.outcome with
  | .ok a => return some a
  | .error e => if e.conflict then return none else throw e

def logged {α : Type} (x : Access α) : Access Unit := do
  let _ ← x.outcome

def ofStorage {α : Type} (x : Transaction CronDocs Event (Except StoreError α)) : Access α :=
  ExceptT.mk do return (← x).mapError .storage

def ofExcept {α : Type} (x : Except CronError α) : Access α :=
  ExceptT.mk (return x)

end Access

def CAS_ATTEMPTS : Nat := 32

/-! ## Admission -/

def Admission.active (a : Admission) : Nat :=
  (a.jobs.entries.filter (·.2.enabled)).length

def Admission.check (a : Admission) : Bool :=
  a.limit.all fun limit => limit ≠ 0 ∧ a.active ≤ limit

def limitExceeded : CronError :=
  .refused "cron store: active job limit exceeded"

def member (doc : JobDoc) : Member where
  incarnation := doc.incarnation
  enabled := doc.enabled

def Admission.ofRows (limit : Option Nat) (rows : List (String × Versioned JobDoc)) : Admission where
  limit := limit
  jobs := rows.foldl (fun jobs row => jobs.insert row.1 (member row.2.doc)) ∅

/-- A row written again as it was found, which fails when it has changed. -/
def rewrite (row : String × Versioned JobDoc) : WriteOp CronDocs :=
  .put (.job row.1) row.2.doc (.version row.2.version)

/-- The ledger. Where there is none yet it is made from the stored rows, all of which must still be as
they were read. -/
def admissionLoop : Nat → Access (Versioned Admission)
  | 0 => throw (.refused "cron store: admission initialization kept changing")
  | left + 1 => do
    match ← Access.read .ledger with
    | some stored =>
      if stored.doc.check then return stored else throw limitExceeded
    | none =>
      let rows ← Access.rows
      let _ ← (Access.write (rows.map rewrite ++ [.put .ledger (.ofRows none rows) .absent])
        none).unlessConflict
      admissionLoop left

def admission : Access (Versioned Admission) :=
  admissionLoop CAS_ATTEMPTS

/-- The ledger lists the job as its document says, or neither is there. -/
def Admission.owns (a : Admission) (id : String) (previous : Option JobDoc) : Bool :=
  match previous, a.jobs.lookup id with
  | none, none => true
  | some old, some current => current.incarnation = old.incarnation
  | _, _ => false

def Admission.withJob (a : Admission) (id : String) (next : Option JobDoc) : Admission :=
  { a with
    jobs := match next with
      | some doc => a.jobs.insert id (member doc)
      | none => a.jobs.erase id }

def rowWrite (id : String) (next : Option JobDoc) (found : Option (Versioned JobDoc)) :
    WriteOp CronDocs :=
  match next with
  | some doc => .put (.job id) doc (.unchanged found)
  | none => .delete (.job id) (.unchanged found)

/-- Commits a job with its membership, and the runs that belong to it, in one batch. The document must
still be `previous`, and the ledger as it was read. -/
def commitJob (id : String) (previous next : Option JobDoc) (runs : List (WriteOp CronDocs))
    (event : RowEvent) : Access Unit := do
  let ledger ← admission
  if ledger.doc.owns id previous then
    let current ← Access.read (.job id)
    if current.map (·.doc) = previous then
      let state := ledger.doc.withJob id next
      if state.check then
        Access.write (rowWrite id next current :: runs ++
          [.put .ledger state (.version ledger.version)]) (some (.row id event))
      else throw limitExceeded
    -- The job changed, or the incarnation did.
    else throw (.storage .conflict)
  else throw (.storage .conflict)

/-! ## Runs -/

def nextRunNumber : Access Nat := do
  let next := Repo.at_ (N := Event) (D := CronDocs) .runCounter CAS_ATTEMPTS
  let (result, _) ← (next.update (fun _ body =>
    let value := (body.map (· + 1)).getD 1
    if value < 2 ^ 63 then (.ok (some value), ()) else (.error (.failure "counter overflow"), ())) ()
      : Transaction CronDocs Event _)
  match result with
  | .ok (some value) => return value
  | .ok none => throw (.refused "counter update declined")
  | .error e => throw (.storage e)

def queuedRunCleanup (doc : JobDoc) : List (WriteOp CronDocs) :=
  (doc.queuedRun.map fun seq => WriteOp.delete (.run seq) .any).toList

def runWrite (run : RunDoc) : WriteOp CronDocs :=
  .put (.run run.seq) run .absent

def runsOf (id : String) (doc : JobDoc) : Access (List RunDoc) := do
  let found ← Access.ofStorage (Transaction.list fun
    | .run _ => true
    | _ => false)
  return (found.filterMap fun
    | ⟨.run _, run⟩ => some run.doc
    | _ => none).filter fun run => run.jobId = id ∧ run.incarnation = doc.incarnation

def deleteRunsOf (id : String) (doc : JobDoc) : Access Unit := do
  let runs ← runsOf id doc
  Access.write (runs.map fun run => .delete (.run run.seq) .any) none

def pruneRuns (maxRunHistory : Nat) (id : String) (doc : JobDoc) : Access Unit := do
  let runs ← runsOf id doc
  let newestFirst := runs.insertionSort fun a b =>
    b.startedMs < a.startedMs ∨ b.startedMs = a.startedMs ∧ b.seq ≤ a.seq
  (newestFirst.drop maxRunHistory).forM fun run => Access.write [.delete (.run run.seq) .any] none

end Tinyflows.Cron
