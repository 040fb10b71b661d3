import Tinyflows.Catalog.GraphPolicy
import Tinyflows.Storage.Repo

/-!
# Revisions of a flow

Before a flow's graph is replaced, the graph it replaces is recorded as a revision. The revision is
written first, as pending; the flow is swapped and then names it; then it is confirmed. Each of these is
a write of its own, and so is every delete of the prune that follows.
-/

namespace Tinyflows.Catalog
open Lib Model Storage

/-! ## Documents -/

structure FlowDoc where
  name : String
  graph : WorkflowGraph
  enabled : Bool
  updatedMs : Int
  requireApproval : Bool
  lastRevisionId : Option Nat := none
  revision : Option Nat := some 1
  incarnation : Option String := none

structure RevisionDoc where
  flowId : String
  graph : WorkflowGraph
  name : String
  requireApproval : Bool
  createdMs : Int
  flowIncarnation : Option String
  pending : Bool := false
  touchedMs : Option Int := none

inductive CatalogKey where
  | definition (flow : String)
  | revision (id : Nat)
  deriving DecidableEq

abbrev CatalogDocs : CatalogKey → Type
  | .definition _ => FlowDoc
  | .revision _ => RevisionDoc

/-- What a write is for: an update commits, or writes the revision it has committed; the revision the
flow names is confirmed; a prune takes a pending revision. -/
inductive CatalogEvent where
  | committed (id : Nat) (revision : RevisionDoc) (flow : FlowDoc)
  | restored (id : Nat)
  | confirmed (id : Nat)
  | abandoned (id : Nat)

abbrev CatalogStore := Store CatalogDocs CatalogEvent

abbrev Access := ExceptT StoreError (Transaction CatalogDocs CatalogEvent)

def CatalogKey.isRevision : CatalogKey → Bool
  | .definition _ => false
  | .revision _ => true

abbrev RevisionRow := Nat × Versioned RevisionDoc

def revisionRow : (Σ k, Versioned (CatalogDocs k)) → Option RevisionRow
  | ⟨.definition _, _⟩ => none
  | ⟨.revision id, row⟩ => some (id, row)

def RevisionRow.newer (a b : RevisionRow) : Prop :=
  b.2.doc.createdMs < a.2.doc.createdMs ∨ a.2.doc.createdMs = b.2.doc.createdMs ∧ b.1 ≤ a.1

instance : DecidableRel RevisionRow.newer :=
  fun _ _ => inferInstanceAs (Decidable (_ ∨ _))

def newestFirst (flow : String) (rows : List RevisionRow) : List RevisionRow :=
  (rows.filter fun row => row.2.doc.flowId = flow).insertionSort RevisionRow.newer

def CAS_ATTEMPTS : Nat := 32

namespace Access

def get (k : CatalogKey) : Access (Option (Versioned (CatalogDocs k))) :=
  ExceptT.mk (Transaction.get k)

def put (k : CatalogKey) (doc : CatalogDocs k) (pre : Precondition) (note : Option CatalogEvent) :
    Access Unit :=
  ExceptT.mk (Transaction.write [.put k doc pre] note)

def delete (k : CatalogKey) (pre : Precondition) (note : Option CatalogEvent) : Access Unit :=
  ExceptT.mk (Transaction.write [.delete k pre] note)

def revisionsOf (flow : String) : Access (List RevisionRow) :=
  ExceptT.mk do
    return (← Transaction.list CatalogKey.isRevision).map fun rows =>
      newestFirst flow (rows.filterMap revisionRow)

/-- What was stored, or nothing when the document is missing or `change` declines. -/
def compareAndSwap (k : CatalogKey) (note : CatalogDocs k → Option CatalogEvent)
    (change : CatalogDocs k → Option (CatalogDocs k)) : Access (Option (CatalogDocs k)) :=
  ExceptT.mk do
    let (stored, _) ← (Repo.at_ (D := CatalogDocs) (N := CatalogEvent) k CAS_ATTEMPTS note).update
      (fun c doc => (.ok (doc.bind change), c)) ()
    return stored

def bestEffort (x : Access Unit) : Access Unit :=
  tryCatch x fun _ => return ()

end Access

/-! ## Which revisions are seen -/

def belongs (revision : RevisionDoc) (flow : Option FlowDoc) : Bool :=
  flow.any fun flow => revision.flowIncarnation.all fun written => flow.incarnation = some written

def visible (row : RevisionRow) (latest : Option Nat) : Bool :=
  !row.2.doc.pending || decide (latest = some row.1)

structure Partition where
  visible : List RevisionRow
  pending : List RevisionRow
  orphans : List RevisionRow

def partitionRows (flow : Option FlowDoc) (rows : List RevisionRow) : Partition :=
  let latest := flow.bind (·.lastRevisionId)
  let belonging := rows.filter fun row => belongs row.2.doc flow
  { visible := belonging.filter (visible · latest)
    pending := belonging.filter fun row => !visible row latest
    orphans := rows.filter fun row => !belongs row.2.doc flow }

def readFlow (flow : String) : Access (Option FlowDoc) :=
  return (← Access.get (.definition flow)).map (·.doc)

def partition (flow : String) : Access Partition := do
  let definition ← readFlow flow
  let rows ← Access.revisionsOf flow
  return partitionRows definition rows

/-! ## Deleting revisions -/

def deleteUnchanged (row : RevisionRow) (note : Option CatalogEvent) : Access Unit :=
  tryCatch (Access.delete (.revision row.1) (.version row.2.version) note) fun
    | .conflict => return ()
    | e => throw e

/-- Whether a row still is an orphan is checked again before it goes. -/
def reclaimOne (row : RevisionRow) : Access Unit :=
  Access.bestEffort do
    let flow ← readFlow row.2.doc.flowId
    if belongs row.2.doc flow then return () else deleteUnchanged row none

def reclaim : List RevisionRow → Access Unit
  | [] => return ()
  | row :: rest => do
    reclaimOne row
    reclaim rest

def MAX_REVISIONS_PER_FLOW : Nat := 20

def ABANDONED_AFTER_MS : Int := 3600 * 1000

def lastActivityMs (doc : RevisionDoc) : Int :=
  max doc.createdMs (doc.touchedMs.getD 0)

def deleteAll : List RevisionRow → Access Unit
  | [] => return ()
  | row :: rest => do
    deleteUnchanged row none
    deleteAll rest

/-- A pending revision of long ago is read again, and goes unless the flow names it by now. -/
def deleteAbandoned (flow : String) (candidate : RevisionRow) (reading : Int) : Access Unit := do
  match ← Access.get (.revision candidate.1) with
  | none => return ()
  | some current =>
    if current.doc.pending ∧ lastActivityMs current.doc < reading - ABANDONED_AFTER_MS then
      let definition ← readFlow flow
      if definition.any fun flow => flow.lastRevisionId = some candidate.1 then return ()
      else deleteUnchanged (candidate.1, current) (some (.abandoned candidate.1))
    else return ()

/-- The clock is read once for each candidate. -/
def deleteAbandonedAll (flow : String) (clock : Nat → Int) : Nat → List RevisionRow → Access Unit
  | _, [] => return ()
  | n, candidate :: rest => do
    deleteAbandoned flow candidate (clock n)
    deleteAbandonedAll flow clock (n + 1) rest

def pruneRevisions (flow : String) (clock : Nat → Int) (n : Nat) : Access Unit := do
  let rows ← partition flow
  reclaim rows.orphans
  deleteAll (rows.visible.drop MAX_REVISIONS_PER_FLOW)
  deleteAbandonedAll flow clock n rows.pending

/-! ## Updating a flow -/

def confirm (id : Nat) : Access Bool := do
  let confirmed ← Access.compareAndSwap (.revision id) (fun _ => some (.confirmed id))
    fun (doc : RevisionDoc) => if doc.pending then some { doc with pending := false } else none
  if confirmed.isSome then return true
  else return (← Access.get (.revision id)).isSome

def confirmOrRestore (id : Nat) (revision : RevisionDoc) : Access Unit :=
  Access.put (.revision id) revision .any (some (.restored id))

structure FlowRevision where
  id : Nat
  flowId : String
  graph : WorkflowGraph
  name : String
  requireApproval : Bool
  createdMs : Int

def toRevision (id : Nat) (doc : RevisionDoc) : FlowRevision where
  id := id
  flowId := doc.flowId
  graph := doc.graph
  name := doc.name
  requireApproval := doc.requireApproval
  createdMs := doc.createdMs

def listRevisions (flow : String) (limit : Nat) : Access (List FlowRevision) := do
  match ← readFlow flow with
  | none =>
    reclaim (← Access.revisionsOf flow)
    return []
  | some definition =>
    if limit = 0 then return []
    else
      let rows := partitionRows (some definition) (← Access.revisionsOf flow)
      reclaim rows.orphans
      return (rows.visible.take limit).map fun row => toRevision row.1 row.2.doc

def retainedHistoryCount (flow : String) : Access Nat :=
  return (← listRevisions flow MAX_REVISIONS_PER_FLOW).length

/-- The number of the stored graph. A flow without one starts from its visible history. -/
def currentRevision (flow : String) (stored : FlowDoc) : Access Nat :=
  match stored.revision with
  | some revision => return max revision 1
  | none => return (← retainedHistoryCount flow) + 1

structure GraphUpdate where
  name : String
  graph : WorkflowGraph
  requireApproval : Bool
  enabledOverride : Option Bool := none
  forceDisarmIfAutomatic : Bool := false
  expectedUpdatedMs : Option Int := none

inductive FlowUpdateError where
  | store (error : StoreError)
  | notFound
  | conflict (current : FlowDoc)

abbrev Update := ExceptT FlowUpdateError (Transaction CatalogDocs CatalogEvent)

def Access.orStore {α : Type} (x : Access α) : Update α :=
  ExceptT.adapt .store x

def nextStamp (reading : Int) (previous : Option Int) : Int :=
  previous.elim reading fun previous => max reading (previous + 1)

/-- An edit that would arm an automatic trigger leaves the flow disabled. -/
def GraphUpdate.enabled (request : GraphUpdate) (current : FlowDoc) : Bool :=
  let nowAuto := triggerIsAutomatic request.graph
  let wasAuto := triggerIsAutomatic current.graph
  if nowAuto && (!wasAuto || request.forceDisarmIfAutomatic) then false
  else request.enabledOverride.getD current.enabled

def priorRevision (flow : String) (stored : FlowDoc) (now : Int) : RevisionDoc where
  flowId := flow
  graph := stored.graph
  name := stored.name
  requireApproval := stored.requireApproval
  createdMs := now
  flowIncarnation := stored.incarnation

/-- Writes the revision as pending and touches it; it is written again if a prune has taken it. -/
def recordRevision (id : Nat) (revision : RevisionDoc) (touchedMs : Int) : Access Unit := do
  Access.put (.revision id) { revision with pending := true } .absent none
  let touched ← Access.compareAndSwap (.revision id) (fun _ => none) fun (doc : RevisionDoc) =>
    some { doc with touchedMs := some touchedMs }
  if touched.isSome then return ()
  else Access.put (.revision id) { revision with pending := true, touchedMs := some touchedMs } .any none

def swapFlow (request : GraphUpdate) (stored : FlowDoc) (now : Int) (id nextRevision : Nat)
    (doc : FlowDoc) : Option FlowDoc :=
  if doc.updatedMs ≠ stored.updatedMs ∨ doc.incarnation ≠ stored.incarnation ∨
      doc.revision ≠ stored.revision then none
  else some { doc with
    name := request.name
    graph := request.graph
    updatedMs := now
    requireApproval := request.requireApproval
    enabled := request.enabled stored
    lastRevisionId := some id
    revision := some nextRevision }

def dropUnused (id : Nat) : Access Unit :=
  Access.bestEffort (Access.delete (.revision id) .any none)

def lostUpdate (flow : String) (id : Nat) : Update FlowDoc := do
  (dropUnused id).orStore
  match ← (readFlow flow).orStore with
  | some current => throw (.conflict current)
  | none => throw .notFound

/-- What is left to do when the update has been committed cannot fail it. -/
def finishUpdate (flow : String) (clock : Nat → Int) (id : Nat) (revision : RevisionDoc) :
    Update FlowDoc := do
  (Access.bestEffort (confirmOrRestore id revision)).orStore
  (Access.bestEffort (pruneRevisions flow clock 2)).orStore
  match ← (readFlow flow).orStore with
  | some current => return current
  | none => throw .notFound

def confirmPrevious (stored : FlowDoc) : Access Unit :=
  match stored.lastRevisionId with
  | none => return ()
  | some last => do
    let _ ← confirm last

def commitUpdate (flow : String) (request : GraphUpdate) (clock : Nat → Int) (stored : FlowDoc)
    (nextRevision : Nat) : Update FlowDoc := do
  let now := nextStamp (clock 0) (some stored.updatedMs)
  (confirmPrevious stored).orStore
  let id ← ExceptT.lift Transaction.unique
  let revision := priorRevision flow stored now
  (recordRevision id revision (nextStamp (clock 1) none)).orStore
  let swapped ← tryCatch (Access.compareAndSwap (.definition flow)
      (fun next => some (.committed id revision next))
      (swapFlow request stored now id nextRevision)).orStore fun e => do
    (dropUnused id).orStore
    throw e
  match swapped with
  | none => lostUpdate flow id
  | some _ => finishUpdate flow clock id revision

/-- Revision numbers are unsigned 64-bit integers. -/
def updateFlowGraph (flow : String) (request : GraphUpdate) (clock : Nat → Int) : Update FlowDoc := do
  match ← (readFlow flow).orStore with
  | none => throw .notFound
  | some stored =>
    if request.expectedUpdatedMs.any (· ≠ stored.updatedMs) then throw (.conflict stored)
    else
      let revision ← (currentRevision flow stored).orStore
      if 2 ^ 64 ≤ revision + 1 then throw (.store (.failure "workflow revision number overflow"))
      else commitUpdate flow request clock stored (revision + 1)

/-! ## Updates of one flow under concurrent use -/

structure UpdateOp where
  request : GraphUpdate
  clock : Nat → Int

abbrev UpdateResult := Except FlowUpdateError FlowDoc

def updateSystem (flow : String) :
    System CatalogStore (Call CatalogDocs CatalogEvent) Call.Reply UpdateOp UpdateResult where
  serves := Store.Serves
  program op := (updateFlowGraph flow op.request op.clock).run

abbrev UpdateWorld :=
  World CatalogStore (Call CatalogDocs CatalogEvent) Call.Reply UpdateOp UpdateResult

end Tinyflows.Catalog
