import Tinyflows.Lib.Json
import Tinyflows.Storage.Repo

/-!
# The ledger over a document store

All tenants keep their records in one store. A record carries the bucket of its tenant, and some are
also kept under it; the global bucket is the empty one.
-/

namespace Tinyflows.Adaptive.Ledger
open Lib Storage Json

/-- Where a document is kept: its collection and the parts of its id. -/
inductive LedgerKey where
  | row (id : String)
  | lesson (id : String)
  | evidence (lessonId rowId : String)
  | score (bucket workflowId : String)
  | variant (bucket id : String)
  | episode (bucket id : String)
  | step (bucket rowId : String) (seq : Nat)
  deriving DecidableEq

inductive Collection where
  | rows | lessons | evidence | scores | variants | episodes | steps
  deriving DecidableEq

def LedgerKey.collection : LedgerKey → Collection
  | .row _ => .rows
  | .lesson _ => .lessons
  | .evidence .. => .evidence
  | .score .. => .scores
  | .variant .. => .variants
  | .episode .. => .episodes
  | .step .. => .steps

abbrev LedgerDocs : LedgerKey → Type := fun _ => Json

/-- A write is noted with the bucket of the handle it is made through. -/
abbrev LedgerStore := Store LedgerDocs (String × LedgerKey)

abbrev Access := ExceptT StoreError (Transaction LedgerDocs (String × LedgerKey))

abbrev Fields := List (String × Json)

abbrev Record := LedgerKey × Json

structure Answer where
  records : List Record := []
  id : Option String := none

/-! ## Bodies and filters -/

def tagged (bucket : String) (fields : Fields) : Json :=
  .obj (insertField "scope_key" (.str bucket) fields)

def rowBody (row : Fields) (bucket : String) (seq : Nat) : Json :=
  tagged bucket (insertField "seq" (.nat seq) row)

def lessonBody (lesson : Fields) (bucket : String) (seq : Nat) : Json :=
  tagged bucket (insertField "seq" (.nat seq) lesson)

def stepBody (step : Fields) (bucket rowId : String) (seq : Nat) : Json :=
  tagged bucket (insertFields step [("row_id", .str rowId), ("seq", .nat seq)])

def is (field : String) (v : Json) (r : Record) : Bool := r.2.get field = some v

def within (bucket : String) : Record → Bool := is "scope_key" (.str bucket)

def visible (bucket : String) (r : Record) : Bool := within bucket r || within "" r

def counter (doc : Json) (field : String) : Nat :=
  match (doc.get field).bind asU64 with
  | some n => if n.toNat < 2 ^ 32 then n.toNat else 0
  | none => 0

def text (doc : Json) (field : String) : String := ((doc.get field).bind asStr).getD ""

def number (doc : Json) (field : String) : Int :=
  match doc.get field with
  | some (.num (.posInt n)) => n.toNat
  | some (.num (.negInt n)) => n
  | _ => 0

def bySeq (a b : Record) : Bool := number a.2 "seq" ≤ number b.2 "seq"

def newestFirst (a b : Record) : Bool :=
  number b.2 "updated_ms" < number a.2 "updated_ms" ∨
    number a.2 "updated_ms" = number b.2 "updated_ms" ∧ text a.2 "episode_id" ≤ text b.2 "episode_id"

/-! ## Storage helpers -/

def put (bucket : String) (k : LedgerKey) (doc : Json) (pre : Precondition) : Access Unit :=
  .mk (Transaction.write [.put k doc pre] (some (bucket, k)))

def insertOnce (bucket : String) (k : LedgerKey) (doc : Json) : Access Unit :=
  tryCatch (put bucket k doc .absent) fun e => if e = .conflict then return else throw e

def CAS_ATTEMPTS : Nat := 64

/-- The document is replaced by what `f` makes of it, unless that is nothing. -/
def swap (bucket : String) (k : LedgerKey) (f : Option Json → Option Json) : Access Unit := do
  let (r, _) ← ExceptT.lift (Repo.updateLoop (D := LedgerDocs) k (fun _ => some (bucket, k))
    (fun _ doc => (.ok (f doc), ())) (CAS_ATTEMPTS - 1) ())
  discard (.mk (pure r))

def counted (helped : Bool) (doc : Json) : Json :=
  .obj (insertFields doc.fields [("applied", .nat (counter doc "applied" + 1)),
    ("helped", .nat (counter doc "helped" + helped.toNat))])

def bump (bucket : String) (k : LedgerKey) (helped : Bool) (fresh : Option Json)
    (visible : Json → Bool) : Access Unit :=
  swap bucket k fun
    | some doc => if visible doc then some (counted helped doc) else none
    | none => fresh.map (counted helped)

def all (c : Collection) (p : Record → Bool) (le : Record → Record → Bool) :
    Access (List Record) := do
  let found ← ExceptT.mk (Transaction.list (·.collection = c))
  return ((found.map fun e => (e.1, e.2.doc)).filter p).mergeSort le

def get (k : LedgerKey) : Access (Option Record) := do
  let found ← ExceptT.mk (Transaction.get k)
  return found.map fun v => (k, v.doc)

def deleteWhere (c : Collection) (p : Record → Bool) : Access Unit := do
  let found ← all c p fun _ _ => true
  .mk (Transaction.write (found.map fun e => .delete e.1 .any) none)

/-! ## The operations -/

inductive LedgerOp where
  | append (row : Fields)
  | rows (episode : String)
  | promote (lesson : Fields) (cites : List String)
  | lessons (kind : Option String)
  | evidence (lessonId : String)
  | scoreLesson (lessonId : String) (helped : Bool)
  | scoreWorkflow (workflowId : String) (helped : Bool)
  | workflowScore (workflowId : String)
  | linkVariant (parent variant : String)
  | parentOf (id : String)
  | childrenOf (id : String)
  | saveEpisode (id : String) (episode : Fields)
  | episode (id : String)
  | episodes (runningOnly : Bool) (limit offset : Nat)
  | saveSteps (rowId : String) (steps : List Fields)
  | steps (rowId : String)

def padded (n : Nat) : String := String.ofList (.replicate (8 - (toString n).length) '0') ++ toString n

def nextSeq : Access Nat := ExceptT.lift Transaction.unique

def perform (bucket : String) : LedgerOp → Access Answer
  | .append row => do
    let seq ← nextSeq
    let id := "ldg_" ++ padded seq
    put bucket (.row id) (rowBody row bucket seq) .absent
    return { id := some id }
  | .rows episode => do
    return { records := ← all .rows (fun r => within bucket r && is "episode" (.str episode) r) bySeq }
  | .promote lesson cites => do
    let seq ← nextSeq
    let id := "les_" ++ padded seq
    cites.forM fun rowId => insertOnce bucket (.evidence id rowId)
      (.object [("lesson_id", .str id), ("row_id", .str rowId)])
    put bucket (.lesson id) (lessonBody lesson bucket seq) .absent
    return { id := some id }
  | .lessons kind => do
    return { records := ← all .lessons (fun r => visible bucket r &&
      kind.all fun want => is "kind" (.str want) r) bySeq }
  | .evidence lessonId => do
    let edges ← all .evidence (is "lesson_id" (.str lessonId)) fun _ _ => true
    let cited := edges.filterMap fun e => (e.2.get "row_id").bind asStr
    if cited = [] then return {}
    return { records := ← all .rows (fun r => visible bucket r &&
      cited.any fun id => r.1 = .row id) bySeq }
  | .scoreLesson id helped => do
    bump bucket (.lesson id) helped none fun doc =>
      text doc "scope_key" = "" || text doc "scope_key" = bucket
    return {}
  | .scoreWorkflow id helped => do
    bump bucket (.score bucket id) helped (some (tagged bucket
      (insertFields [] [("workflow_id", .str id), ("applied", .nat 0), ("helped", .nat 0)])))
      fun _ => true
    return {}
  | .workflowScore id => do return { records := (← get (.score bucket id)).toList }
  | .linkVariant parent variant => do
    insertOnce bucket (.variant bucket variant)
      (tagged bucket (insertFields [] [("variant", .str variant), ("parent", .str parent)]))
    return {}
  | .parentOf id => do
    let found ← get (.variant bucket id)
    return { records := (found.filter fun r => text r.2 "parent" ≠ "").toList }
  | .childrenOf id => do
    let records ← all .variants (fun r => within bucket r && is "parent" (.str id) r)
      fun a b => text a.2 "variant" ≤ text b.2 "variant"
    return { records }
  | .saveEpisode id episode => do
    -- when it was started stays as it was first stored
    swap bucket (.episode bucket id) fun found => some (tagged bucket
      ((found.bind (·.get "started_ms")).elim episode (insertField "started_ms" · episode)))
    return {}
  | .episode id => do return { records := (← get (.episode bucket id)).toList }
  | .episodes runningOnly limit offset => do
    let found ← all .episodes (fun r => within bucket r &&
      (!runningOnly || is "running" (.bool true) r)) newestFirst
    return { records := (found.drop offset).take limit }
  | .saveSteps rowId steps => do
    steps.zipIdx.forM fun (step, seq) =>
      put bucket (.step bucket rowId seq) (stepBody step bucket rowId seq) .any
    deleteWhere .steps fun r => within bucket r && is "row_id" (.str rowId) r &&
      steps.length ≤ number r.2 "seq"
    return {}
  | .steps rowId => do
    return { records := ← all .steps (fun r => within bucket r && is "row_id" (.str rowId) r) bySeq }

abbrev Request := Option String × LedgerOp

def Request.bucket (op : Request) : String := op.1.getD ""

abbrev LedgerCall := Lib.Call LedgerDocs (String × LedgerKey)

abbrev LedgerWorld :=
  World LedgerStore LedgerCall Lib.Call.Reply Request (Except StoreError Answer)

/-- Operations through handles of any scope, in any order, one call of one of them at a time. -/
def tenants :
    System LedgerStore LedgerCall Lib.Call.Reply Request (Except StoreError Answer) where
  serves := Store.Serves
  program op := (perform op.bucket op.2).run

end Tinyflows.Adaptive.Ledger
