import Tinyflows.Cron.System
import Tinyflows.Storage.Lemmas.Leases

/-!
# What one call may do to the store

Every write of every operation takes one of a few forms, and each form records what its caller had
made sure of. What one caller counts on is what the forms leave the others.
-/

namespace Tinyflows.Cron
open Lib Storage

/-! ## What always holds -/

structure JobsListed (s : CronStore) : Prop where
  listed : ∀ {id m}, s.listed id = some m → (s.rowDoc id).map member = some m
  unlisted : ∀ {id doc}, s.rowDoc id = some doc → s.listed id = none →
    ∃ j, importOf j s.log = some (id, doc)
  imports : ∀ {j id doc}, importOf j s.log = some (id, doc) → s.rowDoc id = some doc
  single : ∀ {j k id doc doc'}, importOf j s.log = some (id, doc) →
    importOf k s.log = some (id, doc') → j = k
  admitted : ∀ {a}, s.ledger = some a → a.doc.check = true

structure LeasesTaken (s : CronStore) : Prop where
  begun : ∀ {job occurrence}, s.lease job occurrence ≠ none → 1 ≤ beginnings job occurrence s.log
  taken : ∀ {job occurrence body}, s.leaseBody job occurrence = some body →
    TakenBy s.log job occurrence body.holder body.epoch

def TokensOwned (s : CronStore) : Prop :=
  ∀ j e token, (j, e) ∈ s.log → e.token = some token →
    ∃ n, token = uuidOf n ∧ s.issued[n]? = some j

def EpochTaken (id : String) (doc : JobDoc) (log : List (Nat × Event)) : Prop :=
  ∀ epoch, doc.claimEpoch = some epoch → ∃ holder, TakenBy log id doc.nextRunMs holder epoch

structure Inv (s : CronStore) : Prop extends JobsListed s, LeasesTaken s where
  tokens : TokensOwned s
  epochs : ∀ id doc, s.rowDoc id = some doc → EpochTaken id doc s.log

/-- The ledger stays, and as long as its version does, so do the jobs it lists. -/
def Guarded (s t : CronStore) : Prop :=
  ∀ a, s.ledger = some a → ∃ b, t.ledger = some b ∧ a.version ≤ b.version ∧
    (a.version = b.version → a = b ∧ ∀ id, a.doc.jobs.lookup id ≠ none → t.row id = s.row id)

/-- A record that was dropped does not come back, and one that stays is told by its version. -/
structure LeaseGuarded (job : String) (occurrence : Int) (s t : CronStore) : Prop where
  stays : ∀ a, s.lease job occurrence = some a →
    t.lease job occurrence = none ∧ 1 ≤ beginnings job occurrence t.log ∨
    ∃ b, t.lease job occurrence = some b ∧ a.version ≤ b.version ∧ (a.version = b.version → a = b)
  dropped : s.lease job occurrence = none → 1 ≤ beginnings job occurrence s.log →
    t.lease job occurrence = none

/-- What the call of number `i` counts on. Of a lease it can count on nothing once its record has been
begun again. -/
structure Rely (i : Nat) (s t : CronStore) : Prop where
  log : s.log <+: t.log
  issued : s.issued <+: t.issued
  own : own i t.log = own i s.log
  guarded : Guarded s t
  leases : ∀ job occurrence, beginnings job occurrence t.log ≤ 1 → LeaseGuarded job occurrence s t

/-! ## The forms of a write -/

def RowEvent.run : RowEvent → Option RunDoc
  | .queued _ run => some run
  | .completed _ run => some run
  | _ => none

def RunWrite (event : RowEvent) : WriteOp CronDocs → Prop
  | .put (.run _) run _ => event.run = some run
  | .delete (.run _) _ => True
  | _ => False

def Housekeeping : WriteOp CronDocs → Prop
  | .put .runCounter _ _ => True
  | .delete (.run _) _ => True
  | _ => False

structure Carried (log : List (Nat × Event)) (id : String) (doc : JobDoc) (claim : ClaimLease) :
    Prop where
  carries : doc.carries claim = true
  taken : TakenBy log id claim.occurrence claim.token claim.epoch

/-- The call of number `i` took the lease, by `holder` and in the tenure `epoch`, on a log such that `P`. -/
def Took (i : Nat) (P : List (Nat × Event) → Prop) (log : List (Nat × Event)) (job : String)
    (occurrence : Int) (holder : String) (epoch : Nat) : Prop :=
  ∃ before reading body after, log = before ++ (i, Event.lease job occurrence (.taken reading body)) :: after ∧
    body.holder = holder ∧ body.epoch = epoch ∧ P before

/-- A claim that the call of number `i` is about to make on the document. It read the document before
it took the lease. -/
structure Acquires (i : Nat) (s : CronStore) (id : String) (doc : JobDoc) (claim : ClaimLease) :
    Prop where
  occurrence : doc.nextRunMs = claim.occurrence
  incarnation : ∀ incarnation, doc.incarnation = some incarnation → claim.incarnation = incarnation
  token : ∃ n, claim.token = uuidOf n ∧ s.issued[n]? = some i
  unclaimed : Unclaimed s.log claim.token
  took : Took i (EpochTaken id doc) s.log id claim.occurrence claim.token claim.epoch

inductive RowEvent.Fits (i : Nat) (s : CronStore) (id : String) :
    RowEvent → Option JobDoc → Option JobDoc → Prop
  | created {doc : JobDoc} {incarnation : String} (hincarnation : doc.incarnation = some incarnation)
      (hepoch : doc.claimEpoch = none) : Fits i s id (.created incarnation) none (some doc)
  | acquired {doc : JobDoc} {claim : ClaimLease} (hclaim : Acquires i s id doc claim) :
      Fits i s id (.acquired claim) (some doc) (some (claimedDoc doc claim))
  | edited {doc doc' : JobDoc} (hincarnation : doc'.incarnation = doc.incarnation)
      (hepoch : doc'.claimEpoch = none) : Fits i s id .edited (some doc) (some doc')
  | removed {doc : JobDoc} : Fits i s id .removed (some doc) none
  | queued {doc : JobDoc} {claim : ClaimLease} {run : RunDoc} (hcarried : Carried s.log id doc claim)
      (hjob : run.jobId = id) (hrun : run.incarnation = some claim.incarnation) :
      Fits i s id (.queued claim run) (some doc) (some { doc with queuedRun := some run.seq })
  | completed {doc doc' : JobDoc} {claim : ClaimLease} {run : RunDoc}
      (hcarried : Carried s.log id doc claim) (hjob : run.jobId = id)
      (hrun : run.incarnation = some claim.incarnation)
      (hincarnation : doc'.incarnation = doc.incarnation) (hepoch : doc'.claimEpoch = none) :
      Fits i s id (.completed claim run) (some doc) (some doc')
  | released {doc : JobDoc} {claim : ClaimLease} (hcarried : Carried s.log id doc claim) :
      Fits i s id (.released claim) (some doc) (some { doc with queuedRun := none })

/-- The call of number `i` completed a claim under this token. -/
def Finished (i : Nat) (log : List (Nat × Event)) (job : String) (token : String) : Prop :=
  ∃ claim run, (i, Event.row job (.completed claim run)) ∈ log ∧ claim.token = token

inductive Ends (i : Nat) (s : CronStore) (job : String) (token : String) : (Body → LeaseEvent) → Prop
  | released : Ends i s job token .released
  | settled (h : Finished i s.log job token) : Ends i s job token .settled
  | givenBack (h : Unclaimed s.log token) : Ends i s job token .givenBack

inductive LeaseStep (i : Nat) (s : CronStore) (job : String) : Option Body → Body → LeaseEvent → Prop
  | taken {n : Nat} {ttlMs : Int} {reading : Nat} {before : Option Body} {body : Body}
      (hbody : Leases.acquireBody (uuidOf n) ttlMs reading before = .ok (some body))
      (hissued : s.issued[n]? = some i) (hunused : Unused s.log (uuidOf n)) :
      LeaseStep i s job before body (.taken reading body)
  | renewed {token : String} {epoch reading : Nat} {expiresMs : Int} {b : Body}
      (htenure : b.IsTenure token epoch reading) :
      LeaseStep i s job (some b) { b with expiresMs } (.renewed { b with expiresMs })
  | ended {token : String} {epoch reading : Nat} {b : Body} {note : Body → LeaseEvent}
      (htenure : b.IsTenure token epoch reading) (hends : Ends i s job token note) :
      LeaseStep i s job (some b) { b with expiresMs := reading, released := true }
        (note { b with expiresMs := reading, released := true })
  | freed {b : Body} (hedited : ∃ event, (event = .edited ∨ event = .removed) ∧
      (i, Event.row job event) ∈ s.log) :
      LeaseStep i s job (some b) { b with expiresMs := 0 } (.freed { b with expiresMs := 0 })

/-- A row may be written while another call imports the job only as that call wrote it. -/
def Respects (i : Nat) (s : CronStore) (ops : List (WriteOp CronDocs)) : Prop :=
  ∀ j, j ≠ i → ∀ id doc, importOf j s.log = some (id, doc) →
    ∀ op ∈ ops, op.key = .job id → ∃ pre, op = .put (.job id) doc pre

/-- What the call of number `i` may do, imports apart, if its events on jobs are among `M`. -/
inductive Change (M : String → RowEvent → Prop) (i : Nat) (s : CronStore) : CronStore → Prop
  | idle : Change M i s s
  | drew : Change M i s { s with issued := s.issued ++ [i] }
  | kept {ops : List (WriteOp CronDocs)} (hops : ∀ op ∈ ops, Housekeeping op) :
      Change M i s (s.commit i ops none)
  | leased {job : String} {occurrence : Int} {before : Option Body} {body : Body} {event : LeaseEvent}
      {pre : Precondition} (hstep : LeaseStep i s job before body event)
      (hbefore : beginnings job occurrence s.log ≤ 1 → s.leaseBody job occurrence = before)
      (htaken : ∀ b, before = some b → TakenBy s.log job occurrence b.holder b.epoch) :
      Change M i s (s.commit i [.put (.lease job occurrence) body pre]
        (some (.lease job occurrence event)))
  | compacted {job : String} {occurrence : Int} {b : Body} {token : String} {pre : Precondition}
      (hfinished : Finished i s.log job token) (hholder : b.holder = token)
      (hbefore : beginnings job occurrence s.log ≤ 1 → s.leaseBody job occurrence = some b) :
      Change M i s (s.commit i [.delete (.lease job occurrence) pre] none)
  | committed {id : String} {event : RowEvent} {previous next : Option JobDoc}
      {found : Option (Versioned JobDoc)} {ledger : Versioned Admission}
      {runs : List (WriteOp CronDocs)} {pre : Precondition} (hevent : M id event)
      (hidle : importOf i s.log = none) (hledger : s.ledger = some ledger)
      (hrow : s.rowDoc id = previous) (hfits : event.Fits i s id previous next)
      (hruns : ∀ op ∈ runs, RunWrite event op) (hcheck : (ledger.doc.withJob id next).check = true)
      (himports : ∀ j, j ≠ i → ∀ doc, importOf j s.log = some (id, doc) → next = some doc) :
      Change M i s (s.commit i (rowWrite id next found :: runs ++
        [.put .ledger (ledger.doc.withJob id next) pre]) (some (.row id event)))
  | relisted {limit : Option Nat} {rows : List (String × Versioned JobDoc)} {pre : Precondition}
      (hrows : ∀ row ∈ rows, s.rowDoc row.1 = some row.2.doc)
      (hlisted : ∀ id, s.listed id ≠ none → ∃ row ∈ rows, row.1 = id)
      (hcheck : (Admission.ofRows limit rows).check = true) :
      Change M i s (s.commit i (rows.map rewrite ++ [.put .ledger (.ofRows limit rows) pre]) none)

inductive ImportChange (i : Nat) (s : CronStore) : CronStore → Prop
  | written {id : String} {doc : JobDoc} {pre : Precondition} (hrow : s.row id = none)
      (hepoch : doc.claimEpoch = none) (hidle : importOf i s.log = none) :
      ImportChange i s (s.commit i [.put (.job id) doc pre] (some (.imported id (.written doc))))
  | enrolled {id : String} {doc : JobDoc} {ledger : Versioned Admission} {pre : Precondition}
      (himport : importOf i s.log = some (id, doc)) (hledger : s.ledger = some ledger)
      (hcheck : (ledger.doc.withJob id (some doc)).check = true) :
      ImportChange i s (s.commit i [.put .ledger (ledger.doc.withJob id (some doc)) pre]
        (some (.imported id .enrolled)))
  | takenBack {id : String} {doc : JobDoc} {pre : Precondition}
      (himport : importOf i s.log = some (id, doc)) (hunlisted : s.listed id = none) :
      ImportChange i s (s.commit i [.delete (.job id) pre] (some (.imported id .takenBack)))

/-- Terms under which a call may do all this. -/
structure Under (M : String → RowEvent → Prop) (i : Nat)
    (T : Terms CronStore (Call CronDocs Event) Call.Reply) : Prop where
  serves : ∀ {s c r u}, T.serves s c r u → Store.Serves i s c r u
  respects : ∀ {s ops note u}, T.inv s → T.serves s (.write ops note) (.ok ()) u → Respects i s ops
  inv : ∀ {s}, T.inv s → Inv s
  rely : ∀ {s t}, T.rely s t → Rely i s t
  allows : ∀ {s u}, Change M i s u → T.guarantee s u
  keeps : ∀ {s c r u}, T.inv s → T.serves s c r u → Change M i s u → T.inv u

/-- Terms under which a call may import as well. What it wrote is taken back only while the ledger does
not list it, and taking it back does not fail. -/
structure UnderImport (i : Nat) (T : Terms CronStore (Call CronDocs Event) Call.Reply) : Prop where
  allows : ∀ {s u}, ImportChange i s u → T.guarantee s u
  keeps : ∀ {s c r u}, T.inv s → T.serves s c r u → ImportChange i s u → T.inv u
  takesBack : ∀ {s id ops r u}, T.serves s (.write ops (some (.imported id .takenBack))) r u →
    r = .ok () ∧ s.listed id = none

end Tinyflows.Cron
