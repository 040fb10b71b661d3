import Tinyflows.Cron.Changes
import Tinyflows.Lib.Histories

/-!
# Claims and what ends them

The log tells who acquired a job last and what became of the lease since.
-/

namespace Tinyflows.Cron
open Lib Storage

/-! ## The history of a job -/

def Event.turn (id : String) : Event → Option RowEvent
  | .row _ (.queued _ _) => none
  | .row _ (.released _) => none
  | .row id' event => if id' = id then some event else none
  | _ => none

def lastTurn (id : String) : List (Nat × Event) → Option RowEvent :=
  lastOf (·.2.turn id)

/-- The two were acquired under one token, on the same tenure of the lease of the same occurrence. -/
structure ClaimLease.Matches (own claim : ClaimLease) : Prop where
  token : own.token = claim.token
  epoch : own.epoch = claim.epoch
  incarnation : own.incarnation = claim.incarnation
  occurrence : own.occurrence = claim.occurrence

/-- The job took no turn since the claim was acquired: it was not acquired again, edited, removed,
re-created or completed. -/
def Latest (id : String) (claim : ClaimLease) (log : List (Nat × Event)) : Prop :=
  ∃ own, lastTurn id log = some (.acquired own) ∧ own.Matches claim

def Event.completes (id token : String) : Event → Bool
  | .row id' (.completed claim _) => id' = id ∧ claim.token = token
  | _ => false

def completions (id token : String) (log : List (Nat × Event)) : Nat :=
  log.countP (·.2.completes id token)

def JobOp.actsFor : JobOp → Option ClaimedOccurrence
  | .queue held _ _ => some held
  | .release held _ => some held
  | .complete held _ _ => some held
  | _ => none

def CronStore.run (s : CronStore) (seq : Nat) : Option RunDoc :=
  (s.docs.lookup (CronKey.run seq)).map (·.doc)

/-! ## The history of a lease -/

def LeaseEvent.body : LeaseEvent → Body
  | .taken _ body => body
  | .renewed body => body
  | .released body => body
  | .settled body => body
  | .givenBack body => body
  | .freed body => body

def Event.ofLease (job : String) (occurrence : Int) : Event → Option LeaseEvent
  | .lease job' occurrence' event => if job' = job ∧ occurrence' = occurrence then some event else none
  | _ => none

def lastLease (job : String) (occurrence : Int) : List (Nat × Event) → Option LeaseEvent :=
  lastOf (·.2.ofLease job occurrence)

structure Tenure where
  job : String
  occurrence : Int
  holder : String
  epoch : Nat
  deriving DecidableEq

def ClaimLease.tenure (id : String) (claim : ClaimLease) : Tenure :=
  ⟨id, claim.occurrence, claim.token, claim.epoch⟩

namespace Tenure

def begins (τ : Tenure) : Event → Bool
  | .lease job occurrence (.taken _ body) => τ = ⟨job, occurrence, body.holder, body.epoch⟩
  | _ => false

def releases (τ : Tenure) : Event → Bool
  | .lease job occurrence (.released body) => τ = ⟨job, occurrence, body.holder, body.epoch⟩
  | .lease job occurrence (.givenBack body) => τ = ⟨job, occurrence, body.holder, body.epoch⟩
  | _ => false

def expires (τ : Tenure) (last : Option LeaseEvent) : Event → Bool
  | .lease job occurrence (.taken reading _) => last.any fun last =>
    τ = ⟨job, occurrence, last.body.holder, last.body.epoch⟩ ∧ last.body.expiresMs ≤ (reading : Int)
  | _ => false

def Unreleased (τ : Tenure) (log : List (Nat × Event)) : Prop :=
  ∀ e ∈ log, τ.releases e.2 = false

def Unexpired (τ : Tenure) : List (Nat × Event) → Prop :=
  EveryStep fun before e => τ.expires (lastLease τ.job τ.occurrence before) e.2 = false

end Tenure

def Event.edits (id : String) : Event → Bool
  | .row id' .edited => id' = id
  | .row id' .removed => id' = id
  | _ => false

/-- The job was neither edited nor removed since such an event. -/
def UneditedSince (id : String) (p : Event → Bool) : List (Nat × Event) → Prop :=
  EveryStep fun before e => e.2.edits id = true → ∀ b ∈ before, p b.2 = false

instance (id : String) (p : Event → Bool) (log : List (Nat × Event)) : Decidable (UneditedSince id p log) :=
  inferInstanceAs (Decidable (EveryStep _ log))

/-- Since it was acquired, the claim was neither completed nor released, its lease did not expire on any
clock it was taken by, and the job was neither edited nor removed. -/
structure Standing (id : String) (claim : ClaimLease) (log : List (Nat × Event)) : Prop where
  acquired : ∃ e ∈ log, e.2 = .row id (.acquired claim)
  uncompleted : completions id claim.token log = 0
  unreleased : (claim.tenure id).Unreleased log
  unexpired : (claim.tenure id).Unexpired log
  unedited : UneditedSince id (· = .row id (.acquired claim)) log

/-- The claim is its holder's: nobody acquired the job since, the document carries it, and the lease is
what its acquisition or its last renewal made it. Until that expires, the holder may renew and complete,
and nobody else gets the lease. -/
structure Owned (id : String) (claim : ClaimLease) (s : CronStore) : Prop where
  last : lastTurn id s.log = some (.acquired claim)
  doc : ∃ doc, s.rowDoc id = some doc ∧ doc.carries claim = true
  lease : ∃ body, s.leaseBody id claim.occurrence = some body ∧
    (lastLease id claim.occurrence s.log = some (.renewed body) ∨
      ∃ reading, lastLease id claim.occurrence s.log = some (.taken reading body)) ∧
    ∀ reading : Nat, reading < body.expiresMs → body.IsTenure claim.token claim.epoch reading ∧
      ∀ other ttlMs body', other ≠ claim.token →
        Leases.acquireBody other ttlMs reading (some body) ≠ .ok (some body')

/-! ## Orderly use -/

/-- The record of a lease is begun once: nobody claims an occurrence again after its record was dropped. -/
def Event.beginsOnce (log : List (Nat × Event)) : Event → Bool
  | .lease job occurrence (.taken _ body) => body.epoch = 1 → beginnings job occurrence log = 0
  | _ => true

/-- Besides, a job is acquired only on a tenure that began after it was last edited, and an edit frees
only a lease that was taken before. -/
def Event.fenced (log : List (Nat × Event)) : Event → Bool
  | .row id (.acquired claim) => UneditedSince id (claim.tenure id).begins log
  | .lease job occurrence (.freed body) =>
    ¬ UneditedSince job (Tenure.begins ⟨job, occurrence, body.holder, body.epoch⟩) log
  | e => e.beginsOnce log

/-- Every event that a call commits is one that the log permits. A write that loses its race commits
nothing, and no condition is put on it. -/
def Permitted (p : List (Nat × Event) → Event → Bool) (_ : Nat) (s : CronStore) (c : Call CronDocs Event)
    (_ : c.Reply) (t : CronStore) : Prop :=
  ∀ e ∈ t.log.drop s.log.length, p s.log e.2 = true

end Tinyflows.Cron
