import Tinyflows.Storage.Repo

/-!
# Leases

Time-limited ownership with a fencing epoch. A lease's record outlives the lease: a takeover reads the
epoch of the tenure it follows. Every attempt of an operation reads the clock again, except that a
release reads it once.
-/

namespace Tinyflows.Storage
open Lib

structure Body where
  holder : String
  epoch : Nat
  expiresMs : Int
  endpoint : Option String := none
  released : Bool := false
  deriving DecidableEq

structure Lease where
  holder : String
  epoch : Nat
  expiresMs : Int
  endpoint : Option String
  deriving DecidableEq

def Lease.fromBody (b : Body) : Lease where
  holder := b.holder
  epoch := b.epoch
  expiresMs := b.expiresMs
  endpoint := b.endpoint

def Body.live (b : Body) (now : Int) : Bool :=
  decide (now < b.expiresMs) && !b.released

abbrev Clock := Nat → Nat

def now (reading : Nat) : Except StoreError Int :=
  if reading < 2 ^ 63 then .ok reading else .error (.failure "clock out of range")

def deadline (reading : Nat) (ttlMs : Int) : Except StoreError (Int × Int) := do
  if ttlMs ≤ 0 then throw (.failure "a lease ttl must be positive")
  let now ← now reading
  if 2 ^ 63 ≤ now + ttlMs then throw (.failure "lease ttl out of range")
  return (now, now + ttlMs)

def nextEpoch (epoch : Nat) : Except StoreError Nat :=
  if epoch + 1 < 2 ^ 64 then .ok (epoch + 1) else .error (.failure "lease epoch overflow")

namespace Leases

/-! ## What each operation makes of the record -/

def acquireBody (holder : String) (ttlMs : Int) (reading : Nat) (current : Option Body) :
    Except StoreError (Option Body) := do
  let (now, expiresMs) ← deadline reading ttlMs
  match current with
  | none => return some { holder, epoch := 1, expiresMs }
  | some lease =>
    if lease.live now then
      if lease.holder = holder then return some { holder, epoch := lease.epoch, expiresMs }
      else return none
    else
      let epoch ← nextEpoch lease.epoch
      return some { holder, epoch, expiresMs }

structure Acquire where
  holder : String
  ttlMs : Int
  endpoint : Option String := none
  heldEpoch : Option Nat := none
  deriving DecidableEq

/-- What the closure of `acquireWith` keeps between its calls: how often it was called, whether the
record it replaces was left behind by a holder that did not release it, and the live record that stood
in the way. -/
structure Attempted where
  attempts : Nat := 0
  unclean : Bool := false
  seen : Option Body := none
  deriving DecidableEq

def acquireWithBody (request : Acquire) (clock : Clock) (c : Attempted) (current : Option Body) :
    Except StoreError (Option Body) × Attempted :=
  match deadline (clock c.attempts) request.ttlMs with
  | .error e => (.error e, c)
  | .ok (now, expiresMs) =>
    let raced := decide (0 < c.attempts)
    let c : Attempted := { attempts := c.attempts + 1 }
    let grant (epoch : Nat) : Body :=
      { holder := request.holder, epoch, expiresMs, endpoint := request.endpoint }
    match current with
    | none => (.ok (some (grant 1)), c)
    | some found =>
      if found.live now ∧ found.holder = request.holder ∧
          request.heldEpoch = some found.epoch then
        (.ok (some (grant found.epoch)), c)
      else if found.live now ∧
          (found.holder ≠ request.holder ∨ raced ∨ request.heldEpoch.isSome) then
        (.ok none, { c with seen := some found })
      else
        match nextEpoch found.epoch with
        | .error e => (.error e, c)
        | .ok next => (.ok (some (grant next)), { c with unclean := !found.released })

def Body.heldBy (b : Body) (holder : String) (epoch : Nat) (now : Int) : Bool :=
  decide (b.holder = holder) && decide (b.epoch = epoch) && b.live now

def renewBody (holder : String) (epoch : Nat) (ttlMs : Int) (reading : Nat) (current : Option Body) :
    Except StoreError (Option Body) := do
  let (now, expiresMs) ← deadline reading ttlMs
  return (current.filter (Body.heldBy · holder epoch now)).map fun lease => { lease with expiresMs }

def releaseBody (holder : String) (epoch : Nat) (now : Int) (current : Option Body) : Option Body :=
  (current.filter (Body.heldBy · holder epoch now)).map fun lease =>
    { lease with expiresMs := now, released := true }

/-! ## The operations -/

section Operations

variable {M : Type → Type} [Monad M] (repo : Repo M Body)

def acquire (clock : Clock) (holder : String) (ttlMs : Int) : M (Except StoreError (Option Lease)) := do
  let (stored, _) ← repo.update
    (fun n current => (acquireBody holder ttlMs (clock n) current, n + 1)) 0
  return stored.map (·.map Lease.fromBody)

inductive Acquisition where
  | granted (lease : Lease) (previousUnclean : Bool)
  | held (record : Body)
  deriving DecidableEq

def acquireWith (clock : Clock) (request : Acquire) : M (Except StoreError Acquisition) := do
  match ← repo.update (acquireWithBody request clock) {} with
  | (.error e, _) => return .error e
  | (.ok (some body), c) => return .ok (.granted (.fromBody body) c.unclean)
  | (.ok none, c) =>
    match c.seen with
    | some body => return .ok (.held body)
    | none => return .error (.failure "lease acquire declined without a live record")

def renew (clock : Clock) (holder : String) (epoch : Nat) (ttlMs : Int) :
    M (Except StoreError (Option Lease)) := do
  let (stored, _) ← repo.update
    (fun n current => (renewBody holder epoch ttlMs (clock n) current, n + 1)) 0
  return stored.map (·.map Lease.fromBody)

def release (clock : Clock) (holder : String) (epoch : Nat) : M (Except StoreError Bool) := do
  match now (clock 0) with
  | .error e => return .error e
  | .ok now =>
    let (stored, _) ← repo.update (fun _ current => (.ok (releaseBody holder epoch now current), ())) ()
    return stored.map (·.isSome)

def current (clock : Clock) : M (Except StoreError (Option Lease)) := do
  match now (clock 0) with
  | .error e => return .error e
  | .ok now =>
    match ← repo.get with
    | .error e => return .error e
    | .ok found =>
      return .ok (((found.map (·.doc)).filter (·.live now)).map Lease.fromBody)

def compact (holder : String) (epoch : Nat) : M (Except StoreError Bool) :=
  repo.deleteIf fun lease => lease.holder = holder ∧ lease.epoch = epoch

end Operations

end Leases

/-!
## Leases under concurrent use

Any number of holders acquire, renew and release leases over one store, each with a clock of its own.
Nothing else writes the records, and none of the operations here drops one.
-/

inductive LeaseRequest where
  | acquire (holder : String) (ttlMs : Int)
  | acquireWith (request : Leases.Acquire)
  | renew (holder : String) (epoch : Nat) (ttlMs : Int)
  | release (holder : String) (epoch : Nat)
  deriving DecidableEq

structure LeaseOp where
  key : String
  attempts : Nat
  clock : Clock
  request : LeaseRequest

inductive LeaseResult where
  | lease (r : Except StoreError (Option Lease))
  | acquisition (r : Except StoreError Leases.Acquisition)
  | released (r : Except StoreError Bool)

def LeaseResult.granted : LeaseResult → Option Lease
  | .lease (.ok l) => l
  | .acquisition (.ok (.granted l _)) => some l
  | _ => none

abbrev LeaseDocs : String → Type := fun _ => Body

/-- The log holds every record written, and under which key. -/
abbrev LeaseStore := Store LeaseDocs (String × Body)

abbrev LeaseWorld :=
  World LeaseStore (Call LeaseDocs (String × Body)) Call.Reply LeaseOp LeaseResult

def LeaseOp.repo (op : LeaseOp) : Repo (Transaction LeaseDocs (String × Body)) Body :=
  Repo.at_ op.key op.attempts fun body => some (op.key, body)

def LeaseOp.program (op : LeaseOp) : Transaction LeaseDocs (String × Body) LeaseResult := do
  match op.request with
  | .acquire holder ttlMs => return .lease (← Leases.acquire op.repo op.clock holder ttlMs)
  | .acquireWith request => return .acquisition (← Leases.acquireWith op.repo op.clock request)
  | .renew holder epoch ttlMs => return .lease (← Leases.renew op.repo op.clock holder epoch ttlMs)
  | .release holder epoch => return .released (← Leases.release op.repo op.clock holder epoch)

def leaseSystem :
    System LeaseStore (Call LeaseDocs (String × Body)) Call.Reply LeaseOp LeaseResult where
  serves := Store.Serves
  program := LeaseOp.program

def LeaseStore.record (s : LeaseStore) (key : String) : Option Body :=
  (s.docs.lookup key).map (·.doc)

/-! ## What a write may do -/

/-- A record another record of the same key may be followed by: epochs only move forward, an epoch has
one holder, and a tenure that was released stays as it was left. -/
structure Body.Precedes (b b' : Body) : Prop where
  epoch : b.epoch ≤ b'.epoch
  holder : b'.epoch = b.epoch → b'.holder = b.holder
  released : b'.epoch = b.epoch → b.released → b' = b

structure Body.IsTenure (b : Body) (holder : String) (epoch : Nat) (reading : Nat) : Prop where
  holder : b.holder = holder
  epoch : b.epoch = epoch
  unreleased : b.released = false
  live : reading < b.expiresMs

/-- The record as `holder` gets it for `ttlMs` from a reading of its clock on. -/
structure Body.GrantedTo (after : Body) (holder : String) (ttlMs : Int) (reading epoch : Nat) : Prop where
  holder : after.holder = holder
  epoch : after.epoch = epoch
  unreleased : after.released = false
  expiresMs : after.expiresMs = reading + ttlMs

/-- The lease goes to `holder` on a reading of its clock: it was never held before; or its holder extends
a tenure that is live on that reading; or a new epoch begins, after a record that is no longer live on
that reading or was the holder's own. -/
inductive Grants (holder : String) (ttlMs : Int) (reading : Nat) : Option Body → Body → Prop
  | first {after : Body} (hafter : after.GrantedTo holder ttlMs reading 1) :
      Grants holder ttlMs reading none after
  | extended {b after : Body} (htenure : b.IsTenure holder b.epoch reading)
      (hafter : after.GrantedTo holder ttlMs reading b.epoch) : Grants holder ttlMs reading (some b) after
  | taken {b after : Body} (hfree : b.live reading = false ∨ b.holder = holder)
      (hafter : after.GrantedTo holder ttlMs reading (b.epoch + 1)) :
      Grants holder ttlMs reading (some b) after

/-- What a write of the operation makes of the record it replaces. The reading that the replaced record is
judged by is the one that the new expiry is counted from. -/
def LeaseOp.Effect (op : LeaseOp) (reading : Nat) (before : Option Body) (after : Body) : Prop :=
  match op.request with
  | .acquire holder ttlMs => Grants holder ttlMs reading before after
  | .acquireWith request => Grants request.holder request.ttlMs reading before after
  | .renew holder epoch ttlMs => ∃ b, before = some b ∧ b.IsTenure holder epoch reading ∧
      after = { b with expiresMs := reading + ttlMs }
  | .release holder epoch => reading = op.clock 0 ∧ ∃ b, before = some b ∧ b.IsTenure holder epoch reading ∧
      after = { b with expiresMs := reading, released := true }

end Tinyflows.Storage
