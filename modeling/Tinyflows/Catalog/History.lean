import Tinyflows.Catalog.Revisions

/-!
# The history of a flow

The log of the store tells which updates were committed and in which order. This is what the revisions
of a flow should be read as: one for every committed update, with the graph the update replaced.
-/

namespace Tinyflows.Catalog
open Lib Model Storage

/-! ## Reading the log -/

/-- An update that was committed: by which call, the revision it recorded and the flow it left. -/
structure Committed where
  by_ : Nat
  id : Nat
  revision : RevisionDoc
  flow : FlowDoc

def committed? : Nat × CatalogEvent → Option Committed
  | (i, .committed id revision flow) => some ⟨i, id, revision, flow⟩
  | _ => none

variable (log : List (Nat × CatalogEvent))

def commits : List Committed :=
  log.filterMap committed?

def own (i : Nat) (log : List (Nat × CatalogEvent)) : List (Nat × CatalogEvent) :=
  log.filter (·.1 = i)

def lastFlow (start : FlowDoc) (l : List Committed) : FlowDoc :=
  l.getLast?.elim start (·.flow)

def flowAfter (start : FlowDoc) (log : List (Nat × CatalogEvent)) : FlowDoc :=
  lastFlow start (commits log)

/-- The call that committed the revision has written it as confirmed. -/
def Restored (id : Nat) : Prop :=
  ∃ i, (i, CatalogEvent.restored id) ∈ log

def retained : List Committed :=
  (commits log).reverse.take MAX_REVISIONS_PER_FLOW

/-- The update was committed, and so many after it that it is retained no more. -/
def Outdated (id : Nat) : Prop :=
  (∃ c ∈ commits log, c.id = id) ∧ ∀ c ∈ retained log, c.id ≠ id

def FlowDoc.number (flow : FlowDoc) : Nat :=
  flow.revision.getD 1

structure Committed.Follows (flow : String) (before : FlowDoc) (c : Committed) : Prop where
  revision : c.revision = priorRevision flow before c.flow.updatedMs
  later : before.updatedMs < c.flow.updatedMs
  named : c.flow.lastRevisionId = some c.id
  number : c.flow.revision = some (before.number + 1)
  incarnation : c.flow.incarnation = before.incarnation

/-- Each update was committed on what the one before it left. -/
def History (flow : String) : FlowDoc → List Committed → Prop
  | _, [] => True
  | before, c :: rest => c.Follows flow before ∧ History flow c.flow rest

structure GraphUpdate.Made (request : GraphUpdate) (c : Committed) : Prop where
  name : c.flow.name = request.name
  graph : c.flow.graph = request.graph
  requireApproval : c.flow.requireApproval = request.requireApproval

/-! ## Reading the store -/

namespace CatalogStore

def definition (s : CatalogStore) (flow : String) : Option FlowDoc :=
  (s.docs.lookup (CatalogKey.definition flow)).map (·.doc)

def revision (s : CatalogStore) (id : Nat) : Option (Versioned RevisionDoc) :=
  s.docs.lookup (CatalogKey.revision id)

def revisions (s : CatalogStore) (flow : String) : List RevisionRow :=
  newestFirst flow ((s.docs.entries.filter fun e => e.1.isRevision).filterMap revisionRow)

def visibleRevisions (s : CatalogStore) (flow : String) : List FlowRevision :=
  (partitionRows (s.definition flow) (s.revisions flow)).visible.map fun row =>
    toRevision row.1 row.2.doc

end CatalogStore

def RevisionDoc.content (doc : RevisionDoc) : RevisionDoc :=
  { doc with pending := false, touchedMs := none }

/-! ## What always holds -/

section Invariant

variable (flow : String) (start : FlowDoc)

structure HistoryKept (s : CatalogStore) : Prop where
  history : History flow start (commits s.log)
  definition : CatalogStore.definition s flow = some (flowAfter start s.log)
  issued : ∀ c ∈ commits s.log, s.issued[c.id]? = some c.by_
  distinct : ((commits s.log).map (·.id)).Nodup
  restores : ∀ {i id}, (i, CatalogEvent.restored id) ∈ s.log → ∃ c ∈ commits (own i s.log), c.id = id

structure RevisionKept (s : CatalogStore) (id : Nat) : Prop where
  drawn : ∀ {row}, CatalogStore.revision s id = some row → id < s.issued.length
  filed : ∀ {row}, CatalogStore.revision s id = some row →
    row.doc.flowId = flow ∧ row.doc.flowIncarnation = start.incarnation
  content : ∀ {row}, CatalogStore.revision s id = some row → ∀ c ∈ commits s.log, c.id = id →
    row.doc.content = c.revision
  uncommitted : ∀ {row}, CatalogStore.revision s id = some row → (∀ c ∈ commits s.log, c.id ≠ id) →
    row.doc.pending = true
  confirmed : ∀ {row}, CatalogStore.revision s id = some row → Restored s.log id →
    row.doc.pending = false
  dropped : CatalogStore.revision s id = none → Restored s.log id → Outdated s.log id

structure Inv (s : CatalogStore) : Prop extends HistoryKept flow start s where
  revisions : ∀ id, RevisionKept flow start s id

/-- The revision was confirmed by its update, or the call of number `i` has drawn its id and not
committed it. The others can only delete it. -/
def Untouched (i : Nat) (s : CatalogStore) (id : Nat) : Prop :=
  Restored s.log id ∨ s.issued[id]? = some i ∧ ∀ c ∈ commits (own i s.log), c.id ≠ id

structure Rely (i : Nat) (s t : CatalogStore) : Prop where
  log : s.log <+: t.log
  issued : s.issued <+: t.issued
  mine : own i t.log = own i s.log
  definition : Documents.Follows (.definition flow) s.docs t.docs
  untouched : ∀ {id}, Untouched i s id →
    CatalogStore.revision t id = CatalogStore.revision s id ∨ CatalogStore.revision t id = none

/-- The document is a revision that is not confirmed, filed under the flow. -/
structure RevisionDoc.Pends (doc : RevisionDoc) : Prop where
  pending : doc.pending = true
  flow : doc.flowId = flow
  incarnation : doc.flowIncarnation = start.incarnation

inductive Change (i : Nat) (s : CatalogStore) : CatalogStore → Prop
  | idle : Change i s s
  | drew : Change i s { s with issued := s.issued ++ [i] }
  | recorded {id : Nat} {doc : RevisionDoc} {pre : Precondition} (hdrawn : s.issued[id]? = some i)
      (huncommitted : ∀ c ∈ commits (own i s.log), c.id ≠ id) (hdoc : doc.Pends flow start) :
      Change i s (s.commit i [.put (.revision id) doc pre] none)
  | dropped {id : Nat} {pre : Precondition} (hdrawn : s.issued[id]? = some i)
      (huncommitted : ∀ c ∈ commits (own i s.log), c.id ≠ id) :
      Change i s (s.commit i [.delete (.revision id) pre] none)
  | confirmed {c : Committed} {doc : RevisionDoc} {pre : Precondition} (hc : c ∈ commits s.log)
      (hpending : ∃ row, CatalogStore.revision s c.id = some row ∧ row.doc.pending = true)
      (hdoc : doc.content = c.revision) (hconfirmed : doc.pending = false) :
      Change i s (s.commit i [.put (.revision c.id) doc pre] (some (.confirmed c.id)))
  | committed {c : Committed} {pre : Precondition} (hby : c.by_ = i)
      (hdrawn : s.issued[c.id]? = some i) (huncommitted : ∀ c' ∈ commits (own i s.log), c'.id ≠ c.id)
      (hfollows : c.Follows flow (flowAfter start s.log))
      (hcontent : ∀ row, CatalogStore.revision s c.id = some row → row.doc.content = c.revision) :
      Change i s (s.commit i [.put (.definition flow) c.flow pre]
        (some (.committed c.id c.revision c.flow)))
  | restored {c : Committed} {pre : Precondition} (hc : c ∈ commits (own i s.log))
      (honce : (i, CatalogEvent.restored c.id) ∉ own i s.log) :
      Change i s (s.commit i [.put (.revision c.id) c.revision pre] (some (.restored c.id)))
  | outdated {id : Nat} {pre : Precondition} (hid : Outdated s.log id) :
      Change i s (s.commit i [.delete (.revision id) pre] none)
  | abandoned {id : Nat} {pre : Precondition}
      (hpending : ∃ row, CatalogStore.revision s id = some row ∧ row.doc.pending = true) :
      Change i s (s.commit i [.delete (.revision id) pre] (some (.abandoned id)))

/-! ## The condition -/

def changesPending : Call CatalogDocs CatalogEvent → Option Nat
  | .write _ (some (.confirmed id)) => some id
  | .write _ (some (.abandoned id)) => some id
  | _ => none

def takesEffect : (c : Call CatalogDocs CatalogEvent) → c.Reply → Bool
  | .write _ _, .ok () => true
  | _, _ => false

def CatalogStore.pendingAt (s : CatalogStore) (id : Nat) : Bool :=
  (CatalogStore.revision s id).any (·.doc.pending)

/-- Every call is answered, and a write that was to change a pending revision takes effect only while
the revision is pending. -/
def FindsPending (_ : Nat) (s : CatalogStore) (c : Call CatalogDocs CatalogEvent) (r : c.Reply)
    (_ : CatalogStore) : Prop :=
  c.failed r = false ∧
    (takesEffect c r = true → ∀ id ∈ changesPending c, CatalogStore.pendingAt s id = true)

instance : ∀ i s c r t, Decidable (FindsPending i s c r t) :=
  fun _ _ _ _ _ => inferInstanceAs (Decidable (_ ∧ _))

def updateTerms (i : Nat) : Terms CatalogStore (Call CatalogDocs CatalogEvent) Call.Reply where
  serves s c r t := Store.Serves i s c r t ∧ FindsPending i s c r t
  inv := Inv flow start
  rely := Rely flow i
  guarantee := Change flow start i

end Invariant

end Tinyflows.Catalog
