import Tinyflows.Graph.Partition
import Tinyflows.Graph.StateApi

/-!
# The history of the barriers

What has happened at the barriers is read off the events of every routing pass since the thread began:
across super-steps, across the checkpoints a thread is resumed from, and across manual writes.
-/

namespace Tinyflows.Graph
open Lib

variable {S U V : Type}

def BarrierEvent.schedules (b : NodeId) : BarrierEvent → Bool
  | .arrived _ _ => false
  | .cleared b' => b' = b
  | .passed _ node => node = b

def BarrierEvent.arrivals (b : NodeId) (arrived : HashSet NodeId) : BarrierEvent → HashSet NodeId
  | .arrived b' node => if b' = b then insert node arrived else arrived
  | .cleared b' => if b' = b then ∅ else arrived
  | .passed _ _ => arrived

def arrivalsSince (b : NodeId) (log : List BarrierEvent) : HashSet NodeId :=
  log.foldl (BarrierEvent.arrivals b) ∅

/-- The recorded arrivals are those since each barrier last cleared, they are never complete, and a
barrier only ever cleared on a complete set. -/
structure BarriersHold (g : CompiledGraph S U V) (barriers : Barriers) (log : List BarrierEvent) :
    Prop where
  recorded : ∀ b, (barriers.lookup b).getD ∅ = arrivalsSince b log
  waiting : ∀ b required, g.waiting.lookup b = some required →
    ¬ required ⊆ (barriers.lookup b).getD ∅
  complete : ∀ before b after, log = before ++ .cleared b :: after →
    ∃ required, g.waiting.lookup b = some required ∧ required ⊆ arrivalsSince b before

/-- A routing pass accounts for every activation it adds to `before`: each is due to one event, and
only a node that is not required at a barrier passes it by. -/
structure PassAccounts (g : CompiledGraph S U V) (before : List (Activation V)) (r : Routed V) :
    Prop where
  scheduled : ∀ b, (activationNodes r.next).count b ≤
    (activationNodes before).count b + r.log.countP (BarrierEvent.schedules b)
  passed : ∀ n b, .passed n b ∈ r.log → ∀ required, g.waiting.lookup b = some required →
    n ∉ required

/-- The routing pass `r` at the boundary `b` that a super-step from `l` comes to: everything that ran
completed, or the step paused and only the completed branches are routed. -/
inductive Crosses (g : CompiledGraph S U V) (rt : Runtime S U V) (threadId : Option ThreadId)
    (l : Loop S V) (b : Boundary S V) (r : Routed V) : Prop where
  | loop (entered : Loop S V) (p : Progress U V) (state : S)
      (hran : Ran g rt threadId l entered p state) (hfailure : p.run.failure = none)
      (hinterrupts : p.run.interrupts = [])
      (hpass : routePass g entered.active p.run.gotoMap state entered.barriers = .ok r)
      (hb : b = { state, pending := r.next, completedTasks := entered.active, barriers := r.barriers })
  | pause (entered : Loop S V) (p : Progress U V) (state : S)
      (hran : Ran g rt threadId l entered p state)
      (hpass : routePass g (partitionCompleted entered.active p.run.gotoMap p.run.completed).1
        (partitionCompleted entered.active p.run.gotoMap p.run.completed).2 state entered.barriers =
          .ok r)
      (hb : pauseBoundary g entered.active p.run state entered.barriers = some (.ok b))

mutual

/-- The loop variables at the boundaries of every run of `g`, each with its history. -/
inductive Reaches (g : CompiledGraph S U V) : Loop S V → List BarrierEvent → Prop where
  | fresh (store : CheckpointStore S V) (state : S) (active : List (Activation V)) :
      Reaches g (freshLoop store state active) []
  | next {l m : Loop S V} {log : List BarrierEvent} {rt threadId b r} :
      Reaches g l log → superStep g rt threadId l = .next m → Crosses g rt threadId l b r →
      Reaches g m (log ++ r.log)
  | resume {c : Checkpoint S V} {log : List BarrierEvent}
      (store : CheckpointStore S V) (recorded : List (PendingWrite V))
      (value : Option V) : Leaves g c log → Reaches g (resumeLoop store c recorded value) log

/-- The checkpoints written by runs of `g` and by hand, each with its history. -/
inductive Leaves (g : CompiledGraph S U V) : Checkpoint S V → List BarrierEvent → Prop where
  | boundary {l : Loop S V} {log : List BarrierEvent} {rt threadId b r} (thread : ThreadId)
      (id : CheckpointId) (parent : Option CheckpointId) (step : Nat) :
      Reaches g l log → Crosses g rt threadId l b r →
      Leaves g (buildCheckpoint g rt thread id parent step b) (log ++ r.log)
  | update {base : Checkpoint S V} {log : List BarrierEvent} {r : Routed V} (w : Writer)
      (thread : ThreadId) (node : NodeId) (state : S) :
      Leaves g base log → mergePass g node state base = .ok r →
      Leaves g (updatedCheckpoint g w thread (some node) state base (.ofMerged r)) (log ++ r.log)
  | overwrite {base : Checkpoint S V} {log : List BarrierEvent} {schedule : Schedule V}
      (w : Writer) (thread : ThreadId) (state : S) :
      Leaves g base log → updateSchedule g none state base = .ok schedule →
      Leaves g (updatedCheckpoint g w thread none state base schedule) log
  | fork {c : Checkpoint S V} {log : List BarrierEvent} (thread : ThreadId) (id : CheckpointId) :
      Leaves g c log → Leaves g (forkedCheckpoint thread id c) log

end

end Tinyflows.Graph
