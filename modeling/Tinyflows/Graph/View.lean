import Tinyflows.Graph.Partition

/-!
# The machine behind the run loop

What a run is about once step numbers, task ids, checkpoints and the order of completion are left out:
the jobs to do next, the state and the barriers. One step is a function of the fates of the jobs.
-/

namespace Tinyflows.Graph
open Lib

variable {S U V : Type}

abbrev Job (V : Type) := NodeId × Option V

def Activation.job (a : Activation V) : Job V := (a.node, a.sendArg)

def Activation.ofJob (j : Job V) : Activation V := { node := j.1, sendArg := j.2 }

structure View (S V : Type) where
  jobs : List (Job V)
  state : S
  barriers : Barriers

inductive View.Outcome (S V : Type) where
  | next (v : View S V)
  | done (result : Except GraphError S)

def Loop.view (l : Loop S V) : View S V where
  jobs := l.active.map Activation.job
  state := l.state
  barriers := l.barriers

@[simp] theorem Loop.view_state (l : Loop S V) : l.view.state = l.state := rfl

@[simp] theorem Loop.view_barriers (l : Loop S V) : l.view.barriers = l.barriers := rfl

def StepOutcome.view : StepOutcome S V → View.Outcome S V
  | .next l => .next l.view
  | .done r => .done (r.result.map (·.state))

def Fate.started : Fate U V → Bool
  | .unstarted => false
  | _ => true

variable (g : CompiledGraph S U V)

/-- The first branch that cannot be started because the graph lacks its node. -/
def unknownNode (active : List (Activation V)) (fates : List (Fate U V)) : Option NodeId :=
  (active.zip fates).findSome? fun x =>
    if x.1.node ∈ g.nodes ∨ x.2.started = false then none else some x.1.node

def settle (active : List (Activation V)) (run : StepRun U V) (state : S) (barriers : Barriers) :
    View.Outcome S V :=
  match pauseBoundary g active run state barriers with
  | some (.error e) => .done (.error e)
  | some (.ok b) => .done (match run.failure with
      | some failure => .error failure.error
      | none => .ok b.state)
  | none =>
    match routeCompleted g active run.gotoMap state barriers with
    | .error e => .done (.error e)
    | .ok (next, barriers) => .next { jobs := next.map Activation.job, state, barriers }

def View.step (v : View S V) (fates : List (Fate U V)) : View.Outcome S V :=
  let active := v.jobs.map Activation.ofJob
  match unknownNode g active fates with
  | some node => .done (.error (.missingNode node))
  | none =>
    let run := StepRun.ofFates fates
    match applyUpdates g v.state run.updates with
    | .error e => .done (.error e)
    | .ok state => settle g active run state v.barriers

/-! ## Handlers that look at nothing else -/

abbrev Handlers (S U V : Type) :=
  NodeId → S → Option V → Except GraphError (NodeResult U V)

def Runtime.Follows (rt : Runtime S U V) (f : Handlers S U V) : Prop :=
  ∀ node index state ctx, rt.handler node index state ctx = f node state ctx.sendArg

/-- No write to the store fails. -/
def Runtime.Reliable (rt : Runtime S U V) : Prop :=
  ∀ n, rt.put n = none ∧ rt.putWrites n = none

def Runtime.plain (f : Handlers S U V) (select : Admission.SelectAll) : Runtime S U V where
  handler node _ state ctx := f node state ctx.sendArg
  select _ := select

theorem Runtime.plain_follows (f : Handlers S U V) (se) :
    (Runtime.plain f se).Follows f := fun _ _ _ _ => rfl

theorem Runtime.plain_reliable (f : Handlers S U V) (se) :
    (Runtime.plain f se).Reliable := fun _ => ⟨rfl, rfl⟩

/-- Past the first branch that does not complete, nothing is started. -/
def stopAtFirst : List (Fate U V) → List (Fate U V)
  | [] => []
  | f :: fs => if f.isCompleted then f :: stopAtFirst fs else f :: fs.map fun _ => .unstarted

def jobFates (f : Handlers S U V) (state : S) (jobs : List (Job V)) : List (Fate U V) :=
  let fates := jobs.map fun j => Fate.ofResult (f j.1 state j.2)
  if g.parallel ∧ 1 < jobs.length then fates else stopAtFirst fates

end Tinyflows.Graph
