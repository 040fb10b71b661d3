import Tinyflows.Engine.Lemmas.Cancellation

/-!
# Cancelled runs

A cancelled run winds down without an error exactly as long as the nodes it still activates have a
default way out.
-/

namespace Tinyflows.Engine
open Lib Tinyflows.Graph Model Nodes Validate

variable {ord : IterOrder NodeId} {w : WorkflowGraph} {g : CompiledGraph Json Json Json}
  {c : Conducts} {rt : Runtime Json Json Json} {thread : ThreadId}

variable {l : Loop Json Json} {h : HandlerData}

section

variable (hl : Lowered ord w g) (hw : Accepted w) (hr : REPLACE ∉ w.ids) (hs : START ∉ w.ids)
  (hc : Conforms w c rt)
include hl hw hr hs hc

theorem windsDown_goesThrough (hR : rt.Reliable) {entered} (hC : l.Clean)
    (hk : Within w l) (hn : enterStep g rt l = .ok entered) (h : WindsDown w c g l) :
    GoesThrough (superStep g rt (some thread) l) := by
  cases h with
  | defaults hd he =>
    exact (defaults_goesThrough_iff hl hr hc hR hC hk hn hd).mpr he
  | settles ho hu hm he =>
    exact settles_goesThrough hl hw hr hs hc hR hC hk hn ho hu hm he

theorem windsDown_run (he : rt.Reliable) (hC : l.Clean)
    (hk : Within w l)
    (h : ∀ m ∈ l :: boundaries g rt (some thread) (stepLimit g) l, m.active ≠ [] →
      (∃ entered, enterStep g rt m = .ok entered) ∧ WindsDown w c g m) :
    ∃ execution, (executeRun g rt (some thread) l).result = .ok execution := by
  rw [executeRun, if_neg hl.depth]
  refine runLoop_goesThrough hC (by omega) fun m hm hac hM => ?_
  obtain ⟨⟨entered, hn⟩, hi⟩ := h m hm hac
  have hk' : Within w m := fun a ha =>
    (hl.nodes _).mp (boundaries_known (fun a ha => (hl.nodes _).mpr (hk a ha)) m hm a ha)
  exact windsDown_goesThrough hl hw hr hs hc he hM hk' hn hi

end

theorem stopped_idle {c₁ c₂} (h₁ : c₁.cancelled .boundary = true)
    (h₂ : c₂.cancelled .boundary = true) (st ctx) :
    activate h c₁ st ctx = activate h c₂ st ctx := by
  rw [activate_eq, activate_eq, outcome_stopped h₁, outcome_stopped h₂]
  rfl

theorem defaults_of_stopped (h : Stopped c (l.steps + 1)) : Defaults w c l :=
  fun i n _ _ => ⟨.stopped, trivial, outcome_stopped (h n.id i) _ _⟩

theorem continue_commits (hp : onErrorPolicy h.node = "continue") {cond st ctx e}
    (ho : (outcome h cond st ctx).1 = .failed e) : ∃ r, activate h cond st ctx = .ok r := by
  rw [activate_eq, ho]
  cases e with
  | none => exact ⟨_, rfl⟩
  | some e =>
    simp only [commit, finishError, hp, if_true]
    exact ⟨_, rfl⟩

/-- Cancellation in every run of an accepted workflow: a run whose steps wind down ends without an error;
once the token is set every step is one on the default port, which goes through exactly when all its
nodes have a way out on that port; and nothing that finds the token set is executed. A node that fails
under the policy `continue` never fails the run by itself. -/
theorem cancelled_run_winds_down (ids : IterOrder NodeId) (edges : IterOrder (NodeId × NodeId))
    (hvalid : validateAll ids edges w = []) (hbuild : buildGraph ord w = .ok g)
    (hreplace : REPLACE ∉ w.ids) (hstart : START ∉ w.ids) (hconf : Conforms w c rt)
    (hrel : rt.Reliable) (thread : ThreadId) :
    (∀ l : Loop Json Json, l.persistence.writes.Clean → (∀ a ∈ l.active, a.node ∈ w.ids) →
      (∀ m ∈ l :: boundaries g rt (some thread) (stepLimit g) l, m.active ≠ [] →
        (∃ entered, enterStep g rt m = .ok entered) ∧ WindsDown w c g m) →
      ∃ execution, (executeRun g rt (some thread) l).result = .ok execution) ∧
    (∀ l entered : Loop Json Json, l.persistence.writes.Clean → (∀ a ∈ l.active, a.node ∈ w.ids) →
      enterStep g rt l = .ok entered → Defaults w c l →
      (GoesThrough (superStep g rt (some thread) l) ↔ ∀ a ∈ l.active, leavesOn w a.node "main")) ∧
    (∀ l : Loop Json Json, Stopped c (l.steps + 1) → Defaults w c l) ∧
    (∀ n ∈ w.nodes, ∀ c₁ c₂ : Conduct, c₁.cancelled .boundary = true → c₂.cancelled .boundary = true →
      ∀ state ctx, activate (handlerData w n) c₁ state ctx = activate (handlerData w n) c₂ state ctx) ∧
    (∀ n ∈ w.nodes, onErrorPolicy n = "continue" → ∀ cond state ctx e,
      (outcome (handlerData w n) cond state ctx).1 = .failed e →
      ∃ r, activate (handlerData w n) cond state ctx = .ok r) := by
  have hw : Accepted w := validateAll_nil_iff.mp hvalid
  have hl := lowered_of_buildGraph hbuild
  refine ⟨fun l hclean hknown h => ?_, fun l entered hclean hknown henter hdefaults => ?_,
    fun l hstop => defaults_of_stopped hstop, fun n _ c₁ c₂ h₁ h₂ state ctx => ?_,
    fun n _ hpolicy cond state ctx e hout => ?_⟩
  · exact windsDown_run hl hw hreplace hstart hconf hrel hclean hknown h
  · exact defaults_goesThrough_iff hl hreplace hconf hrel hclean hknown henter hdefaults
  · exact stopped_idle h₁ h₂ state ctx
  · exact continue_commits hpolicy hout

/-- Every activation from the given super-step on finds the token set; before that, nodes emit
nothing. -/
def cancelledFrom (step : Nat) : Conducts := fun s _ _ =>
  { cancelled := fun _ => decide (step ≤ s), executor := fun _ _ => .ok (.main []) }

def relay : WorkflowGraph where
  nodes := [{ id := "t", kind := .trigger }, { id := "a", kind := .transform }]
  edges := [{ fromNode := "t", toNode := "a" }]

def relayGraph : CompiledGraph Json Json Json :=
  graphOf relay (by decide +kernel)

def relayStart : Loop Json Json :=
  freshLoop {} (.obj []) [{ node := "t" }]

theorem relay_cancelled : ∃ execution,
    (run relayGraph (runtimeOf relay (cancelledFrom 1)) {} (some "thread") (.obj [])).result =
      .ok execution := by
  have hleaves : ∀ id ∈ relay.ids, leavesOn relay id "main" := by decide
  have hlimits : ((relayStart :: boundaries relayGraph (runtimeOf relay (cancelledFrom 1))
      (some "thread") (stepLimit relayGraph) relayStart).all fun m =>
        (enterStep relayGraph (runtimeOf relay (cancelledFrom 1)) m).toOption.isSome &&
          m.active.all (·.node ∈ relay.ids)) = true := by decide +kernel
  have hmain := (cancelled_run_winds_down (.sorted NodeId) (.sortedPairs NodeId)
    (show validateAll _ _ relay = [] by decide) (buildGraph_graphOf (by decide +kernel))
    (by decide) (by decide) (conforms_runtimeOf (by decide) (cancelledFrom 1))
    (reliable_runtimeOf relay (cancelledFrom 1)) "thread").1
  refine hmain relayStart rfl (by decide) fun m hm _ => ?_
  have hm := List.all_eq_true.mp hlimits m hm
  rw [Bool.and_eq_true, List.all_eq_true] at hm
  refine ⟨?_, .defaults (defaults_of_stopped fun _ _ => ?_) fun a ha => ?_⟩
  · cases henter : enterStep relayGraph (runtimeOf relay (cancelledFrom 1)) m with
    | ok entered => exact ⟨entered, henter⟩
    | error e => simp [henter, Except.toOption] at hm
  · simp [cancelledFrom]
  · exact hleaves a.node (by simpa using hm.2 a ha)

/-- A condition with an edge on each of its ports. -/
def fork (config : Json) : WorkflowGraph where
  nodes := [{ id := "t", kind := .trigger }, { id := "c", kind := .condition, config },
    { id := "a", kind := .transform }, { id := "b", kind := .transform }]
  edges := [{ fromNode := "t", toNode := "c" }, { fromNode := "c", fromPort := "true", toNode := "a" },
    { fromNode := "c", fromPort := "false", toNode := "b" }]

def forkGraph : CompiledGraph Json Json Json :=
  graphOf (fork .null) (by decide +kernel)

/-- Errors are passed on, and an output without any item is one. -/
def goesOn : Json :=
  .obj [("on_error", .str "continue"), ("postcondition", .obj [("require", .str "non_empty")])]

def goesOnGraph : CompiledGraph Json Json Json :=
  graphOf (fork goesOn) (by decide +kernel)

def failing : Conducts := fun _ _ _ =>
  { cancelled := fun _ => false
    executor := fun _ _ => .error (.capability ("node 'c' failed its postcondition: the node emitted no " ++
      "items, so nothing can satisfy `non_empty`.")) }

/-- The token is set when the condition is about to run; or nothing is cancelled, and what the condition
emits does not meet its postcondition, under the policy `continue`. Either way the default port has no
edge. -/
theorem fork_missing_route :
    validateAll (.sorted NodeId) (.sortedPairs NodeId) (fork .null) = [] ∧
      validateAll (.sorted NodeId) (.sortedPairs NodeId) (fork goesOn) = [] ∧
      buildGraph (.sorted NodeId) (fork .null) = .ok forkGraph ∧
      buildGraph (.sorted NodeId) (fork goesOn) = .ok goesOnGraph ∧
      Stopped (cancelledFrom 2) 2 ∧
      (run forkGraph (runtimeOf (fork .null) (cancelledFrom 2)) {} (some "thread") (.obj [])).result =
        .error (.missingRoute "c" "main") ∧
      (run goesOnGraph (runtimeOf (fork goesOn) failing) {} (some "thread") (.obj [])).result =
        .error (.missingRoute "c" "main") :=
  ⟨by decide, by decide, buildGraph_graphOf _, buildGraph_graphOf _, fun _ _ => rfl,
    eq_error_of_failureOf (by decide +kernel), eq_error_of_failureOf (by decide +kernel)⟩

end Tinyflows.Engine
