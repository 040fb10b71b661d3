import Tinyflows.Engine.Lemmas.Writes
import Tinyflows.Validate.All

/-!
# Lane isolation

An activation inside a lane writes its own lane's slot and nothing else exactly when it keeps to its
lane. What a step-debugging hook patches into the state comes on top.
-/

namespace Tinyflows.Engine
open Lib Tinyflows.Graph Model Nodes Validate Option

variable {h : HandlerData} {o : Outcome} {r : NodeResult Json Json} {waiting : Bool}

theorem ConfinedTo.of_keepsToLane (hk : KeepsToLane h o) {lane} (hl : lane.id ≠ REPLACE)
    {st u} (hr : commit h (some lane) st waiting none o = .ok r)
    (hu : written r = some u) : ConfinedTo (lanePath h.node.id lane.id) u := by
  rcases hk.written hr hu with rfl | ⟨hi, slot, rfl⟩
  · exact confinedTo_empty _
  · exact confinedTo_nest (plain_lanePath hi hl) slot

theorem written_commit_patch {lane st patch u}
    (hr : commit h lane st waiting (some patch) o = .ok r) (hu : written r = some u) :
    ∃ r₀, commit h lane st waiting none o = .ok r₀ ∧
      (written r₀ = some u ∨ written r₀ = none ∧ u = patch ∨
        ∃ v, written r₀ = some v ∧ u = merge v patch) := by
  obtain ⟨r₀, hr₀, rfl | rfl⟩ := commit_patched hr
  · exact ⟨r, hr₀, .inl hu⟩
  · refine ⟨r₀, hr₀, .inr ?_⟩
    cases r₀ with
    | update v => exact .inr ⟨v, rfl, (some.inj hu).symm⟩
    | command c =>
      cases hc : c.update with
      | none =>
        simp only [applyStatePatch, written, hc, elim_none] at hu
        exact .inl ⟨hc, (some.inj hu).symm⟩
      | some v =>
        simp only [applyStatePatch, written, hc, elim_some] at hu
        exact .inr ⟨v, hc, (some.inj hu).symm⟩
    | interrupt i => cases hu

/-- For every activation that carries a lane: what it commits leaves everything beside the lane's own
slot as it was, for every state it is merged into, exactly when the activation keeps to its lane. If a
hook has edited the state, that edit is merged over an update which does. -/
theorem lane_confined_iff (w : WorkflowGraph) (n : Node) (c : Conduct) (state : Json)
    (ctx : NodeContext Json) (origin : NodeId) (index count : Nat) (items : List Item)
    (hlane : ctx.sendArg = some (laneEnvelope origin index count items)) :
    ((outcome (handlerData w n) c state ctx).2 = none →
      ((∀ r u, activate (handlerData w n) c state ctx = .ok r → written r = some u →
          ConfinedTo (lanePath n.id (laneId origin index)) u) ↔
        KeepsToLane (handlerData w n) (outcome (handlerData w n) c state ctx).1)) ∧
      ∀ patch, (outcome (handlerData w n) c state ctx).2 = some patch →
        KeepsToLane (handlerData w n) (outcome (handlerData w n) c state ctx).1 →
        ∀ r u, activate (handlerData w n) c state ctx = .ok r → written r = some u →
          u = patch ∨ ∃ v, ConfinedTo (lanePath n.id (laneId origin index)) v ∧
            (u = v ∨ u = merge v patch) := by
  obtain ⟨lane, hcontext, hid, -⟩ := laneContext_envelope origin index count items
  have hl : lane.id ≠ REPLACE := hid ▸ laneId_ne_replace origin index
  unfold activate
  obtain ⟨o, patch⟩ := outcome (handlerData w n) c state ctx
  rw [hlane, hcontext, ← hid]
  dsimp only
  refine ⟨?_, ?_⟩
  · rintro rfl
    refine ⟨fun h => ?_, fun hk r u hr hu => ConfinedTo.of_keepsToLane hk hl hr hu⟩
    by_contra hk
    obtain ⟨r, u, hr, hu, hstray⟩ := strays_of_not_keepsToLane hk lane ctx.step (c.cancelled .reentry)
    exact hstray (h r u hr hu)
  · rintro p rfl hk r u hr hu
    obtain ⟨r₀, hr₀, hw | ⟨-, hw⟩ | ⟨v, hv, hw⟩⟩ := written_commit_patch hr hu
    · exact .inr ⟨u, ConfinedTo.of_keepsToLane hk hl hr₀ hw, .inl rfl⟩
    · exact .inl hw
    · exact .inr ⟨v, ConfinedTo.of_keepsToLane hk hl hr₀ hv, .inr hw⟩

def pollingGate : Node where
  id := "g"
  kind := .gate
  config := .obj [("tickets", .arr [.str "tk"]), ("wait_mode", .str "poll")]

/-- A scatter whose lanes pass a gate on their way to the gather, which polls for a ticket. -/
def polledLanes : WorkflowGraph where
  nodes := [{ id := "t", kind := .trigger }, { id := "s", kind := .scatter }, pollingGate,
    { id := "j", kind := .gather, config := .obj [("from", .arr [.str "g"])] }]
  edges := [{ fromNode := "t", toNode := "s" }, { fromNode := "s", toNode := "g" },
    { fromNode := "g", toNode := "j" }]

/-- The first lane of the scatter arrives at the gate. -/
def firstLane : NodeContext Json where
  nodeId := "g"
  runId := "r"
  threadId := none
  step := 3
  resume := none
  fork := none
  sendArg := some (laneEnvelope "s" 0 2 [])

/-- The task behind the ticket is done. -/
def released : NodeOutput := .main [{ json := .str "done", pairedItem := some 0 }]

theorem pollingGate_released :
    ∃ r u, activate (handlerData polledLanes pollingGate) (steady released) (.obj []) firstLane =
      .ok r ∧ written r = some u ∧ ConfinedTo (lanePath "g" (laneId "s" 0)) u :=
  ⟨_, _, rfl, rfl, ((lane_confined_iff polledLanes pollingGate (steady released) (.obj []) firstLane
    "s" 0 2 [] rfl).1 (by decide)).mpr (show "g" ≠ REPLACE by decide) _ _ rfl rfl⟩

/-- The ticket is still pending. -/
def polledAgain : NodeOutput :=
  .reenterAfter 250 (.obj [("arrived", .nat 0), ("expected", .nat 1), ("failed", .nat 0), ("polls", .nat 1)])

/-- While it polls, the gate writes the items and the poll count of its own slot, which all lanes
share. -/
theorem pollingGate_strays :
    validateAll (.sorted _) (.sortedPairs _) polledLanes = [] ∧
      ∃ r u, activate (handlerData polledLanes pollingGate) (steady polledAgain) (.obj []) firstLane =
          .ok r ∧
        written r = some u ∧ (merge (.obj []) u).atPath ["nodes", "g", "items"] = some (.arr []) ∧
        (merge (.obj []) u).atPath ["nodes", "g", "polls"] = some (.nat 1) ∧
        (merge (.obj []) u).atPath ["nodes", "g", "lanes"] = none :=
  ⟨by decide, _, _, rfl, rfl, by decide, by decide, by decide⟩

end Tinyflows.Engine
