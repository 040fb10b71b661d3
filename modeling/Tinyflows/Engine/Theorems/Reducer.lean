import Tinyflows.Engine.Lemmas.Writes
import Tinyflows.Validate.All

/-!
# Updates that do not interfere

The updates of different nodes, and of different lanes of one node, can be folded in either order,
unless one of them reaches beyond its own part of the run state.
-/

namespace Tinyflows.Engine
open Lib Tinyflows.Graph Model Nodes Validate

/-- Two updates, each of its own part of the state: neither touches anything else or changes what the
other wrote, and they can be folded in either order. -/
structure Apart (p : List String) (u : Json) (q : List String) (v : Json) : Prop where
  left : ConfinedTo p u
  right : ConfinedTo q v
  keepsLeft : ∀ s x, p <+: x → (merge (merge s u) v).atPath x = (merge s u).atPath x
  keepsRight : ∀ s x, q <+: x → (merge (merge s v) u).atPath x = (merge s v).atPath x
  comm : ∀ s : Json, s.Sorted → merge (merge s u) v = merge (merge s v) u

/-- Nothing an update holds is taken for the sentinel: its arrays, and with them the items of every
slot, arrive as they were given, and so does a value that replaces. -/
def Verbatim (u : Json) : Prop :=
  ∀ path, Plain path → ∀ s,
    (∀ items, u.atPath path = some (.arr items) → (merge s u).atPath path = some (.arr items)) ∧
      ∀ v, u.atPath path = some (replace v) → (merge s u).atPath path = some v

variable {u : Json} {p q path : List String} {arg : Option Json} {n : Node} {o : Outcome}
  {w : WorkflowGraph} {count index : Nat} {items : List Item} {origin id : NodeId}

theorem verbatim_of_sorted (hu : u.Sorted) : Verbatim u := by
  intro path hp s
  refine ⟨fun items hi => ?_, fun v hv => ?_⟩
  · rw [merge_atPath hu hp hi]
    rfl
  · rw [merge_atPath hu hp hv, merge_replace]

/-! ## Updates below paths that part ways -/

theorem ConfinedTo.keeps (hp : ¬ p <+: q) (hq : ¬ q <+: p) {v} (h : ConfinedTo q v) (s)
    {x} (hx : p <+: x) : (merge s v).atPath x = s.atPath x := by
  refine h s x (fun hX => hp (hx.trans hX)) fun hQ => ?_
  rcases List.prefix_or_prefix_of_prefix hx hQ with h | h
  · exact hp h
  · exact hq h

/-- An update that is empty or nested below a path no key of which is the sentinel. -/
def Below (path : List String) (u : Json) : Prop :=
  u = .obj [] ∨ Plain path ∧ ∃ v, u = Json.nest path v

theorem Below.confinedTo (h : Below path u) : ConfinedTo path u := by
  rcases h with rfl | ⟨hp, v, rfl⟩
  · exact confinedTo_empty path
  · exact confinedTo_nest hp v

theorem merge_empty_comm (hp : path ≠ []) (h : Plain path) (s v) :
    merge (merge s (.obj [])) (Json.nest path v) = merge (merge s (Json.nest path v)) (.obj []) := by
  cases path with
  | nil => exact absurd rfl hp
  | cons key path =>
    rw [Json.nest, merge_single h.head, merge_single h.head]
    rfl

theorem Below.apart {v} (hu : Below p u) (hv : Below q v) (hP : ¬ p <+: q) (hQ : ¬ q <+: p) :
    Apart p u q v where
  left := hu.confinedTo
  right := hv.confinedTo
  keepsLeft s _ hx := hv.confinedTo.keeps hP hQ (merge s u) hx
  keepsRight s _ hx := hu.confinedTo.keeps hQ hP (merge s v) hx
  comm s hs := by
    have hp : p ≠ [] := fun he => hP (he ▸ List.nil_prefix)
    have hq : q ≠ [] := fun he => hQ (he ▸ List.nil_prefix)
    rcases hu with rfl | ⟨hpp, a, rfl⟩
    · rcases hv with rfl | ⟨hP, b, rfl⟩
      · rfl
      · exact merge_empty_comm hq hP s b
    · rcases hv with rfl | ⟨hP', b, rfl⟩
      · exact (merge_empty_comm hp hpp s a).symm
      · exact merge_nest_comm hpp hP' hP hQ hs a b

/-! ## What activations write -/

/-- Some activation of the node with this argument comes out as `o` and writes `u`, with no hook having
edited the state. -/
def Writes (w : WorkflowGraph) (n : Node) (arg : Option Json) (o : Outcome) (u : Json) : Prop :=
  ∃ c state ctx r, ctx.sendArg = arg ∧ outcome (handlerData w n) c state ctx = (o, none) ∧
    activate (handlerData w n) c state ctx = .ok r ∧ written r = some u

theorem Writes.commit (h : Writes w n arg o u) : ∃ st waiting r,
      commit (handlerData w n) (laneContext arg) st waiting none o = .ok r ∧ written r = some u := by
  obtain ⟨c, state, ctx, r, rfl, ho, hr, hu⟩ := h
  rw [activate, ho] at hr
  exact ⟨_, _, r, hr, hu⟩

/-- Whether the update of an activation is its node's own: only a trigger that has been handed its
payload writes nothing. -/
def OwnsSlot (n : Node) (o : Outcome) : Prop :=
  o = .started ∨ n.id ≠ REPLACE

theorem Writes.below_node (h : Writes w n arg o u) (ho : OwnsSlot n o) : Below (nodePath n.id) u := by
  obtain ⟨st, waiting, r, hr, hu⟩ := h.commit
  rcases written_commit hr hu with ⟨-, rfl⟩ | ⟨hn, hw⟩
  · exact .inl rfl
  · obtain ⟨slot, rfl⟩ := hw.eq_nodeUpdate
    exact .inr ⟨plain_nodePath (ho.resolve_left hn), slot, rfl⟩

theorem Writes.ownsSlot (h : Writes w n arg o u) (hc : ConfinedTo (nodePath n.id) u) : OwnsSlot n o := by
  obtain ⟨st, waiting, r, hr, hu⟩ := h.commit
  rcases written_commit hr hu with ⟨ho, -⟩ | ⟨-, hw⟩
  · exact .inl ho
  · obtain ⟨slot, rfl⟩ := hw.eq_nodeUpdate
    refine .inr fun hi => ?_
    rw [show (handlerData w n).node.id = n.id from rfl, hi] at hc
    exact @not_confinedTo_replace (nodePath REPLACE) rfl slot hc

theorem Writes.below_lane (h : Writes w n (some (laneEnvelope origin index count items)) o u)
    (hk : KeepsToLane (handlerData w n) o) : Below (lanePath n.id (laneId origin index)) u := by
  obtain ⟨lane, hl, hi, -⟩ := laneContext_envelope origin index count items
  obtain ⟨st, waiting, r, hr, hu⟩ := h.commit
  rw [hl] at hr
  rcases hk.written hr hu with rfl | ⟨hn, slot, rfl⟩
  · exact .inl rfl
  · refine .inr ⟨plain_lanePath hn (laneId_ne_replace origin index), slot, ?_⟩
    rw [hi]
    rfl

theorem Writes.keepsToLane (h : Writes w n (some (laneEnvelope origin index count items)) o u)
    (hc : ConfinedTo (lanePath n.id (laneId origin index)) u) : KeepsToLane (handlerData w n) o := by
  obtain ⟨lane, hl, hi, -⟩ := laneContext_envelope origin index count items
  obtain ⟨st, waiting, r, hr, hu⟩ := h.commit
  by_contra hk
  obtain ⟨r', u', hr', hu', hs⟩ := strays_of_not_keepsToLane hk lane st waiting
  rw [hl, hr'] at hr
  cases hr
  cases hu.symm.trans hu'
  rw [hi] at hs
  exact hs hc

theorem nodePath_below {id'} (h : nodePath id <+: nodePath id') : id = id' := by
  simpa [nodePath] using h

theorem lanePath_below {lane lane'} (h : lanePath id lane <+: lanePath id lane') :
    lane = lane' := by
  simpa [lanePath] using h

/-- For any two updates that activations of one graph write: those of different nodes stay apart exactly
when each is its node's own, and those of different lanes of a node exactly when both activations keep
to their lane: `Apart` asks of either that it touch nothing else. Nothing inside an update is taken for the
sentinel in any case. -/
theorem updates_apart_iff (w : WorkflowGraph) (n₁ n₂ : Node) (arg₁ arg₂ : Option Json)
    (o₁ o₂ : Outcome) (u₁ u₂ : Json) (h₁ : Writes w n₁ arg₁ o₁ u₁) (h₂ : Writes w n₂ arg₂ o₂ u₂) :
    (n₁.id ≠ n₂.id →
      (Apart (nodePath n₁.id) u₁ (nodePath n₂.id) u₂ ↔ OwnsSlot n₁ o₁ ∧ OwnsSlot n₂ o₂)) ∧
    (∀ origin₁ index₁ count₁ items₁ origin₂ index₂ count₂ items₂, n₁ = n₂ →
      arg₁ = some (laneEnvelope origin₁ index₁ count₁ items₁) →
      arg₂ = some (laneEnvelope origin₂ index₂ count₂ items₂) →
      laneId origin₁ index₁ ≠ laneId origin₂ index₂ →
      (Apart (lanePath n₁.id (laneId origin₁ index₁)) u₁ (lanePath n₂.id (laneId origin₂ index₂)) u₂ ↔
        KeepsToLane (handlerData w n₁) o₁ ∧ KeepsToLane (handlerData w n₂) o₂)) ∧
    (u₁.Sorted → Verbatim u₁) ∧ (u₂.Sorted → Verbatim u₂) := by
  refine ⟨fun hne => ⟨fun ha => ⟨h₁.ownsSlot ha.left, h₂.ownsSlot ha.right⟩, ?_⟩, ?_,
    verbatim_of_sorted, verbatim_of_sorted⟩
  · rintro ⟨ho₁, ho₂⟩
    exact (h₁.below_node ho₁).apart (h₂.below_node ho₂) (fun hp => hne (nodePath_below hp))
      fun hp => hne (nodePath_below hp).symm
  · rintro origin₁ index₁ count₁ items₁ origin₂ index₂ count₂ items₂ rfl rfl rfl hne
    refine ⟨fun ha => ⟨h₁.keepsToLane ha.left, h₂.keepsToLane ha.right⟩, ?_⟩
    rintro ⟨hk₁, hk₂⟩
    exact (h₁.below_lane hk₁).apart (h₂.below_lane hk₂) (fun hp => hne (lanePath_below hp))
      fun hp => hne (lanePath_below hp).symm

/-- A trigger that fans out to two nodes, one of them named like the sentinel. -/
def sentinelNode : WorkflowGraph where
  nodes := [{ id := "t", kind := .trigger }, { id := "a", kind := .transform },
    { id := "b", kind := .transform }, { id := REPLACE, kind := .transform }]
  edges := [{ fromNode := "t", toNode := "a" }, { fromNode := "t", toNode := "b" },
    { fromNode := "t", toNode := REPLACE }]

def scheduled (id : NodeId) : NodeContext Json where
  nodeId := id
  runId := "r"
  threadId := none
  step := 2
  resume := none
  fork := none
  sendArg := none

def emptySlot (id : NodeId) : Json :=
  stampActivationStep (itemsUpdate id [] none) id 2

theorem writes_a : Writes sentinelNode { id := "a", kind := .transform } none (.produced (.main []))
    (emptySlot "a") :=
  ⟨steady (.main []), .obj [], scheduled "a", _, rfl, rfl, rfl, rfl⟩

theorem sentinelNode_siblings_apart :
    Apart (nodePath "a") (emptySlot "a") (nodePath "b") (emptySlot "b") :=
  ((updates_apart_iff sentinelNode { id := "a", kind := .transform } { id := "b", kind := .transform }
    none none (.produced (.main [])) (.produced (.main [])) (emptySlot "a") (emptySlot "b") writes_a
    ⟨steady (.main []), .obj [], scheduled "b", _, rfl, rfl, rfl, rfl⟩).1 (by decide)).mpr
    ⟨.inr (show "a" ≠ REPLACE by decide), .inr (show "b" ≠ REPLACE by decide)⟩

/-- The node named like the sentinel replaces all slots by its own, so the slot of its sibling survives
only if it is folded last. -/
theorem sentinelNode_interferes :
    validateAll (.sorted _) (.sortedPairs _) sentinelNode = [] ∧
      Writes sentinelNode { id := "a", kind := .transform } none (.produced (.main []))
        (emptySlot "a") ∧
      Writes sentinelNode { id := REPLACE, kind := .transform } none (.produced (.main []))
        (emptySlot REPLACE) ∧
      (merge (merge (.obj []) (emptySlot "a")) (emptySlot REPLACE)).atPath (nodePath "a") = none ∧
      (merge (merge (.obj []) (emptySlot REPLACE)) (emptySlot "a")).atPath
        ["nodes", "a", "items"] = some (.arr []) :=
  ⟨by decide, writes_a, ⟨steady (.main []), .obj [], scheduled REPLACE, _, rfl, rfl, rfl, rfl⟩,
    by decide, by decide⟩

end Tinyflows.Engine
