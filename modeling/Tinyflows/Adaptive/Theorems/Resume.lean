import Tinyflows.Adaptive.Resume
import Tinyflows.Engine.Runs
import Tinyflows.Validate.All

/-!
# What a continued run takes on trust

The check looks at the nodes upstream of the failed one, by the names the edits give. What it does not
look at is the failed node itself, the branches beside it, and the edges that go with a removed node.
-/

namespace Tinyflows.Adaptive
open Lib Tinyflows.Graph Model Relation Engine Validate List Option

def shape (n : Node) : NodeKind × Json :=
  (n.kind, n.config)

/-- The graphs agree at the node: on what it is and on its edges. -/
structure SameAt (parent child : WorkflowGraph) (n : NodeId) : Prop where
  node : (child.node n).map shape = (parent.node n).map shape
  incoming : ∀ e : Edge, e.toNode = n → (e ∈ child.edges ↔ e ∈ parent.edges)
  outgoing : ∀ e : Edge, e.fromNode = n → (e ∈ child.edges ↔ e ∈ parent.edges)

/-- The operations leave the node as it was: those on the node come to nothing, and the last one on an
edge at it, if there is one, puts the edge in exactly if it was there. -/
structure LeftAt (parent : WorkflowGraph) (ops : List GraphOp) (n : NodeId) : Prop where
  node : (nodeAfter ops n (parent.node n)).map shape = (parent.node n).map shape
  edges : ∀ e : Edge, e.touches n = true → ∀ b, lastOnEdge ops e = some b →
    (b = true ↔ e ∈ parent.edges)

variable {pa child : WorkflowGraph} {ops : List GraphOp} {f n : NodeId}

variable {e : Edge} {op : GraphOp} {b : Bool} {o : StepOutcome Json Json}

theorem touches_iff : e.touches n = true ↔ e.fromNode = n ∨ e.toNode = n := by
  simp [Edge.touches]

theorem mem_edges_iff_of_last (hops : ∀ op ∈ ops, op.isRename = false)
    (ha : applyOps pa ops = .ok child) : (e ∈ child.edges ↔ e ∈ pa.edges) ↔
      ∀ b, lastOnEdge ops e = some b → (b = true ↔ e ∈ pa.edges) := by
  rw [mem_edges_applyOps hops ha]
  cases hl : lastOnEdge ops e with
  | none => simp
  | some b => simp

theorem sameAt_iff_leftAt (hops : ∀ op ∈ ops, op.isRename = false)
    (ha : applyOps pa ops = .ok child) : SameAt pa child n ↔ LeftAt pa ops n := by
  constructor
  · rintro ⟨hn, hi, ho⟩
    rw [node_applyOps hops ha] at hn
    refine ⟨hn, fun e he => (mem_edges_iff_of_last hops ha).mp ?_⟩
    exact (touches_iff.mp he).elim (ho e) (hi e)
  · rintro ⟨hn, hd⟩
    rw [← node_applyOps hops ha] at hn
    exact ⟨hn, fun e he => (mem_edges_iff_of_last hops ha).mpr (hd e (touches_iff.mpr (.inr he))),
      fun e he => (mem_edges_iff_of_last hops ha).mpr (hd e (touches_iff.mpr (.inl he)))⟩

/-! ## Nodes that no operation names -/

def Unnamed (ops : List GraphOp) (n : NodeId) : Prop :=
  ∀ op ∈ ops, ∀ named, touchedBy op = some named → n ∉ named

theorem onNode_of_unnamed (h : ∀ na, touchedBy op = some na → n ∉ na)
    (ho : op.isRename = false) (found) : op.onNode n found = found := by
  have hn : ∀ id, touchedBy op = some {id} → ¬ id = n := fun id hi he =>
    h _ hi (Finset.mem_singleton.mpr he.symm)
  cases op with
  | addNode nd => exact if_neg (hn nd.id rfl)
  | updateNodeConfig id co => exact if_neg (hn id rfl)
  | removeNode id => exact if_neg (hn id rfl)
  | renameNode id ni => cases ho
  | _ => rfl

theorem nodeAfter_of_unnamed (hops : ∀ op ∈ ops, op.isRename = false) (h : Unnamed ops n)
    (found) : nodeAfter ops n found = found := by
  induction ops with
  | nil => rfl
  | cons op re ih =>
    obtain ⟨ho, hr⟩ := forall_mem_cons.mp hops
    rw [nodeAfter, foldl_cons, onNode_of_unnamed (h op mem_cons_self) ho]
    exact ih hr fun op ho => h op (mem_cons_of_mem _ ho)

theorem onEdge_of_unnamed (h : ∀ na, touchedBy op = some na → n ∉ na) (he : e.touches n = true)
    (hb : op.onEdge e = some b) : b = false ∧ ∃ m, op = .removeNode m ∧ e.touches m = true := by
  rw [touches_iff] at he
  cases op with
  | addEdge ed =>
    simp only [GraphOp.onEdge, ite_none_right_eq_some] at hb
    obtain ⟨rfl, -⟩ := hb
    have hn := h _ rfl
    simp only [Finset.mem_insert, Finset.mem_singleton, not_or] at hn
    exact absurd he (by tauto)
  | removeEdge ed =>
    simp only [GraphOp.onEdge, ite_none_right_eq_some] at hb
    obtain ⟨rfl, -⟩ := hb
    have hn := h _ rfl
    simp only [Finset.mem_insert, Finset.mem_singleton, not_or] at hn
    exact absurd he (by tauto)
  | removeNode m =>
    simp only [GraphOp.onEdge, ite_none_right_eq_some, some.injEq] at hb
    exact ⟨hb.2.symm, m, rfl, hb.1⟩
  | _ => cases hb

theorem exists_of_lastOnEdge (h : lastOnEdge ops e = some b) : ∃ op ∈ ops, op.onEdge e = some b :=
  mem_filterMap.mp (mem_of_getLast? h)

theorem lastOnEdge_of_mem (ho : op ∈ ops) (hb : op.onEdge e = some b) :
    ∃ b', lastOnEdge ops e = some b' := by
  have hn : ops.filterMap (GraphOp.onEdge e) ≠ [] :=
    ne_nil_of_mem (mem_filterMap.mpr ⟨op, ho, hb⟩)
  exact ⟨_, getLast?_eq_some_getLast hn⟩

theorem leftAt_iff_of_unnamed (hops : ∀ op ∈ ops, op.isRename = false) (h : Unnamed ops n) :
    LeftAt pa ops n ↔
      ∀ m, GraphOp.removeNode m ∈ ops → ¬ pa.Leads n m ∧ ¬ pa.Leads m n := by
  constructor
  · intro hL m hm
    -- The edge to a removed neighbour is taken out, and nothing puts it back.
    have hg : ∀ e ∈ pa.edges, e.touches n = true → e.touches m = true → False := by
      intro e he hn hE
      obtain ⟨b, hb⟩ := lastOnEdge_of_mem hm (show GraphOp.onEdge e _ = some false from if_pos hE)
      obtain ⟨op, ho, hl⟩ := exists_of_lastOnEdge hb
      obtain ⟨rfl, -⟩ := onEdge_of_unnamed (h op ho) hn hl
      exact Bool.false_ne_true ((hL.edges e hn false hb).mpr he)
    constructor
    · rintro ⟨e, he, hf, ht⟩
      exact hg e he (touches_iff.mpr (.inl hf)) (touches_iff.mpr (.inr ht))
    · rintro ⟨e, he, hf, ht⟩
      exact hg e he (touches_iff.mpr (.inr ht)) (touches_iff.mpr (.inl hf))
  · intro hr
    refine ⟨by rw [nodeAfter_of_unnamed hops h], fun e hn b hb => ?_⟩
    obtain ⟨op, ho, hl⟩ := exists_of_lastOnEdge hb
    obtain ⟨rfl, m, rfl, hm⟩ := onEdge_of_unnamed (h op ho) hn hl
    have hN : n ≠ m := fun hq => h _ ho _ rfl (Finset.mem_singleton.mpr hq)
    obtain ⟨ht, hf⟩ := hr m ho
    refine ⟨nofun, fun he => ?_⟩
    rcases touches_iff.mp hn with hn | hn <;> rcases touches_iff.mp hm with hm | hm
    · exact absurd (hn.symm.trans hm) hN
    · exact absurd ⟨e, he, hn, hm⟩ ht
    · exact absurd ⟨e, he, hm, hn⟩ hf
    · exact absurd (hn.symm.trans hm) hN

theorem isRename_of_readOps (h : readOps ops = .ok ops) : ∀ op ∈ ops, op.isRename = false := by
  unfold readOps at h
  split_ifs at h with ha
  intro op ho
  rw [Bool.eq_false_iff]
  exact fun hr => ha (any_eq_true.mpr ⟨op, ho, hr⟩)

theorem mem_ids_iff {w : WorkflowGraph} : n ∈ w.ids ↔ (w.node n).isSome = true := by
  simp [WorkflowGraph.ids, WorkflowGraph.node]

/-- Where the check lets a run go on under the repaired workflow, going on is sound exactly if the
operations keep the failed node, remove no neighbour of a completed node upstream of it, and leave every
other completed node as it was. -/
theorem continue_sound_iff {parent child : WorkflowGraph} {ops : List GraphOp} {f : NodeId}
    (run : FailedRun parent f) (hread : readOps ops = .ok ops)
    (happly : applyOps parent ops = .ok child) (hcontinue : mayContinue parent child f ops = true) :
    (f ∈ child.ids ∧ ∀ n ∈ run.completed, SameAt parent child n) ↔
      (nodeAfter ops f (parent.node f)).isSome = true ∧ ∀ n ∈ run.completed,
        (TransGen parent.Leads n f → ∀ m, GraphOp.removeNode m ∈ ops →
          ¬ parent.Leads n m ∧ ¬ parent.Leads m n) ∧
        (¬ TransGen parent.Leads n f → LeftAt parent ops n) := by
  have hops := isRename_of_readOps hread
  rw [mem_ids_iff, node_applyOps hops happly]
  refine and_congr_right fun _ => forall₂_congr fun n _ => ?_
  rw [sameAt_iff_leftAt hops happly]
  by_cases hupstream : TransGen parent.Leads n f
  · have hunnamed : Unnamed ops n := fun op hop named hnamed =>
      untouched_of_mayContinue hcontinue hupstream hop hnamed
    simp [hupstream, leftAt_iff_of_unnamed hops hunnamed]
  · simp [hupstream]

/-! ## A branch beside the failed node -/

def sideBySide : WorkflowGraph where
  nodes := [{ id := "t", kind := .trigger }, { id := "a", kind := .toolCall },
    { id := "b", kind := .toolCall }]
  edges := [{ fromNode := "t", toNode := "a" }, { fromNode := "t", toNode := "b" }]

def bFails : Conducts := fun _ id _ =>
  { cancelled := fun _ => false
    executor := fun _ _ => if id = "b" then .error (.capability "no") else .ok (.main []) }

def sideGraph : CompiledGraph Json Json Json :=
  graphOf sideBySide (by decide +kernel)

def sideStart : Loop Json Json :=
  freshLoop {} (.obj []) [{ node := sideGraph.entry }]

def sideStep (l : Loop Json Json) : StepOutcome Json Json :=
  superStep sideGraph (runtimeOf sideBySide bFails) (some "thread") l

def nextOf : StepOutcome Json Json → Option (Loop Json Json)
  | .next l => some l
  | .done _ => none

def resultOf : StepOutcome Json Json → Option (RunResult Json Json)
  | .next _ => none
  | .done r => some r

theorem eq_next_of_nextOf (h : (nextOf o).isSome) : o = .next ((nextOf o).get h) := by
  cases o with
  | next l => rfl
  | done r => cases h

theorem eq_done_of_resultOf (h : (resultOf o).isSome) : o = .done ((resultOf o).get h) := by
  cases o with
  | next l => cases h
  | done r => rfl

def sideSecond : Loop Json Json :=
  (nextOf (sideStep sideStart)).get (by decide +kernel)

def sideResult : RunResult Json Json :=
  (resultOf (sideStep sideSecond)).get (by decide +kernel)

/-- Both nodes run in the second step, and `a` completes. -/
def bFailed : FailedRun sideBySide "b" where
  graph := sideGraph
  built := buildGraph_graphOf _
  conducts := bFails
  runtime := runtimeOf sideBySide bFails
  conforms := conforms_runtimeOf (by decide) bFails
  thread := "thread"
  done := [] ++ activationNodes sideStart.active
  last := sideSecond
  comes := .step (.fresh (.obj [])) (eq_next_of_nextOf _)
  result := sideResult
  ends := eq_done_of_resultOf _
  checkpoint := ((failureBoundary? sideResult.store "thread").get (by decide +kernel)).2
  failed := by
    have hnode : ((failureBoundary? sideResult.store "thread").get (by decide +kernel)).1 = "b" := by
      decide +kernel
    rw [← hnode, Prod.mk.eta, some_get]

theorem bFailed_completed : bFailed.completed = ["t", "a"] := by
  decide +kernel

def withFlag : Json :=
  .obj [("flag", .bool true)]

def editing (id : NodeId) : WorkflowGraph where
  nodes := sideBySide.nodes.map fun n => if n.id = id then { n with config := withFlag } else n
  edges := sideBySide.edges

def withoutB : WorkflowGraph where
  nodes := [{ id := "t", kind := .trigger }, { id := "a", kind := .toolCall }]
  edges := [{ fromNode := "t", toNode := "a" }]

/-- Editing the failed node alone is sound. -/
theorem edited_b_sound : "b" ∈ (editing "b").ids ∧
    ∀ n ∈ bFailed.completed, SameAt sideBySide (editing "b") n := by
  have happly : applyOps sideBySide [.updateNodeConfig "b" withFlag] = .ok (editing "b") := by
    decide +kernel
  have hleft : ∀ n ∈ ["t", "a"], nodeAfter [.updateNodeConfig "b" withFlag] n (sideBySide.node n) =
    sideBySide.node n := by decide
  refine (continue_sound_iff bFailed (by decide) happly (by decide +kernel)).mpr
    ⟨by decide +kernel, fun n hn => ⟨fun _ m hm => ?_, fun _ => ⟨?_, fun e _ b hb => ?_⟩⟩⟩
  · simp at hm
  · rw [hleft n (bFailed_completed ▸ hn)]
  · cases hb

/-- A completed node beside the failed one is edited, or the failed node is removed: the check lets the
run go on. -/
theorem repaired_branch_unsound :
    readOps [.updateNodeConfig "a" withFlag] = .ok [.updateNodeConfig "a" withFlag] ∧
      applyOps sideBySide [.updateNodeConfig "a" withFlag] = .ok (editing "a") ∧
      validateAll (.sorted NodeId) (.sortedPairs NodeId) (editing "a") = [] ∧
      mayContinue sideBySide (editing "a") "b" [.updateNodeConfig "a" withFlag] = true ∧
      "a" ∈ bFailed.completed ∧ ¬ SameAt sideBySide (editing "a") "a" ∧
      readOps [.removeNode "b"] = .ok [.removeNode "b"] ∧
      applyOps sideBySide [.removeNode "b"] = .ok withoutB ∧
      validateAll (.sorted NodeId) (.sortedPairs NodeId) withoutB = [] ∧
      mayContinue sideBySide withoutB "b" [.removeNode "b"] = true ∧ "b" ∉ withoutB.ids := by
  have hchanged : ((editing "a").node "a").map shape ≠ (sideBySide.node "a").map shape := by decide
  refine ⟨by decide, by decide +kernel, by decide, by decide +kernel, ?_, fun h => hchanged h.node,
    by decide, by decide +kernel, by decide, by decide +kernel, by decide⟩
  rw [bFailed_completed]
  decide

end Tinyflows.Adaptive
