import Tinyflows.Validate.All

/-!
# Cycles of accepted workflows

Validation looks at the cycles closed by the back edges of one walk. That is enough: every cycle
uses a back edge, and the way round from its target is one of the paths the check asks about.
-/

namespace Tinyflows.Validate
open Lib Tinyflows.Graph Model Engine Relation List

variable {w : WorkflowGraph}

/-- A closed walk: every node leads to the next one, and the last to the first. -/
def IsCycle (w : WorkflowGraph) (c : List NodeId) : Prop :=
  ∃ first rest, c = first :: rest ∧ (c ++ [first]).IsChain w.Leads

def Uncounted (w : WorkflowGraph) (a b : NodeId) : Prop :=
  Joins w a b ∧ hasKind w .loop a = false

theorem transGen_cut {α : Type} {r} (B : α → α → Prop) {a b}
    (h : TransGen r a b) : TransGen (fun x y => r x y ∧ ¬ B x y) a b ∨
      ∃ x y, ReflTransGen r a x ∧ r x y ∧ B x y ∧ ReflTransGen r y b := by
  induction h with
  | @single b ha =>
    by_cases hB : B a b
    · exact .inr ⟨a, b, .refl, ha, hB, .refl⟩
    · exact .inl (.single ⟨ha, hB⟩)
  | @tail b c ha hb ih =>
    rcases ih with ih | ⟨x, y, hx, hy, hB, hY⟩
    · by_cases hB : B b c
      · exact .inr ⟨b, c, ha.to_reflTransGen, hb, hB, .refl⟩
      · exact .inl (ih.tail ⟨hb, hB⟩)
    · exact .inr ⟨x, y, hx, hy, hB, hY.tail hb⟩

theorem pathAvoiding_of_uncounted {a b} (h : ReflTransGen (Uncounted w) a b) :
    pathAvoiding w a b (hasKind w .loop) = true := by
  rw [pathAvoiding, sought_iff WorkflowGraph.mem_sources_of_targets]
  refine ⟨a, mem_cons_self, ReflTransGen.mono (fun x y hx => ⟨?_, ?_⟩) a b h⟩
  · simp only [hx.2, Bool.and_false]
  · exact WorkflowGraph.mem_targets.mpr hx.1.2.2

theorem Accepted.not_uncounted (h : Accepted w) (hb : hasRunLevelBound w = false) (a) :
    ¬ TransGen (Uncounted w) a a := by
  intro hc
  rcases transGen_cut (fun x y => (x, y) ∈ backEdges w) hc with hl | ⟨x, y, ha, hx, hB, hY⟩
  · refine backEdges_cut (w := w) a (TransGen.mono (fun x y hx => ?_) a a hl)
    exact ⟨hx.1.1, hx.2⟩
  · have hr : ReflTransGen (Uncounted w) y x := hY.trans ha
    have hy : hasKind w .loop y = false := by
      rcases hr.cases_head with he | ⟨z, hz, -⟩
      · exact he ▸ hx.2
      · exact hz.2
    have hE := h.bounds hb (x, y) hB
    simp only [boundErrors, hy, hx.2, pathAvoiding_of_uncounted hr, Bool.or_self,
      Bool.not_true, Bool.false_eq_true, if_false] at hE
    cases hE

theorem uncounted_of_chain (h : Accepted w) {first b rest} (hc : (first :: rest ++ [b]).IsChain w.Leads)
    (hf : ∀ id ∈ first :: rest, hasKind w .loop id = false) : TransGen (Uncounted w) first b := by
  induction rest generalizing first with
  | nil =>
    obtain ⟨ha, -⟩ := isChain_cons_cons.mp hc
    exact .single ⟨h.joins_of_leads ha, hf first mem_cons_self⟩
  | cons second rest ih =>
    obtain ⟨ha, ht⟩ := isChain_cons_cons.mp hc
    have hs : Uncounted w first second :=
      ⟨h.joins_of_leads ha, hf first mem_cons_self⟩
    exact .head hs (ih ht fun id hi => hf id (mem_cons_of_mem _ hi))

/-- In an accepted workflow without a bound on whole runs, every cycle passes through a loop node. -/
theorem cycle_has_loop (ids : IterOrder NodeId) (edges : IterOrder (NodeId × NodeId))
    (w : WorkflowGraph) (h : validateAll ids edges w = []) (hbound : hasRunLevelBound w = false)
    (c : List NodeId) (hc : IsCycle w c) : ∃ n ∈ w.nodes, n.id ∈ c ∧ n.kind = .loop := by
  have haccepted := validateAll_nil_iff.mp h
  obtain ⟨first, rest, rfl, hchain⟩ := hc
  by_contra hnone
  refine haccepted.not_uncounted hbound first (uncounted_of_chain haccepted hchain ?_)
  intro id hid
  rw [hasKind, any_eq_false]
  intro n hn hloop
  obtain ⟨rfl, hkind⟩ := of_decide_eq_true hloop
  exact hnone ⟨n, hn, hid, hkind⟩

def smallLoop : WorkflowGraph where
  nodes := [{ id := "t", kind := .trigger }, { id := "l", kind := .loop },
    { id := "a", kind := .transform }]
  edges := [{ fromNode := "t", toNode := "l" }, { fromNode := "l", fromPort := "body", toNode := "a" },
    { fromNode := "a", toNode := "l" }]

theorem smallLoop_cycle_has_loop :
    IsCycle smallLoop ["a", "l"] ∧ ∃ n ∈ smallLoop.nodes, n.id ∈ ["a", "l"] ∧ n.kind = .loop := by
  have hcycle : IsCycle smallLoop ["a", "l"] := by
    refine ⟨"a", ["l"], rfl, ?_⟩
    refine isChain_cons_cons.mpr ⟨?_, isChain_cons_cons.mpr ⟨?_, isChain_singleton _⟩⟩
    · exact ⟨_, mem_cons_of_mem _ (mem_cons_of_mem _ mem_cons_self), rfl, rfl⟩
    · exact ⟨_, mem_cons_of_mem _ mem_cons_self, rfl, rfl⟩
  exact ⟨hcycle, cycle_has_loop (.sorted _) (.sortedPairs _) smallLoop (by decide) (by decide) _ hcycle⟩

end Tinyflows.Validate
