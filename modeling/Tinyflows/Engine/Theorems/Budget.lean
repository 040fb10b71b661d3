import Mathlib.Algebra.BigOperators.Ring.List
import Mathlib.Algebra.Ring.Nat
import Tinyflows.Engine.Lemmas.Budget

/-!
# The budget of super-steps

How many super-steps a run gets, and what its loops need.
-/

namespace Tinyflows.Engine
open Lib Tinyflows.Graph Model Nodes Validate List

variable {ord : IterOrder NodeId} {w : WorkflowGraph} {g : CompiledGraph Json Json Json}
  {ex : Expressions} {c : Conducts} {rt : Runtime Json Json Json} {th : ThreadId}
  {height : NodeId → Nat}

/-! ## The limit of a compiled workflow -/

theorem stepLimit_declared (hl : Lowered ord w g) {t} (ht : w.trigger = some t) {n}
    (hn : positiveKnob t.config "recursion_limit" = some n) :
    stepLimit g = n ↔ n ≤ 1000 ∨ (positiveKnob t.config "max_node_visits").isSome := by
  obtain ⟨t', ht', hp, hi⟩ := hl.limits
  cases ht.symm.trans ht'
  rw [stepLimit, hi, hp, hn, Option.getD_some, recursionPolicy]
  cases positiveKnob t.config "max_node_visits" with
  | none => simp
  | some visits => simp [hn]

theorem stepLimit_derived (hl : Lowered ord w g) {t} (ht : w.trigger = some t)
    (hn : positiveKnob t.config "recursion_limit" = none) :
    stepLimit g = min ((derivedLimit w).getD 50) 1000 := by
  obtain ⟨t', ht', hp, hi⟩ := hl.limits
  cases ht.symm.trans ht'
  rw [stepLimit, hi, hp, hn, Option.getD_none, recursionPolicy]
  cases positiveKnob t.config "max_node_visits" with
  | none => rfl
  | some visits => rw [hn]; rfl

theorem loopTotal_eq (w) : loopTotal w = ((loopsOf w).map loopShare).sum := rfl

theorem loopTotal_bounds (h : ((loopsOf w).map maxIterations).sum < 2 ^ 64 - 1) :
    loopTotal w = ((loopsOf w).map maxIterations).sum + (loopsOf w).length := by
  rw [loopTotal_eq]
  generalize loopsOf w = lo at h
  induction lo with
  | nil => rfl
  | cons n lo ih =>
    simp only [map_cons, sum_cons, length_cons] at h ⊢
    rw [ih (by omega), loopShare, saturate]
    omega

theorem maxIterations_pos (hw : Accepted w) {n} (hn : n ∈ loopsOf w) : 0 < maxIterations n := by
  obtain ⟨hn, hk⟩ := mem_loopsOf.mp hn
  have he := hw.loopNodes n hn hk
  simp only [loopNodeErrors, append_eq_nil_iff, and_assoc] at he
  have hm := he.1
  unfold loopMaxIterations checkKey at hm
  unfold maxIterations configNat
  cases hv : n.config.get "max_iterations" with
  | none => decide
  | some v =>
    rw [hv] at hm
    cases hu : v.asU64 with
    | none => simp [positive, hu] at hm
    | some u =>
      simp [positive, hu] at hm
      rw [Option.bind_some, hu]
      exact Nat.pos_of_ne_zero fun h => hm (UInt64.toNat_inj.mp h)

theorem stepsFrom_le (hf : Falls w g height) (ids) : stepsFrom height ids ≤ w.nodes.length := by
  rw [stepsFrom]
  cases hm : (ids.map height).max? with
  | none => exact (Nat.zero_le _).trans_lt (hf.low "")
  | some top =>
    obtain ⟨id, -, rfl⟩ := mem_map.mp (max?_mem hm)
    exact hf.low id

theorem loopCost_le_stepLimit (hf : Falls w g height) (hw : Accepted w) (hl : Lowered ord w g) {t}
    (ht : w.trigger = some t) (hn : positiveKnob t.config "recursion_limit" = none)
    (h : loopCost w height ≤ if loopsOf w = [] then 50 else 1000) :
    loopCost w height ≤ stepLimit g := by
  have hL : (loopsOf w).length ≤ ((loopsOf w).map maxIterations).sum := by
    have := length_le_sum_of_one_le _ (forall_mem_map.mpr fun n => maxIterations_pos (n := n) hw)
    rwa [length_map] at this
  have hh : loopCost w height ≤ 1000 := h.trans (by split_ifs <;> omega)
  have hs : ((loopsOf w).map maxIterations).sum ≤ loopCost w height :=
    le_add_left (sum_le_sum fun n _ => Nat.le_mul_of_pos_right _ (Nat.succ_pos _))
  have hu : loopCost w height ≤
      w.nodes.length + ((loopsOf w).map maxIterations).sum * w.nodes.length := by
    rw [← sum_map_mul_right (loopsOf w) maxIterations]
    exact Nat.add_le_add (stepsFrom_le hf _)
      (sum_le_sum fun n _ => Nat.mul_le_mul_left _ (stepsFrom_le hf _))
  have hto := loopTotal_bounds (w := w) (by omega)
  rw [stepLimit_derived hl ht hn, derivedLimit]
  by_cases ho : loopsOf w = []
  · rw [if_pos ho] at h
    rw [ho] at hto
    rw [if_neg (by rw [loopBudget, hto]; simp)]
    exact Nat.le_min.mpr ⟨h, hh⟩
  · have hp : 0 < (loopsOf w).length := length_pos_iff.mpr ho
    have hb : loopBudget w = loopTotal w := Nat.mod_eq_of_lt (by omega)
    rw [hb, if_pos (by omega), Option.getD_some]
    refine Nat.le_min.mpr ⟨?_, hh⟩
    have := Nat.mul_le_mul_right w.nodes.length (Nat.le.intro hto.symm)
    simp only [saturate]
    omega

/-! ## Runs within the budget -/

theorem steps_below_loopCost (hF : Falls w g height) (hl : Lowered ord w g) (hw : Accepted w)
    (hr : REPLACE ∉ w.ids) (ho : LoopsExecute ex w c) (hC : Conforms w c rt)
    {l budget} (hk : Within w l) (hf : l.steps = 0)
    (hd : ∀ m ∈ l :: boundaries g rt (some th) budget l, m.active ≠ [] → Ordinary w c m)
    (hi : ∀ n ∈ loopsOf w, passesOf n.id (l :: boundaries g rt (some th) budget l) ≤ maxIterations n) :
    ∀ m ∈ l :: boundaries g rt (some th) budget l, m.active ≠ [] → m.steps < loopCost w height := by
  intro m hm ht
  obtain ⟨a, ha⟩ := exists_mem_of_ne_nil _ ht
  have hs : ∀ a ∈ l.active, l.steps + height a.node < stepsFrom height w.ids := by
    intro a ha
    rw [hf, Nat.zero_add]
    exact lt_stepsFrom (hk a ha)
  have hp := run_steps hF hl hw hr ho hC hk hd hs m hm a ha
  have hP : spent w height (l :: boundaries g rt (some th) budget l) ≤ _ :=
    sum_le_sum fun n hn => Nat.mul_le_mul_right _ (hi n hn)
  rw [loopCost]
  omega

/-- The budget of an accepted workflow: a declared limit is the number of super-steps a run gets
exactly when it is at most the default of a policy or visits are bounded too; the loops' shares are
added up exactly when they fit; and without a declared limit, a run whose loops cost no more than the
default limits, each within its own cap, does not fail at the limit. -/
theorem step_budget (ids : IterOrder NodeId) (edges : IterOrder (NodeId × NodeId))
    (hvalid : validateAll ids edges w = []) (hbuild : buildGraph ord w = .ok g) {t : Node}
    (ht : w.trigger = some t) (hconf : Conforms w c rt) (hrel : rt.Reliable) (thread : ThreadId) :
    (∀ n, positiveKnob t.config "recursion_limit" = some n →
      ((∀ l : Loop Json Json, l.persistence.writes.Clean → (∀ a ∈ l.active, a.node ∈ w.ids) →
        (EndsAtLimit (superStep g rt (some thread) l) ↔ n ≤ l.steps)) ↔
      n ≤ 1000 ∨ (positiveKnob t.config "max_node_visits").isSome)) ∧
    (loopBudget w = loopTotal w ↔ loopTotal w < 2 ^ 64) ∧
    (positiveKnob t.config "recursion_limit" = none → REPLACE ∉ w.ids → LoopsExecute ex w c →
      ∀ height, Falls w g height → (loopCost w height ≤ if loopsOf w = [] then 50 else 1000) →
      ∀ l : Loop Json Json, l.persistence.writes.Clean → (∀ a ∈ l.active, a.node ∈ w.ids) →
        l.steps = 0 →
        (∀ m ∈ l :: boundaries g rt (some thread) (stepLimit g) l, m.active ≠ [] → Ordinary w c m) →
        (∀ n ∈ loopsOf w, passesOf n.id (l :: boundaries g rt (some thread) (stepLimit g) l) ≤
          maxIterations n) →
        ∀ e, (executeRun g rt (some thread) l).result = .error e → e.isRecursionLimit = false) := by
  have hw : Accepted w := validateAll_nil_iff.mp hvalid
  have hl := lowered_of_buildGraph hbuild
  refine ⟨fun n hn => ?_, Nat.mod_eq_iff_lt (by decide), ?_⟩
  · rw [← stepLimit_declared hl ht hn]
    constructor
    · intro h
      have hat : ∀ k, stepLimit g ≤ k ↔ n ≤ k := fun k => by
        have hidle : ∀ a ∈ ([] : List (Activation Json)), a.node ∈ w.ids := fun a ha => nomatch ha
        let l : Loop Json Json := { freshLoop {} .null [] with steps := k }
        exact (endsAtLimit_iff (l := l) hl hconf hrel rfl hidle).symm.trans (h l rfl hidle)
      exact le_antisymm ((hat n).mpr le_rfl) ((hat _).mp le_rfl)
    · rintro rfl l hclean hknown
      exact endsAtLimit_iff hl hconf hrel hclean hknown
  · intro hn hreplace hloops height hfalls hcost l hclean hknown hfirst hord hwithin e he
    have hlimit := loopCost_le_stepLimit hfalls hw hl ht hn hcost
    rw [executeRun, if_neg hl.depth] at he
    exact runLoop_below_limit hl hconf hrel hclean hknown (by omega) (fun m hm hactive =>
      (steps_below_loopCost hfalls hl hw hreplace hloops hconf hknown hfirst hord hwithin m hm
        hactive).trans_le hlimit) he

def counting (trigger : Json) (cap : Nat) : WorkflowGraph where
  nodes := [{ id := "t", kind := .trigger, config := trigger },
    { id := "l", kind := .loop,
      config := .obj [("max_iterations", .nat cap), ("on_exceeded", .str "continue")] }]
  edges := [{ fromNode := "t", toNode := "l" }, { fromNode := "l", fromPort := "body", toNode := "l" }]

example : loopCost (counting .null 600) (fun id => if id = "t" then 1 else 0) = 602 := by decide

def countingGraph : CompiledGraph Json Json Json :=
  graphOf (counting .null 2) (by decide +kernel)

def countingStart : Loop Json Json :=
  freshLoop {} (.obj []) [{ node := "t" }]

def countingRun : List (Loop Json Json) :=
  countingStart :: boundaries countingGraph (runtimeOf (counting .null 2) undisturbed) (some "thread")
    (stepLimit countingGraph) countingStart

theorem undisturbed_control {n : Node} {h step i st ctx output}
    (ho : (outcome h (undisturbed step n.id i) st ctx).1 = .produced output) : output.control = none := by
  obtain ⟨bare, hb, -, hC⟩ := outcome_produced ho
  have hp : bare.control = none := by
    rcases hb with hr | ⟨ectx, k, -, he⟩
    · exact hr.2
    · simp only [undisturbed] at he
      split_ifs at he
      · exact (loopExecute_plain he).1
      · cases he
        rfl
  rcases hC with hc | hc
  · rw [hc, hp]
  · exact hc

theorem counting_within_budget : passesOf "l" countingRun = 2 ∧ ∀ e,
    (executeRun countingGraph (runtimeOf (counting .null 2) undisturbed) (some "thread")
      countingStart).result = .error e → e.isRecursionLimit = false := by
  have hmain := (@step_budget _ _ countingGraph noExpressions _ _ (.sorted NodeId)
    (.sortedPairs NodeId) (show validateAll _ _ (counting .null 2) = [] by decide)
    (buildGraph_graphOf (by decide +kernel)) _
    (show (counting .null 2).trigger = some { id := "t", kind := .trigger } by decide)
    (conforms_runtimeOf (by decide) undisturbed) (reliable_runtimeOf _ undisturbed) "thread").2.2
  have hloops : LoopsExecute noExpressions (counting .null 2) undisturbed := by
    rintro n - hkind step i ectx k rfl
    exact .inl (if_pos hkind)
  have hchecks : (countingRun.all fun m => decide ((activationNodes m.active).count "l" ≤ 1) &&
      m.active.all fun a => a.sendArg.isNone) = true := by decide +kernel
  have hpasses : passesOf "l" countingRun = 2 := by decide +kernel
  have honly : ∀ n ∈ loopsOf (counting .null 2), n.id = "l" ∧ maxIterations n = 2 := by decide
  have hfalls : Falls (counting .null 2) countingGraph fun id => if id = "t" then 1 else 0 := by
    refine ⟨fun id => ?_, by decide, by decide +kernel⟩
    show (if id = "t" then 1 else 0) < 2
    split_ifs <;> decide
  refine ⟨hpasses, hmain (by decide) (by decide) hloops _ hfalls (by decide) countingStart rfl
    (by decide) rfl ?_ ?_⟩
  · intro m hm _
    have hm := all_eq_true.mp hchecks m hm
    rw [Bool.and_eq_true, decide_eq_true_eq, all_eq_true] at hm
    refine ⟨fun i n ctx _ => outcome_unedited (fun _ => rfl) _ _, fun n hn => ?_,
      fun i n ctx hat _ => ?_, fun i n ctx _ output delay ho hc => ?_⟩
    · rw [(honly n hn).1]
      exact hm.1
    · obtain ⟨a, ha, -, hctx⟩ := hat.active
      rw [hctx.sendArg, Option.isNone_iff_eq_none.mp (hm.2 a (mem_of_getElem? ha))]
      rfl
    · rw [undisturbed_control ho] at hc
      cases hc
  · intro n hn
    rw [(honly n hn).1, (honly n hn).2]
    exact hpasses.le

def declaredGraph : CompiledGraph Json Json Json :=
  graphOf (counting (.obj [("recursion_limit", .nat 2000)]) 5000) (by decide +kernel)

def derivedGraph : CompiledGraph Json Json Json :=
  graphOf (counting .null 5000) (by decide +kernel)

def largestCaps : WorkflowGraph where
  nodes := [{ id := "t", kind := .trigger },
    { id := "l", kind := .loop, config := .obj [("max_iterations", .nat (2 ^ 64 - 1))] },
    { id := "m", kind := .loop, config := .obj [("max_iterations", .nat (2 ^ 64 - 1))] }]
  edges := [{ fromNode := "t", toNode := "l" }, { fromNode := "l", fromPort := "body", toNode := "l" },
    { fromNode := "l", fromPort := "done", toNode := "m" },
    { fromNode := "m", fromPort := "body", toNode := "m" }]

/-- A loop with two arms and nowhere else to go: its edges share one port, so they are driven whatever
it emits on. -/
def twoArms : WorkflowGraph where
  nodes := [{ id := "t", kind := .trigger },
    { id := "l", kind := .loop,
      config := .obj [("max_iterations", .nat 1), ("on_exceeded", .str "continue")] },
    { id := "x", kind := .transform }, { id := "y", kind := .transform }]
  edges := [{ fromNode := "t", toNode := "l" }, { fromNode := "l", fromPort := "body", toNode := "x" },
    { fromNode := "l", fromPort := "body", toNode := "y" }, { fromNode := "x", toNode := "l" },
    { fromNode := "y", toNode := "l" }]

def twoArmsGraph : CompiledGraph Json Json Json :=
  graphOf twoArms (by decide +kernel)

/-- A declared limit of 2000 and a derived one of 10004 both end a run after 1000 super-steps; the
shares of two loops overflow; and a loop that passes once, as it may, runs into the derived limit. -/
theorem budget_cut_short :
    (∀ w ∈ [counting (.obj [("recursion_limit", .nat 2000)]) 5000, counting .null 5000, largestCaps,
      twoArms], validateAll (.sorted NodeId) (.sortedPairs NodeId) w = []) ∧
    (buildGraph (.sorted NodeId) (counting (.obj [("recursion_limit", .nat 2000)]) 5000) =
        .ok declaredGraph ∧
      buildGraph (.sorted NodeId) (counting .null 5000) = .ok derivedGraph ∧
      derivedGraph.recursionLimit = 10004 ∧
      ∀ g ∈ [declaredGraph, derivedGraph], ∀ (rt : Runtime Json Json Json) (l : Loop Json Json),
        l.steps = 1000 → EndsAtLimit (superStep g rt (some "thread") l)) ∧
    loopBudget largestCaps ≠ loopTotal largestCaps ∧
    (buildGraph (.sorted NodeId) twoArms = .ok twoArmsGraph ∧
      passesOf "l" (countingStart :: boundaries twoArmsGraph (runtimeOf twoArms undisturbed)
        (some "thread") (stepLimit twoArmsGraph) countingStart) = 1 ∧
      (run twoArmsGraph (runtimeOf twoArms undisturbed) {} (some "thread") (.obj [])).result =
        .error (.recursionLimit 12)) := by
  have hlimits : stepLimit declaredGraph = 1000 ∧ stepLimit derivedGraph = 1000 := by decide +kernel
  refine ⟨by decide, ⟨buildGraph_graphOf _, buildGraph_graphOf _, by decide +kernel,
    fun g hg rt l hl => ?_⟩, by decide +kernel, buildGraph_graphOf _, by decide +kernel,
    eq_error_of_failureOf (by decide +kernel)⟩
  have hlimit : stepLimit g ≤ l.steps := by
    rw [mem_pair] at hg
    rcases hg with rfl | rfl
    · rw [hlimits.1, hl]
    · rw [hlimits.2, hl]
  rw [superStep_at_limit hlimit]
  exact ⟨_, rfl, rfl⟩

end Tinyflows.Engine
