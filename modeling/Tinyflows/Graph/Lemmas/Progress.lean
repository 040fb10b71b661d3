import Tinyflows.Graph.Lemmas.Contexts
import Tinyflows.Graph.Lemmas.View

/-!
# Super-steps that go through

A super-step none of whose branches fails, all of whose completed branches have somewhere to go and
whose writes succeed never ends the run with an error.
-/

namespace Tinyflows.Graph
open Lib List Option Nat

variable {S U V : Type} {g : CompiledGraph S U V}
  {rt : Runtime S U V}

variable {ac : List (Activation V)} {gm : HashMap Nat (List (RouteTarget V))}
  {st : S} {a : Activation V} {e : GraphError} {en l m : Loop S V}
  {fa : List (Fate U V)} {p : Progress U V} {th : ThreadId}
  {ti : Option ThreadId} {bu : Nat}

theorem routeActivations_total (ix r) (h : ∀ k a, ac[k]? = some a →
      ∃ tr, route g a.node (gm.lookup (ix + k)) st = .ok tr) :
    ∃ x, routeActivations g gm st ix ac r = .ok x := by
  induction ac generalizing ix r with
  | nil => exact ⟨_, rfl⟩
  | cons a re ih =>
    obtain ⟨tr, ht⟩ := h 0 a rfl
    rw [add_zero] at ht
    have hr : ∀ k b, re[k]? = some b →
        ∃ tr, route g b.node (gm.lookup (ix + 1 + k)) st = .ok tr := by
      intro k b hb
      rw [add_assoc, add_comm 1 k]
      exact h (k + 1) b (by simpa using hb)
    obtain ⟨x, hx⟩ := ih (ix + 1) (tr.foldl (followTarget g a.node) r) hr
    refine ⟨(x.1, tr :: x.2), ?_⟩
    simp only [routeActivations, ht, hx]

theorem routeCompleted_total {co} (barriers)
    (h : ∀ k a, co[k]? = some a → ∃ ta, route g a.node (gm.lookup k) st = .ok ta) :
    ∃ x, routeCompleted g co gm st barriers = .ok x := by
  obtain ⟨x, hx⟩ := routeActivations_total 0 { barriers } fun k a ha => by
    rw [zero_add]
    exact h k a ha
  simp only [routeCompleted, routePass, hx]
  exact ⟨_, rfl⟩

theorem routeActivations_fails (ix r) {k} (ha : ac[k]? = some a)
    (he : route g a.node (gm.lookup (ix + k)) st = .error e) :
    ∃ e, routeActivations g gm st ix ac r = .error e := by
  induction ac generalizing ix r k with
  | nil => cases ha
  | cons b re ih =>
    simp only [routeActivations]
    cases hb : route g b.node (gm.lookup ix) st with
    | error e => exact ⟨e, rfl⟩
    | ok ta =>
      cases k with
      | zero =>
        obtain rfl : b = a := by simpa using ha
        rw [add_zero, hb] at he
        cases he
      | succ k =>
        rw [show ix + (k + 1) = ix + 1 + k by omega] at he
        obtain ⟨e, hr⟩ := ih (ix + 1) (ta.foldl (followTarget g b.node) r) (by simpa using ha) he
        exact ⟨e, by simp only [hr]⟩

/-! ## Steps -/

theorem activationsAt_getElem? {ind} (h : ∀ i ∈ ind, i < ac.length) (k : Nat) :
    (activationsAt ac ind)[k]? = (ind[k]?).bind (ac[·]?) := by
  induction ind generalizing k with
  | nil => rfl
  | cons i ind ih =>
    have hi := getElem?_eq_getElem (h i mem_cons_self)
    rw [activationsAt, filterMap_cons, hi]
    cases k with
    | zero => simp [hi]
    | succ k =>
      simpa [activationsAt] using ih (fun j hj => h j (mem_cons_of_mem _ hj)) k

/-- The step does not fail. -/
def GoesThrough : StepOutcome S V → Prop
  | .next m => m.persistence.writes.Clean
  | .done r => ∃ execution, r.result = .ok execution

theorem goesThrough_of_view (hw : rt.Reliable) (hh : g.checkpointer = true)
    (hl : l.Clean)
    (h : ∀ e, (superStep g rt (some th) l).view ≠ .done (.error e)) :
    GoesThrough (superStep g rt (some th) l) := by
  cases hs : superStep g rt (some th) l with
  | next m => exact superStep_clean hh hw hl hs
  | done r =>
    rw [hs] at h
    cases he : r.result with
    | ok ex => exact ⟨ex, he⟩
    | error e => exact absurd (by rw [StepOutcome.view, he]; rfl) (h e)

theorem superStep_goesThrough (hw : rt.Reliable) (hh : g.checkpointer = true)
    (hl : l.Clean)
    (hr : Ran g rt (some th) l en p st) (he : fa.length = en.active.length)
    (hF : p.run = StepRun.ofFates fa) (ho : ∀ f ∈ fa, f.error = none)
    (ht : .unstarted ∈ fa → ∃ f ∈ fa, f.interrupt.isSome)
    (hR : ∀ (i : Nat) (a : Activation V) (f : Fate U V),
      en.active[i]? = some a → fa[i]? = some f → f.isCompleted →
      ∃ tr, route g a.node f.goto st = .ok tr) : GoesThrough (superStep g rt (some th) l) := by
  refine goesThrough_of_view hw hh hl fun e => ?_
  have hfl : p.run.failure = none := by
    rw [hF, ofFates_failure, findSome?_eq_none_iff]
    intro x hx
    rw [ho x.1 (mem_of_getElem? (mem_zipIdx_iff_getElem?.mp hx))]
    rfl
  rw [superStep_settled hh hw hr hl, settle, pauseBoundary, hfl]
  dsimp only
  split_ifs with hint
  · rw [hF, List.isEmpty_iff, ofFates_interrupts, List.filterMap_eq_nil_iff] at hint
    have hn : ∀ f ∈ fa, f.interrupt = none := by
      intro f hf
      obtain ⟨i, hi⟩ := mem_iff_getElem?.mp hf
      simpa using hint (f, i) (mem_zipIdx_iff_getElem?.mpr hi)
    -- nothing failed, paused or was left out
    have hal : ∀ f ∈ fa, f.isCompleted := by
      intro f hf
      cases f with
      | completed u goto => rfl
      | interrupted i => cases hn _ hf
      | failed e => cases ho _ hf
      | unstarted =>
        obtain ⟨f', hf', hi⟩ := ht hf
        rw [hn f' hf'] at hi
        cases hi
    obtain ⟨x, hx⟩ : ∃ x, routeCompleted g en.active p.run.gotoMap st en.barriers = .ok x := by
      refine routeCompleted_total en.barriers fun k a ha => ?_
      have hk : k < fa.length := by
        rw [he]
        exact (List.getElem?_eq_some_iff.mp ha).1
      have hf := getElem?_eq_getElem hk
      rw [hF, ofFates_gotoMap, hf, bind_some]
      exact hR k a _ ha hf (hal _ (getElem_mem hk))
    rw [hx]
    intro h
    cases h
  · obtain ⟨h1, h2, h3⟩ := partitionCompleted_spec (StepRun.ofFates fa).gotoMap (completed_lt he)
    obtain ⟨x, hx⟩ : ∃ x, routeCompleted g
        (partitionCompleted en.active p.run.gotoMap p.run.completed).1
        (partitionCompleted en.active p.run.gotoMap p.run.completed).2 st en.barriers = .ok x := by
      refine routeCompleted_total en.barriers fun k a ha => ?_
      rw [hF, h1, activationsAt_getElem? (completed_lt he)] at ha
      obtain ⟨i, hi, ha⟩ := bind_eq_some_iff.mp ha
      obtain ⟨f, hf, hc⟩ := mem_completed.mp (mem_of_getElem? hi)
      rw [hF, h3, hi, bind_some, ofFates_gotoMap, hf, bind_some]
      exact hR i a f ha hf hc
    simp only [interruptBoundary, hx]
    intro h
    cases h

theorem superStep_stuck (hr : Ran g rt ti l en p st)
    (hF : p.run = StepRun.ofFates fa) (hl : ∀ f ∈ fa, f.isCompleted) {i : Nat}
    {f} (ha : en.active[i]? = some a) (hf : fa[i]? = some f)
    (he : route g a.node f.goto st = .error e) :
    ∃ r e, superStep g rt ti l = .done r ∧ r.result = .error e := by
  have hfl : p.run.failure = none := by
    rw [hF, ofFates_failure, findSome?_eq_none_iff]
    intro x hx
    have hc := hl x.1 (mem_of_getElem? (mem_zipIdx_iff_getElem?.mp hx))
    cases hx1 : x.1 with
    | completed u go => rfl
    | _ => rw [hx1] at hc; cases hc
  have hi : p.run.interrupts = [] := by
    rw [hF, ofFates_interrupts, List.filterMap_eq_nil_iff]
    intro x hx
    have hc := hl x.1 (mem_of_getElem? (mem_zipIdx_iff_getElem?.mp hx))
    cases hx1 : x.1 with
    | completed u go => rfl
    | _ => rw [hx1] at hc; cases hc
  have ho : route g a.node (p.run.gotoMap.lookup (0 + i)) st = .error e := by
    rw [zero_add, hF, ofFates_gotoMap, hf, bind_some]
    exact he
  obtain ⟨e', hx⟩ := routeActivations_fails 0 { barriers := en.barriers } ha ho
  simp only [superStep, hr.enter, hr.run, hr.fold, hfl, hi]
  simp only [loopBoundary, routeCompleted, routePass, hx]
  exact ⟨_, _, rfl, rfl⟩

/-! ## Runs -/

theorem superStep_at_limit (h : stepLimit g ≤ l.steps) :
    superStep g rt ti l = .done (l.abort (.recursionLimit (stepLimit g))) := by
  simp only [superStep, enterStep, if_pos h]

theorem superStep_steps (h : superStep g rt ti l = .next m) : m.steps = l.steps + 1 := by
  obtain ⟨en, p, st, hr, -, -, hb⟩ := superStep_next h
  obtain ⟨nx, barriers, writes, d, id, -, -, -, rfl⟩ := loopBoundary_next hb
  obtain ⟨vi, rfl, -⟩ := enterStep_ok hr.enter
  rfl

theorem runLoop_goesThrough (hc : l.Clean) (hb : stepLimit g ≤ bu + l.steps)
    (h : ∀ m ∈ l :: boundaries g rt (some th) bu l, m.active ≠ [] →
      m.Clean → GoesThrough (superStep g rt (some th) m)) :
    ∃ execution, (runLoop g rt (some th) bu l).result = .ok execution := by
  induction bu generalizing l with
  | zero =>
    rw [runLoop]
    split_ifs with ha
    · exact ⟨_, rfl⟩
    · have ht := h l mem_cons_self ha hc
      rw [superStep_at_limit (by omega)] at ht
      obtain ⟨_, he⟩ := ht
      cases he
  | succ bu ih =>
    rw [runLoop]
    split_ifs with ha
    · exact ⟨_, rfl⟩
    · have ht := h l mem_cons_self ha hc
      cases hs : superStep g rt (some th) l with
      | done r =>
        rw [hs] at ht
        exact ht
      | next m =>
        rw [hs] at ht
        refine ih ht (by rw [superStep_steps hs]; omega) fun x hx => h x ?_
        rw [boundaries, if_neg ha, hs]
        exact mem_cons_of_mem _ hx

theorem superStep_known (h : superStep g rt ti l = .next m) : ∀ a ∈ m.active, a.node ∈ g.nodes := by
  obtain ⟨en, p, st, -, -, -, hb⟩ := superStep_next h
  obtain ⟨nx, barriers, writes, d, id, hr, -, -, rfl⟩ := loopBoundary_next hb
  exact routeCompleted_known hr

theorem boundaries_known (h : ∀ a ∈ l.active, a.node ∈ g.nodes) :
    ∀ m ∈ l :: boundaries g rt ti bu l, ∀ a ∈ m.active, a.node ∈ g.nodes :=
  forall_mem_cons.mpr ⟨h, boundaries_ind (P := fun m => ∀ a ∈ m.active, a.node ∈ g.nodes)
    (fun _ _ _ hs => superStep_known hs) h⟩

/-!
## What ends a run at its limit

Only the check at the start of a super-step reports the recursion limit.
-/

def GraphError.isRecursionLimit : GraphError → Bool
  | .recursionLimit _ => true
  | _ => false

variable {l : Loop S V} {nd : NodeId}

theorem enterStep_recursionLimit (h : enterStep g rt l = .error e) (he : e.isRecursionLimit) :
    stepLimit g ≤ l.steps := by
  by_contra hl
  simp only [enterStep, if_neg hl] at h
  have hi : ∀ (active : List (Activation V)) (counts : HashMap NodeId Nat),
      recordNodeVisits g.recursionPolicy counts active = .error e → e.isRecursionLimit = false := by
    intro active
    induction active with
    | nil => intro counts hv; cases hv
    | cons a rest ih =>
      intro counts hv
      simp only [recordNodeVisits] at hv
      split at hv
      · rename_i e' he'
        cases hv
        unfold recordNodeVisit at he'
        split at he'
        · cases he'
        · dsimp only at he'
          split_ifs at he'
          cases he'
          rfl
      · exact ih _ hv
  split at h
  · cases h
    cases he
  · split at h
    · rename_i hv
      cases h
      rw [hi _ _ hv] at he
      cases he
    · cases h

theorem validateRouteTargets_error {ta}
    (h : validateRouteTargets g nd ta = .error e) : e.isRecursionLimit = false := by
  induction ta with
  | nil => cases h
  | cons t ts ih =>
    simp only [validateRouteTargets] at h
    split_ifs at h
    · exact ih h
    · cases h
      rfl
    · exact ih h
    · cases h
      rfl

theorem route_error {goto} (h : route g nd goto st = .error e) : e.isRecursionLimit = false := by
  unfold route at h
  split at h
  · rename_i targets
    cases hv : validateRouteTargets g nd targets with
    | ok u =>
      rw [hv] at h
      cases h
    | error e' =>
      rw [hv] at h
      cases h
      exact validateRouteTargets_error hv
  · split at h
    · cases h
    · split at h
      · dsimp only at h
        split at h
        · cases h
        · cases h
          rfl
      · cases h

theorem routeActivations_error {ix ac r}
    (h : routeActivations g gm st ix ac r = .error e) : e.isRecursionLimit = false := by
  induction ac generalizing ix r with
  | nil => cases h
  | cons a rest ih =>
    simp only [routeActivations] at h
    split at h
    · rename_i hr
      cases h
      exact route_error hr
    · split at h
      · rename_i he
        cases h
        exact ih he
      · cases h

theorem routeCompleted_error {co ba}
    (h : routeCompleted g co gm st ba = .error e) : e.isRecursionLimit = false := by
  simp only [routeCompleted, routePass] at h
  split at h
  · rename_i hp
    split at hp
    · rename_i hr
      cases hp
      cases h
      exact routeActivations_error hr
    · cases hp
  · cases h

theorem pauseBoundary_error {ac run ba}
    (h : pauseBoundary g ac run st ba = some (.error e)) : e.isRecursionLimit = false := by
  unfold pauseBoundary at h
  split at h
  · simp only [failureBoundary, some.injEq] at h
    split at h
    · next hr =>
      cases h
      exact routeCompleted_error hr
    · cases h
  · split_ifs at h
    simp only [interruptBoundary, some.injEq] at h
    split at h
    · next hr =>
      cases h
      exact routeCompleted_error hr
    · cases h

theorem settle_error {ac run ba} (hF : ∀ f, run.failure = some f → f.error.isRecursionLimit = false)
    (h : settle g ac run st ba = .done (.error e)) : e.isRecursionLimit = false := by
  unfold settle at h
  split at h
  · next hp =>
    cases h
    exact pauseBoundary_error hp
  · split at h
    · next hf =>
      cases h
      exact hF _ hf
    · cases h
  · split at h
    · next hr =>
      cases h
      exact routeCompleted_error hr
    · cases h

/-- Past the check at its start, a super-step whose branches and writes do not report the limit does
not report it. -/
theorem superStep_ran_error {th en p}
    (hl : rt.Reliable) (hh : g.checkpointer = true) (hc : l.Clean)
    (ha : Ran g rt (some th) l en p st)
    (hF : ∀ f, p.run.failure = some f → f.error.isRecursionLimit = false)
    {r} (h : superStep g rt (some th) l = .done r) (he : r.result = .error e) :
    e.isRecursionLimit = false := by
  have hv := superStep_settled hh hl ha hc
  rw [h, StepOutcome.view, he] at hv
  exact settle_error hF hv.symm

end Tinyflows.Graph
