import Tinyflows.Graph.Lemmas.View
import Tinyflows.Graph.Resume

/-!
# Two runs from one view
-/

namespace Tinyflows.Graph
open Lib List

variable {S U V : Type} {g : CompiledGraph S U V}
  {rt rt' : Runtime S U V} {f : Handlers S U V} {th : ThreadId}

def VisitsLE (counts' counts : HashMap NodeId Nat) : Prop :=
  ∀ node, (counts'.lookup node).getD 0 ≤ (counts.lookup node).getD 0

variable {co co' co₁ : HashMap NodeId Nat} {po : RecursionPolicy}
  {ac : List (Activation V)} {l l' en m sr pr : Loop S V}
  {ti : Option ThreadId} {bu : Nat} {c : Checkpoint S V}

theorem recordNodeVisit_mono {nd} (hl : VisitsLE co' co) (h : recordNodeVisit po co nd = .ok co₁) :
    ∃ co₁', recordNodeVisit po co' nd = .ok co₁' ∧ VisitsLE co₁' co₁ := by
  unfold recordNodeVisit at h ⊢
  cases hi : po.maxVisitsPerNode with
  | none =>
    rw [hi] at h
    cases h
    exact ⟨co', rfl, hl⟩
  | some li =>
    simp only [hi] at h
    split_ifs at h with hc
    cases h
    have ho := hl nd
    refine ⟨_, if_neg (by omega), fun n => ?_⟩
    by_cases hn : n = nd
    · subst hn; simpa using ho
    · rw [Finmap.lookup_insert_of_ne _ hn, Finmap.lookup_insert_of_ne _ hn]
      exact hl n

theorem recordNodeVisits_mono {ac' : List (Activation V)}
    (hn : activationNodes ac' = activationNodes ac) (hl : VisitsLE co' co)
    (h : recordNodeVisits po co ac = .ok co₁) :
    ∃ co₁', recordNodeVisits po co' ac' = .ok co₁' ∧ VisitsLE co₁' co₁ := by
  induction ac generalizing co co' ac' with
  | nil =>
    cases ac' with
    | cons b rest => cases hn
    | nil => cases h; exact ⟨co', rfl, hl⟩
  | cons a rest ih =>
    cases ac' with
    | nil => cases hn
    | cons b rest' =>
      obtain ⟨ha, hr⟩ : b.node = a.node ∧ activationNodes rest' = activationNodes rest :=
        List.cons.inj hn
      simp only [recordNodeVisits] at h
      split at h
      · cases h
      · rename_i co₂ hv
        obtain ⟨co₂', hv', hl'⟩ := recordNodeVisit_mono hl hv
        obtain ⟨co₁', hs, hl₁⟩ := ih hr hl' h
        exact ⟨co₁', by simp only [recordNodeVisits, ha, hv', hs], hl₁⟩

/-! ## Side by side -/

/-- `l'` shows the same view as `l` and has used up no more of any limit. -/
structure Behind (l' l : Loop S V) : Prop where
  view : l'.view = l.view
  steps : l'.steps ≤ l.steps
  visits : VisitsLE l'.nodeVisits l.nodeVisits
  clean : l'.Clean ∧ l.Clean

theorem Behind.nodes (h : Behind l' l) : activationNodes l'.active = activationNodes l.active :=
  nodes_of_jobs (congrArg View.jobs h.view)

theorem Behind.enter (h : Behind l' l)
    (hdeadline : ∀ step, g.runDeadline.filter (· ≤ rt'.elapsed step) = none)
    (he : enterStep g rt l = .ok en) : ∃ en', enterStep g rt' l' = .ok en' ∧
      VisitsLE en'.nodeVisits en.nodeVisits := by
  obtain ⟨visits, rfl, hs, -, hv⟩ := enterStep_ok he
  obtain ⟨visits', hv', hl⟩ := recordNodeVisits_mono h.nodes h.visits hv
  have hi : ¬ stepLimit g ≤ l'.steps := by have := h.steps; omega
  refine ⟨{ l' with
    nodeVisits := visits', steps := l'.steps + 1, active := assignTaskIds (l'.steps + 1) l'.active },
    ?_, hl⟩
  simp only [enterStep, if_neg hi, hdeadline, hv']

theorem superStep_counters (he : enterStep g rt l = .ok en) (h : superStep g rt ti l = .next m) :
    m.steps = l.steps + 1 ∧ m.nodeVisits = en.nodeVisits := by
  obtain ⟨en', p, state, hr, -, -, hb⟩ := superStep_next h
  obtain rfl : en' = en := Except.ok.inj (hr.enter.symm.trans he)
  obtain ⟨nx, barriers, writes, d, id, -, -, -, rfl⟩ := loopBoundary_next hb
  obtain ⟨vi, rfl, -⟩ := enterStep_ok he
  exact ⟨rfl, rfl⟩

theorem Behind.idle_iff (h : Behind l' l) : l'.active = [] ↔ l.active = [] := by
  have hn := h.nodes
  unfold activationNodes at hn
  rw [← map_eq_nil_iff, hn, map_eq_nil_iff]

theorem boundaries_idle (h : l.active = []) : boundaries g rt ti bu l = [] := by
  cases bu with
  | zero => rfl
  | succ n => rw [boundaries, if_pos h]

theorem runLoop_idle (h : l.active = []) : runLoop g rt ti bu l = finishCompleted rt l := by
  cases bu <;> rw [runLoop, if_pos h]

section Alike

variable (hf : rt.Follows f) (hf' : rt'.Follows f) (hrel : rt.Reliable) (hrel' : rt'.Reliable)
  (hck : g.checkpointer = true)
  (hdeadline : ∀ step, g.runDeadline.filter (· ≤ rt'.elapsed step) = none)
include hf hf' hrel hrel' hck hdeadline

variable {l l' : Loop S V}

theorem Behind.step (th) {en} (h : Behind l' l)
    (ho : SlotsInOrder g l.active) (he : enterStep g rt l = .ok en) :
    (superStep g rt' (some th) l').view = (superStep g rt (some th) l).view ∧
    ∀ m' m, superStep g rt' (some th) l' = .next m' → superStep g rt (some th) l = .next m →
      Behind m' m := by
  obtain ⟨en', he', hV⟩ := h.enter hdeadline he
  have hv : (superStep g rt' (some th) l').view = (superStep g rt (some th) l).view := by
    rw [superStep_view hck hrel ho he h.clean.2,
      superStep_view hck hrel' (ho.congr h.nodes.symm) he' h.clean.1,
      branchFates_follows hf, branchFates_follows hf', h.view]
    obtain ⟨_, rfl, -⟩ := enterStep_ok he
    obtain ⟨_, rfl, -⟩ := enterStep_ok he'
    have hj : l'.active.map Activation.job = l.active.map Activation.job :=
      congrArg View.jobs h.view
    have ht : l'.state = l.state := congrArg View.state h.view
    simp only [assignTaskIds_jobs, hj, ht]
  refine ⟨hv, fun m' m hm' hm => ?_⟩
  obtain ⟨hs, hc⟩ := superStep_counters he hm
  obtain ⟨hs', hc'⟩ := superStep_counters he' hm'
  rw [hm, hm'] at hv
  exact {
    view := View.Outcome.next.inj hv
    steps := by rw [hs, hs']; exact Nat.succ_le_succ h.steps
    visits := by rw [hc, hc']; exact hV
    clean := ⟨superStep_clean hck hrel' h.clean.1 hm', superStep_clean hck hrel h.clean.2 hm⟩ }

theorem Behind.run {bu bu'} (h : Behind l' l) (hb : l.steps + bu = stepLimit g) (hL : bu ≤ bu')
    (hl : ∀ m ∈ l :: boundaries g rt (some th) bu l, m.active ≠ [] →
      ∃ en, enterStep g rt m = .ok en)
    (ho : ∀ m ∈ l :: boundaries g rt (some th) bu l, SlotsInOrder g m.active) :
    (boundaries g rt' (some th) bu' l').map Loop.view =
      (boundaries g rt (some th) bu l).map Loop.view ∧
    (runLoop g rt' (some th) bu' l').result.map (·.state) =
      (runLoop g rt (some th) bu l).result.map (·.state) := by
  induction bu generalizing bu' l' l with
  | zero =>
    by_cases ha : l.active = []
    · rw [boundaries_idle ha, runLoop_idle ha, boundaries_idle (h.idle_iff.mpr ha),
        runLoop_idle (h.idle_iff.mpr ha)]
      exact ⟨rfl, congrArg Except.ok (congrArg View.state h.view)⟩
    · obtain ⟨en, he⟩ := hl l mem_cons_self ha
      obtain ⟨_, -, hs, -⟩ := enterStep_ok he
      omega
  | succ bu ih =>
    by_cases ha : l.active = []
    · rw [boundaries_idle ha, runLoop_idle ha, boundaries_idle (h.idle_iff.mpr ha),
        runLoop_idle (h.idle_iff.mpr ha)]
      exact ⟨rfl, congrArg Except.ok (congrArg View.state h.view)⟩
    · obtain ⟨bu', rfl⟩ : ∃ n, bu' = n + 1 := ⟨bu' - 1, by omega⟩
      have ha' : l'.active ≠ [] := fun hi => ha (h.idle_iff.mp hi)
      obtain ⟨en, he⟩ := hl l mem_cons_self ha
      obtain ⟨hv, hn⟩ := h.step hf hf' hrel hrel' hck hdeadline th (ho l mem_cons_self) he
      simp only [boundaries, runLoop, if_neg ha, if_neg ha'] at hl ho ⊢
      cases hm : superStep g rt (some th) l with
      | done r =>
        rw [hm] at hv
        cases hm' : superStep g rt' (some th) l' with
        | next m' => rw [hm'] at hv; cases hv
        | done r' =>
          rw [hm'] at hv
          exact ⟨rfl, View.Outcome.done.inj hv⟩
      | next m =>
        rw [hm] at hv hl ho
        cases hm' : superStep g rt' (some th) l' with
        | done r' => rw [hm'] at hv; cases hv
        | next m' =>
          obtain ⟨hs, -⟩ := superStep_counters he hm
          obtain ⟨hw, hr⟩ := ih (hn m' m hm' hm) (by omega) (Nat.le_of_succ_le_succ hL)
            (fun x hx => hl x (mem_cons_of_mem _ hx))
            (fun x hx => ho x (mem_cons_of_mem _ hx))
          refine ⟨?_, hr⟩
          simp only [map_cons, hw, (hn m' m hm' hm).view]

end Alike

/-! ## The checkpoint of a boundary -/

theorem boundaries_split {be re} (h : boundaries g rt ti bu sr = be ++ l :: re) :
    ∃ pr left, superStep g rt ti pr = .next l ∧ re = boundaries g rt ti left l ∧
      runLoop g rt ti bu sr = runLoop g rt ti left l ∧
      sr.steps + bu = l.steps + left ∧ (pr = sr ∨ pr ∈ be) := by
  induction bu generalizing sr be with
  | zero => cases be <;> cases h
  | succ bu ih =>
    simp only [boundaries] at h
    split at h
    · cases be <;> cases h
    · rename_i ha
      split at h
      · cases be <;> cases h
      · rename_i m hm
        obtain ⟨en, p, state, hn, -⟩ := superStep_next hm
        obtain ⟨hs, -⟩ := superStep_counters hn.enter hm
        have hr : runLoop g rt ti (bu + 1) sr = runLoop g rt ti bu m := by
          simp only [runLoop, if_neg ha, hm]
        cases be with
        | nil =>
          obtain ⟨rfl, rfl⟩ := List.cons.inj h
          exact ⟨sr, bu, hm, rfl, hr, by omega, .inl rfl⟩
        | cons b be =>
          obtain ⟨rfl, ht⟩ := List.cons.inj h
          obtain ⟨pr, left, h1, h2, h3, h4, h5⟩ := ih ht
          refine ⟨pr, left, h1, h2, hr.trans h3, by omega, .inr ?_⟩
          rcases h5 with rfl | h5
          · exact mem_cons_self
          · exact mem_cons_of_mem _ h5

theorem boundaries_clean (hck : g.checkpointer = true) (hrel : rt.Reliable)
    (hc : sr.Clean) :
    ∀ l ∈ boundaries g rt (some th) bu sr, l.Clean := by
  induction bu generalizing sr with
  | zero => exact fun l hl => by cases hl
  | succ bu ih =>
    simp only [boundaries]
    split
    · exact fun l hl => by cases hl
    · split
      · exact fun l hl => by cases hl
      · rename_i m hm
        have hm' := superStep_clean hck hrel hc hm
        intro l hl
        rcases mem_cons.mp hl with rfl | hl
        · exact hm'
        · exact ih hm' l hl

theorem superStep_wrote (hck : g.checkpointer = true) (hs : g.durability = .sync) (hrel : rt.Reliable)
    (h : superStep g rt (some th) pr = .next l) (ha : l.active ≠ [])
    (hc : l.persistence.store.get th none = some c) :
    c.state = l.state ∧ pendingOf c = l.active ∧ c.barrierArrivals =
      barriersToPersisted rt.iterOrder l.barriers ∧ ∀ a ∈ l.active, a.taskId = "" := by
  obtain ⟨en, p, state, hn, -, -, hb⟩ := superStep_next h
  obtain ⟨nx, barriers, writes, d, id, hr, -, hd, rfl⟩ := loopBoundary_next hb
  simp only [persistBoundary, if_neg ha, hs, persistCheckpoint_reliable hck hrel, Prod.mk.injEq] at hd
  obtain ⟨rfl, -⟩ := hd
  obtain rfl := Option.some.inj ((get_putWrites_put rfl _ _ _).symm.trans hc)
  exact ⟨rfl, pendingOf_buildCheckpoint _ _ _ _ _ ha, rfl, routeCompleted_fresh hr⟩

theorem skipDone_self {dn} (h : ∀ a ∈ ac, a.taskId = "" ∨ a.taskId ∉ dn) : skipDone dn ac = ac := by
  have hi : (ac.filter fun a => a.taskId = "" ∨ a.taskId ∉ dn) = ac :=
    filter_eq_self.mpr fun a ha => decide_eq_true (h a ha)
  simp only [skipDone, hi, ite_self]

theorem resumed_view (hck : g.checkpointer = true) (hs : g.durability = .sync) (hrel : rt.Reliable)
    (h : superStep g rt (some th) pr = .next l) (hac : l.active ≠ [])
    (hc : l.persistence.store.get th none = some c) (st) :
    (resumed g th st c none).view = l.view := by
  obtain ⟨ht, hp, hb, hr⟩ := superStep_wrote hck hs hrel h hac hc
  simp only [resumed, resumeLoop, Loop.view, resumeActive, hp,
    skipDone_self fun a ha => .inl (hr a ha), ht, hb, barriers_roundtrip]

end Tinyflows.Graph
