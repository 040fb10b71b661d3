import Tinyflows.Graph.Lemmas.Chain

/-!
# Resuming
-/

namespace Tinyflows.Graph
open Lib List Option Nat

variable {S U V : Type}

/-! ## A run that was cut off -/

/-- Resuming from the checkpoint of a boundary continues like the run that wrote it, if every later
step files its results in order. -/
theorem resume_continues_alike {g : CompiledGraph S U V}
    {f : Handlers S U V} {rt rt' : Runtime S U V} {thread : ThreadId}
    {start l : Loop S V} {rest : List (Loop S V)} {c : Checkpoint S V}
    {store : CheckpointStore S V} {target : ResumeTarget}
    (h : CutOff g f rt rt' thread start l rest c store target)
    (horder : ∀ m ∈ l :: rest, SlotsInOrder g m.active) :
    ContinuesAlike g rt rt' thread start rest c store target := by
  obtain ⟨before, hpasses⟩ := h.passes
  obtain ⟨previous, left, hstep, hrest, hrun, hbudget, -⟩ := boundaries_split hpasses
  have hclean : l.Clean :=
    boundaries_clean h.checkpointer h.reliable.1 (by rw [Loop.Clean, h.starting.2]; rfl) l
      (by rw [hpasses]; exact mem_append_right _ mem_cons_self)
  have hbehind : Behind (resumed g thread store c none) l := {
    view := resumed_view h.checkpointer h.sync h.reliable.1 hstep h.unfinished h.wrote store
    steps := zero_le _
    visits := fun node => zero_le _
    clean := ⟨rfl, hclean⟩ }
  have hpending : pendingOf c ≠ [] := by
    rw [(superStep_wrote h.checkpointer h.sync h.reliable.1 hstep h.unfinished h.wrote).2.1]
    exact h.unfinished
  rw [h.starting.1, zero_add] at hbudget
  subst hrest
  obtain ⟨hviews, hresult⟩ := hbehind.run h.handlers.1 h.handlers.2 h.reliable.1 h.reliable.2
    h.checkpointer h.deadline hbudget.symm (le.intro ((add_comm _ _).trans hbudget.symm))
    h.limits horder
  have hdepth : ¬ g.recursionPolicy.maxDepth < g.recursionFrames + 1 := not_lt.mpr h.depth
  refine ⟨hviews, ?_⟩
  simp only [resumeFrom, h.checkpointer, h.found, if_neg hpending, executeRun, if_neg hdepth, hrun]
  exact hresult

/-- Sends four packets to one node and collects what the packets carry. -/
def scatter (bound : Nat) : CompiledGraph (List Nat) Nat Nat where
  entry := "split"
  nodes := {"split", "work"}
  reducer state update := .ok (state ++ [update])
  recursionLimit := 4
  parallel := true
  maxConcurrency := some bound

def scatterHandlers : Handlers (List Nat) Nat Nat := fun node _ arg =>
  if node = "split" then .ok (.command { goto := (List.range 4).map fun i => .send "work" i })
  else .ok (.update (arg.getD 0))

/-- The futures of the first run finish from the first on, those of the resumed one from the last. -/
def firstRuntime : Runtime (List Nat) Nat Nat := .plain scatterHandlers Admission.firstReady

def laterRuntime : Runtime (List Nat) Nat Nat := .plain scatterHandlers Admission.lastReady

def scatterStart : Loop (List Nat) Nat := freshLoop {} [] [{ node := "split" }]

def scatterRun (bound : Nat) : List (Loop (List Nat) Nat) :=
  boundaries (scatter bound) firstRuntime (some "t") 4 scatterStart

theorem scatter_cutOff {bound l rest c} (hr : scatterRun bound = l :: rest)
    (hc : l.persistence.store.get "t" none = some c)
    (ha : (scatterRun bound).head?.map (fun l => decide (l.active = [])) = some false)
    (hf : (scatterRun bound).head?.map (fun l => decide (l.persistence.store.getScoped "t" none [] =
      l.persistence.store.get "t" none)) = some true) (hl : (scatterRun bound).all fun m =>
      (enterStep (scatter bound) firstRuntime m).toOption.isSome) :
    CutOff (scatter bound) scatterHandlers firstRuntime laterRuntime "t" scatterStart l rest c
      l.persistence.store .latest := by
  rw [hr] at ha hf hl
  simp only [head?_cons, map_some, some.injEq, decide_eq_false_iff_not,
    decide_eq_true_eq] at ha hf
  exact {
    handlers := ⟨Runtime.plain_follows _ _, Runtime.plain_follows _ _⟩
    reliable := ⟨Runtime.plain_reliable _ _, Runtime.plain_reliable _ _⟩
    checkpointer := rfl
    sync := rfl
    starting := ⟨rfl, rfl⟩
    passes := ⟨[], hr⟩
    unfinished := ha
    wrote := hc
    depth := show 0 + 1 ≤ 25 by decide
    limits := fun m hm _ => by
      have hm' := all_eq_true.mp hl m hm
      cases he : enterStep (scatter bound) firstRuntime m with
      | error e => rw [he] at hm'; cases hm'
      | ok entered => exact ⟨entered, rfl⟩
    deadline := fun _ => rfl
    found := hf.trans hc }

theorem scatter_continues_alike : ∃ l rest c,
    CutOff (scatter 2) scatterHandlers firstRuntime laterRuntime "t" scatterStart l rest c
      l.persistence.store .latest ∧
    ContinuesAlike (scatter 2) firstRuntime laterRuntime "t" scatterStart rest c
      l.persistence.store .latest := by
  obtain ⟨l, rest, hrun⟩ : ∃ l rest, scatterRun 2 = l :: rest := ⟨_, _, rfl⟩
  obtain ⟨c, hc⟩ : ∃ c, l.persistence.store.get "t" none = some c := by
    have hsome : (scatterRun 2).head?.map (fun l => (l.persistence.store.get "t" none).isSome) =
      some true := by decide
    rw [hrun] at hsome
    exact isSome_iff_exists.mp (some.inj hsome)
  have hcut := scatter_cutOff hrun hc (by decide) (by decide) (by decide)
  refine ⟨l, rest, c, hcut, resume_continues_alike hcut fun m _ _ => ?_⟩
  exact min_le_left _ _

/-- Under a bound of three, the resumed run collects the packets in another order. -/
theorem scatter_continues_differently : ∃ l rest c,
    CutOff (scatter 3) scatterHandlers firstRuntime laterRuntime "t" scatterStart l rest c
      l.persistence.store .latest ∧
    ¬ ContinuesAlike (scatter 3) firstRuntime laterRuntime "t" scatterStart rest c
      l.persistence.store .latest := by
  obtain ⟨l, rest, hrun⟩ : ∃ l rest, scatterRun 3 = l :: rest := ⟨_, _, rfl⟩
  obtain ⟨c, hc⟩ : ∃ c, l.persistence.store.get "t" none = some c := by
    have hsome : (scatterRun 3).head?.map (fun l => (l.persistence.store.get "t" none).isSome) =
      some true := by decide
    rw [hrun] at hsome
    exact isSome_iff_exists.mp (some.inj hsome)
  refine ⟨l, rest, c, scatter_cutOff hrun hc (by decide) (by decide) (by decide), ?_⟩
  rintro ⟨-, hresult⟩
  have hfirst : (executeRun (scatter 3) firstRuntime (some "t") scatterStart).result.map (·.state) =
    .ok [0, 2, 3, 1] := by decide
  have hlater : (scatterRun 3).head?.map (fun l => (resumeFrom (scatter 3) laterRuntime
    l.persistence.store "t" .latest none).result.map (·.state)) = some (.ok [0, 1, 2, 3]) := by decide
  rw [hrun, head?_cons, map_some, hresult, hfirst] at hlater
  exact absurd hlater (by decide)

/-! ## Completion markers -/

/-- In a chain of runs that never mints a task id still in use, no pending activation has a completion
marker, and a resume skips nothing. -/
theorem chain_separates {g : CompiledGraph S U V} {thread : ThreadId}
    {store : CheckpointStore S V} (h : Chain g thread (NoIdReused g thread) store) :
    ∀ c ∈ store.getThread thread, Separated c ∧
      resumeActive c (store.getWrites
        { threadId := thread, checkpointId := some c.checkpointId, ns := g.ns }) = pendingOf c :=
  fun c hc => ⟨h.sound.separated c hc, h.sound.resumeActive hc⟩

/-- `ask` pauses when it is given a question and passes on to `log` otherwise. -/
def askGraph : CompiledGraph Unit Unit Nat where
  entry := "plan"
  nodes := {"plan", "note", "ask", "log"}
  reducer _ _ := .ok ()
  recursionLimit := 4

def askHandlers : Handlers Unit Unit Nat := fun node _ arg =>
  if node = "plan" then .ok (.command { goto := [.node "note", .node "ask"] })
  else if node = "ask" then
    match arg with
    | some question => .ok (.interrupt { id := "i", node := "ask", payload := question })
    | none => .ok (.command { goto := [.node "log"] })
  else .ok (.command {})

def checkpointLabel (n minted : Nat) : CheckpointId := s!"{n}:{minted}"

theorem checkpointLabel_inj {n m i j} (h : checkpointLabel n i = checkpointLabel m j) :
    n = m ∧ i = j := by
  have hl : (toString n).toList ++ ':' :: (toString i).toList =
      (toString m).toList ++ ':' :: (toString j).toList := by
    have hl := congrArg String.toList h
    simp only [checkpointLabel, String.toList_append, append_assoc] at hl
    exact hl
  obtain ⟨hn, hi⟩ := append_cons_inj (colon_not_mem_toString _) (colon_not_mem_toString _) hl
  exact ⟨toString_nat_injective hn, toString_nat_injective hi⟩

def askRuntime (n : Nat) : Runtime Unit Unit Nat :=
  { Runtime.plain askHandlers Admission.firstReady with checkpointId := checkpointLabel n }

theorem askRuntime_mintsFresh {n store}
    (h : ∀ c ∈ store.getThread "t", ∃ m < n, ∃ i, c.checkpointId = checkpointLabel m i) :
    (askRuntime n).MintsFresh "t" store := by
  refine ⟨fun i j hi => (checkpointLabel_inj hi).2, fun i c hc hd => ?_⟩
  obtain ⟨m, hm, j, hj⟩ := h c hc
  exact Nat.ne_of_lt hm (checkpointLabel_inj (hj.symm.trans hd)).1

/-- The store after a run that pauses at a question, and after a resume that pauses there again. -/
def askedOnce (inputs : List (GraphInput Nat)) : CheckpointStore Unit Nat :=
  ((Operation.runWithInputs () inputs).perform askGraph (askRuntime 1) {} "t").store

def askedTwice (inputs : List (GraphInput Nat)) : CheckpointStore Unit Nat :=
  ((Operation.resume .latest none).perform askGraph (askRuntime 2) (askedOnce inputs) "t").store

theorem askedTwice_chain {allowed inputs}
    (hi : ∀ c ∈ (askedOnce inputs).getThread "t", c.checkpointId = checkpointLabel 1 0)
    (hr : allowed {} (.runWithInputs () inputs)) (he : allowed (askedOnce inputs) (.resume .latest none)) :
    Chain askGraph "t" allowed (askedTwice inputs) :=
  .step (askRuntime 2) _ (.step (askRuntime 1) _ .start
    (askRuntime_mintsFresh fun _ hc => absurd hc not_mem_nil) hr)
    (askRuntime_mintsFresh fun c hc => ⟨1, by decide, 0, hi c hc⟩) he

/-- With nothing scheduled beside the paused question, the resume mints no id at all. -/
theorem askedTwice_separated :
    Chain askGraph "t" (NoIdReused askGraph "t") (askedTwice [⟨"ask", some 7⟩]) ∧
    ∀ c ∈ (askedTwice [⟨"ask", some 7⟩]).getThread "t", Separated c := by
  have hpending : ((askedOnce [⟨"ask", some 7⟩]).getScoped "t" none []).map pendingOf =
      some [{ node := "ask", sendArg := some 7, taskId := "1:0:ask" }] := by decide
  have hchain : Chain askGraph "t" (NoIdReused askGraph "t") (askedTwice [⟨"ask", some 7⟩]) := by
    refine askedTwice_chain (by decide) trivial fun c hc i a ha hempty => ?_
    rw [show (askedOnce [⟨"ask", some 7⟩]).getScoped "t" none [] = some c from hc, map_some,
      some.injEq] at hpending
    rw [hpending] at ha
    rw [mem_singleton.mp (mem_of_getElem? ha)] at hempty
    exact absurd hempty (by decide)
  exact ⟨hchain, fun c hc => (chain_separates hchain c hc).1⟩

/-- The resume mints `1:1:ask` for a successor while the paused question still carries it; once the
successor has completed, the next resume skips the question. -/
theorem askedTwice_skips :
    Chain askGraph "t" (fun _ _ => True) (askedTwice [⟨"plan", none⟩, ⟨"ask", some 7⟩]) ∧
    ∃ c ∈ (askedTwice [⟨"plan", none⟩, ⟨"ask", some 7⟩]).getThread "t", ¬ Separated c ∧
      (pendingOf c).map (·.node) = ["log", "ask"] ∧
      (resumeActive c ((askedTwice [⟨"plan", none⟩, ⟨"ask", some 7⟩]).getWrites
        { threadId := "t", checkpointId := some c.checkpointId, ns := [] })).map (·.node) = ["log"] := by
  refine ⟨askedTwice_chain (by decide) trivial trivial, ?_⟩
  have hlast : ((askedTwice [⟨"plan", none⟩, ⟨"ask", some 7⟩]).getThread "t").any fun c =>
      decide (c.pendingWrites.any (·.taskId ∈ pendingIds c) ∧
      (pendingOf c).map (·.node) = ["log", "ask"] ∧
      (resumeActive c ((askedTwice [⟨"plan", none⟩, ⟨"ask", some 7⟩]).getWrites
        { threadId := "t", checkpointId := some c.checkpointId, ns := [] })).map (·.node) = ["log"]) := by
    decide
  obtain ⟨c, hc, hfacts⟩ := any_eq_true.mp hlast
  obtain ⟨hmarked, hrest⟩ := of_decide_eq_true hfacts
  obtain ⟨w, hw, hmem⟩ := any_eq_true.mp hmarked
  exact ⟨c, hc, fun hsep => hsep w hw (of_decide_eq_true hmem), hrest⟩

end Tinyflows.Graph
