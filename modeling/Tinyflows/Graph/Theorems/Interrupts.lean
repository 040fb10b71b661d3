import Tinyflows.Graph.Lemmas.Starts

/-!
# Resuming an interrupt
-/

namespace Tinyflows.Graph
open Lib List Activation Nat

variable {S U V : Type} {g : CompiledGraph S U V}
  {rt rt' : Runtime S U V} {th : ThreadId} {l entered : Loop S V}
  {p : Progress U V} {state : S} {c : Checkpoint S V}

theorem jobs_getElem? {active active' : List (Activation V)} (h : active.map job = active'.map job)
    {i : Nat} {a} (ha : active[i]? = some a) :
    ∃ b, active'[i]? = some b ∧ a.node = b.node ∧ a.sendArg = b.sendArg := by
  have hi := congrArg (fun jobs : List (Job V) => jobs[i]?) h
  simp only [getElem?_map, ha, Option.map_some] at hi
  obtain ⟨b, hb, hj⟩ := Option.map_eq_some_iff.mp hi.symm
  exact ⟨b, hb, (congrArg Prod.fst hj).symm, (congrArg Prod.snd hj).symm⟩

section Started

variable {paused rest rest' active : List (Activation V)} {m : ResumeMap V}

theorem paused_known (hs : Interrupted.Shape g c paused rest)
    (hj : active.map job = (successorsOf c ++ (paused ++ rest')).map job)
    {i : Nat} (hi : i < (successorsOf c).length + paused.length) {a : Activation V}
    (ha : active[i]? = some a) : a.node ∈ g.nodes := by
  obtain ⟨b, hb, hn, -⟩ := jobs_getElem? hj ha
  rw [← append_assoc, getElem?_append_left (by simpa using hi)] at hb
  rw [hn]
  rcases mem_append.mp (mem_of_getElem? hb) with hb | hb
  · exact hs.successors b hb
  · exact hs.known b hb

theorem paused_started (rt th) (hh : Interrupted.Shape g c paused rest) (he : ∀ a ∈ rest', a ∈ rest)
    (hj : active.map job = (successorsOf c ++ (paused ++ rest')).map job)
    (hN : ∀ i < (successorsOf c).length, (resumeValues active m)[i]? = some none) :
    (successorsOf c).length + paused.length ≤
        (stepStarts g rt (some th) 1 c.state active m).length ↔
      (g.parallel = false → ∀ i s, (successorsOf c)[i]? = some s →
        (Fate.ofResult (rt.handler s.node i c.state (plainContext rt th s))).isCompleted) := by
  have hl : active.length = (successorsOf c).length + (paused.length + rest'.length) := by
    simpa using congrArg List.length hj
  have hP := length_pos_iff.mpr hh.nonempty
  unfold stepStarts
  cases hp : g.parallel with
  | true =>
    refine iff_of_true ?_ fun h => by cases h
    split
    · have hni : rest' = [] := eq_nil_iff_forall_not_mem.mpr fun a ha => by
        have hm := he a ha
        rw [hh.rest_nil hp] at hm
        cases hm
      rw [hni, length_nil, add_zero] at hl
      rw [if_pos, length_zip, length_range, length_forkedContexts, min_self, hl]
      intro a ha
      obtain ⟨i, hi, rfl⟩ := mem_iff_getElem.mp ha
      exact paused_known hh hj (hl ▸ hi) (getElem?_eq_getElem hi)
    · -- a single activation, which is the paused one
      rename_i ho
      have ht : active.length ≤ 1 := by simpa using ho
      rw [show (successorsOf c).length + paused.length = 0 + 1 by omega, succ_le_iff,
        lt_length_sequentialStarts]
      refine ⟨by omega, fun i hi a ha => ?_, fun i hi => absurd hi (not_lt_zero _)⟩
      exact paused_known hh hj (by omega) ha
  | false =>
    rw [if_neg (by simp), hh.single hp, succ_le_iff, lt_length_sequentialStarts]
    constructor
    · rintro ⟨-, -, hal⟩ - i s hs
      have hi := (List.getElem?_eq_some_iff.mp hs).1
      obtain ⟨a, ha, hn, hg⟩ := jobs_getElem? hj.symm (by rw [getElem?_append_left hi]; exact hs)
      have hd := hal i hi a none ha (hN i hi)
      rw [Completes, sequentialContext, ← hn, ← hg, zero_add] at hd
      exact hd
    · intro hc
      refine ⟨by omega, fun i hi a ha => ?_, fun i hi a r ha hr => ?_⟩
      · exact paused_known hh hj (by omega) ha
      · obtain ⟨s, hs, hn, hg⟩ := jobs_getElem? hj ha
        rw [getElem?_append_left hi] at hs
        rw [hN i hi, Option.some.injEq] at hr
        rw [Completes, sequentialContext, ← hr, hn, hg, zero_add]
        exact hc rfl i s hs

variable {st : CheckpointStore S V} {value : V} {first : Loop S V}

theorem resumed_first (hs : Interrupted.Shape g c paused rest)
    (hu : (∀ a ∈ paused, a.taskId ∉ markedTasks g st th c) ∨
      ∀ a ∈ pendingOf c, a.taskId ≠ "" ∧ a.taskId ∈ markedTasks g st th c)
    (h : enterStep g rt (resumed g th st c (some value)) = .ok first) :
    ∃ rest', (∀ a ∈ rest', a ∈ rest) ∧
      first.active.map job = (successorsOf c ++ (paused ++ rest')).map job ∧
      activationNodes first.active = activationNodes (successorsOf c) ++
        (activationNodes paused ++ activationNodes rest') ∧
      (∀ n, first.resumeMap.lookup n = if n ∈ activationNodes paused then some value else none) ∧
      first.steps = 1 ∧ first.state = c.state := by
  obtain ⟨rest', ha, hr⟩ := skipDone_shape hs hu
  obtain ⟨visited, rfl, -⟩ := enterStep_ok h
  have hj : (assignTaskIds 1 (skipDone (markedTasks g st th c) (pendingOf c))).map
      job = (successorsOf c ++ (paused ++ rest')).map job := by
    rw [assignTaskIds_jobs, ha]
  refine ⟨rest', hr, hj, (nodes_of_jobs hj).trans ?_,
    fun n => resumeMapFor_lookup hs _ value n, rfl, rfl⟩
  simp only [activationNodes, map_append]

theorem first_values {before paused after : List (Activation V)}
    (hn : activationNodes active =
      activationNodes before ++ (activationNodes paused ++ activationNodes after))
    (hm : ∀ n, m.lookup n = if n ∈ activationNodes paused then some value else none)
    (hd : (activationNodes paused).Nodup) (ha : ∀ n ∈ activationNodes before, n ∉ activationNodes paused) :
    resumeValues active m = List.replicate before.length none ++
        (List.replicate paused.length (some value) ++ List.replicate after.length none) ∧
      ∀ i < before.length, (resumeValues active m)[i]? = some none := by
  have hv := resumeValues_paused hn hm hd ha
  simp only [activationNodes, length_map] at hv
  refine ⟨hv, fun i hi => ?_⟩
  rw [hv, getElem?_append_left (by simpa using hi), getElem?_replicate_of_lt hi]

theorem Addressable.addressed (hh : Interrupted.Shape g c paused rest)
    (hc : g.checkpointer = true) (h : Addressable g rt st th c paused value) :
    Addressed g rt st th c paused value := by
  refine ⟨(skipDone_kept hh _).mpr h.unmarked, ?_⟩
  obtain ⟨first, hf⟩ := h.enters
  obtain ⟨rest', hr, hj, ho, ha, ht, hS⟩ := resumed_first hh h.unmarked hf
  obtain ⟨hv, hN⟩ := first_values ho ha h.distinct fun n hn => by
    obtain ⟨s, hs, rfl⟩ := mem_map.mp hn
    exact h.apart s hs
  have hsr := (paused_started rt th hh hr hj hN).mpr h.reached
  have hac : (resumed g th st c (some value)).active ≠ [] := by
    intro hi
    have hk := (skipDone_kept hh (markedTasks g st th c)).mpr h.unmarked
    rw [show skipDone (markedTasks g st th c) (pendingOf c) = [] from hi] at hk
    exact hh.nonempty (by simpa using hk.symm)
  have he : pendingOf c ≠ [] := by
    rw [hh.pending]
    exact fun hi => hh.nonempty (append_eq_nil_iff.mp (append_eq_nil_iff.mp hi).2).1
  obtain ⟨budget, hb⟩ := exists_eq_succ_of_ne_zero
    (ne_of_gt (lt_of_le_of_lt (zero_le _) (enterStep_ok hf).choose_spec.2.1))
  rw [resumeStarts, if_neg (by simp [hc, he, not_lt.mpr h.depth]), hb,
    handed_runStarts hac hf, ht, hS, handed_paused hv hsr]
  -- every key of the map is the node of a branch of this step, so nothing is left for later ones
  have hl : ∀ m, superStep g rt (some th) (resumed g th st c (some value)) = .next m →
      handed (runStarts g rt (some th) budget m) = [] := by
    intro m hm
    refine handed_runStarts_empty ?_
    rw [(superStep_takes hf hm).2]
    refine takeValues_empty fun n hn => ?_
    rw [ha, if_neg]
    rw [ho] at hn
    exact fun hp => hn (mem_append_right _ (mem_append_left _ hp))
  split
  · exact append_nil _
  · rw [hl _ ‹_›, append_nil]

theorem Addressed.addressable (hh : Interrupted.Shape g c paused rest)
    (h : Addressed g rt st th c paused value) : Addressable g rt st th c paused value := by
  have hu := (skipDone_kept hh _).mp h.kept
  have hm : ∀ j < paused.length, (1, (successorsOf c).length + j, value) ∈
      handed (resumeStarts g rt st th c (some value)) := fun j hj => by
    rw [h.reaches]
    exact mem_map_of_mem (mem_range'_1.mpr ⟨le_add_right _ _, by omega⟩)
  have hp := length_pos_iff.mpr hh.nonempty
  simp only [resumeStarts] at hm
  split_ifs at hm with hr
  · cases hm 0 hp
  · obtain ⟨-, -, he⟩ : _ ∧ _ ∧ _ := by simpa only [not_or] using hr
    have hc : (resumed g th st c (some value)).active ≠ [] := fun hi => by
      have ht := hm 0 hp
      rw [handed_runStarts_refused (.inl hi)] at ht
      cases ht
    cases hf : enterStep g rt (resumed g th st c (some value)) with
    | error e =>
      have ht := hm 0 hp
      rw [handed_runStarts_refused (.inr ⟨e, hf⟩)] at ht
      cases ht
    | ok first =>
      obtain ⟨rest', hR, ho, hn, hM, hS, hsta⟩ :=
        resumed_first hh hu hf
      have hv : ∀ j < paused.length,
          (successorsOf c).length + j <
            (stepStarts g rt (some th) 1 c.state first.active first.resumeMap).length ∧
          (resumeValues first.active first.resumeMap)[(successorsOf c).length + j]? =
            some (some value) := by
        intro j hj
        have ht := hm j hj
        obtain ⟨budget, hb⟩ := exists_eq_succ_of_ne_zero
          (ne_of_gt (lt_of_le_of_lt (zero_le _) (enterStep_ok hf).choose_spec.2.1))
        rw [hb, handed_runStarts hc hf, hS, hsta] at ht
        rcases mem_append.mp ht with ht | ht
        · exact (mem_handed_stepStarts.mp ht).2
        · split at ht
          · cases ht
          · have hl := handed_runStarts_steps _ ht
            rw [(superStep_takes hf ‹_›).1, hS] at hl
            exact absurd hl (lt_irrefl _)
      obtain ⟨hd, ha⟩ := paused_of_values hn fun j hj => by
        rw [activationNodes, length_map] at hj ⊢
        exact (hv j hj).2
      have hsr := (hv (paused.length - 1) (by omega)).1
      exact {
        distinct := hd
        apart := fun s hs => ha s.node (mem_map_of_mem hs)
        depth := not_lt.mp he
        enters := ⟨first, hf⟩
        unmarked := hu
        reached := (paused_started rt th hh hR ho (first_values hn hM hd ha).2).mp (by omega) }

end Started

/-- A resume value reaches the activations that interrupted and no others exactly if these are of
different nodes, none of the successors is of one of their nodes, and nothing keeps them from being
started. -/
theorem resume_addressed_iff (h : Interrupted g rt th l entered p state c)
    (rt' : Runtime S U V) (store : CheckpointStore S V) (value : V) :
    Addressed g rt' store th c (pausedActivations entered.active p.run) value ↔
      Addressable g rt' store th c (pausedActivations entered.active p.run) value := by
  obtain ⟨rest, hshape⟩ := h.shape
  have hck : g.checkpointer = true := by
    have hdurable := h.durable
    rw [requireInterruptDurability] at hdurable
    split_ifs at hdurable with hck
    exact Bool.eq_true_of_not_eq_false hck
  exact ⟨fun haddressed => haddressed.addressable hshape, fun h => h.addressed hshape hck⟩

/-- `ask` pauses until it is resumed with an answer. -/
def inquiry : CompiledGraph Unit Unit Nat where
  entry := "ask"
  nodes := {"ask"}
  reducer _ _ := .ok ()
  recursionLimit := 4
  parallel := true

def inquiryRuntime : Runtime Unit Unit Nat :=
  { (Runtime.plain (fun _ _ _ => .ok (.command {})) Admission.firstReady : Runtime Unit Unit Nat) with
    handler := fun _ _ _ ctx => match ctx.resume with
      | none => .ok (.interrupt { id := "i", node := "ask", payload := 0 })
      | some _ => .ok (.command {}) }

def inquiryStart (n : Nat) : Loop Unit Nat :=
  freshLoop {} () ((List.range n).map fun i => { node := "ask", sendArg := some i })

def inquiryStore (n : Nat) : CheckpointStore Unit Nat :=
  (executeRun inquiry inquiryRuntime (some "t") (inquiryStart n)).store

theorem inquiry_answered : ∃ entered p c,
    Interrupted inquiry inquiryRuntime "t" (inquiryStart 1) entered p () c ∧
    (inquiryStore 1).get "t" none = some c ∧
    Addressed inquiry inquiryRuntime (inquiryStore 1) "t" c
      (pausedActivations entered.active p.run) 42 := by
  have hasked : Interrupted inquiry inquiryRuntime "t" (inquiryStart 1) _ _ () _ :=
    ⟨⟨rfl, rfl, rfl⟩, rfl, cons_ne_nil _ _, rfl, _, "0", none, rfl, rfl⟩
  refine ⟨_, _, _, hasked, rfl, (resume_addressed_iff hasked _ _ _).mpr {
    distinct := by decide
    apart := by decide
    depth := by decide
    enters := ⟨_, rfl⟩
    unmarked := .inl (by decide)
    reached := fun h => by cases h }⟩

/-- Of two questions asked at once, only the first is given the answer. -/
theorem inquiry_half_answered : ∃ entered p c,
    Interrupted inquiry inquiryRuntime "t" (inquiryStart 2) entered p () c ∧
    (inquiryStore 2).get "t" none = some c ∧
    handed (resumeStarts inquiry inquiryRuntime (inquiryStore 2) "t" c (some 42)) = [(1, 0, 42)] ∧
    ¬ Addressed inquiry inquiryRuntime (inquiryStore 2) "t" c
      (pausedActivations entered.active p.run) 42 := by
  have hasked : Interrupted inquiry inquiryRuntime "t" (inquiryStart 2) _ _ () _ :=
    ⟨⟨rfl, rfl, rfl⟩, rfl, cons_ne_nil _ _, rfl, _, "0", none, rfl, rfl⟩
  obtain ⟨rest, hshape⟩ := hasked.shape
  refine ⟨_, _, _, hasked, rfl, by decide, fun h => ?_⟩
  exact absurd (h.addressable hshape).distinct (by decide)

end Tinyflows.Graph
