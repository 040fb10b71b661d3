import Tinyflows.Engine.Budget
import Tinyflows.Engine.Lemmas.Pauses

/-!
# Approvals over a chain of resumes
-/

namespace Tinyflows.Engine
open Lib Tinyflows.Graph Model Nodes List

section Resumes

variable {ord : IterOrder NodeId} {w : WorkflowGraph} {g : CompiledGraph Json Json Json} {levels : Nat}
  {th : ThreadId}

variable {before : List String} {rest : List (Surroundings × Decision)} {r : Resumed}
  {store : CheckpointStore Json Json}

theorem mem_resumeAll (h : r ∈ resumeAll g w levels th store before rest) :
    (r.env, r.decision) ∈ rest ∧ r.result =
      resumeFrom g (rootRuntime w levels r.env) r.store th .latest (some r.decision.value) := by
  induction rest generalizing store before with
  | nil => cases h
  | cons x resume ih =>
    rcases mem_cons.mp h with rfl | h
    · exact ⟨mem_cons_self, rfl⟩
    · exact (ih h).imp_left (mem_cons_of_mem _)

theorem resumeFrom_ok {rt value e} (h : (resumeFrom g rt store th .latest value).result = .ok e) :
    ∃ c, store.getScoped th none g.ns = some c ∧
      (executeRun g rt (some th) (resumed g th store c value)).result = .ok e := by
  unfold resumeFrom at h
  split at h
  · cases h
  · split at h
    · cases h
    · rename_i c hc
      split at h
      · cases h
      · exact ⟨c, hc, h⟩

theorem approvedByResume_of_listed {resume} {id : NodeId}
    (h : id ∈ listedIds (resume.bind (·.get "approved"))) : approvedByResume resume id = true := by
  rw [approvedByResume, namesNode_iff.mpr h, Bool.or_true]

theorem Informed.pausedBy {env} (he : env.Orderly) {n} {l : Loop Json Json} {i ctx ap id}
    (hi : Informed env ap (execContext (handlerData w n) l.state ctx))
    (hP : PausedBy (handlerData w n) (rootConducts env levels (l.steps + 1) n.id i) l.state ctx id) :
    id ∉ ap := by
  intro hd
  cases hP with
  | gate hg hq hr hR =>
    obtain rfl : id = n.id := hq
    have ha : ∀ a : Approvals, Told l.state a → n.id ∈ a.ids → False := by
      intro a ht hM
      rw [ht.approvedByRun_iff.mpr hM] at hr
      cases hr
    have ht : Told l.state ⟨listedIds (metaOf "approvals" l.state),
        listedIds ((metaOf "trigger" l.state).bind (·.get "approvals"))⟩ :=
      ⟨fun _ => Iff.rfl, fun _ => Iff.rfl⟩
    rcases hi.gate hg hd with hh | hh
    · rcases mem_append.mp hh with hh | hh
      · exact absurd (approvedByResume_of_listed hh) (Bool.eq_false_iff.mp hR)
      · rw [execContext, get_runOf] at hh
        exact ha _ ht (mem_append_left _ hh)
    · rw [heardInTrigger, execContext, get_runOf] at hh
      exact ha _ ht (mem_append_right _ hh)
  | attempt k ou pa hx ho =>
    rcases withChildren_interrupt he (fun st nd ix => he.waits [] st nd ix) hx
      ho with ⟨hk, address, hc⟩ | ⟨rfl, ⟨hv, hh⟩ | hw⟩
    · obtain ⟨ix, scope, items, child, outcome, gate, hc, hs, hg, rfl⟩ := hc
      obtain ⟨hG, hC, -, has⟩ := childRun_ok hc
      obtain ⟨hh, hn⟩ := hi.child hk gate hd
      obtain ⟨m, hm, ⟨hgt, hp⟩ | ⟨hu, inner, hir⟩⟩ :=
        runSubWorkflow_pending he (he.compile _ hC) hs gate hg
      · rcases hp with hp | hK
        · rw [has, mem_approvalsForChild, mem_gatesFor, mem_gatesFor] at hp
          exact hp hh.symm
        · exact (hn scope _ hG m hm).2 hK hgt.symm
      · exact (hn scope _ hG m hm).1 hu inner hir
    · exact hh (hi.review hv hd)
    · exact hi.wait hw hd

theorem Resumed.pending_new (hb : buildGraph ord w = .ok g) (ho : w.ids.Nodup)
    (hn : ∀ x ∈ rest, x.1.Orderly) (hr : r ∈ resumeAll g w levels th store before rest)
    (hin : r.Informs g w levels th) : ∀ id ∈ r.pending, id ∉ r.approved := by
  intro id hd
  obtain ⟨hm, hR⟩ := mem_resumeAll hr
  unfold Resumed.pending at hd
  split at hd
  · rename_i e he
    obtain ⟨i, hi, rfl⟩ := mem_map.mp hd
    rw [hR] at he
    obtain ⟨c, hc, he⟩ := resumeFrom_ok he
    obtain ⟨l, hs, -, index, n, ctx, hS, hp⟩ :=
      (executeRun_pauses (lowered_of_buildGraph hb) (conforms_withActivations ho _ _)
        (unhooked_withChildren (hn _ hm).unhooked) he).2 i hi
    exact (hin l index n ctx ⟨c, hc, hs⟩ hS).pausedBy (hn _ hm) hp
  · cases hd

theorem approved_grows {ids : Finset String}
    (hn : ∀ r ∈ resumeAll g w levels th store before rest, ∀ id ∈ r.pending,
      id ∈ ids ∧ id ∉ r.approved) (hf : ∀ r ∈ (resumeAll g w levels th store before rest).head?,
      ∃ id ∈ r.decision.approved, id ∈ ids ∧ id ∉ before)
    (hc : (resumeAll g w levels th store before rest).IsChain fun r r' =>
      ∃ id ∈ r'.decision.approved, id ∈ r.pending) :
    ∀ r ∈ (resumeAll g w levels th store before rest).getLast?,
      (ids.filter (· ∈ before)).card + (resumeAll g w levels th store before rest).length ≤
        (ids.filter (· ∈ r.approved)).card := by
  induction rest generalizing store before with
  | nil => exact fun r hr => nomatch hr
  | cons x re ih =>
    obtain ⟨env, decision⟩ := x
    intro la hl
    simp only [resumeAll] at hn hf hc hl ⊢
    set result := resumeFrom g (rootRuntime w levels env) store th .latest (some decision.value)
    -- the first resume approves one more id
    have hg : (ids.filter (· ∈ before)).card + 1 ≤ (ids.filter (· ∈ before ++ decision.approved)).card := by
      obtain ⟨id, hi, hin, hb⟩ := hf _ rfl
      refine Finset.card_lt_card (Finset.ssubset_iff_of_subset ?_ |>.mpr ⟨id, ?_, ?_⟩)
      · exact Finset.monotone_filter_right _ fun id _ h => mem_append_left _ h
      · exact Finset.mem_filter.mpr ⟨hin, mem_append_right _ hi⟩
      · exact fun h => hb (Finset.mem_filter.mp h).2
    cases he : resumeAll g w levels th result.store (before ++ decision.approved) re with
    | nil =>
      rw [he] at hl
      cases hl
      exact hg
    | cons nx ot =>
      rw [he, isChain_cons_cons] at hc
      rw [he, getLast?_cons_cons, ← he] at hl
      have ht := ih (fun r hr => hn r (mem_cons_of_mem _ hr)) (fun r hr => ?_) (he ▸ hc.2) la hl
      · rw [← he, length_cons]
        omega
      · obtain ⟨id, hi, hp⟩ := hc.1
        rw [he] at hr
        cases hr
        exact ⟨id, hi, hn _ mem_cons_self id hp⟩

end Resumes

/-- Over every chain of checkpointed resumes, a resume whose activations hear of the approved ids that
concern them reports none of the ids approved so far. So if every resume does, and each approves one of
the ids reported before it, nothing is pending after as many resumes as there are ids to report. -/
theorem approved_not_pending_again {ord : IterOrder NodeId} {w : WorkflowGraph}
    {g : CompiledGraph Json Json Json} (levels : Nat) (thread : ThreadId)
    (store : CheckpointStore Json Json) (chain : List (Surroundings × Decision))
    (hbuild : buildGraph ord w = .ok g) (hnodup : w.ids.Nodup) (henv : ∀ x ∈ chain, x.1.Orderly) :
    (∀ r ∈ resumeAll g w levels thread store [] chain, r.Informs g w levels thread →
      ∀ id ∈ r.pending, id ∉ r.approved) ∧
    ∀ ids : Finset String,
      (∀ r ∈ resumeAll g w levels thread store [] chain, r.Informs g w levels thread ∧
        ∀ id ∈ r.pending, id ∈ ids) →
      (∀ r ∈ (resumeAll g w levels thread store [] chain).head?, ∃ id ∈ r.decision.approved, id ∈ ids) →
      ((resumeAll g w levels thread store [] chain).IsChain fun r r' =>
        ∃ id ∈ r'.decision.approved, id ∈ r.pending) →
      ids.card ≤ (resumeAll g w levels thread store [] chain).length →
      ∀ r ∈ (resumeAll g w levels thread store [] chain).getLast?, r.pending = [] := by
  refine ⟨fun r hr hinforms => Resumed.pending_new hbuild hnodup henv hr hinforms, ?_⟩
  intro ids hall hfirst hchain hcard r hr
  have hnew : ∀ r ∈ resumeAll g w levels thread store [] chain, ∀ id ∈ r.pending,
      id ∈ ids ∧ id ∉ r.approved := fun r hr id hid =>
    ⟨(hall r hr).2 id hid, Resumed.pending_new hbuild hnodup henv hr (hall r hr).1 id hid⟩
  have hgrows := approved_grows hnew (fun r hr => by simpa using hfirst r hr) hchain r hr
  simp only [not_mem_nil, Finset.filter_false, Finset.card_empty, Nat.zero_add] at hgrows
  -- every id that can be reported has been approved
  have hevery : ids.filter (· ∈ r.approved) = ids :=
    Finset.eq_of_subset_of_card_le (Finset.filter_subset _ _) (hcard.trans hgrows)
  refine eq_nil_iff_forall_not_mem.mpr fun id hid => ?_
  obtain ⟨hin, hnot⟩ := hnew r (mem_of_getLast? hr) id hid
  exact hnot (Finset.mem_filter.mp (hevery.symm ▸ hin)).2

/-! ## A child with two gates -/

def twoGates : WorkflowGraph :=
  chain [("t", "trigger", .null), ("a", "sub_workflow", embedding (chainJson [("t", "trigger", .null),
    ("g1", "transform", gated), ("g2", "transform", gated)]))]

def twoGatesGraph : CompiledGraph Json Json Json :=
  graphOf twoGates (by decide +kernel)

theorem twoGates_built : buildGraph (.sorted NodeId) twoGates = .ok twoGatesGraph :=
  buildGraph_graphOf _

def twoGatesStore : CheckpointStore Json Json :=
  (run twoGatesGraph (rootRuntime twoGates 9 alone) {} (some "t")
    (seed { id := "t", kind := .trigger } (.new .null) (.obj []) none)).store

theorem orderly_alone : alone.Orderly where
  unhooked _ _ _ := ⟨fun _ => rfl, fun _ _ _ => rfl⟩
  waits := by
    intro ad st nd ix ec k ou ga pa _ he hc
    change (if ec.node.kind = .loop then loopExecute noExpressions ec else .ok (.main [])) = _ at he
    have hn : ou.control = none := by
      split_ifs at he
      · exact (loopExecute_plain he).1
      · cases he
        rfl
    rw [hn] at hc
    cases hc
  compile := by
    intro gr h
    change (if Validate.validateAll (.sorted NodeId) (.sortedPairs NodeId) gr = [] then
      Except.ok () else _) = _ at h
    split_ifs at h with hv
    exact (Validate.validateAll_nil_iff.mp hv).ids_nodup

theorem twoGates_resumed : ∀ c ∈ twoGatesStore.getScoped "t" none twoGatesGraph.ns,
    let value := Decision.value { approved := ["a::g1"] }
    let start := resumed twoGatesGraph "t" twoGatesStore c (some value)
    resumeValues start.active start.resumeMap = [some value] ∧
      (match superStep twoGatesGraph (rootRuntime twoGates 9 alone) (some "t") start with
      | .done _ => true
      | .next _ => false) = true := by
  decide +kernel

theorem twoGates_informs : ∀ r ∈ resumeAll twoGatesGraph twoGates 9 "t" twoGatesStore []
    [(alone, { approved := ["a::g1"] })], r.Informs twoGatesGraph twoGates 9 "t" := by
  intro r hr l i n ctx ⟨c, hc, hs⟩ hS
  simp only [resumeAll, mem_singleton] at hr
  subst hr
  dsimp only at hc hs
  obtain ⟨hv, ho⟩ := twoGates_resumed c hc
  obtain rfl | ⟨m, hm, -⟩ := hs.cases_head
  · have he : ctx.resume = some (Decision.value { approved := ["a::g1"] }) := by
      have hg := hS.resume
      rw [hv] at hg
      exact (mem_singleton.mp (mem_of_getElem? hg))
    have hn : ∀ n ∈ twoGates.nodes, n.requiresApproval = false ∧ n.kind ≠ .approval ∧
        n.kind ≠ .gate ∧ (n.kind = .subWorkflow → n.id = "a" ∧ n.config.get "workflow_id" = none ∧
          ∀ w ∈ ((n.config.get "workflow").bind decodeGraph), ∀ m ∈ w.nodes,
            m.kind ≠ .subWorkflow ∧ m.kind ≠ .gate) := by decide +kernel
    obtain ⟨ha, hR, hw, hh⟩ := hn n hS.mem
    refine ⟨fun h => absurd h (Bool.eq_false_iff.mp ha), fun h => absurd h hR,
      fun h => absurd h hw, fun hK gate hM => ?_⟩
    obtain ⟨hid, hW, hn⟩ := hh hK
    refine ⟨.inl ?_, fun sc graph hG m hm => ?_⟩
    · have hl : listedIds (ctx.resume.bind (·.get "approved")) = ["a::g1"] := by
        rw [he]
        decide +kernel
      change _ ∈ listedIds (ctx.resume.bind (·.get "approved"))
      rw [hl]
      exact hM
    · obtain ⟨inline, hi, hp⟩ := childGraph_inline hW hG
      have hD : decodeGraph inline = some graph := by
        cases hd : decodeGraph inline with
        | none =>
          simp only [alone, hd] at hp
          cases hp
        | some w =>
          simp only [alone, hd] at hp
          cases hp
          rfl
      have hk := hn graph (Option.bind_eq_some_iff.mpr ⟨inline, hi, hD⟩) m hm
      exact ⟨fun h => absurd h hk.1, fun h => absurd h hk.2⟩
  · rw [hm] at ho
    cases ho

/-- The first resume reports the second gate, and not the one it approves. -/
theorem first_gate_not_pending :
    (resumeAll twoGatesGraph twoGates 9 "t" twoGatesStore []
      [(alone, { approved := ["a::g1"] })]).map Resumed.pending = [["a::g2"]] ∧
    ∀ r ∈ resumeAll twoGatesGraph twoGates 9 "t" twoGatesStore [] [(alone, { approved := ["a::g1"] })],
      ∀ id ∈ r.pending, id ∉ r.approved := by
  refine ⟨by decide +kernel, fun r hr => ?_⟩
  have hnodup : twoGates.ids.Nodup := by decide +kernel
  have henv : ∀ x ∈ [(alone, ({ approved := ["a::g1"] } : Decision))], x.1.Orderly := by
    rintro x (_ | ⟨_, _ | _⟩)
    exact orderly_alone
  exact (approved_not_pending_again 9 "t" twoGatesStore _ twoGates_built hnodup henv).1 r hr
    (twoGates_informs r hr)

/-- The second resume, which approves the second gate, reports the first one again. -/
theorem first_gate_pending_again :
    (resumeAll twoGatesGraph twoGates 9 "t" twoGatesStore [] [(alone, { approved := ["a::g1"] }),
      (alone, { approved := ["a::g2"] })]).map Resumed.pending = [["a::g2"], ["a::g1"]] := by
  decide +kernel

end Tinyflows.Engine
