import Tinyflows.Model.GraphOps

/-!
# What edits preserve

A batch of operations keeps a well formed workflow well formed, and the patch of a configuration is the
merge patch of RFC 7386.
-/

namespace Tinyflows.Model
open Lib Tinyflows.Graph List Json

/-! ## The shape of a workflow -/

/-- Nodes and edges are distinct, and every edge joins two nodes. -/
structure WellFormed (w : WorkflowGraph) : Prop where
  ids : w.ids.Nodup
  joins : ∀ e ∈ w.edges, e.fromNode ∈ w.ids ∧ e.toNode ∈ w.ids
  edges : w.edges.Nodup

variable {w w' : WorkflowGraph} {id ni : NodeId}

theorem nodeIndex_isSome_iff : (w.nodeIndex id).isSome ↔ id ∈ w.ids := by
  rw [← WorkflowGraph.node_isSome_iff, ← not_iff_not, Option.not_isSome_iff_eq_none,
    Option.not_isSome_iff_eq_none, nodeIndex_eq_none]

theorem nodeIndex_isNone_iff : (w.nodeIndex id).isNone ↔ id ∉ w.ids := by
  rw [Option.isNone_iff_eq_none, ← Option.not_isSome_iff_eq_none, nodeIndex_isSome_iff]

def renamed (id newId : NodeId) (k : NodeId) : NodeId :=
  if k = id then newId else k

theorem renamed_injOn (h : ni ≠ id → ni ∉ w.ids) {a b} (ha : a ∈ w.ids) (hb : b ∈ w.ids)
    (he : renamed id ni a = renamed id ni b) : a = b := by
  unfold renamed at he
  by_cases hn : ni = id
  · subst hn
    split_ifs at he <;> simp_all
  · split_ifs at he with ha' hb' hb'
    · rw [ha', hb']
    · exact absurd (he ▸ hb) (h hn)
    · exact absurd (he ▸ ha) (h hn)
    · exact he

section

variable (h : WellFormed w)
include h

theorem WellFormed.addNode {n} (hn : n.id ∉ w.ids) :
    WellFormed { w with nodes := w.nodes ++ [n] } := by
  have hi : WorkflowGraph.ids { w with nodes := w.nodes ++ [n] } = w.ids ++ [n.id] := by
    simp [WorkflowGraph.ids]
  refine ⟨?_, fun e he => ?_, h.edges⟩
  · rw [hi]
    exact nodup_append.mpr ⟨h.ids, nodup_singleton _, fun a ha b hb hq =>
      hn (mem_singleton.mp hb ▸ hq ▸ ha)⟩
  · rw [hi]
    obtain ⟨hf, ht⟩ := h.joins e he
    exact ⟨mem_append_left _ hf, mem_append_left _ ht⟩

theorem WellFormed.patch (ix co) :
    WellFormed { w with nodes := w.nodes.modify ix (Node.patch co) } := by
  have hi : WorkflowGraph.ids { w with nodes := w.nodes.modify ix (Node.patch co) } = w.ids := by
    refine ext_getElem? fun k => ?_
    simp only [WorkflowGraph.ids, getElem?_map, getElem?_modify]
    cases w.nodes[k]? with
    | none => rfl
    | some n => by_cases hk : ix = k <;> simp [hk, Node.patch]
  exact ⟨hi ▸ h.ids, fun e he => hi ▸ h.joins e he, h.edges⟩

theorem WellFormed.rename (hw : ni ≠ id → ni ∉ w.ids) : WellFormed { w with
      nodes := w.nodes.map fun n => if n.id = id then { n with id := ni } else n
      edges := w.edges.map (Edge.rename id ni) } := by
  have hi : (w.nodes.map fun n => if n.id = id then { n with id := ni } else n).map (·.id) =
      w.ids.map (renamed id ni) := by
    simp only [WorkflowGraph.ids, map_map]
    refine map_congr_left fun n _ => ?_
    by_cases hn : n.id = id <;> simp [renamed, hn]
  have hd : ∀ e : Edge, e.rename id ni =
      { e with fromNode := renamed id ni e.fromNode, toNode := renamed id ni e.toNode } := fun _ => rfl
  refine ⟨?_, fun e' he' => ?_, h.edges.map_on fun e he e' he' hq => ?_⟩
  · rw [WorkflowGraph.ids, hi]
    exact h.ids.map_on fun a ha b hb hq => renamed_injOn hw ha hb hq
  · obtain ⟨e, he, rfl⟩ := mem_map.mp he'
    obtain ⟨hr, ho⟩ := h.joins e he
    rw [WorkflowGraph.ids, hi, hd]
    exact ⟨mem_map_of_mem hr, mem_map_of_mem ho⟩
  · rw [hd, hd, Edge.mk.injEq] at hq
    obtain ⟨hr, hp, ho, hp'⟩ := hq
    obtain ⟨hf, ht⟩ := h.joins e he
    obtain ⟨hf', ht'⟩ := h.joins e' he'
    rw [Edge.mk.injEq]
    exact ⟨renamed_injOn hw hf hf' hr, hp, renamed_injOn hw ht ht' ho, hp'⟩

theorem WellFormed.removeNode (id) : WellFormed { w with
      nodes := w.nodes.filter (·.id ≠ id)
      edges := w.edges.filter fun e => ¬ e.touches id } := by
  have hi : ∀ k, k ∈ (w.nodes.filter (·.id ≠ id)).map (·.id) ↔ k ∈ w.ids ∧ k ≠ id := by
    intro k
    simp only [WorkflowGraph.ids, mem_map, mem_filter]
    constructor
    · rintro ⟨n, ⟨hn, hN⟩, rfl⟩
      exact ⟨⟨n, hn, rfl⟩, by simpa using hN⟩
    · rintro ⟨⟨n, hn, rfl⟩, hN⟩
      exact ⟨n, ⟨hn, by simpa using hN⟩, rfl⟩
  refine ⟨h.ids.sublist (filter_sublist.map _), fun e he => ?_, h.edges.filter _⟩
  obtain ⟨hm, ht⟩ := mem_filter.mp he
  obtain ⟨hf, ho⟩ := h.joins e hm
  simp only [Edge.touches, Bool.decide_or, decide_eq_true_eq, Bool.or_eq_true, not_or] at ht
  exact ⟨(hi _).mpr ⟨hf, ht.1⟩, (hi _).mpr ⟨ho, ht.2⟩⟩

theorem WellFormed.addEdge {e} (hf : e.fromNode ∈ w.ids) (ht : e.toNode ∈ w.ids)
    (hn : e ∉ w.edges) : WellFormed { w with edges := w.edges ++ [e] } := by
  refine ⟨h.ids, fun e' he' => ?_, ?_⟩
  · rcases mem_append.mp he' with he' | he'
    · exact h.joins e' he'
    · rw [mem_singleton.mp he']
      exact ⟨hf, ht⟩
  · exact nodup_append.mpr ⟨h.edges, nodup_singleton _, fun a ha b hb he =>
      hn (mem_singleton.mp hb ▸ he ▸ ha)⟩

theorem WellFormed.filterEdges (p) : WellFormed { w with edges := w.edges.filter p } :=
  ⟨h.ids, fun e he => h.joins e (mem_of_mem_filter he), h.edges.filter _⟩

theorem WellFormed.applyOne {op} (ho : applyOne w op = .ok w') : WellFormed w' := by
  cases op with
  | addNode n =>
    simp only [Model.applyOne] at ho
    split_ifs at ho with he hi
    cases ho
    exact h.addNode (mt nodeIndex_isSome_iff.mpr hi)
  | updateNodeConfig id co =>
    simp only [Model.applyOne] at ho
    split at ho
    · cases ho
    · cases ho
      exact h.patch _ co
  | setNodeName id => exact requireNode_ok ho ▸ h
  | renameNode id ni =>
    simp only [Model.applyOne] at ho
    split_ifs at ho with he hi hn
    cases ho
    exact h.rename fun hN hm => hn ⟨hN, nodeIndex_isSome_iff.mpr hm⟩
  | removeNode id =>
    simp only [Model.applyOne] at ho
    split_ifs at ho
    cases ho
    exact h.removeNode id
  | addEdge e =>
    simp only [Model.applyOne] at ho
    split_ifs at ho with hf ht hn
    cases ho
    rw [nodeIndex_isNone_iff, not_not] at hf ht
    exact h.addEdge hf ht hn
  | removeEdge e =>
    simp only [Model.applyOne] at ho
    split_ifs at ho
    cases ho
    exact h.filterEdges _
  | setNodePosition id => exact requireNode_ok ho ▸ h
  | setWorkflowInputs is => cases ho; exact ⟨h.ids, h.joins, h.edges⟩

theorem WellFormed.applyFrom {ops ix} (hops : applyFrom w ix ops = .ok w') : WellFormed w' := by
  induction ops generalizing w ix with
  | nil => cases hops; exact h
  | cons op re ih =>
    simp only [Model.applyFrom] at hops
    split at hops
    · cases hops
    · next u hu => exact ih (h.applyOne hu) hops

end

structure Working where
  base : WorkflowGraph
  graph : WorkflowGraph

def applyLoop (s : Working) : Nat → List GraphOp → Working × Except GraphOpError Unit
  | _, [] => (s, .ok ())
  | index, op :: rest =>
    match applyOne s.graph op with
    | .error kind => (s, .error { index, op := op.name, kind })
    | .ok graph => applyLoop { s with graph } (index + 1) rest

/-- `applyOps` with its working copy in view: what it leaves of the caller's workflow, and its result. -/
def applyOpsTo (base : WorkflowGraph) (ops : List GraphOp) :
    WorkflowGraph × Except GraphOpError WorkflowGraph :=
  let (s, result) := applyLoop { base, graph := base } 0 ops
  (s.base, result.map fun _ => s.graph)

theorem applyLoop_spec (s index ops) :
    (applyLoop s index ops).1.base = s.base ∧
      (applyLoop s index ops).2.map (fun _ => (applyLoop s index ops).1.graph) =
        applyFrom s.graph index ops := by
  induction ops generalizing s index with
  | nil => exact ⟨rfl, rfl⟩
  | cons op rest ih =>
    rw [applyLoop, applyFrom]
    cases applyOne s.graph op with
    | error kind => exact ⟨rfl, rfl⟩
    | ok graph => exact ih { s with graph } (index + 1)

theorem applyOpsTo_eq (ba ops) : applyOpsTo ba ops = (ba, applyOps ba ops) :=
  Prod.ext (applyLoop_spec ⟨ba, ba⟩ 0 ops).1 (applyLoop_spec ⟨ba, ba⟩ 0 ops).2

/-- A batch that succeeds makes a well formed workflow of a well formed one, and whether it succeeds or
fails the workflow of the caller stays as it is. -/
theorem edits_keep_wellFormed (base : WorkflowGraph) (ops : List GraphOp) (h : WellFormed base) :
    (∀ w, (applyOpsTo base ops).2 = .ok w → WellFormed w) ∧ (applyOpsTo base ops).1 = base := by
  rw [applyOpsTo_eq]
  exact ⟨fun w hw => h.applyFrom hw, rfl⟩

def oneAgent : WorkflowGraph where
  nodes := [{ id := "t", kind := .trigger }, { id := "a", kind := .agent }]
  edges := [{ fromNode := "t", toNode := "a" }]

/-- The agent renamed, and a node that also leads to it. -/
def oneAgentEdited : WorkflowGraph where
  nodes := [{ id := "t", kind := .trigger }, { id := "b", kind := .agent }, { id := "c", kind := .code }]
  edges := [{ fromNode := "t", toNode := "b" }, { fromNode := "c", toNode := "b" }]

theorem oneAgentEdited_wellFormed :
    (applyOpsTo oneAgent [.renameNode "a" "b", .addNode { id := "c", kind := .code },
      .addEdge { fromNode := "c", toNode := "b" }]).2 = .ok oneAgentEdited ∧ WellFormed oneAgentEdited := by
  have hbase : WellFormed oneAgent := ⟨by decide, by decide, by decide⟩
  refine ⟨rfl, (edits_keep_wellFormed oneAgent [.renameNode "a" "b", .addNode { id := "c", kind := .code },
    .addEdge { fromNode := "c", toNode := "b" }] hbase).1 _ rfl⟩

/-! ## Merge patches -/

/-- The merge patch of RFC 7386, name by name: a patch that is no object replaces the target, and the names
of an object are deleted, kept or merged. A target without the name counts as `null`, which is no object
either. -/
inductive MergePatch : Json → Json → Json → Prop
  | replaced {target patch : Json} (hpatch : patch.isObject = false) : MergePatch target patch patch
  | merged {target : Json} {patch result : List (String × Json)}
      (deleted : ∀ name, patch.lookup name = some .null → result.lookup name = none)
      (kept : ∀ name, patch.lookup name = none → result.lookup name = target.get name)
      (present : ∀ name v, patch.lookup name = some v → v ≠ .null → (result.lookup name).isSome)
      (merges : ∀ name v r, patch.lookup name = some v → v ≠ .null → result.lookup name = some r →
        MergePatch ((target.get name).getD .null) v r) :
      MergePatch target (.obj patch) (.obj result)

section Patches

variable {ta pt rs : Json} {fs ps : List (String × Json)} {key : String}

def patchedField (old : Option Json) : Option Json → Option Json
  | none => old
  | some .null => none
  | some v => some (jsonMergePatch (old.getD .null) v)

def setField (fs : List (String × Json)) (key : String) : Option Json → List (String × Json)
  | none => fs.filter (·.1 ≠ key)
  | some v => insertField key v fs

theorem mergePatchFields_cons (v) : mergePatchFields fs ((key, v) :: ps) =
    mergePatchFields (setField fs key (patchedField (fs.lookup key) (some v))) ps := by
  cases v <;> simp [mergePatchFields, patchedField, setField]

theorem lookup_filter_ne (nm) :
    (fs.filter (·.1 ≠ key)).lookup nm = if nm = key then none else fs.lookup nm := by
  induction fs with
  | nil => simp
  | cons f re ih =>
    obtain ⟨k, v⟩ := f
    rw [filter_cons, lookup_cons_eq]
    by_cases hk : k = key
    · rw [if_neg (by simp [hk]), ih, hk]
      split_ifs <;> rfl
    · rw [if_pos (by simp [hk]), lookup_cons_eq, ih]
      by_cases hn : nm = k
      · rw [if_pos hn, if_pos hn, if_neg (hn ▸ hk)]
      · rw [if_neg hn, if_neg hn]

theorem lookup_setField (new nm) :
    (setField fs key new).lookup nm = if nm = key then new else fs.lookup nm := by
  cases new with
  | none => exact lookup_filter_ne nm
  | some v => exact lookup_insertField key nm v fs

theorem Ordered.setField (h : Json.Ordered fs) (new) : Json.Ordered (setField fs key new) := by
  cases new with
  | none => exact h.filter _
  | some v => exact h.insertField key v

theorem lookup_mergePatchFields (h : (ps.map Prod.fst).Nodup) (na) :
    (mergePatchFields fs ps).lookup na = patchedField (fs.lookup na) (ps.lookup na) := by
  induction ps generalizing fs with
  | nil => simp [mergePatchFields, patchedField]
  | cons p re ih =>
    obtain ⟨key, v⟩ := p
    obtain ⟨hk, hr⟩ := nodup_cons.mp h
    rw [mergePatchFields_cons, ih hr, lookup_setField, lookup_cons_eq]
    by_cases hn : na = key
    · -- The name does not come again.
      have ho : re.lookup key = none :=
        lookup_eq_none_iff.mpr fun f hf => bne_iff_ne.mpr fun he =>
          hk (mem_map.mpr ⟨f, hf, he.symm⟩)
      rw [if_pos hn, if_pos hn, hn, ho, patchedField]
    · rw [if_neg hn, if_neg hn]

theorem Ordered.mergePatchFields (h : Json.Ordered fs) : Json.Ordered (mergePatchFields fs ps) := by
  induction ps generalizing fs with
  | nil => exact h
  | cons p re ih =>
    rw [mergePatchFields_cons]
    exact ih (Ordered.setField h _)

theorem get_jsonMergePatch (h : Json.Ordered ps) (na) :
    (jsonMergePatch ta (.obj ps)).get na = patchedField (ta.get na) (ps.lookup na) :=
  lookup_mergePatchFields h.nodup_keys na

theorem patchedField_of_ne_null {old v} (h : v ≠ .null) :
    patchedField old (some v) = some (jsonMergePatch (old.getD .null) v) := by
  cases v <;> simp_all [patchedField]

theorem sorted_get (h : pt.Sorted) {v} (hv : pt.get key = some v) : v.Sorted := by
  simpa [hv] using h.getD key

theorem mem_of_lookup {v} (h : fs.lookup key = some v) : (key, v) ∈ fs := by
  obtain ⟨be, after, rfl, -⟩ := lookup_eq_some_iff.mp h
  simp

theorem sorted_of_fields (h : Json.Ordered pt.fields) (hv : ∀ f ∈ pt.fields, f.2.Sorted) : pt.Sorted := by
  intro pa v hp
  cases pa with
  | nil => cases hp; exact h
  | cons na pa =>
    rw [atPath_cons, Option.bind_eq_some_iff] at hp
    obtain ⟨w, hg, hw⟩ := hp
    exact hv (na, w) (mem_of_lookup hg) pa v hw

theorem sorted_jsonMergePatch (ht : ta.Sorted) (hp : pt.Sorted) :
    (jsonMergePatch ta pt).Sorted := by
  intro pa
  induction pa generalizing ta pt with
  | nil =>
    intro v hv
    cases hv
    cases pt with
    | obj ps => exact Ordered.mergePatchFields ht.fields
    | _ => exact hp.fields
  | cons na pa ih =>
    intro v hv
    cases pt with
    | obj ps =>
      have hs : Json.Ordered ps := hp.fields
      rw [atPath_cons, get_jsonMergePatch hs] at hv
      cases hn : ps.lookup na with
      | none =>
        rw [hn] at hv
        exact ht (na :: pa) v hv
      | some w =>
        rw [hn] at hv
        by_cases hw : w = .null
        · subst hw
          cases hv
        · rw [patchedField_of_ne_null hw] at hv
          exact ih (ht.getD na) (sorted_get hp hn) v hv
    | _ => exact hp _ v hv

theorem sizeOf_lt_of_lookup {v} (h : ps.lookup key = some v) : sizeOf v < sizeOf (obj ps) := by
  have hs := sizeOf_lt_of_mem (mem_of_lookup h)
  simp only [obj.sizeOf_spec, Prod.mk.sizeOf_spec] at hs ⊢
  omega

theorem mergePatch_jsonMergePatch (ta pt) (hp : pt.Sorted) :
    MergePatch ta pt (jsonMergePatch ta pt) := by
  match pt with
  | .obj ps =>
    have hs : Json.Ordered ps := hp.fields
    have hg : ∀ na, (mergePatchFields ta.fields ps).lookup na =
        patchedField (ta.get na) (ps.lookup na) := lookup_mergePatchFields hs.nodup_keys
    refine .merged (fun na hn => ?_) (fun na hn => ?_) (fun na v hn hv => ?_) fun na v r hn hv hr => ?_
    · rw [hg, hn, patchedField]
    · rw [hg, hn, patchedField]
    · rw [hg, hn, patchedField_of_ne_null hv, Option.isSome_some]
    · rw [hg, hn, patchedField_of_ne_null hv] at hr
      cases hr
      exact mergePatch_jsonMergePatch _ v (sorted_get hp hn)
  | .null | .bool _ | .num _ | .str _ | .arr _ => exact .replaced rfl
termination_by sizeOf pt
decreasing_by exact sizeOf_lt_of_lookup hn

theorem MergePatch.again (h : MergePatch ta pt rs) : MergePatch rs pt rs := by
  induction h with
  | replaced hp => exact .replaced hp
  | merged de ke pr me ih =>
    refine .merged de (fun _ _ => rfl) pr fun nm v r hn hv hr => ?_
    rw [get_obj, hr]
    exact ih nm v r hn hv hr

theorem MergePatch.unique (h : MergePatch ta pt rs) (hr : rs.Sorted) {rs'}
    (h' : MergePatch ta pt rs') (hr' : rs'.Sorted) : rs = rs' := by
  induction h generalizing rs' with
  | replaced hp =>
    cases h' with
    | replaced _ => rfl
    | merged _ _ _ _ => cases hp
  | merged de ke pr me ih =>
    cases h' with
    | replaced hp => cases hp
    | merged de' ke' pr' me' =>
      refine congrArg obj (Json.Ordered.ext hr.fields hr'.fields fun na => ?_)
      rename_i ta pt rs rs'
      cases hn : pt.lookup na with
      | none => rw [ke na hn, ke' na hn]
      | some v =>
        by_cases hv : v = .null
        · subst hv
          rw [de na hn, de' na hn]
        · obtain ⟨r, hg⟩ := Option.isSome_iff_exists.mp (pr na v hn hv)
          obtain ⟨r', hg'⟩ := Option.isSome_iff_exists.mp (pr' na v hn hv)
          rw [hg, hg']
          exact congrArg some (ih na v r hn hv hg (sorted_get hr hg) (me' na v r' hn hv hg')
            (sorted_get hr' hg'))

/-- The code computes the merge patch of RFC 7386, and patching twice is patching once. -/
theorem jsonMergePatch_is_mergePatch (target patch : Json) (ht : target.Sorted) (hp : patch.Sorted) :
    (∀ result : Json, result.Sorted → (MergePatch target patch result ↔ result = jsonMergePatch target patch)) ∧
      (jsonMergePatch target patch).Sorted ∧
      jsonMergePatch (jsonMergePatch target patch) patch = jsonMergePatch target patch := by
  have hsorted := sorted_jsonMergePatch ht hp
  have hmerge := mergePatch_jsonMergePatch target patch hp
  refine ⟨fun result hr => ⟨fun h => h.unique hr hmerge hsorted, fun h => h ▸ hmerge⟩, hsorted, ?_⟩
  exact (mergePatch_jsonMergePatch _ patch hp).unique (sorted_jsonMergePatch hsorted hp) hmerge.again hsorted

end Patches

def patchTarget : Json :=
  .obj [("a", .obj [("b", .bool true), ("c", .str "x")])]

def deletingPatch : Json :=
  .obj [("a", .obj [("b", .null)]), ("d", .arr [])]

theorem deletingPatch_twice :
    jsonMergePatch patchTarget deletingPatch = .obj [("a", .obj [("c", .str "x")]), ("d", .arr [])] ∧
      jsonMergePatch (jsonMergePatch patchTarget deletingPatch) deletingPatch =
        jsonMergePatch patchTarget deletingPatch := by
  have hleaf : ∀ j : Json, j.fields = [] → j.Sorted := fun j h => sorted_of_fields (h ▸ .nil) (by simp [h])
  have htarget : patchTarget.Sorted := by
    refine sorted_of_fields (pairwise_singleton _ _) (forall_mem_singleton.mpr ?_)
    refine sorted_of_fields (show List.Pairwise _ _ by decide) (forall_mem_cons.mpr ⟨hleaf _ rfl, ?_⟩)
    exact forall_mem_singleton.mpr (hleaf _ rfl)
  have hpatch : deletingPatch.Sorted := by
    refine sorted_of_fields (show List.Pairwise _ _ by decide) (forall_mem_cons.mpr ⟨?_, ?_⟩)
    · exact sorted_of_fields (pairwise_singleton _ _) (forall_mem_singleton.mpr (hleaf _ rfl))
    · exact forall_mem_singleton.mpr (hleaf _ rfl)
  exact ⟨by decide, (jsonMergePatch_is_mergePatch patchTarget deletingPatch htarget hpatch).2.2⟩

end Tinyflows.Model
