import Tinyflows.Engine.Lemmas.Writes
import Tinyflows.Engine.Wiring

/-!
# The port a node recorded

The router of a node reads the port its last activation recorded, after all updates of the step have
been folded in.
-/

namespace Tinyflows.Engine
open Lib Tinyflows.Graph Model Nodes Option Json

/-!
## The fields of a slot

What an update does to a field of a node's slot: it is kept by every other node, by the node's lanes
and by every update that does not name it.
-/

variable {id : NodeId} {key : String}

theorem fieldOf_eq (id key st) : fieldOf id key st = (slotOf st id).bind (·.get key) := by
  simp only [fieldOf, slotOf, nodePath, List.cons_append, List.nil_append, atPath_cons,
    atPath_nil]
  cases st.get "nodes" with
  | none => rfl
  | some nd =>
    simp only [bind_some]
    cases nd.get id with
    | none => rfl
    | some sl =>
      simp only [bind_some]
      cases sl.get key <;> rfl

theorem fieldOf_merge_of_confined {pa u} (h : ConfinedTo pa u)
    (hp : ¬ nodePath id ++ [key] <+: pa) (hp' : ¬ pa <+: nodePath id ++ [key]) (s) :
    fieldOf id key (merge s u) = fieldOf id key s :=
  h s _ hp hp'

theorem fieldOf_merge_other {id' : NodeId} (hi : id' ≠ REPLACE) (hn : id ≠ id') (s sl) :
    fieldOf id key (merge s (nodeUpdate id' sl)) = fieldOf id key s := by
  refine fieldOf_merge_of_confined (confinedTo_nest (plain_nodePath hi) sl) ?_ ?_ s
  · simp [nodePath]
  · simp [nodePath, Ne.symm hn]

theorem fieldOf_merge_lanes (hi : id ≠ REPLACE) (he : key ≠ "lanes") (s la) :
    fieldOf id key (merge s (nodeUpdate id (.obj [("lanes", la)]))) = fieldOf id key s := by
  have hp : Plain ["nodes", id, "lanes"] := by
    intro k hk
    simp only [List.mem_cons, List.not_mem_nil, or_false] at hk
    rcases hk with rfl | rfl | rfl
    · decide
    · exact hi
    · decide
  refine fieldOf_merge_of_confined (confinedTo_nest hp la) ?_ ?_ s
  · simp [nodePath, he]
  · simp [nodePath, Ne.symm he]

theorem fieldOf_merge_empty (id key s) : fieldOf id key (merge s (.obj [])) = fieldOf id key s :=
  fieldOf_merge_of_confined (confinedTo_empty ["run"]) (by simp [nodePath]) (by simp [nodePath]) s

theorem fieldOf_merge_slot (hi : id ≠ REPLACE) {fs u} (h : SlotUpdate id u fs) (key s) :
    fieldOf id key (merge s u) =
      match fs.lookup key with
      | none => fieldOf id key s
      | some v => some (merge ((fieldOf id key s).getD .null) v) := by
  rw [fieldOf, fieldOf, h.eq, atPath_append, nodeUpdate_eq_nest,
    merge_nest_atPath (plain_nodePath hi), bind_some, atPath_cons,
    merge_obj h.not_sentinel, get_obj, lookup_mergeFields h.ordered.nodup_keys, atPath_append]
  have hb : ∀ sl : Option Json, (sl.getD .null).fields.lookup key =
      sl.bind fun j => j.atPath [key] := by
    intro sl
    cases sl with
    | none => rfl
    | some j =>
      rw [bind_some, atPath_cons]
      cases h : j.get key with
      | none => exact h
      | some v => exact h
  rw [hb]
  cases fs.lookup key with
  | none => cases (s.atPath (nodePath id)).bind fun j => j.atPath [key] <;> rfl
  | some v => rfl

theorem portOf_eq (id st) :
    portOf id st = ((fieldOf id "port" st).bind asStr).getD "main" := by
  rw [portOf, emittedPort, fieldOf_eq]

theorem portOf_merge_other {id id' : NodeId} (hi : id' ≠ REPLACE) (hn : id ≠ id') (s sl) :
    portOf id (merge s (nodeUpdate id' sl)) = portOf id s := by
  rw [portOf_eq, portOf_eq, fieldOf_merge_other hi hn]

theorem portOf_merge_empty (id s) : portOf id (merge s (.obj [])) = portOf id s := by
  rw [portOf_eq, portOf_eq, fieldOf_merge_empty]

theorem portOf_merge_slot {id : NodeId} (hi : id ≠ REPLACE) {fs u}
    (h : SlotUpdate id u fs) {po} (hp : fs.lookup "port" = some (portJson po))
    (s) : portOf id (merge s u) = po.getD "main" := by
  rw [portOf_eq, fieldOf_merge_slot hi h, hp]
  cases po <;> rfl

theorem lookup_port {it po re} (h : "port" ∉ (metaFields re).map Prod.fst) :
    (slotFields it po re).lookup "port" = some (portJson po) := by
  rw [slotFields, lookup_insertFields_of_notMem h, lookup_insertFields (by simp)]
  rfl

theorem portOf_merge_items {id : NodeId} (hi : id ≠ REPLACE) (it po) {re}
    (h : "port" ∉ (metaFields re).map Prod.fst) (s) :
    portOf id (merge s (itemsUpdateWithMeta id it po re)) = po.getD "main" :=
  portOf_merge_slot hi (slotUpdate_items id it po re) (lookup_port h) s

theorem portOf_merge_stampedItems {id : NodeId} (hi : id ≠ REPLACE) (it po) {re}
    (h : "port" ∉ (metaFields re).map Prod.fst) (st s) :
    portOf id (merge s (stampActivationStep (itemsUpdateWithMeta id it po re) id st)) =
      po.getD "main" := by
  refine portOf_merge_slot hi ((slotUpdate_items id it po re).stamp st) ?_ s
  rw [lookup_insertField_ne (by decide)]
  exact lookup_port h

theorem asStr_merge (s s' v) : (merge s v).asStr = (merge s' v).asStr := by
  cases v with
  | obj fs =>
    by_cases hs : ∃ x, fs = [(REPLACE, x)]
    · obtain ⟨x, rfl⟩ := hs
      simp only [merge, if_true]
    · rw [not_exists] at hs
      rw [merge_obj hs, merge_obj hs]
      rfl
  | _ => rfl

theorem OwnUpdate.port {id : NodeId} (hi : id ≠ REPLACE) {u} (h : OwnUpdate id u) :
    (∀ s, portOf id (merge s u) = portOf id s) ∨
      ∀ s s', portOf id (merge s u) = portOf id (merge s' u) := by
  cases h with
  | lanes lanes h =>
    subst h
    refine .inl fun s => ?_
    rw [portOf_eq, portOf_eq, fieldOf_merge_lanes hi (by decide)]
  | slot fs h =>
    obtain ⟨v, hv⟩ := isSome_iff_exists.mp h.port
    refine .inr fun s s' => ?_
    rw [portOf_eq, portOf_eq, fieldOf_merge_slot hi h, fieldOf_merge_slot hi h, hv]
    simp only [bind_some]
    rw [asStr_merge]

end Tinyflows.Engine
