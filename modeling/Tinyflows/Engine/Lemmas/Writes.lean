import Tinyflows.Engine.Activation
import Tinyflows.Engine.Lemmas.Merge

/-!
# The shape of updates
-/

namespace Tinyflows.Engine
open Lib Tinyflows.Graph Model Nodes List Option Json

/-!
## What an activation writes

The part of the run state an activation owns, and what it means to write nothing else.
-/

def written : NodeResult Json Json → Option Json
  | .update u => some u
  | .command c => c.update
  | .interrupt _ => none

def nodePath (id : NodeId) : List String :=
  ["nodes", id]

def fieldOf (id : NodeId) (key : String) (state : Json) : Option Json :=
  state.atPath (nodePath id ++ [key])

def lanePath (id : NodeId) (lane : String) : List String :=
  ["nodes", id, "lanes", lane]

/-- Merging the update changes nothing that lies beside the path. -/
def ConfinedTo (path : List String) (u : Json) : Prop :=
  ∀ s p, ¬ p <+: path → ¬ path <+: p → (merge s u).atPath p = s.atPath p

/-- Whether an activation with this outcome writes no further than its lane: it is not cancelled, it
asks neither to be re-entered nor to scatter, and its node is not named like the sentinel. -/
def KeepsToLane (h : HandlerData) : Outcome → Prop
  | .stopped | .cancelled => False
  | .started | .paused _ => True
  | .denied => h.hasErrorEdge = false
  | .produced output =>
    match output.control with
    | none => h.node.id ≠ REPLACE
    | some (.interrupt _ _) => True
    | some (.reenter _) | some (.scatter _) => False
  | .failed e => e.isSome ∧ h.node.id ≠ REPLACE

/-- A run in which nothing is cancelled and every attempt produces `output`. -/
def steady (output : NodeOutput) : Conduct where
  cancelled _ := false
  executor _ _ := .ok output

/-! ## Nested updates -/

theorem nodeUpdate_eq_nest (id slot) : nodeUpdate id slot = nest (nodePath id) slot := rfl

theorem stamp_nodeUpdate (id sl st) :
    stampActivationStep (nodeUpdate id sl) id st = nodeUpdate id (stampSlot st sl) := by
  simp [stampActivationStep, nodeUpdate, adjust]

theorem stamp_empty (id st) : stampActivationStep (.obj []) id st = .obj [] := rfl

variable {id : NodeId} {fs : List (String × Json)} {u : Json} {h : HandlerData}
  {la : Option LaneContext} {o : Outcome}

theorem plain_nodePath (h : id ≠ REPLACE) : Plain (nodePath id) := by
  intro key hk
  rcases mem_cons.mp hk with rfl | hk
  · decide
  · rw [mem_singleton.mp hk]
    exact h

theorem plain_lanePath {la} (h : id ≠ REPLACE) (hl : la ≠ REPLACE) : Plain (lanePath id la) := by
  intro key hk
  simp only [lanePath, mem_cons, not_mem_nil, or_false] at hk
  rcases hk with rfl | rfl | rfl | rfl
  · decide
  · exact h
  · decide
  · exact hl

theorem confinedTo_nest {pa} (h : Plain pa) (v) : ConfinedTo pa (nest pa v) :=
  fun s _ hp hp' => merge_nest_frame h s v hp hp'

theorem confinedTo_empty (pa) : ConfinedTo pa (.obj []) := by
  intro s p hp _
  cases p with
  | nil => exact absurd nil_prefix hp
  | cons k p =>
    rw [atPath_cons, atPath_cons]
    rfl

theorem not_confinedTo_replace {path} (ha : path.take 2 = nodePath REPLACE)
    (v) : ¬ ConfinedTo path (nest (nodePath REPLACE) v) := by
  intro h
  have hp : ¬ ["nodes", ""] <+: path := by
    intro hp
    have ht := hp.take 2
    rw [ha] at ht
    exact absurd ht (by decide)
  have hp' : ¬ path <+: ["nodes", ""] := by
    intro hp'
    have ht := hp'.take 2
    rw [ha] at ht
    exact absurd ht (by decide)
  have hs : ∀ x, (merge (nest ["nodes", ""] x) (nest (nodePath REPLACE) v)).atPath
      ["nodes", ""] = v.get "" := by
    intro x
    simp only [nest, nodePath]
    rw [atPath_cons, get_merge_single (by decide), bind_some, ← replace, merge_replace,
      atPath_cons]
    cases v.get "" <;> rfl
  have hn := h (nest ["nodes", ""] .null) _ hp hp'
  have hr := h (nest ["nodes", ""] (.bool true)) _ hp hp'
  rw [hs] at hn hr
  exact absurd (hn.symm.trans hr) (by decide)

/-! ## Updates of a slot -/

def slotFields (items : List Item) (port : Option String) (recorded : Option Json) :
    List (String × Json) :=
  insertFields (insertFields [] [("items", itemsJson items), ("port", portJson port)])
    (metaFields recorded)

structure SlotUpdate (id : NodeId) (u : Json) (fs : List (String × Json)) : Prop where
  eq : u = nodeUpdate id (.obj fs)
  ordered : Json.Ordered fs
  items : (fs.lookup "items").isSome
  port : (fs.lookup "port").isSome

theorem slotUpdate_items (id it po re) :
    SlotUpdate id (itemsUpdateWithMeta id it po re) (slotFields it po re) := by
  refine ⟨rfl, ?_, isSome_lookup_insertFields ?_ _, isSome_lookup_insertFields ?_ _⟩
  · exact Json.Ordered.insertFields (Json.Ordered.insertFields .nil _) _
  · rw [lookup_insertFields (by simp)]
    rfl
  · rw [lookup_insertFields (by simp)]
    rfl

theorem SlotUpdate.stamp (h : SlotUpdate id u fs) (st) :
    SlotUpdate id (stampActivationStep u id st) (insertField "_activation_step" (.nat st) fs) := by
  obtain ⟨rfl, ho, hi, hp⟩ := h
  refine ⟨stamp_nodeUpdate id _ st, ho.insertField _ _, ?_, ?_⟩
  · rw [lookup_insertField_ne (by decide)]
    exact hi
  · rw [lookup_insertField_ne (by decide)]
    exact hp

theorem SlotUpdate.not_sentinel (h : SlotUpdate id u fs) (v) : fs ≠ [(REPLACE, v)] := by
  rintro rfl
  have hp := h.port
  rw [lookup_cons_eq, if_neg (by decide)] at hp
  cases hp

theorem SlotUpdate.not_confinedTo (h : SlotUpdate id u fs) (la) :
    ¬ ConfinedTo (lanePath id la) u := by
  intro hc
  by_cases hi : id = REPLACE
  · subst hi
    rw [h.eq] at hc
    exact not_confinedTo_replace rfl _ hc
  · obtain ⟨v, hv⟩ := isSome_iff_exists.mp h.items
    have hk := hc (.obj []) ["nodes", id, "items"] (by simp [lanePath]) (by simp [lanePath])
    have ha := merge_nest_atPath (plain_nodePath hi) (.obj []) (.obj fs)
    rw [h.eq, show ["nodes", id, "items"] = nodePath id ++ ["items"] from rfl, atPath_append,
      nodeUpdate_eq_nest, ha, bind_some, atPath_cons,
      get_merge_obj h.not_sentinel h.ordered.nodup_keys _ hv] at hk
    cases hk

theorem get_laneIdentity (og ix co key) :
    (laneIdentity og ix co).get key =
      List.lookup key [("id", .str (laneId og ix)), ("origin", .str og),
        ("index", .nat ix), ("count", .nat co)] :=
  get_object (by simp) key

theorem get_laneEnvelope (og ix co it key) :
    (laneEnvelope og ix co it).get key =
      List.lookup key [(LANE_KEY, laneIdentity og ix co), ("items", itemsJson it)] :=
  get_object (by simp [LANE_KEY]) key

theorem laneContext_envelope (origin ix co it) :
    ∃ la, laneContext (some (laneEnvelope origin ix co it)) = some la ∧
      la.id = laneId origin ix ∧ la.origin = origin := by
  simp only [laneContext, bind_eq_bind, bind_some, get_laneEnvelope,
    lookup_cons_self, get_laneIdentity]
  exact ⟨_, rfl, rfl, rfl⟩

theorem laneId_ne_replace (og ix) : laneId og ix ≠ REPLACE := by
  intro h
  have hm : '#' ∈ (laneId og ix).toList := by
    rw [laneId, String.toList_append, String.toList_append]
    exact mem_append_left _ (mem_append_right _ (mem_singleton_self _))
  rw [h] at hm
  exact absurd hm (by decide)

/-! ## What an outcome writes -/

/-- The forms the update of an activation takes: one of the node's lanes, or its own slot. -/
inductive OwnUpdate (id : NodeId) (u : Json) : Prop where
  | lanes (lanes : Json) (h : u = nodeUpdate id (.obj [("lanes", lanes)]))
  | slot (fs : List (String × Json)) (h : SlotUpdate id u fs)

theorem OwnUpdate.eq_nodeUpdate (h : OwnUpdate id u) : ∃ slot, u = nodeUpdate id slot := by
  cases h with
  | lanes lanes h => exact ⟨_, h⟩
  | slot fs h => exact ⟨_, h.eq⟩

theorem OwnUpdate.items (id it po re) : OwnUpdate id (itemsUpdateWithMeta id it po re) :=
  .slot _ (slotUpdate_items id it po re)

theorem OwnUpdate.stampedItems (id it po re st) :
    OwnUpdate id (stampActivationStep (itemsUpdateWithMeta id it po re) id st) :=
  .slot _ ((slotUpdate_items id it po re).stamp st)

theorem written_emit_plain (h : HandlerData) (st u po ro) :
    written (emit h none st u po ro) = some (stampActivationStep u h.node.id st) := by
  simp only [emit]
  cases h.routing <;> rfl

def WritesOwn (id : NodeId) (r : NodeResult Json Json) : Prop :=
  ∃ u, written r = some u ∧ OwnUpdate id u

theorem WritesOwn.emit_items (st it po po' ro) :
    WritesOwn h.node.id (emit h la st (itemsUpdate h.node.id it po) po' ro) := by
  cases la with
  | some la => exact ⟨_, rfl, .items _ _ _ _⟩
  | none => exact ⟨_, written_emit_plain _ _ _ _ _, .stampedItems _ _ _ _ _⟩

theorem WritesOwn.emit_slot (st it po po' re ro) : WritesOwn h.node.id
    (emit h la st (slotUpdate h.node.id la it po re) po' ro) := by
  cases la with
  | some la => exact ⟨_, rfl, .lanes _ rfl⟩
  | none => exact ⟨_, written_emit_plain _ _ _ _ _, .stampedItems _ _ _ _ _⟩

def Outcome.port (n : Node) : Outcome → Option String
  | .denied => some "error"
  | .produced output => output.port
  | .failed (some _) => if onErrorPolicy n = "route" then some "error" else none
  | _ => none

section Commit

variable {st : Nat} {wa : Bool} {r : NodeResult Json Json}

theorem commit_started (hr : commit h la st wa none .started = .ok r) : written r = some (.obj []) := by
  cases hr
  cases la with
  | some la => rfl
  | none => rw [written_emit_plain, stamp_empty]

/-- What an outcome commits, by the form of the result. -/
inductive Commits (h : HandlerData) (lane : Option LaneContext) (step : Nat) (o : Outcome) :
    NodeResult Json Json → Prop
  | pause {i : Interrupt Json} (ho : o = .paused i ∨ ∃ output payload, o = .produced output ∧
      output.control = some (.interrupt i.id payload)) : Commits h lane step o (.interrupt i)
  | stop {u : Json} (ho : o ≠ .started) (hu : OwnUpdate h.node.id u) : Commits h lane step o (.update u)
  | again {output : NodeOutput} {ms : Nat} {u : Json} (ho : o = .produced output)
      (hc : output.control = some (.reenter ms)) (hu : OwnUpdate h.node.id u) :
      Commits h lane step o (.command { update := some u, goto := [.node h.node.id] })
  | scatter {output : NodeOutput} {lanes : List (List Item)} {u : Json} (ho : o = .produced output)
      (hc : output.control = some (.scatter lanes)) (hu : OwnUpdate h.node.id u) :
      Commits h lane step o (.command { update := some u, goto := scatterTargets h lanes })
  | start (ho : o = .started) : Commits h lane step o (emit h lane step (.obj []) none [])
  | emit {u : Json} {port : Option String} {routed : List Item} (ho : o ≠ .started)
      (hp : port = o.port h.node) (hu : WritesOwn h.node.id (emit h lane step u port routed)) :
      Commits h lane step o (emit h lane step u port routed)

theorem commits (hr : commit h la st wa none o = .ok r) : Commits h la st o r := by
  cases o with
  | started =>
    cases hr
    exact .start rfl
  | stopped =>
    cases hr
    refine .stop nofun ?_
    split_ifs
    · exact .stampedItems _ _ _ _ _
    · exact .items _ _ _ _
  | denied =>
    simp only [commit, finishDenied] at hr
    split_ifs at hr
    cases hr
    exact .emit nofun rfl (.emit_items _ _ _ _ _)
  | paused i =>
    cases hr
    exact .pause (.inl rfl)
  | cancelled =>
    cases hr
    exact .stop nofun (.items _ _ _ _)
  | produced ou =>
    cases hr
    simp only [applyStatePatch, finishOutput]
    split
    · next hc => exact .pause (.inr ⟨ou, _, rfl, hc⟩)
    · next hc =>
      split_ifs
      · exact .stop nofun (.items _ _ _ _)
      · exact .again rfl hc (.items _ _ _ _)
    · next hc => exact .scatter rfl hc (.stampedItems _ _ _ _ _)
    · exact .emit nofun rfl (.emit_slot _ _ _ _ _ _)
  | failed e =>
    simp only [commit, finishError] at hr
    cases e with
    | none =>
      cases hr
      exact .emit nofun rfl (.emit_items _ _ _ _ _)
    | some e =>
      dsimp only at hr
      split_ifs at hr with hc hp
      · cases hr
        exact .emit nofun (by simp [Outcome.port, hc]) (.emit_slot _ _ _ _ _ _)
      · cases hr
        exact .emit nofun (by simp [Outcome.port, hp]) (.emit_slot _ _ _ _ _ _)
      · cases la with
        | none => cases hr
        | some la =>
          cases hr
          exact .emit nofun (by simp [Outcome.port, hp]) ⟨_, rfl, .lanes _ rfl⟩

theorem commit_own (ho : o ≠ .started) (hr : commit h la st wa none o = .ok r) :
    (∃ i, r = .interrupt i) ∨ WritesOwn h.node.id r := by
  cases commits hr with
  | pause => exact .inl ⟨_, rfl⟩
  | stop _ hu | again _ _ hu | scatter _ _ hu => exact .inr ⟨_, rfl, hu⟩
  | start hs => exact absurd hs ho
  | emit _ _ hu => exact .inr hu

theorem commit_patched {patch} (hr : commit h la st wa patch o = .ok r) :
    ∃ r₀, commit h la st wa none o = .ok r₀ ∧ (r = r₀ ∨ r = applyStatePatch patch r₀) := by
  cases o with
  | produced ou =>
    cases hr
    exact ⟨_, rfl, .inr rfl⟩
  | failed e =>
    simp only [commit] at hr ⊢
    cases he : finishError h la st e with
    | error e =>
      rw [he] at hr
      cases hr
    | ok r₀ =>
      rw [he] at hr
      cases hr
      exact ⟨_, rfl, .inr rfl⟩
  | _ => exact ⟨r, hr, .inl rfl⟩

theorem commit_writes (hr : commit h la st wa none o = .ok r) :
    (∃ i, r = .interrupt i) ∨ ∃ u, written r = some u := by
  by_cases ho : o = .started
  · exact .inr ⟨_, commit_started (ho ▸ hr)⟩
  · exact (commit_own ho hr).imp_right fun ⟨u, hu, _⟩ => ⟨u, hu⟩

theorem written_commit (hr : commit h la st wa none o = .ok r) (hu : written r = some u) :
    o = .started ∧ u = .obj [] ∨ o ≠ .started ∧ OwnUpdate h.node.id u := by
  by_cases ho : o = .started
  · exact .inl ⟨ho, some.inj (hu.symm.trans (commit_started (ho ▸ hr)))⟩
  · refine .inr ⟨ho, ?_⟩
    obtain ⟨i, rfl⟩ | ⟨v, hv, hw⟩ := commit_own ho hr
    · cases hu
    · cases hu.symm.trans hv
      exact hw

/-! ## What an outcome writes inside a lane -/

/-- What an activation that carries a lane commits: nothing, its lane, or its whole slot. -/
theorem commit_lane (h : HandlerData) (o la st wa) :
    (KeepsToLane h o ∧ ∃ e, commit h (some la) st wa none o = .error e) ∨
    ∃ r, commit h (some la) st wa none o = .ok r ∧
      (KeepsToLane h o ∧ (written r = none ∨ written r = some (.obj [])) ∨
        (∃ slot, written r = some (nest (lanePath h.node.id la.id) slot) ∧
          (KeepsToLane h o ↔ h.node.id ≠ REPLACE)) ∨
        ¬ KeepsToLane h o ∧ ∃ u fs, written r = some u ∧ SlotUpdate h.node.id u fs) := by
  cases o with
  | stopped | cancelled => exact .inr ⟨_, rfl, .inr (.inr ⟨id, _, _, rfl, slotUpdate_items _ _ _ _⟩)⟩
  | started => exact .inr ⟨_, rfl, .inl ⟨trivial, .inr rfl⟩⟩
  | paused i => exact .inr ⟨_, rfl, .inl ⟨trivial, .inl rfl⟩⟩
  | denied =>
    simp only [commit, finishDenied, KeepsToLane]
    cases he : h.hasErrorEdge with
    | true => exact .inr ⟨_, rfl, .inr (.inr ⟨nofun, _, _, rfl, slotUpdate_items _ _ _ _⟩)⟩
    | false => exact .inl ⟨rfl, _, rfl⟩
  | produced ou =>
    refine .inr ⟨_, rfl, ?_⟩
    simp only [applyStatePatch, finishOutput, KeepsToLane]
    cases hc : ou.control with
    | none => exact .inr (.inl ⟨_, rfl, .rfl⟩)
    | some co =>
      cases co with
      | interrupt gate payload => exact .inl ⟨trivial, .inl rfl⟩
      | reenter afterMs =>
        refine .inr (.inr ⟨id, ?_⟩)
        dsimp only
        split_ifs
        · exact ⟨_, _, rfl, slotUpdate_items _ _ _ _⟩
        · exact ⟨_, _, rfl, slotUpdate_items _ _ _ _⟩
      | scatter lanes => exact .inr (.inr ⟨id, _, _, rfl, (slotUpdate_items _ _ _ _).stamp _⟩)
  | failed e =>
    refine .inr ?_
    simp only [commit, finishError, KeepsToLane]
    cases e with
    | none => exact ⟨_, rfl, .inr (.inr ⟨by simp, _, _, rfl, slotUpdate_items _ _ _ _⟩)⟩
    | some e =>
      dsimp only
      split_ifs
      · exact ⟨_, rfl, .inr (.inl ⟨_, rfl, by simp⟩)⟩
      · exact ⟨_, rfl, .inr (.inl ⟨_, rfl, by simp⟩)⟩
      · exact ⟨_, rfl, .inr (.inl ⟨_, rfl, by simp⟩)⟩

theorem KeepsToLane.written (hk : KeepsToLane h o) {la}
    (hr : commit h (some la) st wa none o = .ok r) (hu : written r = some u) :
    u = .obj [] ∨ h.node.id ≠ REPLACE ∧ ∃ slot, u = nest (lanePath h.node.id la.id) slot := by
  obtain ⟨-, e, he⟩ | ⟨r', hr', hc⟩ := commit_lane h o la st wa
  · cases he.symm.trans hr
  · cases hr'.symm.trans hr
    rw [hu] at hc
    obtain ⟨-, hn | hn⟩ | ⟨slot, hn, hi⟩ | ⟨hs, -⟩ := hc
    · cases hn
    · exact .inl (some.inj hn)
    · exact .inr ⟨hi.mp hk, slot, some.inj hn⟩
    · exact absurd hk hs

theorem strays_of_not_keepsToLane (hk : ¬ KeepsToLane h o) (la st wa) : ∃ r u, commit h
    (some la) st wa none o = .ok r ∧ Engine.written r = some u ∧
      ¬ ConfinedTo (lanePath h.node.id la.id) u := by
  obtain ⟨hs, -⟩ | ⟨r, hr, ⟨hs, -⟩ | ⟨slot, hn, hi⟩ | ⟨-, u, fs, hu, hs⟩⟩ := commit_lane h o la st wa
  · exact absurd hs hk
  · exact absurd hs hk
  · refine ⟨r, _, hr, hn, ?_⟩
    rw [not_not.mp (mt hi.mpr hk)]
    exact @not_confinedTo_replace (lanePath REPLACE la.id) rfl _
  · exact ⟨r, u, hr, hu, hs.not_confinedTo _⟩

end Commit

theorem activate_eq (h : HandlerData) (c st ctx) :
    activate h c st ctx = commit h (laneContext ctx.sendArg) ctx.step (c.cancelled .reentry)
      (outcome h c st ctx).2 (outcome h c st ctx).1 := rfl

end Tinyflows.Engine
