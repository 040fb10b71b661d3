import Tinyflows.Engine.Activation

/-!
# Where outcomes come from

An output is one that an attempt produced or that a hook put in its place.
-/

namespace Tinyflows.Engine
open Lib Tinyflows.Graph Model Nodes

variable {c : Conduct} {ou : NodeOutput} {h : HandlerData}

theorem attempts_output {ec bo lf k la e} (h : attempts c ec bo lf k la = .settled (some ou) e) :
    ∃ k, c.executor ec k = .ok ou := by
  induction lf generalizing k la with
  | zero => cases h
  | succ lf ih =>
    rw [attempts] at h
    split at h
    · cases h
    · cases he : c.executor ec k with
      | ok ou' =>
        simp only [he, Tried.settled.injEq, Option.some.injEq] at h
        exact ⟨k, h.1 ▸ he⟩
      | error e' =>
        simp only [he] at h
        split at h
        · cases h
        · exact ih h

def NodeOutput.Bare (o : NodeOutput) : Prop :=
  o.recorded = none ∧ o.control = none

theorem gates_ne_produced (h : HandlerData) (c st ctx ou) : gates h c st ctx ≠ some (.produced ou) := by
  unfold gates
  dsimp only
  split_ifs <;> simp

/-- The outputs of an activation: what an attempt produced or a hook decided on beforehand, with what
a hook changed afterwards. -/
theorem outcome_produced {st ctx} (hu : (outcome h c st ctx).1 = .produced ou) :
    ∃ ba, (NodeOutput.Bare ba ∨ ∃ ec k, ec.node = h.node ∧ c.executor ec k = .ok ba) ∧
      ou.recorded = ba.recorded ∧ (ou.control = ba.control ∨ ou.control = none) := by
  have ha : ∀ (ec : ExecContext) (de : Option NodeOutput) (ij : Option EngineError),
      ec.node = h.node → (∀ o, de = some o → NodeOutput.Bare o) →
      afterExecution h c ec (execution h c ec de ij) = .produced ou →
      ∃ ba, (NodeOutput.Bare ba ∨ ∃ ec k, ec.node = h.node ∧ c.executor ec k = .ok ba) ∧
        ou.recorded = ba.recorded ∧ (ou.control = ba.control ∨ ou.control = none) := by
    intro ec de ij hd hr ha
    cases ht : execution h c ec de ij with
    | cancelled =>
      rw [ht] at ha
      cases ha
    | settled ba la =>
      -- what the execution settled with, if anything
      have hb : ∀ o, ba = some o →
          NodeOutput.Bare o ∨ ∃ ec k, ec.node = h.node ∧ c.executor ec k = .ok o := by
        rintro o rfl
        unfold execution at ht
        split at ht
        · cases ht
          exact .inl (hr _ rfl)
        · obtain ⟨k, hk⟩ := attempts_output ht
          exact .inr ⟨ec, k, hd, hk⟩
      have hg : NodeOutput.Bare (ba.getD {}) ∨
          ∃ ec k, ec.node = h.node ∧ c.executor ec k = .ok (ba.getD {}) := by
        cases ba with
        | none => exact .inl ⟨rfl, rfl⟩
        | some o => exact hb o rfl
      rw [ht] at ha
      simp only [afterExecution] at ha
      split at ha
      · cases ba with
        | none => cases ha
        | some o =>
          cases ha
          exact ⟨ou, hb ou rfl, rfl, .inl rfl⟩
      · cases ha
        exact ⟨ba.getD {}, hg, rfl, .inr rfl⟩
      · cases ha
        exact ⟨ba.getD {}, hg, rfl, .inr rfl⟩
      · cases ha
      · cases ha
  have hn : ∀ o : NodeOutput, none = some o → NodeOutput.Bare o := fun o ho => nomatch ho
  unfold outcome at hu
  split at hu
  · rename_i gate hG
    dsimp only at hu
    subst hu
    exact absurd hG (gates_ne_produced h c st ctx ou)
  · dsimp only at hu
    split at hu
    · exact ha _ none none rfl hn hu
    · exact ha _ none none rfl hn hu
    · rename_i items port _
      exact ha (execContext h st ctx) (some { items, port }) none rfl
        (fun o ho => Option.some.inj ho ▸ ⟨rfl, rfl⟩) hu
    · exact ha (execContext h st ctx) (some {}) none rfl
        (fun o ho => Option.some.inj ho ▸ ⟨rfl, rfl⟩) hu
    · rename_i message _
      exact ha (execContext h st ctx) none (some (.capability message)) rfl hn hu
    · cases hu

theorem outcome_unedited (hb : ∀ ec, c.before ec = .continue_ none) (st ctx) :
    (outcome h c st ctx).2 = none := by
  unfold outcome
  split
  · rfl
  · dsimp only
    rw [hb]

end Tinyflows.Engine
