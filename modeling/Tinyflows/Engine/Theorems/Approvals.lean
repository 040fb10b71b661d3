import Tinyflows.Engine.Approvals

/-!
# Where approvals come from
-/

namespace Tinyflows.Engine
open Lib

theorem resumedInput_concat (input resumes ids) :
    resumedInput input (resumes ++ [ids]) =
      mergeApprovals (resumedInput input resumes) ids := by
  simp [resumedInput]

variable {id : String} {resumes : List (List String)}

theorem mem_resumedInput_approvals {input} : id ∈ (resumedInput input resumes).approvals ↔
      (∃ ids ∈ resumes, id ∈ ids) ∨ id ∈ input.approvals := by
  induction resumes using List.reverseRecOn with
  | nil => simp [resumedInput]
  | append_singleton resumes ids ih =>
    rw [resumedInput_concat, mem_mergeApprovals, ih]
    simp only [List.mem_append, List.mem_singleton]
    grind

theorem resumedInput_approvals_subset {trigger} (h : id ∈ (resumedInput (.new trigger) resumes).approvals) :
    id ∈ triggerApprovals (resumedInput (.new trigger) resumes).trigger := by
  induction resumes using List.reverseRecOn with
  | nil => simp [resumedInput, RunInput.new] at h
  | append_singleton resumes ids ih =>
    rw [resumedInput_concat] at h ⊢
    exact mem_triggerApprovals_mergeApprovals.mpr (.inr (mem_mergeApprovals.mp h))

/-- After any chain of resumes, one more resume explicitly approves what it was given and what was
explicitly approved before, all of which some resume or the initial input named; the ids of the
payload never get there. The trigger then lists exactly what it listed and what is explicitly
approved, which for a run started from a payload is what it listed and what the resume was given. -/
theorem approval_provenance (input : RunInput) (trigger : Json) (resumes : List (List String))
    (newlyApproved : List String) (id : String) : (let before := resumedInput input resumes
     let merged := mergeApprovals before newlyApproved
     (id ∈ merged.approvals ↔ id ∈ newlyApproved ∨ id ∈ before.approvals) ∧
     (id ∈ merged.approvals → id ∈ newlyApproved ∨ (∃ ids ∈ resumes, id ∈ ids) ∨ id ∈ input.approvals) ∧
     (id ∈ triggerApprovals merged.trigger ↔
       id ∈ triggerApprovals before.trigger ∨ id ∈ newlyApproved ∨ id ∈ before.approvals)) ∧
    (let before := resumedInput (.new trigger) resumes
     let merged := mergeApprovals before newlyApproved
     id ∈ triggerApprovals merged.trigger ↔
       id ∈ triggerApprovals before.trigger ∨ id ∈ newlyApproved) := by
  refine ⟨⟨mem_mergeApprovals, fun h => ?_, mem_triggerApprovals_mergeApprovals⟩, ?_⟩
  · exact (mem_mergeApprovals.mp h).imp_right mem_resumedInput_approvals.mp
  · refine mem_triggerApprovals_mergeApprovals.trans ⟨?_, Or.imp_right .inl⟩
    rintro (h | h | h)
    · exact .inl h
    · exact .inr h
    · exact .inl (resumedInput_approvals_subset h)

end Tinyflows.Engine
