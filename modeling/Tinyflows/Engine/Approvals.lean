import Tinyflows.Engine.State

/-!
# Approvals

A run learns of approvals in two ways: from the payload it was triggered with, and from the host that
resumes it. The two lists are kept apart.
-/

namespace Tinyflows.Engine
open Lib List Json

structure RunInput where
  trigger : Json
  inputs : List (String × Json) := []
  approvals : List String := []
  runId : Option String := none
  deriving DecidableEq

def RunInput.new (trigger : Json) : RunInput := { trigger }

def pushNew (ids : List String) (id : String) : List String :=
  if id ∈ ids then ids else ids ++ [id]

def unionIds (ids extra : List String) : List String :=
  extra.foldl pushNew ids

def listedIds (v : Option Json) : List String :=
  ((v.bind asArray).getD []).filterMap asStr

def triggerApprovals (trigger : Json) : List String :=
  listedIds (trigger.get "approvals")

/-- The input a resume runs the workflow with. A payload that is not an object has no fields to keep
and gives way to one. -/
def mergeApprovals (input : RunInput) (newlyApproved : List String) : RunInput :=
  let explicit := unionIds [] (newlyApproved ++ input.approvals)
  let union := unionIds (triggerApprovals input.trigger) explicit
  let listed := arr (union.map .str)
  { input with
    trigger :=
      match input.trigger with
      | .obj fields => .obj (insertField "approvals" listed fields)
      | _ => .object [("approvals", listed)]
    approvals := explicit }

def resumedInput (input : RunInput) (resumes : List (List String)) : RunInput :=
  resumes.foldl mergeApprovals input

/-! ## Merging approvals -/

variable {id : String} {ip : RunInput} {na : List String}

theorem mem_unionIds {ids extra} : id ∈ unionIds ids extra ↔ id ∈ ids ∨ id ∈ extra := by
  induction extra generalizing ids with
  | nil => simp [unionIds]
  | cons e extra ih =>
    have hp : id ∈ pushNew ids e ↔ id ∈ ids ∨ id = e := by
      unfold pushNew
      split
      · next he => exact ⟨.inl, fun h => h.elim (fun h => h) fun h => h ▸ he⟩
      · simp
    change id ∈ unionIds (pushNew ids e) extra ↔ _
    rw [ih, hp, mem_cons, or_assoc]

theorem listedIds_strs (ids) : listedIds (some (.arr (ids.map .str))) = ids := by
  simp only [listedIds, Option.bind_some, asArray, Option.getD_some, filterMap_map]
  exact filterMap_some

theorem mem_mergeApprovals : id ∈ (mergeApprovals ip na).approvals ↔ id ∈ na ∨ id ∈ ip.approvals := by
  simp only [mergeApprovals, mem_unionIds, mem_append, not_mem_nil, false_or]

theorem triggerApprovals_mergeApprovals (ip na) :
    triggerApprovals (mergeApprovals ip na).trigger =
      unionIds (triggerApprovals ip.trigger) (mergeApprovals ip na).approvals := by
  have hl : ∀ fi : List (String × Json), ∀ ids : List String,
      triggerApprovals (.obj (insertField "approvals" (.arr (ids.map .str)) fi)) = ids := by
    intro fi ids
    rw [triggerApprovals, get_obj, lookup_insertField, if_pos rfl, listedIds_strs]
  unfold mergeApprovals
  cases ip.trigger with
  | obj fi => exact hl fi _
  | _ => exact hl [] _

theorem mem_triggerApprovals_mergeApprovals :
    id ∈ triggerApprovals (mergeApprovals ip na).trigger ↔
      id ∈ triggerApprovals ip.trigger ∨ id ∈ na ∨ id ∈ ip.approvals := by
  rw [triggerApprovals_mergeApprovals, mem_unionIds, mem_mergeApprovals]

end Tinyflows.Engine
