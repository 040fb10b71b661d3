import Tinyflows.Graph.Lemmas.Partition
import Tinyflows.Graph.Resume

/-!
# Task ids
-/

namespace Tinyflows.Graph
open Lib List Nat

variable {S U V : Type}

/-! ## Numerals -/

theorem toString_nat_injective : Function.Injective (fun n : Nat => (toString n).toList) := by
  intro a b h
  have hd : toDigits 10 a = toDigits 10 b := by
    simpa only [toString_eq_repr, toList_repr] using h
  simpa only [ofDigitChars_ten_toDigits] using congrArg (fun ds => ofDigitChars 10 ds 0) hd

theorem colon_not_mem_toString (n : Nat) : ':' ∉ (toString n).toList := by
  intro h
  rw [toString_eq_repr, toList_repr] at h
  exact absurd (isDigit_of_mem_toDigits (by decide) (by decide) h) (by decide)

theorem append_cons_inj {α : Type} {sep} {xs ys us vs : List α} (hx : sep ∉ xs) (hy : sep ∉ ys)
    (h : xs ++ sep :: us = ys ++ sep :: vs) : xs = ys ∧ us = vs := by
  induction xs generalizing ys with
  | nil =>
    cases ys with
    | nil => exact ⟨rfl, (List.cons.inj h).2⟩
    | cons y ys => exact absurd ((List.cons.inj h).1 ▸ mem_cons_self) hy
  | cons x xs ih =>
    cases ys with
    | nil => exact absurd ((List.cons.inj h).1 ▸ mem_cons_self) hx
    | cons y ys =>
      obtain ⟨rfl, ht⟩ := List.cons.inj h
      obtain ⟨rfl, hr⟩ := ih (fun hm => hx (mem_cons_of_mem _ hm))
        (fun hm => hy (mem_cons_of_mem _ hm)) ht
      exact ⟨rfl, hr⟩

theorem freshTaskId_toList (st ix nd) : (freshTaskId st ix nd).toList =
    (toString st).toList ++ ':' :: ((toString ix).toList ++ ':' :: nd.toList) := by
  simp only [freshTaskId, String.toList_append, append_assoc]
  rfl

theorem freshTaskId_ne_empty (st ix nd) : freshTaskId st ix nd ≠ "" := by
  intro h
  have hl := congrArg String.toList h
  rw [freshTaskId_toList] at hl
  exact cons_ne_nil _ _ (append_eq_nil_iff.mp hl).2

theorem freshTaskId_index {st i j nd nd'}
    (h : freshTaskId st i nd = freshTaskId st j nd') : i = j := by
  have hl := congrArg String.toList h
  rw [freshTaskId_toList, freshTaskId_toList] at hl
  obtain ⟨-, hr⟩ := append_cons_inj (colon_not_mem_toString _) (colon_not_mem_toString _) hl
  obtain ⟨hi, -⟩ := append_cons_inj (colon_not_mem_toString _) (colon_not_mem_toString _) hr
  exact toString_nat_injective hi

/-! ## Ids in an active set -/

def KeepsApart (active : List (Activation V)) : Prop :=
  active.Pairwise fun a b => a.taskId ≠ "" → a.taskId ≠ b.taskId

variable {ac : List (Activation V)} {b : Boundary S V}

theorem keepsApart_fresh (h : ∀ a ∈ ac, a.taskId = "") : KeepsApart ac :=
  List.Pairwise.imp_of_mem (fun ha _ _ hn => absurd (h _ ha) hn) (pairwise_of_forall fun _ _ => trivial)

theorem assignTaskIds_distinct {st} (ha : KeepsApart ac) (hu : MintsUnused st ac) :
    (assignTaskIds st ac).Pairwise fun a b => a.taskId ≠ b.taskId := by
  rw [pairwise_iff_getElem]
  intro i j hi hj hij
  have hi' : i < ac.length := by simpa [assignTaskIds] using hi
  have hj' : j < ac.length := by simpa [assignTaskIds] using hj
  simp only [assignTaskIds, getElem_mapIdx]
  have hs := pairwise_iff_getElem.mp ha i j hi' hj' hij
  have hm := fun k (hk : k < ac.length) => hu k ac[k] (getElem?_eq_getElem hk)
  by_cases hn : ac[i].taskId = "" <;> by_cases hN : ac[j].taskId = "" <;>
    simp only [hn, hN, if_true, if_false]
  · exact fun he => Nat.ne_of_lt hij (freshTaskId_index he)
  · exact (hm i hi' hn _ (getElem_mem hj')).symm
  · exact hm j hj' hN _ (getElem_mem hi')
  · exact hs hn

/-- What a boundary may record: no pending id is recorded twice, or as completed. -/
structure Boundary.Sound (b : Boundary S V) : Prop where
  apart : KeepsApart b.pending
  separated : ∀ a ∈ b.completedTasks, ∀ p ∈ b.pending, p.taskId ≠ "" → a.taskId ≠ p.taskId

theorem Boundary.sound_fresh (h : ∀ p ∈ b.pending, p.taskId = "") : b.Sound where
  apart := keepsApart_fresh h
  separated _ _ p hp hn := absurd (h p hp) hn

theorem distinct_positions (hd : ac.Pairwise fun a b => a.taskId ≠ b.taskId) {i j : Nat}
    {a b} (hn : i ≠ j) (ha : ac[i]? = some a) (hb : ac[j]? = some b) : a.taskId ≠ b.taskId := by
  obtain ⟨hi, rfl⟩ := List.getElem?_eq_some_iff.mp ha
  obtain ⟨hj, rfl⟩ := List.getElem?_eq_some_iff.mp hb
  rcases lt_or_gt_of_ne hn with hl | hg
  · exact pairwise_iff_getElem.mp hd i j hi hj hl
  · exact (pairwise_iff_getElem.mp hd j i hj hi hg).symm

theorem pauseBoundary_sound {g : CompiledGraph S U V} {fa}
    (hl : fa.length = ac.length) (hd : ac.Pairwise fun a b => a.taskId ≠ b.taskId) {st ba}
    (hb : pauseBoundary g ac (StepRun.ofFates fa) st ba = some (.ok b)) : b.Sound := by
  obtain ⟨pe, routing, successors, hr, hc, -, ho, hp⟩ := pauseBoundary_classes hl hb
  have hf := routeCompleted_fresh ho
  obtain ⟨-, hN, hD⟩ := nodup_append.mp (hr.nodup_iff.mpr nodup_range)
  constructor
  · rw [KeepsApart, hp, pairwise_append]
    refine ⟨keepsApart_fresh hf, ?_, fun a ha _ _ hn => absurd (hf a ha) hn⟩
    rw [activationsAt, pairwise_filterMap]
    exact hN.imp fun hn a ha b hb _ => distinct_positions hd hn ha hb
  · intro a ha p he hn
    rw [hc] at ha
    rw [hp] at he
    obtain ⟨i, hi, hai⟩ := mem_filterMap.mp ha
    rcases mem_append.mp he with hs | he
    · exact absurd (hf p hs) hn
    · obtain ⟨j, hj, hP⟩ := mem_filterMap.mp he
      exact distinct_positions hd (hD i hi j hj) hai hP

end Tinyflows.Graph
