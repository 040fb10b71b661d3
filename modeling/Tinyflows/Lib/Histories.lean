import Mathlib.Data.List.Induction

/-!
# Histories

What was recorded, in order. Every entry is judged by the entries before it.
-/

namespace Tinyflows.Lib
open List

variable {α β : Type} {P : List α → α → Prop} {log : List α} {x : α}

def EveryStep (P : List α → α → Prop) (log : List α) : Prop :=
  ∀ before x after, log = before ++ x :: after → P before x

theorem everyStep_nil : EveryStep P [] := by
  intro be x af h
  simp at h

@[simp] theorem everyStep_append : EveryStep P (log ++ [x]) ↔ EveryStep P log ∧ P log x := by
  constructor
  · intro h
    refine ⟨fun be y af he => h be y (af ++ [x]) (by simp [he]), h log x [] rfl⟩
  · rintro ⟨h, hx⟩ be y af he
    rcases eq_nil_or_concat af with rfl | ⟨rest, z, rfl⟩
    · obtain ⟨rfl, hy⟩ := append_inj' he rfl
      cases hy
      exact hx
    · rw [concat_eq_append, ← cons_append, ← append_assoc] at he
      exact h be y rest (append_inj' he rfl).1

theorem everyStep_iff : EveryStep P log ↔ ∀ n < log.length, ∀ x ∈ log[n]?, P (log.take n) x := by
  induction log using List.reverseRecOn with
  | nil => simp [everyStep_nil]
  | append_singleton log y ih =>
    rw [everyStep_append, ih]
    constructor
    · rintro ⟨h, hy⟩ n hn x hx
      rcases Nat.lt_or_ge n log.length with hl | hg
      · rw [take_append_of_le_length (Nat.le_of_lt hl)]
        exact h n hl x (by rwa [getElem?_append_left hl] at hx)
      · have ha : n = log.length := by simp at hn; omega
        subst ha
        simp only [getElem?_concat_length, Option.mem_def, Option.some.injEq] at hx
        rw [← hx, take_left]
        exact hy
    · intro h
      refine ⟨fun n hn x hx => ?_, ?_⟩
      · have := h n (by simp; omega) x (by rwa [getElem?_append_left hn])
        rwa [take_append_of_le_length (Nat.le_of_lt hn)] at this
      · have := h log.length (by simp) y (by simp)
        rwa [take_left] at this

instance [∀ before x, Decidable (P before x)] : Decidable (EveryStep P log) :=
  decidable_of_iff _ everyStep_iff.symm

def lastOf (f : α → Option β) (log : List α) : Option β :=
  (log.filterMap f).getLast?

variable {f : α → Option β}

@[simp] theorem lastOf_append : lastOf f (log ++ [x]) = (f x).or (lastOf f log) := by
  rw [lastOf, filterMap_append]
  cases hx : f x with
  | none => simp [hx, lastOf]
  | some b => simp [hx]

theorem mem_of_lastOf {b} (h : lastOf f log = some b) : ∃ x ∈ log, f x = some b :=
  mem_filterMap.mp (mem_of_getLast? h)

end Tinyflows.Lib
