import Mathlib.Data.List.ReduceOption
import Tinyflows.Lib.Admission

/-!
# What the admission driver keeps

Every task is admitted once and every slot is filled, whatever order the remaining futures come back
in. That a slot holds its own task's result needs the two vectors to agree.
-/

namespace Tinyflows.Lib.Admission
open List Option Nat Finmap

variable {κ R : Type} [DecidableEq κ] {c : Ceilings κ} {key : Nat → κ} {sel : SelectAll}
  {re : Nat → R} {n : Nat}

variable {k : κ} {l l' : List Nat} {i fu ro p : Nat} {it : HashMap κ Nat} {d : Drive κ R}

theorem tally_append : tally key k (l ++ l') = tally key k l + tally key k l' := by
  rw [tally, map_append, count_append]; rfl

theorem tally_singleton : tally key k [i] = if key i = k then 1 else 0 := by
  simp [tally, count_singleton]

theorem tally_perm (h : l.Perm l') : tally key k l = tally key k l' :=
  (h.map key).count_eq k

/-! ## The invariant -/

/-- The ceilings hold of the recorded indices, every task is started or queued, and every slot is
filled once its index is neither recorded as running nor queued. -/
structure Inv (c : Ceilings κ) (key : Nat → κ) (n : Nat) (d : Drive κ R) : Prop where
  sameLength : d.running.length = d.runningIndex.length
  counted : ∀ k, (d.inFlight.lookup k).getD 0 = tally key k d.runningIndex
  underLimit : d.running.length ≤ c.limit
  underCap : ∀ k m, c.cap k = some m → tally key k d.runningIndex ≤ m
  startedOnce : (d.started ++ d.queue).Perm (List.range n)
  unfilled : (d.runningIndex ++ d.queue).Subperm (List.range n)
  slotsLength : d.slots.length = n
  filled : ∀ i < n, i ∈ d.runningIndex ++ d.queue ∨ ∃ r, d.slots[i]? = some (some r)

theorem inFlight_admitReady (h : ∀ k, (it.lookup k).getD 0 = tally key k l) (k) :
    ((it.insert (key i) ((it.lookup (key i)).getD 0 + 1)).lookup k).getD 0 =
      tally key k (l ++ [i]) := by
  rw [tally_append, tally_singleton]
  by_cases hk : key i = k
  · subst hk; rw [lookup_insert, getD_some, h, if_pos rfl]
  · rw [lookup_insert_of_ne _ (Ne.symm hk), h, if_neg hk, add_zero]

theorem inFlight_release (h : ∀ k, (it.lookup k).getD 0 = tally key k l) (hl : l.Perm (i :: l'))
    (k) : ((release it (key i)).lookup k).getD 0 = tally key k l' := by
  have hk := h k
  have hi := h (key i)
  rw [tally_perm hl, ← singleton_append, tally_append, tally_singleton] at hk hi
  rw [if_pos rfl] at hi
  unfold release
  cases hc : it.lookup (key i) with
  | none => rw [hc, getD_none] at hi; omega
  | some co =>
    rw [hc, getD_some] at hi
    simp only
    by_cases he : key i = k
    · subst he; rw [lookup_insert, getD_some]; omega
    · rw [lookup_insert_of_ne _ (Ne.symm he), hk, if_neg he, zero_add]

theorem admissible_underCap (h : Inv c key n d) (ha : admissible c key d.inFlight i = true) {m}
    (hm : c.cap k = some m) : tally key k (d.runningIndex ++ [i]) ≤ m := by
  rw [tally_append, tally_singleton]
  by_cases hk : key i = k
  · subst hk
    simp only [admissible, hm, decide_eq_true_eq, h.counted] at ha
    rw [if_pos rfl]; omega
  · rw [if_neg hk, add_zero]; exact h.underCap k m hm

def admitted (key : Nat → κ) (d : Drive κ R) (i : Nat) : Drive κ R :=
  { d with
    queue := d.queue.erase i
    inFlight := d.inFlight.insert (key i) ((d.inFlight.lookup (key i)).getD 0 + 1)
    running := d.running ++ [i]
    runningIndex := d.runningIndex ++ [i]
    started := d.started ++ [i] }

theorem admitReady_ind {P : Drive κ R → Prop}
    (hs : ∀ {d i}, d.running.length < c.limit → i ∈ d.queue → admissible c key d.inFlight i = true →
      P d → P (admitted key d i)) (h : P d) : P (admitReady c key fu d) := by
  induction fu generalizing d with
  | zero => exact h
  | succ fu ih =>
    simp only [admitReady]
    split
    · rename_i hl
      split
      · exact h
      · rename_i i hi
        exact ih (hs hl (mem_of_find?_eq_some hi) (find?_some hi) h)
    · exact h

omit [DecidableEq κ] in
theorem perm_admitted (l) (hi : i ∈ d.queue) : (l ++ [i] ++ d.queue.erase i).Perm (l ++ d.queue) := by
  rw [append_assoc, singleton_append]
  exact (perm_cons_erase hi).symm.append_left l

theorem Inv.admitted (h : Inv c key n d) (hl : d.running.length < c.limit) (hi : i ∈ d.queue)
    (ha : admissible c key d.inFlight i = true) : Inv c key n (admitted key d i) where
  sameLength := by simp [Admission.admitted, h.sameLength]
  counted := inFlight_admitReady h.counted
  underLimit := by simp only [Admission.admitted, length_append, length_singleton]; omega
  underCap k m hm := admissible_underCap h ha hm
  startedOnce := (perm_admitted _ hi).trans h.startedOnce
  unfilled := (perm_admitted _ hi).subperm.trans h.unfilled
  slotsLength := h.slotsLength
  filled j hj := (h.filled j hj).imp_left (perm_admitted _ hi).mem_iff.mpr

theorem Inv.admitReady (h : Inv c key n d) : Inv c key n (admitReady c key fu d) :=
  admitReady_ind (fun hl hi ha h => h.admitted hl hi ha) h

def Saturated (c : Ceilings κ) (key : Nat → κ) (d : Drive κ R) : Prop :=
  d.running.length < c.limit → ∀ i ∈ d.queue, admissible c key d.inFlight i = false

theorem saturated_admitReady (hf : d.queue.length ≤ fu) : Saturated c key (admitReady c key fu d) := by
  induction fu generalizing d with
  | zero =>
    intro _ i hi
    have hn : d.queue = [] := eq_nil_of_length_eq_zero (by omega)
    rw [Admission.admitReady, hn] at hi
    cases hi
  | succ fu ih =>
    simp only [Admission.admitReady]
    split
    · split
      · rename_i ho
        intro _ i hi
        simpa using find?_eq_none.mp ho i hi
      · rename_i i hi
        apply ih
        have := length_erase_of_mem (mem_of_find?_eq_some hi)
        have hp := length_pos_of_mem (mem_of_find?_eq_some hi)
        simp only
        omega
    · rename_i hl
      intro hl'; exact absurd hl' hl

theorem Inv.admitAll (h : Inv c key n d) :
    Inv c key n (admitAll c key d) ∧ Saturated c key (admitAll c key d) :=
  ⟨h.admitReady, saturated_admitReady (le_refl _)⟩

theorem slots_admitReady : (admitReady c key fu d).slots = d.slots :=
  admitReady_ind (P := (·.slots = d.slots)) (fun _ _ _ h => h) rfl

theorem perm_admitReady (c key fu) (d : Drive κ R) : ((admitReady c key fu d).runningIndex ++
    (admitReady c key fu d).queue).Perm (d.runningIndex ++ d.queue) :=
  admitReady_ind (P := fun e => (e.runningIndex ++ e.queue).Perm (d.runningIndex ++ d.queue))
    (fun _ hi _ h => (perm_admitted _ hi).trans h) (.refl _)

theorem admit_appends (c key fu) (d : Drive κ R) :
    ∃ ad, (admitReady c key fu d).running = d.running ++ ad ∧
      (admitReady c key fu d).runningIndex = d.runningIndex ++ ad := by
  refine admitReady_ind
    (P := fun e => ∃ ad, e.running = d.running ++ ad ∧ e.runningIndex = d.runningIndex ++ ad)
    ?_ ⟨[], by simp⟩
  rintro e i - - - ⟨ad, h1, h2⟩
  exact ⟨ad ++ [i], by simp [admitted, h1], by simp [admitted, h2]⟩

/-! ## Rounds -/

def file (key : Nat → κ) (sel : SelectAll) (results : Nat → R) (round : Nat) (d : Drive κ R)
    (position branch index : Nat) : Drive κ R :=
  { d with
    inFlight := release d.inFlight (key index)
    slots := d.slots.set index (some (results branch))
    running := sel.rest round d.running position
    runningIndex := d.runningIndex.eraseIdx position }

theorem finishOne_nil (h : d.running = []) : finishOne c key sel re ro d = d := by
  simp [finishOne, h]

theorem finishOne_file (c key sel re ro) (h : d.running ≠ [])
    (hl : d.running.length = d.runningIndex.length) :
    ∃ (p : Nat) (hp : p < d.running.length)
    (hp' : p < d.runningIndex.length), p = sel.ready ro d.running ∧
    finishOne c key sel re ro d =
      admitAll c key (file key sel re ro d p d.running[p] d.runningIndex[p]) := by
  have hp := sel.ready_lt ro d.running h
  refine ⟨sel.ready ro d.running, hp, hl ▸ hp, rfl, ?_⟩
  simp only [finishOne, getElem?_eq_getElem hp, getElem?_eq_getElem (hl ▸ hp)]
  rfl

theorem Inv.file (h : Inv c key n d) (sel re ro)
    (hp : p < d.running.length) (hp' : p < d.runningIndex.length) :
    Inv c key n (file key sel re ro d p d.running[p] d.runningIndex[p]) := by
  have hP : d.runningIndex.Perm (d.runningIndex[p] :: d.runningIndex.eraseIdx p) :=
    (getElem_cons_eraseIdx_perm hp').symm
  have hR : (sel.rest ro d.running p).length = d.running.length - 1 := by
    rw [(sel.rest_perm ro d.running p).length_eq, length_eraseIdx_of_lt hp]
  have hs : (d.runningIndex.eraseIdx p ++ d.queue).Subperm (d.runningIndex ++ d.queue) :=
    ((eraseIdx_sublist _ _).append_right _).subperm
  have hl : d.runningIndex[p] < n := mem_range.mp
    (h.unfilled.subset (mem_append_left _ (getElem_mem hp')))
  exact {
    sameLength := by
      show (sel.rest ro d.running p).length = (d.runningIndex.eraseIdx p).length
      rw [hR, length_eraseIdx_of_lt hp', h.sameLength]
    counted := inFlight_release h.counted hP
    underLimit := by
      show (sel.rest ro d.running p).length ≤ c.limit
      have := h.underLimit; omega
    underCap := fun k m hm => by
      have := h.underCap k m hm
      rw [tally_perm hP, ← singleton_append, tally_append] at this
      show tally key k (d.runningIndex.eraseIdx p) ≤ m
      omega
    startedOnce := h.startedOnce
    unfilled := hs.trans h.unfilled
    slotsLength := by
      show (d.slots.set _ _).length = n
      rw [length_set, h.slotsLength]
    filled := fun i hi => by
      by_cases he : i = d.runningIndex[p]
      · refine .inr ⟨re d.running[p], ?_⟩
        show (d.slots.set d.runningIndex[p] _)[i]? = _
        rw [he, getElem?_set_self (by rw [h.slotsLength]; exact hl)]
      · rcases h.filled i hi with hm | ⟨r, hr⟩
        · left
          rcases mem_append.mp hm with hm | hm
          · rcases mem_cons.mp (hP.mem_iff.mp hm) with hm | hm
            · exact absurd hm he
            · exact mem_append_left _ hm
          · exact mem_append_right _ hm
        · refine .inr ⟨r, ?_⟩
          show (d.slots.set d.runningIndex[p] _)[i]? = _
          rw [getElem?_set_ne (Ne.symm he), hr] }

theorem Inv.init : Inv c key n
    ({ queue := List.range n, slots := List.replicate n none } : Drive κ R) where
  sameLength := rfl
  counted k := by rw [lookup_empty]; rfl
  underLimit := zero_le _
  underCap _ _ _ := zero_le _
  startedOnce := List.Perm.refl _
  unfilled := (List.Perm.refl _).subperm
  slotsLength := length_replicate
  filled i hi := .inl (mem_range.mpr hi)

section Rounds

variable (c key sel re n)

theorem after_inv (k) :
    Inv c key n (after c key sel re n k) ∧ Saturated c key (after c key sel re n k) := by
  induction k with
  | zero => exact Inv.init.admitAll
  | succ k ih =>
    obtain ⟨hi, hs⟩ := ih
    simp only [after]
    by_cases hr : (after c key sel re n k).running = []
    · rw [finishOne_nil hr]; exact ⟨hi, hs⟩
    · obtain ⟨p, hp, hp', _, he⟩ := finishOne_file c key sel re k hr hi.sameLength
      rw [he]
      exact (hi.file sel re k hp hp').admitAll

/-- The rule for the driver: what admitting and filing keep holds after every round. -/
theorem after_ind {P : Drive κ R → Prop}
    (hn : P { queue := List.range n, slots := List.replicate n none })
    (ha : ∀ {fu d}, P d → P (admitReady c key fu d))
    (hf : ∀ {k d p}, after c key sel re n k = d → P d → (hp : p < d.running.length) →
      (hp' : p < d.runningIndex.length) → P (file key sel re k d p d.running[p] d.runningIndex[p]))
    (k) : P (after c key sel re n k) := by
  induction k with
  | zero => exact ha hn
  | succ k ih =>
    simp only [after]
    by_cases hr : (after c key sel re n k).running = []
    · rw [finishOne_nil hr]; exact ih
    · obtain ⟨p, hp, hp', _, he⟩ := finishOne_file c key sel re k hr (after_inv ..).1.sameLength
      rw [he]
      exact ha (hf rfl ih hp hp')

end Rounds

/-! ## Every task runs -/

section Ends

variable (hlimit : 1 ≤ c.limit) (hcap : ∀ k m, c.cap k = some m → 1 ≤ m)
include hlimit hcap

theorem queue_nil {d : Drive κ R} (h : Inv c key n d) (hs : Saturated c key d)
    (hr : d.running = []) : d.queue = [] := by
  by_contra hq
  obtain ⟨i, hi⟩ := exists_mem_of_ne_nil _ hq
  have hd : d.runningIndex = [] := eq_nil_of_length_eq_zero (by rw [← h.sameLength, hr]; rfl)
  have hb := hs (by rw [hr]; exact hlimit) i hi
  unfold admissible at hb
  split at hb
  · cases hb
  · rename_i m hm
    have hp := hcap _ m hm
    rw [h.counted, hd] at hb
    simp only [tally, map_nil, count_nil, decide_eq_false_iff_not] at hb
    omega

theorem after_rest (key : Nat → κ) (sel) (re : Nat → R) (n k) :
    (after c key sel re n k).runningIndex.length + (after c key sel re n k).queue.length = n - k := by
  have hl : ∀ {fu : Nat} {d : Drive κ R}, (admitReady c key fu d).runningIndex.length +
      (admitReady c key fu d).queue.length = d.runningIndex.length + d.queue.length :=
    fun {fu d} => by simpa using (perm_admitReady c key fu d).length_eq
  induction k with
  | zero => rw [after, start, admitAll, hl]; simp
  | succ k ih =>
    obtain ⟨hi, hs⟩ := after_inv c key sel re n k
    simp only [after]
    by_cases hr : (after c key sel re n k).running = []
    · rw [finishOne_nil hr]
      have hq := queue_nil hlimit hcap hi hs hr
      have hd := hi.sameLength
      rw [hr] at hd
      rw [hq] at ih ⊢
      simp only [length_nil] at hd ih ⊢
      omega
    · obtain ⟨p, _, hp', _, he⟩ := finishOne_file c key sel re k hr hi.sameLength
      rw [he, admitAll, hl]
      simp only [file, length_eraseIdx_of_lt hp']
      omega

theorem after_ends (key sel) (re : Nat → R) (n) :
    (after c key sel re n n).running = [] ∧
    (after c key sel re n n).runningIndex = [] ∧
    (after c key sel re n n).queue = [] := by
  have hr := after_rest hlimit hcap key sel re n n
  have hi : (after c key sel re n n).runningIndex = [] :=
    eq_nil_of_length_eq_zero (by omega)
  refine ⟨eq_nil_of_length_eq_zero ?_, hi, eq_nil_of_length_eq_zero (by omega)⟩
  rw [(after_inv c key sel re n n).1.sameLength, hi]; rfl

theorem after_started : (after c key sel re n n).started.Perm (List.range n) := by
  have h := (after_inv c key sel re n n).1.startedOnce
  rwa [(after_ends hlimit hcap key sel re n).2.2, append_nil] at h

theorem after_filled {i} (hi : i < n) :
    ∃ r, (after c key sel re n n).slots[i]? = some (some r) := by
  obtain ⟨_, hd, hq⟩ := after_ends hlimit hcap key sel re n
  refine ((after_inv c key sel re n n).1.filled i hi).resolve_left ?_
  rw [hd, hq]; exact not_mem_nil

end Ends

/-! ## When the two vectors agree -/

/-- The futures stand where their indices are recorded, and every filled slot is right. -/
structure Synced (results : Nat → R) (d : Drive κ R) : Prop where
  running : d.running = d.runningIndex
  slots : ∀ i r, d.slots[i]? = some (some r) → r = results i

theorem Synced.admitReady (h : Synced re d) : Synced re (admitReady c key fu d) := by
  obtain ⟨ad, h1, h2⟩ := admit_appends c key fu d
  exact ⟨by rw [h1, h2, h.running], by rw [slots_admitReady]; exact h.slots⟩

theorem Synced.file (h : Synced re d) (hp : p < d.running.length) (hp' : p < d.runningIndex.length)
    (hR : sel.rest ro d.running p = d.running.eraseIdx p) :
    Synced re (file key sel re ro d p d.running[p] d.runningIndex[p]) := by
  constructor
  · show sel.rest ro d.running p = d.runningIndex.eraseIdx p
    rw [hR, h.running]
  · intro i r hr
    have hr : (d.slots.set d.runningIndex[p] (some (re d.running[p])))[i]? = some (some r) := hr
    have hs : d.running[p] = d.runningIndex[p] := by simp only [h.running]
    rw [getElem?_set] at hr
    split at hr
    · rename_i he
      split at hr
      · simp only [some.injEq] at hr
        rw [← hr, hs, he]
      · cases hr
    · exact h.slots i r hr

omit [DecidableEq κ] in
theorem Synced.init : Synced re
    ({ queue := List.range n, slots := List.replicate n none } : Drive κ R) := by
  refine ⟨rfl, fun i r hr => ?_⟩
  rw [getElem?_replicate] at hr
  split at hr
  · simp at hr
  · cases hr

theorem after_synced (hk : ∀ k, (after c key sel re n k).running.length ≤ 2) :
    ∀ k, Synced re (after c key sel re n k) := by
  refine after_ind c key sel re n Synced.init Synced.admitReady fun {k d p} he h hp hp' => h.file hp hp' ?_
  have hP := sel.rest_perm k d.running p
  have hn : (d.running.eraseIdx p).length ≤ 1 := by
    rw [length_eraseIdx_of_lt hp, ← he]
    have := hk k; omega
  match hl : d.running.eraseIdx p, hn with
  | [], _ => rw [hl] at hP; exact hP.eq_nil
  | [x], _ => rw [hl] at hP; exact perm_singleton.mp hP

/-! ## How many run at once -/

theorem tally_le_share (hl : l.Subperm (List.range n)) (hk : ∀ m, c.cap k = some m → tally key k l ≤ m) :
    tally key k l ≤ share c key n k := by
  have he : tally key k l ≤ tally key k (List.range n) := by
    obtain ⟨l', hp, hs⟩ := hl
    rw [← tally_perm hp]
    exact (hs.map key).count_le k
  unfold share
  split
  · exact he
  · exact le_min (hk _ ‹_›) he

theorem length_eq_sum_tally (key l) {s : Finset κ} (hs : ∀ i ∈ l, key i ∈ s) :
    l.length = ∑ k ∈ s, tally key k l := by
  have hu : (l.map key).toFinset ⊆ s := by
    intro k hk
    obtain ⟨i, hi, rfl⟩ := mem_map.mp (mem_toFinset.mp hk)
    exact hs i hi
  rw [← Finset.sum_subset hu]
  · exact ((sum_toFinset_count_eq_length (l.map key)).trans (length_map _)).symm
  · intro k _ hk
    exact count_eq_zero.mpr (fun h => hk (mem_toFinset.mpr h))

theorem Inv.length_le_peak (h : Inv c key n d) : d.running.length ≤ peak c key n := by
  have hs : d.runningIndex.Subperm (List.range n) :=
    (sublist_append_left _ _).subperm.trans h.unfilled
  refine le_min h.underLimit ?_
  rw [h.sameLength, length_eq_sum_tally key d.runningIndex (s := ((List.range n).map key).toFinset)]
  · exact Finset.sum_le_sum fun k _ => tally_le_share hs (h.underCap k)
  · intro i hi
    exact mem_toFinset.mpr (mem_map_of_mem (hs.subset hi))

theorem peak_le_length (h : Inv c key n d) (hs : Saturated c key d)
    (ha : (d.runningIndex ++ d.queue).Perm (List.range n)) : peak c key n ≤ d.running.length := by
  rcases lt_or_ge d.running.length c.limit with hl | hg
  · refine (min_le_right _ _).trans ?_
    rw [h.sameLength, length_eq_sum_tally key d.runningIndex (s := ((List.range n).map key).toFinset)]
    · refine Finset.sum_le_sum fun k _ => ?_
      have hu : tally key k (List.range n) = tally key k d.runningIndex + tally key k d.queue := by
        rw [← tally_append, tally_perm ha]
      unfold share
      by_cases hq : ∃ i ∈ d.queue, key i = k
      · obtain ⟨i, hi, rfl⟩ := hq
        have hb := hs hl i hi
        unfold admissible at hb
        split at hb
        · cases hb
        · rename_i m hm
          rw [h.counted, decide_eq_false_iff_not] at hb
          exact (min_le_left _ _).trans (not_lt.mp hb)
      · have hz : tally key k d.queue = 0 := by
          refine count_eq_zero.mpr fun hk => hq ?_
          obtain ⟨i, hi, he⟩ := mem_map.mp hk
          exact ⟨i, hi, he⟩
        rw [hu, hz, add_zero]
        split
        · exact le_refl _
        · exact min_le_right _ _
    · intro i hi
      exact mem_toFinset.mpr (mem_map_of_mem (ha.subset (mem_append_left _ hi)))
  · exact (min_le_left _ _).trans hg

theorem finishOne_settled (c : Ceilings κ) (key sel re ro) (hl : d.running.length = d.runningIndex.length) {y}
    (hy : y ∉ d.runningIndex ++ d.queue) :
    (finishOne c key sel re ro d).slots[y]? = d.slots[y]? ∧
    y ∉ (finishOne c key sel re ro d).runningIndex ++ (finishOne c key sel re ro d).queue := by
  by_cases hr : d.running = []
  · rw [finishOne_nil hr]; exact ⟨rfl, hy⟩
  · obtain ⟨p, _, hp', _, he⟩ := finishOne_file c key sel re ro hr hl
    rw [he, admitAll, slots_admitReady, (perm_admitReady ..).mem_iff]
    constructor
    · refine getElem?_set_ne ?_
      rintro rfl
      exact hy (mem_append_left _ (getElem_mem hp'))
    · intro hm
      refine hy ?_
      rcases mem_append.mp hm with hm | hm
      · exact mem_append_left _ (mem_of_mem_eraseIdx hm)
      · exact mem_append_right _ hm

theorem after_settled {k j y}
    (hy : y ∉ (after c key sel re n k).runningIndex ++ (after c key sel re n k).queue) :
    (after c key sel re n (k + j)).slots[y]? = (after c key sel re n k).slots[y]? ∧
    y ∉ (after c key sel re n (k + j)).runningIndex ++ (after c key sel re n (k + j)).queue := by
  induction j with
  | zero => exact ⟨rfl, hy⟩
  | succ j ih =>
    obtain ⟨h1, h2⟩ := finishOne_settled c key sel re (k + j)
      (after_inv c key sel re n (k + j)).1.sameLength ih.2
    exact ⟨h1.trans ih.1, h2⟩

theorem after_sourced {k : Nat} {r} (h : (after c key sel re n k).slots[i]? = some (some r)) :
    ∃ b, r = re b := by
  refine after_ind c key sel re n (P := fun d => ∀ i r, d.slots[i]? = some (some r) → ∃ b, r = re b)
    ?_ ?_ ?_ k i r h
  · intro i r h
    exact absurd (eq_of_mem_replicate (mem_of_getElem? h)) (some_ne_none r)
  · intro fu d hd
    rwa [slots_admitReady]
  · intro k d p _ hd hp hp' i r h
    rw [file, getElem?_set] at h
    split at h
    · split at h
      · simp only [some.injEq] at h
        exact ⟨_, h.symm⟩
      · cases h
    · exact hd i r h

/-! ## No result is lost -/

theorem reduceOption_set {α : Type} {l : List (Option α)} (h : l[i]? = some none) (a) :
    (l.set i (some a)).reduceOption.Perm (a :: l.reduceOption) := by
  induction l generalizing i with
  | nil => cases h
  | cons x l ih =>
    cases i with
    | zero =>
      obtain rfl : x = none := by simpa using h
      rw [set_cons_zero, reduceOption_cons_of_some, reduceOption_cons_of_none]
    | succ i =>
      rw [set_cons_succ]
      have hi := ih (i := i) (by simpa using h)
      cases x with
      | none => simpa only [reduceOption_cons_of_none] using hi
      | some b =>
        simp only [reduceOption_cons_of_some]
        exact (hi.cons b).trans (List.Perm.swap a b _)

/-- The slots still to be filled are empty, and the results already filed are those of all tasks that
are neither running nor queued. -/
structure Filed (results : Nat → R) (n : Nat) (d : Drive κ R) : Prop where
  empty : ∀ i ∈ d.runningIndex ++ d.queue, d.slots[i]? = some none
  all : (d.slots.reduceOption ++ (d.running ++ d.queue).map results).Perm
    ((List.range n).map results)

omit [DecidableEq κ] in
theorem Filed.init : Filed re n
    ({ queue := List.range n, slots := List.replicate n none } : Drive κ R) where
  empty i hi := by
    rw [getElem?_replicate, if_pos (mem_range.mp hi)]
  all := by
    rw [reduceOption_replicate_none]
    exact List.Perm.refl _

theorem Filed.admitReady (h : Filed re n d) : Filed re n (admitReady c key fu d) := by
  obtain ⟨ad, h1, h2⟩ := admit_appends c key fu d
  constructor
  · intro i hi
    rw [slots_admitReady]
    exact h.empty i ((perm_admitReady ..).mem_iff.mp hi)
  · have h5 := perm_admitReady c key fu d
    rw [h2, append_assoc, perm_append_left_iff] at h5
    rw [slots_admitReady, h1, append_assoc]
    exact (((h5.append_left d.running).map re).append_left _).trans h.all

theorem Filed.file (h : Filed re n d) (hn : Inv c key n d) (hp : p < d.running.length)
    (hp' : p < d.runningIndex.length) :
    Filed re n (file key sel re ro d p d.running[p] d.runningIndex[p]) := by
  have hm : d.runningIndex[p] ∈ d.runningIndex ++ d.queue :=
    mem_append_left _ (getElem_mem hp')
  constructor
  · intro i hi
    show (d.slots.set d.runningIndex[p] _)[i]? = _
    obtain ⟨l, he, hu⟩ := hn.unfilled
    have ho : (d.runningIndex ++ d.queue).Nodup :=
      he.nodup_iff.mp (hu.nodup nodup_range)
    have hs : (d.runningIndex ++ d.queue).Perm
        (d.runningIndex[p] :: (d.runningIndex.eraseIdx p ++ d.queue)) :=
      (getElem_cons_eraseIdx_perm hp').symm.append_right d.queue
    have hN : d.runningIndex[p] ≠ i := by
      rintro rfl
      exact (nodup_cons.mp (hs.nodup_iff.mp ho)).1 hi
    rw [getElem?_set_ne hN]
    exact h.empty i (hs.mem_iff.mpr (mem_cons_of_mem _ hi))
  · show ((d.slots.set d.runningIndex[p] _).reduceOption ++
      (sel.rest ro d.running p ++ d.queue).map re).Perm _
    refine List.Perm.trans ?_ h.all
    have hr : (re d.running[p] :: (sel.rest ro d.running p).map re).Perm (d.running.map re) :=
      (((sel.rest_perm ro d.running p).cons d.running[p]).trans (getElem_cons_eraseIdx_perm hp)).map re
    rw [map_append, map_append]
    refine ((reduceOption_set (h.empty _ hm) _).append_right _).trans ?_
    refine List.Perm.trans ?_ ((hr.append_right _).append_left _)
    exact perm_middle.symm

theorem after_filed (c key sel re n) : ∀ k, Filed (κ := κ) (R := R) re n (after c key sel re n k) :=
  after_ind _ _ _ _ _ Filed.init Filed.admitReady fun he h hp hp' =>
    h.file (he ▸ (after_inv ..).1) hp hp'

theorem finishOne_first (re : Nat → R) (ro) (h : Inv c key n d) {b run idx}
    (hr : d.running = b :: run) (hd : d.runningIndex = i :: idx) :
    ∃ e am, finishOne c key firstReady re ro d = e ∧ Inv c key n e ∧
      e.running = swapRemove (b :: run) 0 ++ am ∧ e.runningIndex = idx ++ am ∧
      e.slots[i]? = some (some (re b)) ∧ i ∉ e.runningIndex ++ e.queue := by
  obtain ⟨p, hp, hp', hp0, he⟩ := finishOne_file c key firstReady re ro (by rw [hr]; exact cons_ne_nil _ _)
    h.sameLength
  obtain rfl : p = 0 := hp0
  have hb : d.running[0] = b := by simp only [hr, getElem_cons_zero]
  have hi : d.runningIndex[0] = i := by simp only [hd, getElem_cons_zero]
  have hn := ((h.file firstReady re ro hp hp').admitAll).1
  rw [hb, hi] at he hn
  obtain ⟨am, h1, h2⟩ := admit_appends c key _ (file key firstReady re ro d 0 b i)
  obtain ⟨l, hP, hs⟩ := h.unfilled
  have ho : (d.runningIndex ++ d.queue).Nodup :=
    hP.nodup_iff.mp (hs.nodup nodup_range)
  have hl : i < d.slots.length := by
    rw [h.slotsLength]
    exact mem_range.mp (h.unfilled.subset (by rw [hd]; simp))
  refine ⟨_, am, he, hn, ?_, ?_, ?_, ?_⟩
  · rw [admitAll, h1]
    show swapRemove d.running 0 ++ am = _
    rw [hr]
  · rw [admitAll, h2]
    show d.runningIndex.eraseIdx 0 ++ am = _
    rw [hd, eraseIdx_cons_zero]
  · rw [admitAll, slots_admitReady]
    exact getElem?_set_self hl
  · rw [admitAll, (perm_admitReady ..).mem_iff]
    show i ∉ d.runningIndex.eraseIdx 0 ++ d.queue
    rw [hd, cons_append] at ho
    rw [hd, eraseIdx_cons_zero]
    exact (nodup_cons.mp ho).1

/-- Where three tasks can run at once, some completion order files the result of one task under the
index of another; the task that finished first is filed correctly. -/
theorem after_misfiles (R : Type) (c) (key : Nat → κ) {n}
    (hk : 3 ≤ peak c key n) : ∃ x y z, x < n ∧ y < n ∧ z < n ∧ x ≠ y ∧ x ≠ z ∧
    y ≠ z ∧ ∀ re : Nat → R, (after c key firstReady re n n).slots[x]? = some (some (re x)) ∧
      (after c key firstReady re n n).slots[y]? = some (some (re z)) := by
  obtain ⟨hn, ha⟩ : Inv c key n (start c key n : Drive κ R) ∧
    Saturated c key (start c key n : Drive κ R) := Inv.init.admitAll
  obtain ⟨am, h1, h2⟩ := admit_appends c key (List.range n).length
    ({ queue := List.range n, slots := List.replicate n none } : Drive κ R)
  change (start c key n : Drive κ R).running = [] ++ am at h1
  change (start c key n : Drive κ R).runningIndex = [] ++ am at h2
  rw [nil_append] at h1 h2
  have hl : 3 ≤ am.length := by
    rw [← h1]; exact hk.trans (peak_le_length hn ha (perm_admitReady ..))
  obtain ⟨x, y, ws, z, rfl⟩ : ∃ x y ws z, am = x :: y :: (ws ++ [z]) := by
    match am, hl with
    | x :: y :: w :: ws, _ =>
      exact ⟨x, y, (w :: ws).dropLast, (w :: ws).getLast (by simp), by
        rw [dropLast_append_getLast]⟩
  obtain ⟨l, hp, hs⟩ := hn.unfilled
  have ho : ((start c key n : Drive κ R).runningIndex ++ (start c key n : Drive κ R).queue).Nodup :=
    hp.nodup_iff.mp (hs.nodup nodup_range)
  have hm : ∀ i ∈ x :: y :: (ws ++ [z]), i < n := fun i hi => mem_range.mp
    (hn.unfilled.subset (mem_append_left _ (by rw [h2]; exact hi)))
  rw [h2] at ho
  simp only [cons_append, nodup_cons, mem_cons, mem_append, not_or] at ho
  obtain ⟨j, rfl⟩ : ∃ j, n = 2 + j := by
    have hL := hs.length_le
    rw [hp.length_eq, length_append, h2, length_range] at hL
    exact ⟨n - 2, by omega⟩
  refine ⟨x, y, z, hm x (by simp), hm y (by simp), hm z (by simp), ho.1.1,
    ho.1.2.1.2.1, ho.2.1.1.2.1, fun re => ?_⟩
  obtain ⟨e, a₁, he, hn₁, hr₁, hd₁, hx, hx'⟩ := finishOne_first re 0 hn h1 h2
  rw [← cons_append, ← cons_append, swapRemove_concat _ _ (by simp), set_cons_zero, cons_append] at hr₁
  rw [cons_append] at hd₁
  obtain ⟨f, a₂, hf, -, -, -, hy, hy'⟩ := finishOne_first re 1 hn₁ hr₁ hd₁
  have hx₂ := finishOne_settled c key firstReady re 1 hn₁.sameLength hx'
  have ht : after c key firstReady re (2 + j) 2 = f := by
    rw [← hf, ← he]; rfl
  rw [hf] at hx₂
  constructor
  · rw [(after_settled (k := 2) (by rw [ht]; exact hx₂.2)).1, ht, hx₂.1, hx]
  · rw [(after_settled (k := 2) (by rw [ht]; exact hy')).1, ht, hy]

end Tinyflows.Lib.Admission
