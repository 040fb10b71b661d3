import Tinyflows.Cron.Occurrences

/-!
# The search for the next occurrence
-/

namespace Tinyflows.Cron
open List

variable {zone : TimeZone} {plan : CronPlan} {s t u start wall low high : Int}

theorem wallClockInstants_pairwise (hz : zone.Exact) (wall) :
    (wallClockInstants zone wall).Pairwise (· < ·) := by
  unfold wallClockInstants
  split
  · simp
  · next earlier later h => simpa using (hz.ambiguous h).1
  · generalize List.findSome? _ _ = found
    cases found <;> simp

theorem mem_wallClockInstants (hz : zone.Exact) (t) : t ∈ wallClockInstants zone (zone.wallClock t) := by
  unfold wallClockInstants
  split
  · next h => simpa using (hz.single h t).mp rfl
  · next h => simpa using ((hz.ambiguous h).2 t).mp rfl
  · next h => exact absurd rfl (hz.none h t)

theorem wallClock_of_earliest (hz : zone.Exact) (h : (zone.fromLocal wall).earliest = some t) :
    zone.wallClock t = wall := by
  cases hr : zone.fromLocal wall with
  | single t' =>
    rw [hr] at h
    exact (hz.single hr t).mpr (Option.some.inj h).symm
  | ambiguous earlier later =>
    rw [hr] at h
    exact ((hz.ambiguous hr).2 t).mpr (.inl (Option.some.inj h).symm)
  | none =>
    rw [hr] at h
    cases h

/-- When a time runs, the clock shows it, or a later one if it was skipped. -/
theorem le_wallClock_of_mem (hz : zone.Exact) (h : t ∈ wallClockInstants zone wall) :
    wall ≤ zone.wallClock t := by
  unfold wallClockInstants at h
  split at h
  · next hr => exact Int.le_of_eq ((hz.single hr t).mpr (mem_singleton.mp h)).symm
  · next hr => exact Int.le_of_eq (((hz.ambiguous hr).2 t).mpr (by simpa using h)).symm
  · obtain ⟨k, -, hk⟩ := exists_of_findSome?_eq_some (Option.mem_toList.mp h)
    rw [wallClock_of_earliest hz hk]
    simp only [MINUTE_MS]
    omega

theorem find?_after_le {l : List Int} (hl : l.Pairwise (· < ·)) (h : l.find? (s < ·) = some t) :
    t ∈ l ∧ s < t ∧ ∀ u ∈ l, s < u → t ≤ u := by
  obtain ⟨hs, before, after, rfl, hb⟩ := find?_eq_some_iff_append.mp h
  refine ⟨by simp, of_decide_eq_true hs, fun u hu hS => ?_⟩
  rcases mem_append.mp hu with hu | hu
  · exact absurd hS (by simpa using hb u hu)
  · rcases mem_cons.mp hu with rfl | hu
    · exact Int.le_refl _
    · exact Int.le_of_lt ((pairwise_cons.mp (pairwise_append.mp hl).2.1).1 u hu)

section

variable (hz : plan.zone.Exact) (hc : plan.cron.Walks) (h : nextWallClockRun plan.zone plan.cron s = some t)
include hz hc h

theorem nextWallClockRun_spec : ∃ wall, plan.Ahead s wall ∧ t ∈ wallClockInstants plan.zone wall ∧ s < t ∧
      (∀ u ∈ wallClockInstants plan.zone wall, s < u → t ≤ u) ∧
      ∀ wall' < wall, plan.Ahead s wall' → ¬ plan.RunsAfter s wall' := by
  obtain ⟨before, wall, after, hw, hf, hb⟩ := findSome?_eq_some_iff.mp h
  obtain ⟨hm, hs, he⟩ := find?_after_le (wallClockInstants_pairwise hz wall) hf
  have hl : wall ∈ plan.cron.after (plan.zone.wallClock s) := by
    rw [hw]
    simp
  refine ⟨wall, hc.exact.mp hl, hm, hs, he, fun wall' ht ha hr => ?_⟩
  have hl' : wall' ∈ before := by
    have hm' := hc.exact.mpr ha
    rw [hw, mem_append, mem_cons] at hm'
    rcases hm' with hm' | rfl | hm'
    · exact hm'
    · omega
    · have hi := hc.increasing (plan.zone.wallClock s)
      rw [hw] at hi
      have := (pairwise_cons.mp (pairwise_append.mp hi).2.1).1 wall' hm'
      omega
  obtain ⟨u, hu, hS⟩ := hr
  have hn := find?_eq_none.mp (hb wall' hl') u hu
  exact hn (by simpa using hS)

theorem wallClock_lt_of_next : plan.zone.wallClock s < plan.zone.wallClock t := by
  obtain ⟨wall, ha, hm, -⟩ := nextWallClockRun_spec hz hc h
  exact Int.lt_of_lt_of_le ha.2 (le_wallClock_of_mem hz hm)

/-- A candidate does not lie after what comes in order. -/
theorem CronPlan.InOrder.next_le (hm : plan.cron.Matches wall) (hu : u ∈ wallClockInstants plan.zone wall)
    (hsu : s < u) (ho : plan.InOrder s u wall) : t ≤ u := by
  obtain ⟨first, ha, hmem, hst, hl, hf⟩ := nextWallClockRun_spec hz hc h
  have hle : first ≤ wall := by
    by_contra hlt
    exact hf wall (by omega) ⟨hm, ho.ahead⟩ ⟨u, hu, hsu⟩
  rcases Int.lt_or_eq_of_le hle with hlt | rfl
  · obtain ⟨w, hw, haw, i, hi, hsi, hiu⟩ := ho.prompt first hlt ha ⟨t, hmem, hst⟩
    rcases Int.lt_or_eq_of_le hw with hw | rfl
    · exact absurd ⟨i, hi, hsi⟩ (hf w hw haw)
    · exact Int.le_trans (hl i hi hsi) hiu
  · exact hl u hu hsu

/-- Conversely, what a candidate does not lie after comes in order, if its time is ahead. -/
theorem CronPlan.inOrder_of_next_le (hle : t ≤ u) (ha : plan.zone.wallClock s < wall) :
    plan.InOrder s u wall := by
  obtain ⟨first, hahead, hm, hst, -, hf⟩ := nextWallClockRun_spec hz hc h
  refine ⟨ha, fun wall' _ ha' hr => ⟨first, ?_, hahead, t, hm, hst, hle⟩⟩
  by_contra hlt
  exact hf wall' (by omega) ha' hr

end

/-! ## The search -/

variable {budget : Nat}

theorem CronPlan.nextAfter_succ (h : plan.nextAfter (budget + 1) start = .ok t) :
    ∃ next, nextWallClockRun plan.zone plan.cron start = some next ∧
      (plan.InWindow next ∧ next = t ∨ ¬ plan.InWindow next ∧ plan.nextAfter budget next = .ok t) := by
  rw [CronPlan.nextAfter] at h
  split at h
  · cases h
  · next next hn =>
      refine ⟨next, hn, ?_⟩
      split at h
      · next hi => exact .inl ⟨hi, Except.ok.inj h⟩
      · next ho => exact .inr ⟨ho, h⟩

section

variable (hz : plan.zone.Exact) (hc : plan.cron.Walks)
include hz hc

/-- A run lies ahead and inside the window, and its time is ahead of the clock at the start. -/
theorem CronPlan.nextAfter_spec (h : plan.nextAfter budget start = .ok t) :
    start < t ∧ plan.InWindow t ∧ ∃ wall, plan.Ahead start wall ∧ t ∈ wallClockInstants plan.zone wall := by
  induction budget generalizing start with
  | zero => cases h
  | succ budget ih =>
    obtain ⟨next, hn, ha⟩ := CronPlan.nextAfter_succ h
    obtain ⟨wall, hh, hm, hl, -⟩ := nextWallClockRun_spec hz hc hn
    rcases ha with ⟨hi, rfl⟩ | ⟨-, hr⟩
    · exact ⟨hl, hi, wall, hh, hm⟩
    · obtain ⟨hl', hi, wall', hh', hm'⟩ := ih hr
      exact ⟨Int.lt_trans hl hl', hi, wall',
        ⟨hh'.1, Int.lt_trans (wallClock_lt_of_next hz hc hn) hh'.2⟩, hm'⟩

theorem CronPlan.nextAfter_le (h : plan.nextAfter budget start = .ok t) (hu : start < u)
    (hm : plan.cron.Matches wall) (hi : u ∈ wallClockInstants plan.zone wall) (hw : plan.InWindow u)
    (ho : ∀ s, start ≤ s → s < u → plan.InOrder s u wall) : t ≤ u := by
  induction budget generalizing start with
  | zero => cases h
  | succ budget ih =>
    obtain ⟨next, hn, ha⟩ := CronPlan.nextAfter_succ h
    obtain ⟨-, -, -, hl, -⟩ := nextWallClockRun_spec hz hc hn
    have hle := (ho start (Int.le_refl _) hu).next_le hz hc hn hm hi hu
    rcases ha with ⟨-, rfl⟩ | ⟨hout, hr⟩
    · exact hle
    · have hne : next ≠ u := by
        rintro rfl
        exact hout hw
      exact ih hr (by omega) fun s hs => ho s (by omega)

/-- If nothing due is passed over, then everything due comes in order: by the candidates between. -/
theorem CronPlan.dueInOrder_of_nonePassed (hf : plan.Finds (plan.nextAfter (budget + 1)) low high)
    (hn : plan.NonePassed (plan.nextAfter (budget + 1)) low high) : plan.DueInOrder low high := by
  intro s u hs hsu hu hdue
  obtain ⟨n, hd⟩ : ∃ n : Nat, u - s ≤ n := ⟨(u - s).toNat, by omega⟩
  induction n generalizing s with
  | zero => omega
  | succ n ih =>
    obtain ⟨t, ht⟩ := hf s u hs hsu hu ⟨_, hdue.1, mem_wallClockInstants hz u, hdue.2⟩
    have htu : t ≤ u := by
      by_contra hlt
      exact hn s t hs ht u hsu (by omega) hu hdue
    obtain ⟨next, hnext, hor⟩ := CronPlan.nextAfter_succ ht
    obtain ⟨-, -, -, hsn, -⟩ := nextWallClockRun_spec hz hc hnext
    have hnt : next ≤ t := by
      rcases hor with ⟨-, rfl⟩ | ⟨-, hr⟩
      · exact Int.le_refl _
      · exact Int.le_of_lt (CronPlan.nextAfter_spec hz hc hr).1
    have hclock := wallClock_lt_of_next hz hc hnext
    refine inOrder_of_next_le hz hc hnext (Int.le_trans hnt htu) ?_
    rcases Int.lt_or_eq_of_le (Int.le_trans hnt htu) with hlt | rfl
    · exact Int.lt_trans hclock (ih next (by omega) hlt (by omega)).ahead
    · exact hclock

end

theorem nextRunForSchedule_cron {cal spec} (hp : CronPlan.parse cal spec = .ok plan) :
    nextRunForSchedule cal (.cron spec) = plan.nextAfter ACTIVE_WINDOW_CANDIDATE_LIMIT := by
  funext start
  rw [nextRunForSchedule, hp]
  rfl

end Tinyflows.Cron
