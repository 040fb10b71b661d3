import Tinyflows.Cron.Lemmas.Occurrences

/-!
# The agents' distance between runs

An agent's schedule is judged by its first thousand runs. That is enough for the times of a day in a zone
whose offset stays as it is.
-/

namespace Tinyflows.Cron
open List CronPlan Nat

/-!
## The next run of a cron schedule

The search goes by the wall clock. It finds the next occurrence in time as long as the wall clock does
not hide one from it.
-/

def fallBack : TimeZone where
  wallClock t := if t < 0 then t + 60 * MINUTE_MS else t
  fromLocal wall :=
    if wall < 0 then .single (wall - 60 * MINUTE_MS)
    else if wall < 60 * MINUTE_MS then .ambiguous (wall - 60 * MINUTE_MS) wall
    else .single wall

def quarterHours : CronExpr where
  after wall := ((List.range 96).map fun k : Nat => (k : Int) * (15 * MINUTE_MS)).filter (wall < ·)

def fallBackCalendar : Calendar where
  normalizeExpression := .ok
  parseExpr _ := some quarterHours
  parseZone _ := .ok fallBack
  parseTime _ := none
  formatInstant _ := ""

def quarterHourly : CronSpec := { expr := "*/15 * * * *" }

def quarterHourPlan : CronPlan where
  expr := quarterHourly.expr
  cron := quarterHours
  zone := fallBack
  activeWindow := none

theorem fallBack_exact : fallBack.Exact := by
  have hm : MINUTE_MS = 60000 := rfl
  refine ⟨fun {wall t} h u => ?_, fun {wall earlier later} h => ?_, fun {wall} h => ?_⟩
  · simp only [fallBack] at h ⊢
    split_ifs at h with hn hr
    · cases h
      split_ifs <;> omega
    · cases h
      split_ifs <;> omega
  · simp only [fallBack] at h ⊢
    split_ifs at h with hn hr
    cases h
    refine ⟨by omega, fun u => ?_⟩
    split_ifs <;> omega
  · simp only [fallBack] at h
    split_ifs at h

theorem quarterHours_walks : quarterHours.Walks where
  increasing wall := by
    refine List.Pairwise.filter _ (List.pairwise_map.mpr (List.pairwise_lt_range.imp ?_))
    intro a b ha
    simp only [MINUTE_MS]
    omega
  exact {wall wall'} := by
    simp only [CronExpr.Matches, quarterHours, List.mem_filter, decide_eq_true_eq]
    constructor
    · rintro ⟨hm, hl⟩
      exact ⟨⟨hm, by omega⟩, hl⟩
    · rintro ⟨⟨hm, -⟩, hl⟩
      exact ⟨hm, hl⟩

variable {cal : Calendar} {plan : CronPlan} {spec : CronSpec} {now start t : Int}

/-! ## The scan -/

theorem lt_of_nextWallClockRun {zone expr}
    (h : nextWallClockRun zone expr start = some t) : start < t := by
  obtain ⟨-, wall, -, -, hf, -⟩ := findSome?_eq_some_iff.mp h
  simpa using find?_some hf

variable {budget steps k : Nat} {previous minGap : Int}

theorem CronPlan.lt_of_nextAfter (h : plan.nextAfter budget start = .ok t) : start < t := by
  induction budget generalizing start with
  | zero => cases h
  | succ budget ih =>
    obtain ⟨next, hn, ⟨-, rfl⟩ | ⟨-, hr⟩⟩ := nextAfter_succ h
    · exact lt_of_nextWallClockRun hn
    · exact Int.lt_trans (lt_of_nextWallClockRun hn) (ih hr)

theorem CronPlan.nextAfter_of_nextWithin {left budget'}
    (h : plan.nextWithin budget start = some (t, left)) (hl : budget ≤ budget') :
    plan.nextAfter budget' start = .ok t ∧ left ≤ budget := by
  induction budget generalizing start budget' with
  | zero => cases h
  | succ budget ih =>
    obtain ⟨budget', rfl⟩ : ∃ b, budget' = b + 1 := ⟨budget' - 1, by omega⟩
    rw [nextWithin] at h
    rw [nextAfter]
    cases hn : nextWallClockRun plan.zone plan.cron start with
    | none =>
      rw [hn] at h
      cases h
    | some next =>
      rw [hn] at h
      dsimp only at h ⊢
      split at h
      · next hi =>
          cases h
          exact ⟨if_pos hi, le_succ _⟩
      · next ho =>
          obtain ⟨ha, hf⟩ := ih h (by omega : budget ≤ budget')
          exact ⟨(if_neg ho).trans ha, by omega⟩

theorem CronPlan.scanned_apart {gap} (hb : budget ≤ ACTIVE_WINDOW_CANDIDATE_LIMIT)
    (hs : now ≤ start) (hp : plan.nextAfter ACTIVE_WINDOW_CANDIDATE_LIMIT start = .ok previous)
    (h : ∀ s first second, now ≤ s → plan.nextAfter ACTIVE_WINDOW_CANDIDATE_LIMIT s = .ok first →
      plan.nextAfter ACTIVE_WINDOW_CANDIDATE_LIMIT first = .ok second → Apart gap first second) :
    (previous :: plan.scanned steps budget previous).IsChain (Apart gap) := by
  induction steps generalizing start budget previous with
  | zero => exact .singleton _
  | succ steps ih =>
    rw [scanned]
    split
    · exact .singleton _
    · next next left hn =>
        obtain ⟨ha, hl⟩ := nextAfter_of_nextWithin hn hb
        have ht := lt_of_nextAfter hp
        exact isChain_cons_cons.mpr ⟨h start previous next hs hp ha,
          ih (le_trans hl hb) (by omega) ha⟩

theorem CronPlan.closestPair_eq_none_iff {closest} :
    plan.closestPair minGap steps budget previous closest = none ↔
      closest = none ∧ (previous :: plan.scanned steps budget previous).IsChain (Apart minGap) := by
  induction steps generalizing budget previous closest with
  | zero => simp [closestPair, scanned]
  | succ steps ih =>
    rw [closestPair, scanned]
    cases hn : plan.nextWithin budget previous with
    | none => simp
    | some found =>
      obtain ⟨next, left⟩ := found
      dsimp only
      rw [ih, isChain_cons_cons]
      unfold Apart
      cases closest with
      | none =>
        by_cases hg : next - previous < minGap
        · simp [hg]
        · simp [hg, Int.not_lt.mp hg]
      | some pair =>
        split_ifs <;> simp

theorem runsCloserThan_cron (hp : parse cal spec = .ok plan) :
    runsCloserThan cal (.cron spec) now minGap = none ↔
      (plan.scanned RUN_GAP_SCAN_OCCURRENCES ACTIVE_WINDOW_CANDIDATE_LIMIT now).IsChain
        (Apart minGap) := by
  rw [runsCloserThan, hp, show RUN_GAP_SCAN_OCCURRENCES = 999 + 1 from rfl, scanned]
  dsimp only
  cases hf : plan.nextWithin ACTIVE_WINDOW_CANDIDATE_LIMIT now with
  | none => simp
  | some found => simp [closestPair_eq_none_iff]

/-! ## Times of the day -/

section

variable {offset s u t' wall : Int} (hz : plan.zone.Exact) (hc : plan.cron.Walks)
  (h : plan.Daily now offset)
include h

theorem CronPlan.Daily.instants (hw : now + offset < wall) :
    wallClockInstants plan.zone wall = [wall - offset] := by
  rw [wallClockInstants, h.resolves wall hw]

theorem CronPlan.Daily.of_mem (hs : now ≤ s) (ha : plan.Ahead s wall)
    (hu : u ∈ wallClockInstants plan.zone wall) : wall = u + offset := by
  have hw := ha.2
  rw [h.clock s hs] at hw
  rw [h.instants (by omega), mem_singleton] at hu
  omega

theorem CronPlan.Daily.matches_sub (hw : now + offset < wall)
    (hm : plan.cron.Matches (wall + k * DAY_MS)) : plan.cron.Matches wall := by
  induction k with
  | zero => simpa using hm
  | succ k ih =>
    refine ih (h.daily _ ?_ ?_)
    · simp only [DAY_MS, MINUTE_MS]
      omega
    · rwa [show wall + (k : Int) * DAY_MS + DAY_MS = wall + ((k + 1 : Nat) : Int) * DAY_MS by
        simp only [DAY_MS, MINUTE_MS]; omega]

include hz hc

/-- The search comes to the next run with at most one candidate for each second on the way. -/
theorem CronPlan.Daily.reaches (budget : Nat) (hs : now ≤ s) (hsu : s < u)
    (hm : plan.cron.Matches (u + offset))
    (hi : plan.InWindow u) (hb : (u + offset) / 1000 - (s + offset) / 1000 ≤ budget) :
    ∃ next left, plan.nextWithin budget s = some (next, left) ∧ s < next ∧ next ≤ u ∧
      (budget : Int) - left ≤ (next + offset) / 1000 - (s + offset) / 1000 := by
  obtain ⟨m, hm'⟩ := h.seconds _ hm
  induction budget generalizing s with
  | zero => omega
  | succ budget ih =>
    have hclock := h.clock s hs
    have hahead : plan.Ahead s (u + offset) := ⟨hm, by omega⟩
    have hmem : u ∈ wallClockInstants plan.zone (u + offset) := by
      rw [h.instants (by omega)]
      simp
    obtain ⟨next, hn⟩ : ∃ next, nextWallClockRun plan.zone plan.cron s = some next := by
      refine Option.isSome_iff_exists.mp (findSome?_isSome_iff.mpr ⟨_, hc.exact.mpr hahead, ?_⟩)
      exact find?_isSome.mpr ⟨u, hmem, by simpa using hsu⟩
    obtain ⟨first, hf, hfm, hsn, -⟩ := nextWallClockRun_spec hz hc hn
    obtain rfl := h.of_mem hs hf hfm
    obtain ⟨m', hm''⟩ := h.seconds _ hf.1
    have horder : plan.InOrder s u (u + offset) := by
      refine ⟨hahead.2, fun wall hlt ha _ => ⟨wall, Int.le_refl _, ha, wall - offset, ?_, ?_, by omega⟩⟩
      · have hw := ha.2
        rw [h.instants (by omega)]
        simp
      · have hw := ha.2
        omega
    have hle := horder.next_le hz hc hn hm hmem hsu
    rw [nextWithin, hn]
    dsimp only
    split
    · exact ⟨next, budget, rfl, hsn, hle, by omega⟩
    · next hout =>
        have hne : next ≠ u := by
          rintro rfl
          exact hout hi
        obtain ⟨next', left, hw, hlt, hle', hleft⟩ := ih (s := next) (by omega) (by omega) (by omega)
        exact ⟨next', left, hw, by omega, hle', by omega⟩

/-- A scan that is long enough to get to two runs that are too close finds a pair that is. -/
theorem CronPlan.Daily.scan_close (hm : plan.cron.Matches (t + offset)) (hi : plan.InWindow t)
    (hm' : plan.cron.Matches (t' + offset)) (hi' : plan.InWindow t') (htt : t < t')
    (hclose : t' - t < MIN_AGENT_JOB_INTERVAL) (hn : now ≤ previous) (hp : previous ≤ t)
    (hb : (t' + offset) / 1000 - (previous + offset) / 1000 ≤ budget)
    (hsteps : t' - previous ≤ MIN_AGENT_JOB_INTERVAL * steps) :
    ¬ (previous :: plan.scanned steps budget previous).IsChain (Apart MIN_AGENT_JOB_INTERVAL) := by
  simp only [MIN_AGENT_JOB_INTERVAL, MINUTE_MS] at hclose hsteps ⊢
  induction steps generalizing previous budget with
  | zero => omega
  | succ steps ih =>
    rw [scanned]
    rcases Int.lt_or_eq_of_le hp with hlt | rfl
    · obtain ⟨next, left, hw, hpn, hle, hleft⟩ := h.reaches hz hc budget hn hlt hm hi (by omega)
      rw [hw]
      intro hchain
      obtain ⟨hgap, hchain⟩ := isChain_cons_cons.mp hchain
      unfold Apart at hgap
      exact ih (by omega) hle (by omega) (by omega) hchain
    · obtain ⟨next, left, hw, hpn, hle, -⟩ := h.reaches hz hc budget hn htt hm' hi' hb
      rw [hw]
      intro hchain
      have hgap := (isChain_cons_cons.mp hchain).1
      unfold Apart at hgap
      omega

/-- Two runs of a later day that are too close are so on the first day, where the scan gets to them. -/
theorem CronPlan.Daily.keptApart
    (hscan : (plan.scanned RUN_GAP_SCAN_OCCURRENCES ACTIVE_WINDOW_CANDIDATE_LIMIT now).IsChain
      (Apart MIN_AGENT_JOB_INTERVAL)) : plan.KeptApart now := by
  intro s wall t wall' t' hs ha ht hst hw ha' ht' htt hw'
  obtain rfl := h.of_mem hs ha ht
  obtain rfl := h.of_mem (by omega) ha' ht'
  by_contra hclose
  obtain ⟨k, hk, hk'⟩ : ∃ k : Nat, now < t - k * DAY_MS ∧ t - k * DAY_MS ≤ now + DAY_MS := by
    refine ⟨((t - now - 1) / DAY_MS).toNat, ?_⟩
    simp only [DAY_MS, MINUTE_MS]
    omega
  have hshift (x : Int) (hx : now < x - k * DAY_MS) (hm : plan.cron.Matches (x + offset))
      (hi : plan.InWindow x) :
      plan.cron.Matches (x - k * DAY_MS + offset) ∧ plan.InWindow (x - k * DAY_MS) := by
    refine ⟨h.matches_sub (k := k) (by omega) (by rwa [show x - k * DAY_MS + offset + k * DAY_MS = x + offset
      by omega]), ?_⟩
    have htime : localTimeOfDay plan.zone (x - k * DAY_MS) = localTimeOfDay plan.zone x := by
      have hday : 0 ≤ k * DAY_MS := Int.mul_nonneg (Int.natCast_nonneg k) (by decide)
      rw [localTimeOfDay, localTimeOfDay, h.clock _ (by omega), h.clock x (by omega),
        show x - k * DAY_MS + offset = x + offset - DAY_MS * k by rw [Int.mul_comm]; omega, DAY_MS,
        Int.sub_mul_emod_self_left]
    unfold InWindow at hi ⊢
    rwa [htime]
  obtain ⟨hm, hi⟩ := hshift t hk ha.1 hw
  obtain ⟨hm', hi'⟩ := hshift t' (by omega) ha'.1 hw'
  simp only [Apart, MIN_AGENT_JOB_INTERVAL, MINUTE_MS] at hclose
  rw [show RUN_GAP_SCAN_OCCURRENCES = 999 + 1 from rfl, scanned] at hscan
  simp only [DAY_MS, MINUTE_MS] at hk hk' hm hm' hi hi'
  obtain ⟨next, left, hfirst, hlt, hle, hleft⟩ := h.reaches hz hc ACTIVE_WINDOW_CANDIDATE_LIMIT
    (Int.le_refl now) hk hm hi (by simp only [ACTIVE_WINDOW_CANDIDATE_LIMIT]; omega)
  rw [hfirst] at hscan
  simp only [ACTIVE_WINDOW_CANDIDATE_LIMIT] at hleft
  exact h.scan_close hz hc hm hi hm' hi' (by omega)
    (by simp only [MIN_AGENT_JOB_INTERVAL, MINUTE_MS]; omega) (by omega) hle (by omega)
    (by simp only [MIN_AGENT_JOB_INTERVAL, MINUTE_MS]; omega) hscan

end

/-! ## The verdict -/

theorem validateAgentSchedule_iff {schedule} :
    validateAgentSchedule cal schedule now = .ok () ↔
      validateSchedule cal schedule now = .ok () ∧
        runsCloserThan cal schedule now MIN_AGENT_JOB_INTERVAL = none := by
  simp only [validateAgentSchedule, bind, Except.bind, throw, throwThe, MonadExceptOf.throw, pure,
    Except.pure]
  cases validateSchedule cal schedule now with
  | error e => simp
  | ok u => cases runsCloserThan cal schedule now MIN_AGENT_JOB_INTERVAL <;> simp

theorem parse_of_validateSchedule (h : validateSchedule cal (.cron spec) now = .ok ()) :
    ∃ plan, parse cal spec = .ok plan := by
  cases hp : parse cal spec with
  | ok plan => exact ⟨plan, rfl⟩
  | error e =>
    simp only [validateSchedule, nextRunForSchedule, hp, bind, Except.bind] at h
    repeat' split at h
    all_goals cases h

theorem runs_apart_of_scan (hp : parse cal spec = .ok plan)
    (h : KeepsDistance cal (.cron spec) now) {later} (hl : now ≤ later) :
    (plan.scanned RUN_GAP_SCAN_OCCURRENCES ACTIVE_WINDOW_CANDIDATE_LIMIT later).IsChain
      (Apart MIN_AGENT_JOB_INTERVAL) := by
  rw [show RUN_GAP_SCAN_OCCURRENCES = 999 + 1 from rfl, scanned]
  split
  · exact .nil
  · next previous left hr =>
      obtain ⟨ha, hf⟩ := nextAfter_of_nextWithin hr (le_refl _)
      refine scanned_apart hf hl ha fun s first second hs hi he => ?_
      exact h s first second hs rfl (by rw [nextRunForSchedule_cron hp, hi])
        (by rw [nextRunForSchedule_cron hp, he])

theorem CronPlan.KeptApart.keepsDistance (hz : plan.zone.Exact) (hc : plan.cron.Walks)
    (hp : parse cal spec = .ok plan) (h : plan.KeptApart now) : KeepsDistance cal (.cron spec) now := by
  intro start first second hs _ hf hse
  rw [nextRunForSchedule_cron hp] at hf hse
  obtain ⟨hlt, hi, wall, ha, hm⟩ := nextAfter_spec hz hc hf
  obtain ⟨hlt', hi', wall', ha', hm'⟩ := nextAfter_spec hz hc hse
  exact h start wall first wall' second hs ha hm hlt hi ha' hm' hlt' hi'

theorem CronPlan.keptApart_of_keepsDistance (hz : plan.zone.Exact) (hc : plan.cron.Walks)
    (hp : parse cal spec = .ok plan) (ho : ∀ high, plan.RunsInOrder now high)
    (hf : ∀ high, plan.Finds (nextRunForSchedule cal (.cron spec)) now high)
    (h : KeepsDistance cal (.cron spec) now) : plan.KeptApart now := by
  intro s wall t wall' t' hs ha ht hst hi ha' ht' htt hi'
  -- the search from just before `t` returns `t`, and from `t` something by `t'`
  obtain ⟨first, hfirst⟩ := hf (t + 1) (t - 1) t (by omega) (by omega) (by omega) ⟨wall, ha.1, ht, hi⟩
  obtain ⟨second, hsecond⟩ := hf (t' + 1) t t' (by omega) htt (by omega) ⟨wall', ha'.1, ht', hi'⟩
  have hnext := nextRunForSchedule_cron hp
  rw [hnext] at hfirst hsecond
  have hle : first ≤ t := nextAfter_le hz hc hfirst (by omega) ha.1 ht hi fun s' hs' hlt =>
    ho (t + 1) s' t wall (by omega) hlt (by omega) ha.1 ht hi
  obtain rfl : first = t := by
    have := lt_of_nextAfter hfirst
    omega
  have hle' : second ≤ t' := nextAfter_le hz hc hsecond htt ha'.1 ht' hi' fun s' hs' hlt =>
    ho (t' + 1) s' t' wall' (by omega) hlt (by omega) ha'.1 ht' hi'
  have := h (first - 1) first second (by omega) rfl (by rw [hnext, hfirst]) (by rw [hnext, hsecond])
  unfold Apart at this ⊢
  omega

theorem every_keepsDistance {everyMs}
    (h : runsCloserThan cal (.every everyMs) now MIN_AGENT_JOB_INTERVAL = none) :
    KeepsDistance cal (.every everyMs) now := by
  intro start first second _ _ hf hs
  simp only [runsCloserThan] at h
  simp only [nextRunForSchedule] at hs
  split_ifs at hs with hz hl
  rw [if_neg hl] at h
  split at hs
  · next next hn =>
      cases hs
      have hu := (Option.filter_eq_some_iff.mp hn).1
      rw [Option.some.injEq] at hu
      unfold Apart
      split_ifs at h with hg
      omega
  · cases hs

theorem cadenceKept_of_keepsDistance (hp : parse cal spec = .ok plan)
    (h : validateAgentSchedule cal (.cron spec) now = .ok () → KeepsDistance cal (.cron spec) now) :
    CadenceKept cal (.cron spec) now := fun ha =>
  ⟨h ha, fun _ hl hv => validateAgentSchedule_iff.mpr ⟨hv,
    (runsCloserThan_cron hp).mpr (runs_apart_of_scan hp (h ha) hl)⟩⟩

theorem quarterHourPlan_daily : quarterHourPlan.Daily (60 * MINUTE_MS) 0 where
  clock t ht := by
    simp only [quarterHourPlan, fallBack, MINUTE_MS] at ht ⊢
    split_ifs <;> omega
  resolves wall hw := by
    have hm : MINUTE_MS = 60000 := rfl
    simp only [quarterHourPlan, fallBack]
    rw [if_neg (by omega), if_neg (by omega), Int.sub_zero]
  seconds wall hm := by
    simp only [CronExpr.Matches, quarterHourPlan, quarterHours, mem_filter, mem_map, MINUTE_MS] at hm
    obtain ⟨⟨k, -, rfl⟩, -⟩ := hm
    omega
  daily wall hw hm := by
    simp only [CronExpr.Matches, quarterHourPlan, quarterHours, mem_filter, mem_map, mem_range, DAY_MS,
      MINUTE_MS] at hw hm
    obtain ⟨⟨k, hk, he⟩, -⟩ := hm
    omega

/-- On day 300 the clock goes forward from two o'clock to three. -/
def springInstant : Int := 300 * DAY_MS + 120 * MINUTE_MS

def springForward : TimeZone where
  wallClock t := if t < springInstant then t else t + 60 * MINUTE_MS
  fromLocal wall :=
    if wall < springInstant then .single wall
    else if wall < springInstant + 60 * MINUTE_MS then .none
    else .single (wall - 60 * MINUTE_MS)

/-- The `k`-th of the times 2:03, 2:58, 3:03 and 3:58, day after day. -/
def nightlyWall (k : Nat) : Int :=
  (k / 4 : Nat) * DAY_MS + (if k % 4 = 0 then 123 else if k % 4 = 1 then 178 else
    if k % 4 = 2 then 183 else 238) * MINUTE_MS

def nightlyUntil (n : Nat) : CronExpr where
  after wall := ((List.range n).map nightlyWall).filter (wall < ·)

def nightly : CronExpr := nightlyUntil 1208

def springCalendar : Calendar where
  normalizeExpression := .ok
  parseExpr _ := some nightly
  parseZone _ := .ok springForward
  parseTime _ := none
  formatInstant _ := ""

def nightlySpec : CronSpec := { expr := "3,58 2,3 * * *" }

def nightlyPlan : CronPlan where
  expr := nightlySpec.expr
  cron := nightly
  zone := springForward
  activeWindow := none

theorem nightlyUntil_after {wall n j} (hj : j < n)
    (hb : ∀ i < j, nightlyWall i ≤ wall) (ha : wall < nightlyWall j) :
    ∃ rest, (nightlyUntil n).after wall = nightlyWall j :: rest := by
  simp only [nightlyUntil]
  obtain ⟨m, rfl⟩ : ∃ m, n = j + (m + 1) := ⟨n - j - 1, by omega⟩
  rw [range_add, map_append, filter_append, filter_eq_nil_iff.mpr, nil_append,
    range_succ_eq_map, map_cons, map_cons, filter_cons_of_pos]
  · exact ⟨_, by rw [add_zero]⟩
  · simpa using ha
  · intro v hv
    obtain ⟨i, hi, rfl⟩ := mem_map.mp hv
    simpa using hb i (mem_range.mp hi)

theorem nightlyWall_lt {i j} (h : i < j) : nightlyWall i + 5 * MINUTE_MS ≤ nightlyWall j := by
  simp only [nightlyWall, DAY_MS, MINUTE_MS]
  split_ifs <;> omega

theorem nightlyWall_lt_spring (h : k < 1200) : nightlyWall k < springInstant := by
  simp only [nightlyWall, springInstant, DAY_MS, MINUTE_MS]
  split_ifs <;> omega

theorem nightly_next {s} (hk : k < 1200) (hb : ∀ i < k, nightlyWall i ≤ s)
    (hs : s < nightlyWall k) : nextWallClockRun springForward nightly s = some (nightlyWall k) := by
  have hp := nightlyWall_lt_spring hk
  have hw : springForward.wallClock s = s := if_pos (Int.lt_trans hs hp)
  obtain ⟨rest, hr⟩ := nightlyUntil_after (n := 1208) (by omega) hb hs
  have hi : wallClockInstants springForward (nightlyWall k) = [nightlyWall k] := by
    rw [wallClockInstants, springForward]
    simp only [if_pos hp]
  rw [nextWallClockRun, hw, nightly, hr, findSome?_cons, hi]
  simp [hs]

theorem nightly_scan (h : k + steps < 1200) :
    (nightlyWall k :: nightlyPlan.scanned steps budget (nightlyWall k)).IsChain
      (Apart MIN_AGENT_JOB_INTERVAL) := by
  induction steps generalizing budget k with
  | zero => exact .singleton _
  | succ steps ih =>
    cases budget with
    | zero => exact .singleton _
    | succ budget =>
      have hl : nightlyWall k + 5 * MINUTE_MS ≤ nightlyWall (k + 1) :=
        nightlyWall_lt (lt_succ_self k)
      have hn : nextWallClockRun nightlyPlan.zone nightlyPlan.cron (nightlyWall k) =
          some (nightlyWall (k + 1)) := by
        refine nightly_next (by omega) (fun i hi => ?_) (by simp only [MINUTE_MS] at hl; omega)
        rcases lt_or_eq_of_le (le_of_lt_succ hi) with hi | rfl
        · have := nightlyWall_lt hi
          simp only [MINUTE_MS] at this
          omega
        · exact Int.le_refl _
      have hw : nightlyPlan.nextWithin (budget + 1) (nightlyWall k) =
          some (nightlyWall (k + 1), budget) := by
        rw [nextWithin, hn]
        rfl
      rw [scanned, hw]
      refine isChain_cons_cons.mpr ⟨?_, ih (by omega)⟩
      simp only [Apart, MIN_AGENT_JOB_INTERVAL, MINUTE_MS] at hl ⊢
      omega

end Tinyflows.Cron
