import Mathlib.Data.List.Chain
import Tinyflows.Cron.Schedule

/-!
# Occurrences of a cron schedule

What a schedule asks for, told from the wall clock alone: which instants it is due at, and what it
takes for a search in wall-clock order to come to them in the order of time.
-/

namespace Tinyflows.Cron

/-- The zone resolves a wall-clock time to exactly the instants at which its clock shows it. Nothing is
said about how the clock moves. -/
structure TimeZone.Exact (zone : TimeZone) : Prop where
  single : ∀ {wall t}, zone.fromLocal wall = .single t → ∀ u, zone.wallClock u = wall ↔ u = t
  ambiguous : ∀ {wall earlier later}, zone.fromLocal wall = .ambiguous earlier later →
    earlier < later ∧ ∀ u, zone.wallClock u = wall ↔ u = earlier ∨ u = later
  none : ∀ {wall}, zone.fromLocal wall = .none → ∀ u, zone.wallClock u ≠ wall

def CronExpr.Matches (expr : CronExpr) (wall : Int) : Prop :=
  wall ∈ expr.after (wall - 1)

instance (expr : CronExpr) (wall : Int) : Decidable (expr.Matches wall) :=
  inferInstanceAs (Decidable (_ ∈ _))

/-- The expression's walk lists the wall-clock times that match after a given one, in order. -/
structure CronExpr.Walks (expr : CronExpr) : Prop where
  increasing : ∀ wall, (expr.after wall).Pairwise (· < ·)
  exact : ∀ {wall wall'}, wall' ∈ expr.after wall ↔ expr.Matches wall' ∧ wall < wall'

namespace CronPlan

variable (plan : CronPlan)

/-- The active window, if there is one, is open at `t`. -/
def InWindow (t : Int) : Prop :=
  plan.activeWindow.all (·.contains (localTimeOfDay plan.zone t)) = true

/-- The clock shows a matching time, and the window is open. -/
def Due (t : Int) : Prop :=
  plan.cron.Matches (plan.zone.wallClock t) ∧ plan.InWindow t

/-- The job is to run at `t`: for a time that the clock shows then, or to make up for one it skipped. -/
def RunsAt (t : Int) : Prop :=
  ∃ wall, plan.cron.Matches wall ∧ t ∈ wallClockInstants plan.zone wall ∧ plan.InWindow t

/-- A time that matches and that the clock at `s` has yet to show. -/
def Ahead (s wall : Int) : Prop :=
  plan.cron.Matches wall ∧ plan.zone.wallClock s < wall

def RunsAfter (s wall : Int) : Prop :=
  ∃ t ∈ wallClockInstants plan.zone wall, s < t

def RunsBy (s u wall : Int) : Prop :=
  ∃ t ∈ wallClockInstants plan.zone wall, s < t ∧ t ≤ u

/-- The clock at `s` has yet to show `wall`, which runs at `u`; and if a matching time before `wall` runs
after `s` at all, then that time or one before it runs by `u`. -/
structure InOrder (s u wall : Int) : Prop where
  ahead : plan.zone.wallClock s < wall
  prompt : ∀ wall' < wall, plan.Ahead s wall' → plan.RunsAfter s wall' →
    ∃ wall'' ≤ wall', plan.Ahead s wall'' ∧ plan.RunsBy s u wall''

/-- From `low` until `high` the clock comes to every due instant in order: it shows less at any earlier
instant, and what it skips in between is made up for in time. -/
def DueInOrder (low high : Int) : Prop :=
  ∀ s u, low ≤ s → s < u → u < high → plan.Due u → plan.InOrder s u (plan.zone.wallClock u)

/-- The same of every instant the job is to run at, those that make up for a skipped time included. -/
def RunsInOrder (low high : Int) : Prop :=
  ∀ s u wall, low ≤ s → s < u → u < high → plan.cron.Matches wall → u ∈ wallClockInstants plan.zone wall →
    plan.InWindow u → plan.InOrder s u wall

/-- Started at or after `low`, the search passes over no due instant before `high`. -/
def NonePassed (next : Int → Except String Int) (low high : Int) : Prop :=
  ∀ start t, low ≤ start → next start = .ok t → ∀ u, start < u → u < t → u < high → ¬ plan.Due u

/-- Where the job is to run later on, the search returns a run. -/
def Finds (next : Int → Except String Int) (low high : Int) : Prop :=
  ∀ s u, low ≤ s → s < u → u < high → plan.RunsAt u → ∃ t, next s = .ok t

/-! ## Runs that follow each other -/

/-- The runs after `previous`, at most `steps` of them and as many as `budget` candidates lead to. -/
def scanned : Nat → Nat → Int → List Int
  | 0, _, _ => []
  | steps + 1, budget, previous =>
    match plan.nextWithin budget previous with
    | none => []
    | some (next, budget) => next :: scanned steps budget next

end CronPlan

def Apart (gap first second : Int) : Prop :=
  gap ≤ second - first

/-- Any two runs that follow each other, from any instant at or after `now`, keep the agents' distance.
A one-shot schedule has a single run. -/
def KeepsDistance (cal : Calendar) (schedule : Schedule) (now : Int) : Prop :=
  ∀ start first second, now ≤ start → schedule.oneShot = false →
    nextRunForSchedule cal schedule start = .ok first →
    nextRunForSchedule cal schedule first = .ok second → Apart MIN_AGENT_JOB_INTERVAL first second

/-- Two times of the expression, the later of which is ahead of the clock when the earlier one runs, are
never less than the agents' distance apart as instants of the zone: neither by the expression's own gaps
nor by a change of the zone's offset. -/
def CronPlan.KeptApart (plan : CronPlan) (now : Int) : Prop :=
  ∀ s wall t wall' t', now ≤ s → plan.Ahead s wall → t ∈ wallClockInstants plan.zone wall → s < t →
    plan.InWindow t → plan.Ahead t wall' → t' ∈ wallClockInstants plan.zone wall' → t < t' →
    plan.InWindow t' → Apart MIN_AGENT_JOB_INTERVAL t t'

def Schedule.KeptApart (cal : Calendar) (schedule : Schedule) (now : Int) : Prop :=
  match schedule with
  | .cron spec => ∀ plan, CronPlan.parse cal spec = .ok plan → plan.KeptApart now
  | _ => True

/-- If the schedule is accepted, its runs keep their distance, and the verdict stays. -/
def CadenceKept (cal : Calendar) (schedule : Schedule) (now : Int) : Prop :=
  validateAgentSchedule cal schedule now = .ok () →
    KeepsDistance cal schedule now ∧ ∀ later, now ≤ later → validateSchedule cal schedule later = .ok () →
      validateAgentSchedule cal schedule later = .ok ()

def DAY_MS : Int := 24 * 60 * MINUTE_MS

/-- The zone's offset does not change from `now` on, and the expression names times of the day: whole
seconds, and what matches a day later matches today. -/
structure CronPlan.Daily (plan : CronPlan) (now offset : Int) : Prop where
  clock : ∀ t, now ≤ t → plan.zone.wallClock t = t + offset
  resolves : ∀ wall, now + offset < wall → plan.zone.fromLocal wall = .single (wall - offset)
  seconds : ∀ wall, plan.cron.Matches wall → 1000 ∣ wall
  daily : ∀ wall, now + offset < wall → plan.cron.Matches (wall + DAY_MS) → plan.cron.Matches wall

end Tinyflows.Cron
