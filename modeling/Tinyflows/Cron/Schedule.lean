import Mathlib.Algebra.Group.Nat.Defs
import Mathlib.Data.List.Basic

/-!
# Schedules

When a job runs next. Instants and wall-clock times are milliseconds.
-/

namespace Tinyflows.Cron

structure ActiveHours where
  start : String
  end_ : String
  deriving DecidableEq

structure CronSpec where
  expr : String
  tz : Option String := none
  activeHours : Option ActiveHours := none
  deriving DecidableEq

inductive Schedule where
  | cron (spec : CronSpec)
  | at_ (at_ : Int)
  | every (everyMs : Nat)
  deriving DecidableEq

def Schedule.oneShot : Schedule → Bool
  | .at_ _ => true
  | _ => false

def MIN_INSTANT : Int := -8334601315200000

def MAX_INSTANT : Int := 8210266876799999

def checkedAdd (instant delta : Int) : Option Int :=
  (some (instant + delta)).filter fun t => MIN_INSTANT ≤ t ∧ t ≤ MAX_INSTANT

/-! ## Cron expressions -/

/-- What a wall-clock time is as an instant: a time may occur twice when clocks go back, and not at all
when they go forward. -/
inductive LocalResult where
  | single (instant : Int)
  | ambiguous (earlier later : Int)
  | none
  deriving DecidableEq

def LocalResult.earliest : LocalResult → Option Int
  | .single t => some t
  | .ambiguous earlier _ => some earlier
  | .none => Option.none

structure TimeZone where
  wallClock : Int → Int
  fromLocal : Int → LocalResult

/-- A parsed expression: the wall-clock times that match it after a given one, in order. The years an
expression can name are bounded, so there are finitely many. -/
structure CronExpr where
  after : Int → List Int

/-- What lies behind a schedule: expressions in the form the parser reads and the parser itself, the
time zone database, times of day in minutes, and how an instant is printed. -/
structure Calendar where
  normalizeExpression : String → Except String String
  parseExpr : String → Option CronExpr
  parseZone : Option String → Except String TimeZone
  parseTime : String → Option Nat
  formatInstant : Int → String

def noCalendar : Calendar where
  normalizeExpression e := .error e
  parseExpr _ := none
  parseZone _ := .error ""
  parseTime _ := none
  formatInstant _ := ""

def MINUTE_MS : Int := 60000

def wallClockInstants (zone : TimeZone) (wall : Int) : List Int :=
  match zone.fromLocal wall with
  | .single t => [t]
  | .ambiguous earlier later => [earlier, later]
  | .none => ((List.range 180).findSome? fun k : Nat =>
    (zone.fromLocal (wall + (k + 1) * MINUTE_MS)).earliest).toList

def nextWallClockRun (zone : TimeZone) (expr : CronExpr) (start : Int) : Option Int :=
  (expr.after (zone.wallClock start)).findSome? fun wall =>
    (wallClockInstants zone wall).find? (start < ·)

structure ActiveWindow where
  start : Nat
  end_ : Nat
  deriving DecidableEq

def ActiveWindow.contains (w : ActiveWindow) (time : Nat) : Bool :=
  if w.start ≤ w.end_ then w.start ≤ time ∧ time ≤ w.end_
  -- The window spans midnight.
  else w.start ≤ time ∨ time ≤ w.end_

def localTimeOfDay (zone : TimeZone) (instant : Int) : Nat :=
  ((zone.wallClock instant % (24 * 60 * MINUTE_MS)) / MINUTE_MS).toNat

structure CronPlan where
  expr : String
  cron : CronExpr
  zone : TimeZone
  activeWindow : Option ActiveWindow

def ActiveWindow.parse (cal : Calendar) (hours : ActiveHours) : Except String ActiveWindow :=
  match cal.parseTime hours.start, cal.parseTime hours.end_ with
  | some start, some end_ => .ok { start, end_ }
  | none, _ => .error s!"Invalid active_hours.start: {hours.start}"
  | some _, none => .error s!"Invalid active_hours.end: {hours.end_}"

def CronPlan.parse (cal : Calendar) (spec : CronSpec) : Except String CronPlan := do
  let normalized ← cal.normalizeExpression spec.expr
  return {
    expr := spec.expr
    cron := ← (cal.parseExpr normalized).elim (throw s!"Invalid cron expression: {spec.expr}") pure
    zone := ← cal.parseZone spec.tz
    activeWindow := ← spec.activeHours.mapM (ActiveWindow.parse cal) }

def ACTIVE_WINDOW_CANDIDATE_LIMIT : Nat := 100000

/-- The first occurrence after `start` inside the active window, among at most `budget` candidates. -/
def CronPlan.nextAfter (plan : CronPlan) : Nat → Int → Except String Int
  | 0, _ => .error "No future occurrence found within active hours after 100,000 attempts"
  | budget + 1, start =>
    match nextWallClockRun plan.zone plan.cron start with
    | none => .error s!"No future occurrence for expression: {plan.expr}"
    | some next =>
      if plan.activeWindow.all (·.contains (localTimeOfDay plan.zone next)) then .ok next
      else plan.nextAfter budget next

def nextRunForSchedule (cal : Calendar) (schedule : Schedule) (start : Int) : Except String Int :=
  match schedule with
  | .cron spec => do (← CronPlan.parse cal spec).nextAfter ACTIVE_WINDOW_CANDIDATE_LIMIT start
  | .at_ t => .ok t
  | .every everyMs =>
    if everyMs = 0 then .error "Invalid schedule: every_ms must be > 0"
    else if 2 ^ 63 ≤ everyMs then .error "every_ms is too large"
    else
      match checkedAdd start everyMs with
      | some next => .ok next
      | none => .error "every_ms overflowed DateTime"

def validateSchedule (cal : Calendar) (schedule : Schedule) (now : Int) : Except String Unit :=
  match schedule with
  | .cron spec => do
    let _ ← cal.normalizeExpression spec.expr
    let _ ← spec.activeHours.mapM (ActiveWindow.parse cal)
    let _ ← cal.parseZone spec.tz
    let _ ← nextRunForSchedule cal schedule now
  | .at_ t =>
    if t ≤ now then .error "Invalid schedule: 'at' must be in the future" else .ok ()
  | .every everyMs =>
    if everyMs = 0 then .error "Invalid schedule: every_ms must be > 0" else .ok ()

/-! ## The agent floor -/

def MIN_AGENT_JOB_INTERVAL : Int := 5 * MINUTE_MS

def RUN_GAP_SCAN_OCCURRENCES : Nat := 1000

inductive TooFrequent where
  | fixedInterval (gap : Int)
  | consecutiveRuns (first second : Int)
  deriving DecidableEq

def TooFrequent.gap : TooFrequent → Int
  | .fixedInterval gap => gap
  | .consecutiveRuns first second => second - first

def CronPlan.nextWithin (plan : CronPlan) : Nat → Int → Option (Int × Nat)
  | 0, _ => none
  | budget + 1, start =>
    match nextWallClockRun plan.zone plan.cron start with
    | none => none
    | some next =>
      if plan.activeWindow.all (·.contains (localTimeOfDay plan.zone next)) then some (next, budget)
      else plan.nextWithin budget next

/-- Walks consecutive runs and keeps the closest pair; ties keep the earliest. -/
def CronPlan.closestPair (plan : CronPlan) (minGap : Int) :
    Nat → Nat → Int → Option TooFrequent → Option TooFrequent
  | 0, _, _, closest => closest
  | steps + 1, budget, previous, closest =>
    match plan.nextWithin budget previous with
    | none => closest
    | some (next, budget) =>
      let gap := next - previous
      let closest :=
        if gap < minGap ∧ closest.all (gap < ·.gap) then some (.consecutiveRuns previous next)
        else closest
      plan.closestPair minGap steps budget next closest

def runsCloserThan (cal : Calendar) (schedule : Schedule) (start minGap : Int) : Option TooFrequent :=
  match schedule with
  | .at_ _ => none
  | .every everyMs =>
    if 2 ^ 63 ≤ everyMs then none
    else if (everyMs : Int) < minGap then some (.fixedInterval everyMs) else none
  | .cron spec =>
    match CronPlan.parse cal spec with
    | .error _ => none
    | .ok plan =>
      match plan.nextWithin ACTIVE_WINDOW_CANDIDATE_LIMIT start with
      | none => none
      | some (previous, budget) =>
        plan.closestPair minGap (RUN_GAP_SCAN_OCCURRENCES - 1) budget previous none

def describeGap (gap : Int) : String :=
  let count (n : Int) (unit : String) := if n = 1 then s!"{n} {unit}" else s!"{n} {unit}s"
  let seconds := gap / 1000
  let minutes := seconds / 60
  let rest := seconds % 60
  if minutes = 0 then count rest "second"
  else if rest = 0 then count minutes "minute"
  else count minutes "minute" ++ " " ++ count rest "second"

def TooFrequent.describe (cal : Calendar) : TooFrequent → String
  | .fixedInterval gap => s!"fires every {describeGap gap}"
  | .consecutiveRuns first second => s!"fires at {cal.formatInstant first} and again at " ++
      s!"{cal.formatInstant second}, {describeGap (second - first)} apart"

def validateAgentSchedule (cal : Calendar) (schedule : Schedule) (now : Int) : Except String Unit := do
  validateSchedule cal schedule now
  match runsCloserThan cal schedule now MIN_AGENT_JOB_INTERVAL with
  | some tooFrequent =>
    throw (s!"Invalid schedule: agent jobs must run at least {describeGap MIN_AGENT_JOB_INTERVAL} " ++
      s!"apart, but this schedule {tooFrequent.describe cal}")
  | none => return ()

end Tinyflows.Cron
