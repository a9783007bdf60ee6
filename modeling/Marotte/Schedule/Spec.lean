import Marotte.Library.Calendar

/-! # Recurrence rules

When a schedule is next due, in the local time of the server. The scan asks two questions of each
day, whether the rule matches it and which times it produces, and every local time goes through the
location: one that a clock change leaves out is resolved to an instant on one side of it.
-/
namespace Marotte.Schedule

/-- The offset from UTC in seconds, at each second. Instants are in nanoseconds. -/
abbrev Location := ℤ → ℤ

def second : ℤ := 1000000000

def day : ℤ := 86400

/-- The zero time, in the year 1. -/
def zeroTime : ℤ := -62135596800 * second

section Local
variable (loc : Location)

/-- What the local clock reads, as seconds. -/
def wall (t : ℤ) : ℤ := t / second + loc (t / second)

def dayOf (t : ℤ) : ℤ := wall loc t / day

def clockOf (t : ℤ) : ℤ := wall loc t % day

/-- The offset is looked up at the local time as if that were UTC, and again at the instant that
this gives. -/
def date (n clock : ℤ) : ℤ :=
  let unix := day * n + clock
  second * (unix - loc (unix - loc unix))

def addDate (t days : ℤ) : ℤ := date loc (dayOf loc t + days) (clockOf loc t) + t % second

def startOfDay (t : ℤ) : ℤ := date loc (dayOf loc t) 0

end Local

inductive Freq where
  | minutely
  | hourly
  | daily
  | weekly
  | monthly
  | other (name : String)
  deriving DecidableEq

/-- A month day that stands for the last of the month. -/
def lastDay : ℤ := -1

def minMinuteInterval : ℤ := 5

def maxMinuteInterval : ℤ := 59

def minutesPerDay : ℤ := 24 * 60

def maxScanDays : ℕ := 400

structure Spec where
  freq : Freq
  weekdays : List ℤ := []
  interval : ℤ := 0
  monthDay : ℤ := 0
  hour : ℤ := 0
  minute : ℤ := 0
  deriving DecidableEq

namespace Spec
variable (s : Spec)

def validateHour : Except String Unit :=
  if s.hour < 0 ∨ 23 < s.hour then .error s!"hour {s.hour} out of range 0-23" else .ok ()

def validateWeekly : Except String Unit :=
  if s.weekdays.isEmpty then .error "weekly schedule needs at least one weekday"
  else
    match s.weekdays.find? fun d => d < 0 ∨ 6 < d with
    | some d => .error s!"weekday {d} out of range 0-6"
    | none => s.validateHour

def validateMonthly : Except String Unit :=
  if s.monthDay ≠ lastDay ∧ (s.monthDay < 1 ∨ 31 < s.monthDay) then
    .error s!"month day {s.monthDay} out of range 1-31 (or {lastDay} for last)"
  else s.validateHour

def validate : Except String Unit :=
  if s.minute < 0 ∨ 59 < s.minute then .error s!"minute {s.minute} out of range 0-59"
  else
    match s.freq with
    | .minutely =>
      if s.interval < minMinuteInterval ∨ maxMinuteInterval < s.interval then
        .error s!"minute interval {s.interval} out of range {minMinuteInterval}-{maxMinuteInterval}"
      else .ok ()
    | .hourly =>
      if s.interval < 1 ∨ 24 < s.interval then
        .error s!"hourly interval {s.interval} out of range 1-24"
      else .ok ()
    | .daily => s.validateHour
    | .weekly => s.validateWeekly
    | .monthly => s.validateMonthly
    | .other name => .error s!"unknown frequency {name.quote}"

variable (loc : Location)

/-- The day before the first of the next month, as its local midnight has it. -/
def daysInMonth (t : ℤ) : ℤ :=
  Calendar.dayOfMonth (dayOf loc (date loc (Calendar.lastDay (dayOf loc t)) 0))

/-- A month day past the end of a short month is its last day. -/
def monthDayIn (t : ℤ) : ℤ :=
  let last := daysInMonth loc t
  if s.monthDay = lastDay ∨ last < s.monthDay then last else s.monthDay

def matchesDay (t : ℤ) : Bool :=
  match s.freq with
  | .minutely | .hourly | .daily => true
  | .weekly => Calendar.weekday (dayOf loc t) ∈ s.weekdays
  | .monthly => Calendar.dayOfMonth (dayOf loc t) = s.monthDayIn loc t
  | .other _ => false

/-- The values of a loop that counts up by a step, to a bound that it does not reach. -/
def steps (step bound : ℤ) : ℕ → ℤ → List ℤ
  | 0, _ => []
  | fuel + 1, x => if x < bound then x :: steps step bound fuel (x + step) else []

/-- The times that a day produces, in the order of their local clock. -/
def timesOn (t : ℤ) : List ℤ :=
  let clock h m := date loc (dayOf loc t) (3600 * h + 60 * m)
  match s.freq with
  | .minutely =>
    (steps s.interval minutesPerDay 1440 (s.minute % s.interval)).map fun md =>
      clock (md / 60) (md % 60)
  | .hourly => (steps s.interval 24 24 0).map fun h => clock h s.minute
  | .daily | .weekly | .monthly => [clock s.hour s.minute]
  | .other _ => []

end Spec

def errNoOccurrence : String := "schedule has no next occurrence"

/-- The first time after an instant, day by day from the instant's own. -/
def nextRun (loc : Location) (s : Spec) (after : ℤ) : Except String ℤ := do
  s.validate
  match (List.range maxScanDays).findSome? fun (i : ℕ) =>
      let d := addDate loc (startOfDay loc after) i
      if s.matchesDay loc d then (s.timesOn loc d).find? (after < ·) else none with
  | some t => .ok t
  | none => .error errNoOccurrence

/-- The one derivation of a schedule's next run, from its anchor or a later floor. -/
def nextRunFrom (loc : Location) (s : Spec) (anchor notBefore : ℤ) : Except String ℤ :=
  nextRun loc s (if anchor < notBefore then notBefore else anchor)

end Marotte.Schedule
