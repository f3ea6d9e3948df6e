import Mythryl.Runtime
import Mathlib.Data.Int.ConditionallyCompleteOrder
import Mathlib.Tactic.IntervalCases

/-! # Calendar dates: `src/lib/std/src/date.pkg` -/

namespace Mythryl.Dates

inductive WeekDay
  | sun | mon | tue | wed | thu | fri | sat
  deriving DecidableEq

inductive Month
  | jan | feb | mar | apr | may | jun | jul | aug | sep | oct | nov | dec
  deriving DecidableEq

/-- `DATE`; an offset is a number of microseconds. -/
structure Date where
  year : Int
  month : Month
  day : Int
  hour : Int
  minute : Int
  second : Int
  offset : Option Int
  isDaylightSavingsTime : Option Bool
  wday : WeekDay
  yday : Int

/-- `vector::get`, and `list::nth` on a list that is long enough. -/
def nth {α : Type} (xs : List α) (i : Int) : Outcome α :=
  if 0 ≤ i then match xs[i.toNat]? with
    | some x => .ok x
    | none => throw .subscript
  else throw .subscript

def dayTable : List WeekDay := [.sun, .mon, .tue, .wed, .thu, .fri, .sat]

def monthTable : List Month :=
  [.jan, .feb, .mar, .apr, .may, .jun, .jul, .aug, .sep, .oct, .nov, .dec]

def monthToInt : Month → Int
  | .jan => 0 | .feb => 1 | .mar => 2 | .apr => 3 | .may => 4 | .jun => 5
  | .jul => 6 | .aug => 7 | .sep => 8 | .oct => 9 | .nov => 10 | .dec => 11

def sum (f : Int → Outcome Int) (p : Int → Outcome Bool) : Nat → Int → Int → Outcome Int
  | 0, _, _ => throw .unfinished
  | fuel + 1, i, acc => do
      if ← p i then sum f p fuel (i + 1) (acc + (← f i)) else return acc

def Leap (year : Int) : Prop :=
  year % 4 = 0 ∧ ¬year % 400 = 100 ∧ ¬year % 400 = 200 ∧ ¬year % 400 = 300

instance (year : Int) : Decidable (Leap year) := inferInstanceAs (Decidable (_ ∧ _))

def monthLengths : List Int := [31, 28, 31, 30, 31, 30, 31, 31, 30, 31, 30, 31]

def lastDayOfGregorianMonth (month year : Int) : Outcome Int :=
  if month = 1 ∧ Leap year then .ok 29 else nth monthLengths month

def daysPrior (year : Int) : Int :=
  365 * (year - 1) + (year - 1).tdiv 4 - (year - 1).tdiv 100 + (year - 1).tdiv 400

def toAbsolute (fuel : Nat) (month day year : Int) : Outcome Int := do
  return day + (← sum (lastDayOfGregorianMonth · year) (fun m => .ok (m < month)) fuel 0 0)
    + daysPrior year

def fromAbsolute (fuel : Nat) (abs : Int) : Outcome (Int × Int × Int) := do
  let approx := abs.tdiv 366
  let year := approx + (← sum (fun _ => .ok 1)
    (fun y => do return abs ≥ (← toAbsolute fuel 0 1 (y + 1))) fuel approx 0)
  let month ← sum (fun _ => .ok 1)
    (fun m => do return abs > (← toAbsolute fuel m (← lastDayOfGregorianMonth m year) year)) fuel 0 0
  let day := abs - (← toAbsolute fuel month 1 year) + 1
  return (month, day, year)

def wday (fuel : Nat) (month day year : Int) : Outcome WeekDay := do
  nth dayTable ((← toAbsolute fuel month day year) % 7)

def yday (fuel : Nat) (month day year : Int) : Outcome Int := do
  return (← toAbsolute fuel month day year) - daysPrior year - 1

def canonicalizeDate (fuel : Nat) (d : Date) : Outcome Date := do
  let (month, day, year) ←
    fromAbsolute fuel (← toAbsolute fuel (monthToInt d.month) d.day d.year)
  let yday ← yday fuel (monthToInt d.month) d.day d.year
  let wday ← wday fuel (monthToInt d.month) d.day d.year
  return { d with
    year, month := ← nth monthTable month, day, isDaylightSavingsTime := none, yday, wday }

theorem sum_eq {f : Int → Outcome Int} {p : Int → Outcome Bool} {i acc : Int} {F : Nat → Int}
    (n : Nat) {fuel : Nat} (enough : n < fuel)
    (step : ∀ j < n, p (i + j) = .ok true ∧ f (i + j) = .ok (F (j + 1) - F j))
    (stop : p (i + n) = .ok false) : sum f p fuel i acc = .ok (acc + (F n - F 0)) := by
  obtain ⟨fuel, rfl⟩ : ∃ k, fuel = k + 1 := ⟨fuel - 1, by omega⟩
  induction n generalizing i acc F fuel with
  | zero =>
    simp only [Nat.cast_zero, add_zero] at stop
    simp [sum, stop]
  | succ n ih =>
    obtain ⟨go, value⟩ := step 0 (Nat.succ_pos n)
    simp only [Nat.cast_zero, add_zero] at go value
    obtain ⟨fuel, rfl⟩ : ∃ k, fuel = k + 1 := ⟨fuel - 1, by omega⟩
    rw [sum, go, value]
    simp only [ok_bind, if_true]
    refine (ih (F := fun j => F (j + 1)) (fun j less => ?_) ?_ fuel (by omega)).trans ?_
    · have next := step (j + 1) (by omega)
      rw [show i + 1 + (j : Int) = i + (j + 1) by ring]
      exact next
    · push_cast at stop
      rw [show i + 1 + (n : Int) = i + (n + 1) by ring]
      exact stop
    · exact congrArg Except.ok (by ring)

def last (month : Nat) (year : Int) : Int :=
  if month = 1 ∧ Leap year then 29 else monthLengths.getD month 0

/-- The days of a year before a month; those of the whole year for month 12. -/
def before : Nat → Int → Int
  | 0, _ => 0
  | month + 1, year => before month year + last month year

variable {m m' : Nat} {d y n : Int} {fuel : Nat}

def dayNumber (month : Nat) (day year : Int) : Int := day + before month year + daysPrior year

structure Valid (m : Nat) (d y : Int) : Prop where
  year : 1 ≤ y
  month : m < 12
  day : 1 ≤ d ∧ d ≤ last m y

def Month.index (month : Month) : Nat := (monthToInt month).toNat

theorem Month.index_lt (month : Month) : month.index < 12 := by
  cases month <;> decide

def Date.number (d : Date) : Int := dayNumber d.month.index d.day d.year

def Date.absoluteSecond (d : Date) : Int :=
  86400 * d.number + 3600 * d.hour + 60 * d.minute + d.second

def Date.NormalTime (d : Date) : Prop :=
  (0 ≤ d.hour ∧ d.hour < 24) ∧ (0 ≤ d.minute ∧ d.minute < 60) ∧ 0 ≤ d.second ∧ d.second < 60

/-- The record `c` is the valid date of the same second as `d`, with its own week day and year
day. -/
structure CanonicalOf (d c : Date) : Prop where
  valid : Valid c.month.index c.day c.year
  time : c.NormalTime
  second : c.absoluteSecond = d.absoluteSecond
  wday : ∀ fuel : Nat, 12 < fuel → wday fuel (monthToInt c.month) c.day c.year = .ok c.wday
  yday : ∀ fuel : Nat, 12 < fuel → yday fuel (monthToInt c.month) c.day c.year = .ok c.yday

def Date.Canonicalizes (d : Date) : Prop :=
  ∃ c, (∃ bound, ∀ fuel, bound ≤ fuel →
    canonicalizeDate fuel d = .ok c ∧ canonicalizeDate fuel c = .ok c) ∧ CanonicalOf d c

end Mythryl.Dates
