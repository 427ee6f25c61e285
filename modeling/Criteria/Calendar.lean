import Criteria.Number.Numeral
import Criteria.Text.Basic

/-! # Dates and moments

A moment is a date, a time of day, or both. It is read from text in a few forms, or from a count of
milliseconds; its two parts are written in one form each. The forms are the documented ones of the
calendar library that the values of conditions are read with: one is that of RFC 3339, the others
are made of numeric fields, which blanks may precede. The range of years and the leap second, too,
are as documented there. -/
namespace Criteria.Calendar
open Decimal

/-! ## Dates

Days of the Gregorian calendar, extended to all years in range. -/

structure Date where
  year : Int
  month : Nat
  day : Nat
deriving DecidableEq, Repr

def isLeap (year : Int) : Bool :=
  year % 4 == 0 && (year % 100 != 0 || year % 400 == 0)

def daysInMonth (year : Int) (month : Nat) : Nat :=
  if month = 2 then if isLeap year then 29 else 28
  else if month = 4 ∨ month = 6 ∨ month = 9 ∨ month = 11 then 30
  else 31

def firstYear : Int := -262143

def lastYear : Int := 262142

namespace Date

/-- A date that exists, in a year that is in range. -/
def of? (year : Int) (month day : Nat) : Option Date :=
  if firstYear ≤ year ∧ year ≤ lastYear ∧ 1 ≤ month ∧ month ≤ 12 ∧ 1 ≤ day ∧
      day ≤ daysInMonth year month then some ⟨year, month, day⟩
  else none

/-- The date that many days after 1970-01-01. Days are counted in spans of 400 years, and in years
that begin with March, so that a leap day is the last of its year. -/
def ofDays? (days : Int) : Option Date :=
  let z := days + 719468
  let span := z / 146097
  let dayOfSpan := (z % 146097).toNat
  let yearOfSpan :=
    (dayOfSpan - dayOfSpan / 1460 + dayOfSpan / 36524 - dayOfSpan / 146096) / 365
  let dayOfYear := dayOfSpan - (365 * yearOfSpan + yearOfSpan / 4 - yearOfSpan / 100)
  let m := (5 * dayOfYear + 2) / 153
  let day := dayOfYear - (153 * m + 2) / 5 + 1
  let month := if m < 10 then m + 3 else m - 9
  of? (yearOfSpan + span * 400 + if month ≤ 2 then 1 else 0) month day

end Date

/-! ## Times of day -/

/-- A time of day. The second 60 is a leap second. -/
structure Clock where
  hour : Nat
  minute : Nat
  second : Nat
  nanosecond : Nat
deriving DecidableEq, Repr

namespace Clock

def midnight : Clock := ⟨0, 0, 0, 0⟩

def of? (hour minute second nanosecond : Nat) : Option Clock :=
  if hour ≤ 23 ∧ minute ≤ 59 ∧ second ≤ 60 then some ⟨hour, minute, second, nanosecond⟩ else none

/-- Hundredths of the second. Those of a leap second are not told apart from its end. -/
def hundredths (t : Clock) : Nat := if t.second = 60 then 99 else t.nanosecond / 10000000

def text (t : Clock) : List Char :=
  padded 2 t.hour ++ ':' :: padded 2 t.minute ++ ':' :: padded 2 t.second ++
    '.' :: padded 2 t.hundredths

end Clock

/-- Years of more or fewer than four digits, and those before the year zero, have a sign. -/
def yearText (year : Int) : List Char :=
  if 0 ≤ year ∧ year ≤ 9999 then padded 4 year.natAbs
  else (if year < 0 then '-' else '+') :: padded 4 year.natAbs

def Date.text (d : Date) : List Char :=
  yearText d.year ++ '-' :: padded 2 d.month ++ '-' :: padded 2 d.day

inductive Moment where
  | dateTime (date : Date) (clock : Clock)
  | date (date : Date)
  | clock (clock : Clock)
deriving DecidableEq, Repr

/-! ## Pieces of text

Each reader gives what it has read and the text after it. -/

def expect (c : Char) : List Char → Option (List Char)
  | [] => none
  | d :: cs => if d = c then some cs else none

/-- One of the characters. -/
def expectOneOf (choices : List Char) : List Char → Option (List Char)
  | [] => none
  | d :: cs => if d ∈ choices then some cs else none

/-- Exactly that many digits. -/
def exactly (width : Nat) (cs : List Char) : Option (Nat × List Char) :=
  let digits := (cs.takeWhile isDigit).take width
  if digits.length = width then some (value digits, cs.drop width) else none

/-- At least one digit and at most that many, after blanks. -/
def upTo (width : Nat) (cs : List Char) : Option (Nat × List Char) :=
  let cs := Text.trimLeft cs
  let digits := (cs.takeWhile isDigit).take width
  if digits.isEmpty then none else some (value digits, cs.drop digits.length)

/-- A year has up to four digits, or any number of them after a sign. -/
def anyYear (cs : List Char) : Option (Int × List Char) :=
  let signed := fun (negative : Bool) (rest : List Char) =>
    let d := spanDigits rest
    if d.1.isEmpty then none
    else some (if negative then -(value d.1 : Int) else value d.1, d.2)
  match Text.trimLeft cs with
  | '-' :: rest => signed true rest
  | '+' :: rest => signed false rest
  | rest => (upTo 4 rest).map fun r => (r.1, r.2)

/-- A point and a fraction of a second, in nanoseconds; digits past the ninth do not count. Without
a point there is no fraction. -/
def fraction : List Char → Option (Nat × List Char)
  | '.' :: cs =>
    let d := spanDigits cs
    let digits := d.1.take 9
    if d.1.isEmpty then none else some (value digits * Nat.pow 10 (9 - digits.length), d.2)
  | cs => some (0, cs)

/-- Hours, minutes, seconds and a fraction, each read in the given way. -/
def clockWith (field : List Char → Option (Nat × List Char)) (cs : List Char) :
    Option (Clock × List Char) := do
  let h ← field cs
  let m ← field (← expect ':' h.2)
  let s ← field (← expect ':' m.2)
  let f ← fraction s.2
  return (← Clock.of? h.1 m.1 s.1 f.1, f.2)

def longClock (cs : List Char) : Option (Clock × List Char) := clockWith (upTo 2) cs

/-- Hours and minutes. -/
def shortClock (cs : List Char) : Option (Clock × List Char) := do
  let h ← upTo 2 cs
  let m ← upTo 2 (← expect ':' h.2)
  return (← Clock.of? h.1 m.1 0 0, m.2)

def dateOnly (cs : List Char) : Option (Date × List Char) := do
  let y ← anyYear cs
  let m ← upTo 2 (← expect '-' y.2)
  let d ← upTo 2 (← expect '-' m.2)
  return (← Date.of? y.1 m.1 d.1, d.2)

/-- A distance from universal time of at most 23:59, or `Z`. -/
def zone (cs : List Char) : Option (List Char) :=
  match expectOneOf ['Z', 'z'] cs with
  | some rest => some rest
  | none => do
    let h ← exactly 2 (← expectOneOf ['+', '-', '\u2212'] cs)
    let m ← exactly 2 (← expect ':' h.2)
    if h.1 ≤ 23 ∧ m.1 ≤ 59 then some m.2 else none

/-! ## Moments -/

/-- What is read, if nothing follows it. -/
def whole {α : Type} : Option (α × List Char) → Option α
  | some (a, []) => some a
  | _ => none

/-- A date and a time of fixed width with a zone. The zone is dropped: the local time counts. -/
def zoned (cs : List Char) : Option Moment := do
  let y ← exactly 4 cs
  let m ← exactly 2 (← expect '-' y.2)
  let d ← exactly 2 (← expect '-' m.2)
  let t ← clockWith (exactly 2) (← expectOneOf ['T', 't', ' '] d.2)
  match ← zone t.2 with
  | [] => return .dateTime (← Date.of? y.1 m.1 d.1) t.1
  | _ => none

/-- A date, what parts it from the time, and the time. -/
def local? (parting : List Char → Option (List Char))
    (time : List Char → Option (Clock × List Char)) (cs : List Char) : Option Moment := do
  let d ← dateOnly cs
  let t ← whole (time (← parting d.2))
  return .dateTime d.1 t

/-- Blanks, or nothing at all. -/
def blanks (cs : List Char) : Option (List Char) := some (Text.trimLeft cs)

/-- The forms of a moment in the order in which they are tried. -/
def forms : List (List Char → Option Moment) :=
  [zoned, local? (expect 'T') longClock, local? blanks longClock, local? (expect 'T') shortClock,
    local? blanks shortClock, fun cs => (whole (dateOnly cs)).map .date,
    fun cs => (whole (longClock cs)).map .clock, fun cs => (whole (shortClock cs)).map .clock]

/-- The moment that a text without blanks around it means. -/
def Moment.ofText? (cs : List Char) : Option Moment := forms.findSome? (· cs)

/-- The moment that many milliseconds after the start of 1970, in universal time. -/
def Moment.ofMillis? (millis : Int) : Option Moment :=
  let ms := (millis % 86400000).toNat
  (Date.ofDays? (millis / 86400000)).map fun d =>
    .dateTime d
      ⟨ms / 3600000, ms / 60000 % 60, ms / 1000 % 60, ms % 1000 * 1000000⟩

end Criteria.Calendar
