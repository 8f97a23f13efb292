import Interchange.Number.Reading
import Interchange.Text.Words
/-!
# Moment — dates and times

A moment is a date, a time of day, or both with perhaps an offset from universal time.  It is written in one normal form,
whatever letter or blank stood between its parts; of a fraction of a second nine digits count.
-/
namespace Interchange
namespace Toml

structure Date where
  year : Nat
  month : Nat
  day : Nat
deriving DecidableEq, Repr

structure Time where
  hour : Nat
  minute : Nat
  second : Nat
  nanosecond : Nat
deriving DecidableEq, Repr

/-- An offset from universal time, to the east if positive. -/
inductive Offset where
  | utc
  | minutes (east : Int)
deriving DecidableEq, Repr

inductive Moment where
  | date (d : Date)
  | time (t : Time)
  | dateTime (d : Date) (t : Time) (offset : Option Offset)
deriving DecidableEq, Repr

/-! ## Writing -/

def padded (width n : Nat) : List Char :=
  let ds := Nat.toDigits 10 n
  List.replicate (width - ds.length) '0' ++ ds

def Date.text (d : Date) : List Char := padded 4 d.year ++ '-' :: padded 2 d.month ++ '-' :: padded 2 d.day

/-- A time, with as many digits of its fraction as there are up to the last that is not zero. -/
def Time.text (t : Time) : List Char :=
  let fraction := ((padded 9 t.nanosecond).reverse.dropWhile (· == '0')).reverse
  padded 2 t.hour ++ ':' :: padded 2 t.minute ++ ':' :: padded 2 t.second
    ++ (if fraction.isEmpty then [] else '.' :: fraction)

def Offset.text : Offset → List Char
  | utc => ['Z']
  | minutes east =>
    (if east < 0 then '-' else '+') :: padded 2 (east.natAbs / 60) ++ ':' :: padded 2 (east.natAbs % 60)

/-- **The normal form of a moment.** -/
def Moment.text : Moment → List Char
  | date d => d.text
  | time t => t.text
  | dateTime d t offset => d.text ++ 'T' :: t.text ++ (offset.map Offset.text).getD []

/-! ## Calendar -/

def isLeapYear (year : Nat) : Bool := year % 4 == 0 && (year % 100 != 0 || year % 400 == 0)

def daysInMonth (year month : Nat) : Nat :=
  match month with
  | 2 => if isLeapYear year then 29 else 28
  | 4 | 6 | 9 | 11 => 30
  | _ => 31

def Date.isValid (d : Date) : Bool :=
  1 ≤ d.month && d.month ≤ 12 && 1 ≤ d.day && d.day ≤ daysInMonth d.year d.month

/-- **Which clocks are accepted**: the last hour of a day, and the offsets by their hours and minutes. -/
structure Clock where
  lastHour : Nat
  isOffset : (hours minutes : Nat) → Bool

def Clock.strict : Clock where
  lastHour := 23
  isOffset hours minutes := hours ≤ 23 && minutes ≤ 59

/-- The clock of a moment that stands in a text: a day may end at its hour 24, and an offset is a day at most. -/
def Clock.lenient : Clock where
  lastHour := 24
  isOffset hours minutes := hours * 60 + minutes ≤ 24 * 60

/-- A minute can have a second more, a leap second. -/
def Time.isValid (clock : Clock) (t : Time) : Bool := t.hour ≤ clock.lastHour && t.minute ≤ 59 && t.second ≤ 60

/-! ## Reading -/

namespace Moment

/-- A number of exactly `count` digits. -/
def digits? (count : Nat) (cs : List Char) : Option (Nat × List Char) :=
  if (cs.take count).length = count then (digitsValue? 10 (cs.take count)).map fun n => (n, cs.drop count) else none

def date? (cs : List Char) : Option (Date × List Char) := do
  let (year, cs) ← digits? 4 cs
  let (month, cs) ← digits? 2 (← strip? ['-'] cs)
  let (day, cs) ← digits? 2 (← strip? ['-'] cs)
  let d : Date := ⟨year, month, day⟩
  if d.isValid then return (d, cs) else none

/-- Nanoseconds from the digits of a fraction of a second; digits past the ninth are cut off. -/
def nanoseconds (ds : List Char) : Nat :=
  let ds := ds.take 9
  (digitsValue? 10 ds).getD 0 * tenTo (9 - ds.length)

/-- A fraction of a second, zero if there is none. -/
def fraction (cs : List Char) : Nat × List Char :=
  match cs with
  | '.' :: c :: rest => if isDigit c then (nanoseconds (splitDigits (c :: rest)).1, (splitDigits rest).2) else (0, cs)
  | _ => (0, cs)

def time? (clock : Clock) (cs : List Char) : Option (Time × List Char) := do
  let (hour, cs) ← digits? 2 cs
  let (minute, cs) ← digits? 2 (← strip? [':'] cs)
  let (second, cs) ← digits? 2 (← strip? [':'] cs)
  let (nanosecond, cs) := fraction cs
  let t : Time := ⟨hour, minute, second, nanosecond⟩
  if t.isValid clock then return (t, cs) else none

def signedOffset? (clock : Clock) (west : Bool) (cs : List Char) : Option (Offset × List Char) := do
  let (hours, cs) ← digits? 2 cs
  let (minutes, cs) ← digits? 2 (← strip? [':'] cs)
  let east : Int := (hours * 60 + minutes : Nat)
  if clock.isOffset hours minutes then return (.minutes (if west then -east else east), cs) else none

def offset? (clock : Clock) : List Char → Option (Offset × List Char)
  | 'Z' :: cs => some (.utc, cs)
  | 'z' :: cs => some (.utc, cs)
  | '+' :: cs => signedOffset? clock false cs
  | '-' :: cs => signedOffset? clock true cs
  | _ => none

/-- The time behind a date and the letter or blank between them. -/
def timePart? (clock : Clock) : List Char → Option (Time × List Char)
  | [] => none
  | c :: cs => if c = 'T' ∨ c = 't' ∨ c = ' ' then time? clock cs else none

/-- **A moment at the front of a text**, as long as possible. -/
def read? (clock : Clock) (cs : List Char) : Option (Moment × List Char) :=
  match date? cs with
  | none => (time? clock cs).map fun (t, cs) => (.time t, cs)
  | some (d, cs) =>
    match timePart? clock cs with
    | none => some (.date d, cs)
    | some (t, cs) =>
      match offset? clock cs with
      | none => some (.dateTime d t none, cs)
      | some (o, cs) => some (.dateTime d t (some o), cs)

def ofText? (cs : List Char) : Option Moment :=
  match read? .lenient cs with
  | some (m, []) => some m
  | _ => none

end Moment
end Toml
end Interchange
