import PublishDesk.Text.Digits

/-!
# Dates and times

The written forms of a date, a time of day and a date with a time, the latter with or without an
offset. Seconds may be left out. The day has to exist in its month, and a leap second is a second.
-/

namespace PublishDesk.Toml.Moment

/-- The number written by exactly `k` decimal digits at the start of a text, and what remains. -/
def digits? (k : Nat) (cs : List Char) : Option (Nat × List Char) :=
  let ds := cs.take k
  if ds.length = k ∧ ds.all Char.isDigit then
    some (Text.decimalValue ds, cs.drop k)
  else none

/-- What remains after a given character. -/
def skip? (c : Char) : List Char → Option (List Char)
  | [] => none
  | d :: cs => if d = c then some cs else none

def isLeapYear (y : Nat) : Bool := y % 4 == 0 && (y % 100 != 0 || y % 400 == 0)

def daysInMonth (year month : Nat) : Nat :=
  if month = 2 then (if isLeapYear year then 29 else 28)
  else if month = 4 ∨ month = 6 ∨ month = 9 ∨ month = 11 then 30
  else 31

/-- What remains after a date. -/
def date? (cs : List Char) : Option (List Char) := do
  let (year, cs) ← digits? 4 cs
  let cs ← skip? '-' cs
  let (month, cs) ← digits? 2 cs
  let cs ← skip? '-' cs
  let (day, cs) ← digits? 2 cs
  if 1 ≤ month ∧ month ≤ 12 ∧ 1 ≤ day ∧ day ≤ daysInMonth year month then some cs else none

/-- What remains after the fraction of a second, if there is one. -/
def fraction? : List Char → Option (List Char)
  | '.' :: cs =>
    if (cs.takeWhile Char.isDigit).isEmpty then none else some (cs.dropWhile Char.isDigit)
  | cs => some cs

/-- What remains after the seconds, if there are any. -/
def seconds? : List Char → Option (List Char)
  | ':' :: cs => do
    let (second, cs) ← digits? 2 cs
    if second ≤ 60 then fraction? cs else none
  | cs => some cs

/-- What remains after hours and minutes. -/
def clock? (cs : List Char) : Option (List Char) := do
  let (hour, cs) ← digits? 2 cs
  let cs ← skip? ':' cs
  let (minute, cs) ← digits? 2 cs
  if hour ≤ 23 ∧ minute ≤ 59 then some cs else none

/-- What remains after a time of day. -/
def time? (cs : List Char) : Option (List Char) := do seconds? (← clock? cs)

/-- What remains after an offset, if there is one. -/
def offset? : List Char → Option (List Char)
  | 'Z' :: cs | 'z' :: cs => some cs
  | '+' :: cs | '-' :: cs => clock? cs
  | cs => some cs

/-- What remains after the time that follows a date, if one follows. -/
def dated? : List Char → Option (List Char)
  | 'T' :: cs | 't' :: cs | ' ' :: cs => do offset? (← time? cs)
  | cs => some cs

/-- Whether a text is a date. -/
def isDate (cs : List Char) : Bool := date? cs == some []

/-- Whether a text is a date, a time of day or both. -/
def isMoment (cs : List Char) : Bool := (date? cs).bind dated? == some [] || time? cs == some []

end PublishDesk.Toml.Moment
