/-!
Dates and times of day as settings files write them. Only their form and range are looked at, since
no setting is a date: a month has the days it has in its year, and an hour, a minute and a second are
within the day.
-/

namespace StackML.Settings.Calendar

/-- Reads a number of one or two digits, of exactly two if `full`. -/
def number? (full : Bool) : List Char → Option (Nat × List Char)
  | c :: d :: rest =>
    if c.isDigit && d.isDigit then some (10 * (c.toNat - 48) + (d.toNat - 48), rest)
    else if c.isDigit && !full then some (c.toNat - 48, d :: rest)
    else none
  | [c] => if c.isDigit && !full then some (c.toNat - 48, []) else none
  | [] => none

def below? (full : Bool) (bound : Nat) (cs : List Char) : Option (List Char) := do
  let (n, rest) ← number? full cs
  guard (n < bound)
  pure rest

def char? (c : Char) : List Char → Option (List Char)
  | d :: rest => if d == c then some rest else none
  | [] => none

def isLeap (year : Nat) : Bool := year % 4 == 0 && (year % 100 != 0 || year % 400 == 0)

/-- The number of days of a month; none if there is no such month. -/
def daysIn (year month : Nat) : Nat :=
  if month == 2 then (if isLeap year then 29 else 28)
  else if [4, 6, 9, 11].contains month then 30
  else if 1 ≤ month && month ≤ 12 then 31
  else 0

/-- Reads a year of four digits, a month and a day with dashes between them. -/
def date? (full : Bool) (cs : List Char) : Option (List Char) := do
  let (century, rest) ← number? true cs
  let (year, rest) ← number? true rest
  let (month, rest) ← number? full (← char? '-' rest)
  let (day, rest) ← number? full (← char? '-' rest)
  guard (1 ≤ day && day ≤ daysIn (100 * century + year) month)
  pure rest

/-- Skips the digits behind the mark of a fraction, if there are any. -/
def skipFraction (marks : List Char) (cs : List Char) : List Char :=
  match cs with
  | c :: d :: rest => if marks.contains c && d.isDigit then rest.dropWhile Char.isDigit else cs
  | _ => cs

/-- Reads an hour, a minute and a second with a fraction, with colons between them. The second may
be left out if `short`. -/
def clock? (full short : Bool) (marks : List Char) (cs : List Char) : Option (List Char) := do
  let rest ← below? full 60 (← char? ':' (← below? full 24 cs))
  match char? ':' rest with
  | some seconds => (below? full 60 seconds).map (skipFraction marks)
  | none => if short then some rest else none

def zone? (cs : List Char) : Option (List Char) :=
  match cs with
  | 'Z' :: rest => some rest
  | c :: rest =>
    if c == '+' || c == '-' then do below? true 61 (← char? ':' (← below? true 25 rest))
    else none
  | [] => none

def complete (rest : Option (List Char)) : Bool := rest == some []

end StackML.Settings.Calendar
