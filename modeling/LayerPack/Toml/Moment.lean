/-! Dates and times of TOML: reading with range checks, and the normal text. -/
namespace LayerPack.Toml.Moment

/-- Reads exactly `count` digits. -/
def digits : Nat → List Char → Option (Nat × List Char)
  | 0, cs => some (0, cs)
  | count + 1, cs =>
    match cs with
    | c :: rest =>
      if c.isDigit then
        (digits count rest).map fun (n, rest') => ((c.toNat - 48) * Nat.pow 10 count + n, rest')
      else none
    | [] => none

def expect (c : Char) : List Char → Option (List Char)
  | d :: rest => if d = c then some rest else none
  | [] => none

def isLeap (year : Nat) : Bool := year % 4 == 0 && (year % 100 != 0 || year % 400 == 0)

def daysIn (year month : Nat) : Nat :=
  if month = 2 then (if isLeap year then 29 else 28)
  else if month = 4 ∨ month = 6 ∨ month = 9 ∨ month = 11 then 30
  else 31

def padded (width n : Nat) : List Char :=
  let text := Nat.toDigits 10 n
  List.replicate (width - text.length) '0' ++ text

/-- A date: its text and the rest. -/
def date (cs : List Char) : Option (List Char × List Char) := do
  let (year, cs) ← digits 4 cs
  let (month, cs) ← digits 2 (← expect '-' cs)
  let (day, cs) ← digits 2 (← expect '-' cs)
  guard (1 ≤ month ∧ month ≤ 12 ∧ 1 ≤ day ∧ day ≤ daysIn year month)
  return (padded 4 year ++ '-' :: padded 2 month ++ '-' :: padded 2 day, cs)

/-- The digits of a fraction: nine at most count, and zeros at the end do not. -/
def fraction (cs : List Char) : Option (List Char × List Char) :=
  match cs with
  | '.' :: rest =>
    let ds := rest.takeWhile Char.isDigit
    if ds = [] then none
    else
      let kept := ((ds.take 9).reverse.dropWhile (· = '0')).reverse
      some (if kept = [] then [] else '.' :: kept, rest.dropWhile Char.isDigit)
  | _ => some ([], cs)

def time (cs : List Char) : Option (List Char × List Char) := do
  let (hour, cs) ← digits 2 cs
  let (minute, cs) ← digits 2 (← expect ':' cs)
  let (second, cs) ← digits 2 (← expect ':' cs)
  guard (hour ≤ 23 ∧ minute ≤ 59 ∧ second ≤ 60)
  let (part, cs) ← fraction cs
  return (padded 2 hour ++ ':' :: padded 2 minute ++ ':' :: padded 2 second ++ part, cs)

/-- The offset from universal time; minus zero is written with a plus. -/
def offset (cs : List Char) : Option (List Char × List Char) :=
  match cs with
  | 'Z' :: rest | 'z' :: rest => some (['Z'], rest)
  | c :: rest =>
    if c = '+' ∨ c = '-' then do
      let (hour, cs) ← digits 2 rest
      let (minute, cs) ← digits 2 (← expect ':' cs)
      guard (hour ≤ 23 ∧ minute ≤ 59)
      let sign := if hour = 0 ∧ minute = 0 then '+' else c
      return (sign :: padded 2 hour ++ ':' :: padded 2 minute, cs)
    else some ([], cs)
  | [] => some ([], [])

/-- A date with a time and an offset, a date with a time, a date, or a time. -/
def parse (cs : List Char) : Option (String × List Char) :=
  match date cs with
  | some (day, rest) =>
    let clock := match rest with
      | c :: more =>
        if c = 'T' ∨ c = 't' ∨ (c = ' ' ∧ more.head?.any Char.isDigit) then some more else none
      | [] => none
    match clock with
    | none => some (String.ofList day, rest)
    | some more => do
      let (hours, rest) ← time more
      let (zone, rest) ← offset rest
      return (String.ofList (day ++ 'T' :: hours ++ zone), rest)
  | none => (time cs).map fun (hours, rest) => (String.ofList hours, rest)

end LayerPack.Toml.Moment
