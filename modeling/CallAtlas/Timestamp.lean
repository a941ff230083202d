import CallAtlas.Text.Cut

/-! Instants of time in UTC and their written form: date, time, an optional fraction and an offset. -/
namespace CallAtlas

/-- An instant: a day counted from 1970-01-01, a second of that day, and nanoseconds. A leap second is the
last second of a minute with a thousand million nanoseconds or more. -/
structure Timestamp where
  day : Int
  second : Nat
  nano : Nat
  deriving DecidableEq, Repr

namespace Timestamp

def dayOfDate (year : Int) (month day : Nat) : Int :=
  let shifted := if month ≤ 2 then year - 1 else year
  let era := shifted.fdiv 400
  let yearOfEra := shifted - era * 400
  let monthFromMarch : Nat := (month + 9) % 12
  let dayOfYear : Nat := (153 * monthFromMarch + 2) / 5 + (day - 1)
  let dayOfEra := yearOfEra * 365 + yearOfEra / 4 - yearOfEra / 100 + dayOfYear
  era * 146097 + dayOfEra - 719468

def dateOfDay (day : Int) : Int × Nat × Nat :=
  let shifted := day + 719468
  let era := shifted.fdiv 146097
  let dayOfEra := (shifted - era * 146097).toNat
  let yearOfEra := (dayOfEra - dayOfEra / 1460 + dayOfEra / 36524 - dayOfEra / 146096) / 365
  let dayOfYear := dayOfEra - (365 * yearOfEra + yearOfEra / 4 - yearOfEra / 100)
  let monthFromMarch := (5 * dayOfYear + 2) / 153
  let month := if monthFromMarch < 10 then monthFromMarch + 3 else monthFromMarch - 9
  let year := (yearOfEra : Int) + era * 400 + if month ≤ 2 then 1 else 0
  (year, month, dayOfYear - (153 * monthFromMarch + 2) / 5 + 1)

def isLeap (year : Int) : Bool := year % 4 == 0 && (year % 100 != 0 || year % 400 == 0)

def daysInMonth (year : Int) (month : Nat) : Nat :=
  if month = 2 then if isLeap year then 29 else 28
  else if month ∈ [4, 6, 9, 11] then 30
  else 31

def digitsValue (digits : List Char) : Nat :=
  digits.foldl (fun value digit => value * 10 + (digit.toNat - '0'.toNat)) 0

/-- A number of one to `width` digits after blanks. -/
def number? (width : Nat) (text : List Char) : Option (Nat × List Char) :=
  let text := Text.trimStart text
  let digits := (text.take width).takeWhile Text.isDigit
  if digits.isEmpty then none else some (digitsValue digits, text.drop digits.length)

/-- A year of at most four digits, or of any length after a sign. -/
def year? (text : List Char) : Option (Int × List Char) :=
  match Text.trimStart text with
  | '-' :: rest =>
    if rest.head?.any Text.isDigit then
      some (-(digitsValue (rest.takeWhile Text.isDigit) : Int), rest.dropWhile Text.isDigit)
    else none
  | '+' :: rest =>
    if rest.head?.any Text.isDigit then
      some ((digitsValue (rest.takeWhile Text.isDigit) : Int), rest.dropWhile Text.isDigit)
    else none
  | rest => (number? 4 rest).map fun (year, left) => ((year : Int), left)

def mark? (mark : Char) (text : List Char) : Option (List Char) :=
  match Text.trimStart text with
  | c :: rest => if c = mark then some rest else none
  | [] => none

def date? (text : List Char) : Option (Int × List Char) := do
  let (year, rest) ← year? text
  let (month, rest) ← number? 2 (← mark? '-' rest)
  let (day, rest) ← number? 2 (← mark? '-' rest)
  if 1 ≤ month ∧ month ≤ 12 ∧ 1 ≤ day ∧ day ≤ daysInMonth year month ∧ -262143 ≤ year ∧ year ≤ 262142 then
    some (dayOfDate year month day, rest)
  else none

def separator? : List Char → Option (List Char)
  | 't' :: rest | 'T' :: rest => some rest
  | ' ' :: rest => some rest
  | _ => none

/-- A fraction of a second; digits beyond the ninth are passed over. -/
def fraction? (text : List Char) : Option (Nat × List Char) :=
  match text with
  | '.' :: rest =>
    let digits := (rest.take 9).takeWhile Text.isDigit
    if digits.isEmpty then none
    else some (digitsValue (digits ++ List.replicate (9 - digits.length) '0'), rest.dropWhile Text.isDigit)
  | _ => some (0, text)

def time? (text : List Char) : Option (Nat × Nat × List Char) := do
  let (hour, rest) ← number? 2 text
  let (minute, rest) ← number? 2 (← mark? ':' rest)
  let (second, rest) ← number? 2 (← mark? ':' rest)
  let (nano, rest) ← fraction? rest
  if hour < 24 ∧ minute < 60 ∧ second < 60 then some (hour * 3600 + minute * 60 + second, nano, rest)
  else if hour < 24 ∧ minute < 60 ∧ second = 60 then
    some (hour * 3600 + minute * 60 + 59, nano + 1000000000, rest)
  else none

def twoDigits? : List Char → Option (Nat × List Char)
  | a :: b :: rest =>
    if Text.isDigit a && Text.isDigit b then some (digitsValue [a, b], rest) else none
  | _ => none

def offsetSign? : List Char → Option (Int × List Char)
  | '+' :: rest => some (1, rest)
  | '-' :: rest | '−' :: rest => some (-1, rest)
  | _ => none

/-- Seconds east of UTC. -/
def offset? (text : List Char) : Option (Int × List Char) :=
  let text := Text.trimStart text
  if Text.startsWith "utc" (Text.lowercase (text.take 3)) then some (0, text.drop 3)
  else
    match text with
    | 'z' :: rest | 'Z' :: rest => some (0, rest)
    | _ => do
      let (sign, rest) ← offsetSign? text
      let (hours, rest) ← twoDigits? rest
      let rest := rest.dropWhile fun c => c == ':' || Text.isBlank c
      let (minutes, rest) ← twoDigits? rest
      if minutes < 60 ∧ hours < 24 then some (sign * (hours * 3600 + minutes * 60), rest) else none

/-- The instant at a local time with an offset in seconds. -/
def ofLocal (day : Int) (second nano : Nat) (offset : Int) : Timestamp :=
  let total := day * 86400 + second - offset
  { day := total.fdiv 86400, second := (total.fmod 86400).toNat, nano }

/-- Reads an instant. Blanks may stand between the parts, and a blank may stand between date and time. -/
def parse? (text : String) : Option Timestamp := do
  let (day, rest) ← date? text.toList
  let (second, nano, rest) ← time? (← separator? rest)
  let (offset, rest) ← offset? rest
  if (Text.trimStart rest).isEmpty then some (ofLocal day second nano offset) else none

/-- A number in decimal with at least `width` digits. -/
def padded (width value : Nat) : String :=
  let digits := toString value
  String.ofList (List.replicate (width - digits.length) '0') ++ digits

def yearText (year : Int) : String :=
  if 0 ≤ year ∧ year ≤ 9999 then padded 4 year.toNat
  else if year < 0 then "-" ++ padded 4 (-year).toNat
  else "+" ++ padded 4 year.toNat

/-- A fraction is written with no, three, six or nine digits, as few as it needs. -/
def fractionText (nano : Nat) : String :=
  if nano = 0 then ""
  else if nano % 1000000 = 0 then "." ++ padded 3 (nano / 1000000)
  else if nano % 1000 = 0 then "." ++ padded 6 (nano / 1000)
  else "." ++ padded 9 nano

def localText (time : Timestamp) : String :=
  let (year, month, day) := dateOfDay time.day
  let second := time.second % 60 + time.nano / 1000000000
  yearText year ++ "-" ++ padded 2 month ++ "-" ++ padded 2 day ++ "T" ++ padded 2 (time.second / 3600) ++
    ":" ++ padded 2 (time.second / 60 % 60) ++ ":" ++ padded 2 second ++ fractionText (time.nano % 1000000000)

def text (time : Timestamp) : String := time.localText ++ "Z"

def offsetText (time : Timestamp) : String := time.localText ++ "+00:00"

end Timestamp
end CallAtlas
