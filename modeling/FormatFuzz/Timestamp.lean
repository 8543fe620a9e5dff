import FormatFuzz.Numeral

/-!
# Timestamps

A date such as `2001-1-31`, perhaps with a time of day and an offset from universal time. A date on
its own begins at midnight, and without an offset a time is universal.
-/

set_option autoImplicit false

namespace FormatFuzz

/-- A date and time of day as shown by a clock `offset` minutes ahead of universal time. -/
structure Timestamp where
  year : Nat
  month : Nat
  day : Nat
  hour : Nat := 0
  minute : Nat := 0
  second : Nat := 0
  nano : Nat := 0
  offset : Int := 0
  deriving DecidableEq, Repr, Inhabited

namespace Timestamp

def daysIn (year month : Nat) : Nat :=
  if month == 2 then
    if year % 4 == 0 && (year % 100 != 0 || year % 400 == 0) then 29 else 28
  else if month == 4 || month == 6 || month == 9 || month == 11 then 30 else 31

def shortNumber (cs : List Char) : Option (Nat × List Char) :=
  let ds := (cs.take 2).takeWhile Char.isDigit
  (Numeral.decimalDigits ds).map fun n => (n, cs.drop ds.length)

def after (c : Char) : List Char → Option (List Char)
  | [] => none
  | d :: cs => if d = c then some cs else none

/-- A fraction of a second in nanoseconds, of which nine digits count. A mark without a digit is no
fraction. -/
def fraction (cs : List Char) : Nat × List Char :=
  match cs with
  | mark :: d :: rest =>
    if (mark == '.' || mark == ',') && d.isDigit then
      let ds := (d :: rest).takeWhile Char.isDigit
      let nine := ds.take 9
      let scale := Nat.pow 10 (9 - nine.length)
      ((Numeral.decimalDigits nine).getD 0 * scale, (d :: rest).drop ds.length)
    else (0, cs)
  | cs => (0, cs)

def clock? (t : Timestamp) (cs : List Char) : Option (Timestamp × List Char) := do
  let (h, r) ← shortNumber cs
  let (m, r) ← shortNumber (← after ':' r)
  let (s, r) ← shortNumber (← after ':' r)
  let (n, r) := fraction r
  if h < 24 && m < 60 && s < 60 then
    return ({ t with hour := h, minute := m, second := s, nano := n }, r)
  else none

/-- `Z` or an offset such as `+02:00`, as minutes. A full day and a full hour are let pass. -/
def zone? (cs : List Char) : Option Int :=
  match cs with
  | ['Z'] => some 0
  | [s, a, b, ':', c, d] =>
    match Numeral.decimalDigits [a, b], Numeral.decimalDigits [c, d] with
    | some h, some m =>
      if 24 < h || 60 < m then none
      else if s == '+' then some (h * 60 + m)
      else if s == '-' then some (-(h * 60 + m : Nat))
      else none
    | _, _ => none
  | _ => none

/-- What may follow a date: nothing, a time with a zone after `T`, or a time without one after
blanks. -/
def withTime? (t : Timestamp) (cs : List Char) : Option Timestamp :=
  match cs with
  | [] => some t
  | c :: r =>
    if c == 'T' || c == 't' then
      match clock? t r with
      | some (t, r) => (zone? r).map fun z => { t with offset := z }
      | none => none
    else if c == ' ' then
      match clock? t (r.dropWhile (· == ' ')) with
      | some (t, []) => some t
      | _ => none
    else none

def ofText? (s : String) : Option Timestamp := do
  let cs := s.toList
  let ys := cs.takeWhile Char.isDigit
  if ys.length ≠ 4 then none
  else
    let y ← Numeral.decimalDigits ys
    let (m, r) ← shortNumber (← after '-' (cs.drop 4))
    let (d, r) ← shortNumber (← after '-' r)
    if 1 ≤ m && m ≤ 12 && 1 ≤ d && d ≤ daysIn y m then
      withTime? { year := y, month := m, day := d } r
    else none

def padded (width n : Nat) : String :=
  let ds := (toString n).toList
  String.ofList (List.replicate (width - ds.length) '0' ++ ds)

def fractionText (nano : Nat) : String :=
  if nano = 0 then ""
  else
    let ds := (padded 9 nano).toList
    "." ++ String.ofList (ds.reverse.dropWhile (· == '0')).reverse

def dateText (t : Timestamp) : String :=
  padded 4 t.year ++ "-" ++ padded 2 t.month ++ "-" ++ padded 2 t.day

def clockText (t : Timestamp) : String :=
  padded 2 t.hour ++ ":" ++ padded 2 t.minute ++ ":" ++ padded 2 t.second ++ fractionText t.nano

def offsetText (separator : String) (t : Timestamp) : String :=
  let m := t.offset.natAbs
  (if t.offset < 0 then "-" else "+") ++ padded 2 (m / 60) ++ separator ++ padded 2 (m % 60)

/-- The text of a timestamp inside a message. An offset without a name is named by itself. -/
def display (t : Timestamp) : String :=
  let zone := offsetText "" t
  t.dateText ++ " " ++ t.clockText ++ " " ++ zone ++ " " ++ (if t.offset = 0 then "UTC" else zone)

def text (t : Timestamp) : String :=
  t.dateText ++ "T" ++ t.clockText ++ (if t.offset = 0 then "Z" else offsetText ":" t)

def dayNumber (t : Timestamp) : Int :=
  let years : Int := (t.year : Int) - 1
  let months := (List.range (t.month - 1)).foldl (fun n m => n + daysIn t.year (m + 1)) 0
  365 * years + years / 4 - years / 100 + years / 400 + months + (t.day : Int) - 1

def seconds (t : Timestamp) : Int :=
  t.dayNumber * 86400 + t.hour * 3600 + t.minute * 60 + t.second - t.offset * 60

def isZero (t : Timestamp) : Bool :=
  t.seconds == 0 && t.nano == 0

end Timestamp

end FormatFuzz
