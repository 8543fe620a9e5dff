import FormatFuzz.Double.Basic
import FormatFuzz.Numeral
import FormatFuzz.Value

/-!
# What an untyped scalar means

A plain scalar is null, a truth value, a timestamp, an integer, a float or a string by its spelling
alone. Underscores in numbers are ignored, and an integer beyond sixty-four bits is a float.
-/

set_option autoImplicit false

namespace FormatFuzz.Yaml

/-- How a scalar stands in a text: bare, between quotes, or as a block of lines. -/
inductive Form where
  | plain
  | single
  | double
  | literal
  deriving DecidableEq, Repr

def nullWords : List String := ["", "~", "null", "Null", "NULL"]
def trueWords : List String := ["true", "True", "TRUE"]
def falseWords : List String := ["false", "False", "FALSE"]
def nanWords : List String := [".nan", ".NaN", ".NAN"]
def infWords : List String := [".inf", ".Inf", ".INF", "+.inf", "+.Inf", "+.INF"]
def negInfWords : List String := ["-.inf", "-.Inf", "-.INF"]

/-- Digits, with one point somewhere among or around them, and an optional exponent. -/
def isFloatText (cs : List Char) : Bool :=
  let body := (Numeral.sign cs).2
  let whole := body.takeWhile Char.isDigit
  let rest := body.dropWhile Char.isDigit
  let (places, rest) := match rest with
    | '.' :: r => (r.takeWhile Char.isDigit, r.dropWhile Char.isDigit)
    | r => ([], r)
  let mantissa := !whole.isEmpty || !places.isEmpty
  let expo := match rest with
    | [] => true
    | e :: r => (e == 'e' || e == 'E') && (Numeral.exponent? r).isSome
  mantissa && expo

def number? (s : String) : Option Value :=
  let cs := s.toList.filter (· != '_')
  let float : Option Value :=
    if isFloatText cs then
      match Numeral.double cs with
      | .ok x => some (.float x)
      | .error _ => none
    else none
  match Numeral.integer? cs with
  | some v =>
    if Word.isSigned v then some (.int v)
    else if Word.half ≤ v && v < Word.size && cs.head? != some '+' then some (.int v)
    else float
  | none => float

def startsLikeNumber (s : String) : Bool :=
  match s.toList with
  | c :: _ => c == '+' || c == '-' || c.isDigit
  | [] => false

def markedInteger? (s : String) : Option Value :=
  let spelled (b : Nat) (cs : List Char) : Option Value :=
    let (neg, body) := Numeral.sign cs
    match Numeral.upTo b (Word.half + (if neg then 1 else 0)) body with
    | .ok n => some (.int (if neg then -(n : Int) else n))
    | .error _ => none
  match s.toList.filter (· != '_') with
  | '0' :: 'b' :: cs => spelled 2 cs
  | '0' :: 'o' :: cs => spelled 8 cs
  | _ => none

/-- The float a text with a leading point spells. Underscores separate digits. -/
def pointFloat? (s : String) : Option Value :=
  let cs := s.toList
  if Numeral.separated false cs then
    match Numeral.double (cs.filter (· != '_')) with
    | .ok x => some (.float x)
    | .error _ => none
  else none

def plainValue (s : String) : Value :=
  if s ∈ nullWords then .null
  else if s ∈ trueWords then .bool true
  else if s ∈ falseWords then .bool false
  else if s ∈ nanWords then .float Double.nan
  else if s ∈ infWords then .float (Double.infinity false)
  else if s ∈ negInfWords then .float (Double.infinity true)
  else if startsLikeNumber s then
    ((Timestamp.ofText? s).map Value.time <|> number? s <|> markedInteger? s).getD (.str s)
  else if s.toList.head? = some '.' then (pointFloat? s).getD (.str s)
  else .str s

end FormatFuzz.Yaml
