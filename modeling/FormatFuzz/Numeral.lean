import FormatFuzz.Double.Basic
import FormatFuzz.Double.Shortest
import FormatFuzz.Text.Bytes
import FormatFuzz.Text.Characters
import FormatFuzz.Text.Words

/-!
# Numerals

An integer numeral has an optional sign and an optional base mark: `0x`, `0o`, `0b`, or a leading
zero for base eight. An underscore may stand between two digits and after a base mark. A floating
numeral is a decimal with an optional exponent, a hexadecimal with a binary exponent, or a word for
infinity or no number.
-/

set_option autoImplicit false

namespace FormatFuzz

/-- A number as a schema writes it: an integer of any size or a double. -/
inductive Number where
  | int (v : Int)
  | float (v : Double)
  deriving DecidableEq, Repr, Inhabited

namespace Numeral

/-- Splits an optional sign off; the flag says that it was a minus. -/
def sign : List Char → Bool × List Char
  | '-' :: cs => (true, cs)
  | '+' :: cs => (false, cs)
  | cs => (false, cs)

/-- The base a numeral announces and the digits after the mark. The mark `0` of base eight is a
digit of the numeral as well. -/
def base : List Char → Nat × List Char
  | '0' :: c :: cs =>
    if c = 'x' || c = 'X' then (16, cs)
    else if c = 'o' || c = 'O' then (8, cs)
    else if c = 'b' || c = 'B' then (2, cs)
    else (8, c :: cs)
  | cs => (10, cs)

/-- Is there a base mark, so that an underscore may come first? -/
def marked : List Char → Bool
  | '0' :: _ :: _ => true
  | _ => false

def digit? (b : Nat) (c : Char) : Option Nat :=
  match Text.hexValue c with
  | some d => if d < b then some d else none
  | none => none

/-- Reads digits in base `b` onto `acc`. `after` says that the last character can carry an
underscore; none may be left open at the end. -/
def digits (b : Nat) : Bool → Bool → Nat → List Char → Option Nat
  | _, opened, acc, [] => if opened then none else some acc
  | after, _, acc, c :: cs =>
    if c = '_' then
      if after then digits b false true acc cs else none
    else match digit? b c with
      | some d => digits b true false (acc * b + d) cs
      | none => none

def natural? (cs : List Char) : Option Nat :=
  let (b, body) := base cs
  if body.isEmpty then none else digits b (marked cs) false 0 body

def integer? (cs : List Char) : Option Int :=
  let (neg, body) := sign cs
  (natural? body).map fun n => if neg then -(n : Int) else n

inductive Fault where
  | malformed
  | tooLarge
  deriving DecidableEq, Repr

/-- Digits in base `b` with a value below `limit`; the first digit that is none or goes too far
decides the fault. -/
def upToFrom (b limit : Nat) : Nat → List Char → Except Fault Nat
  | acc, [] => .ok acc
  | acc, c :: cs =>
    match digit? b c with
    | none => .error .malformed
    | some d =>
      if acc * b + d < limit then upToFrom b limit (acc * b + d) cs else .error .tooLarge

def upTo (b limit : Nat) (cs : List Char) : Except Fault Nat :=
  if cs.isEmpty then .error .malformed else upToFrom b limit 0 cs

def naturalBelow (limit : Nat) (cs : List Char) : Except Fault Nat :=
  let (b, body) := base cs
  match upToFrom b limit 0 (body.filter (· != '_')) with
  | .error e => .error e
  | .ok n => if (natural? cs).isSome then .ok n else .error .malformed

def integer64 (cs : List Char) : Except Fault Int :=
  let (neg, body) := sign cs
  match naturalBelow Word.size body with
  | .error e => .error e
  | .ok n =>
    let v : Int := if neg then -(n : Int) else n
    if Word.isSigned v then .ok v else .error .tooLarge

/-- Digits with at most one point: their number, how many stand after the point, and the rest. -/
structure Significand where
  value : Nat
  places : Nat
  any : Bool
  rest : List Char

def significand (b : Nat) : Bool → Nat → Nat → Bool → List Char → Significand
  | _, v, p, any, [] => ⟨v, p, any, []⟩
  | dot, v, p, any, c :: cs =>
    if c = '.' && !dot then significand b true v p any cs
    else match digit? b c with
      | some d => significand b dot (v * b + d) (if dot then p + 1 else p) true cs
      | none => ⟨v, p, any, c :: cs⟩

def decimalDigits (cs : List Char) : Option Nat :=
  if cs.isEmpty then none
  else cs.foldlM (fun acc c => (digit? 10 c).map (acc * 10 + ·)) 0

def exponentCap : Nat := 10000

def exponent? (cs : List Char) : Option Int :=
  let (neg, body) := sign cs
  if body.isEmpty then none
  else
    let e := body.foldlM (fun acc c =>
      (digit? 10 c).map fun d => if acc < exponentCap then acc * 10 + d else acc) 0
    e.map fun n => if neg then -(n : Int) else n

/-- `v * 10 ^ e` rounded. Exponents beyond every double are cut short before any power is taken. -/
def ofDecimal (neg : Bool) (v : Nat) (e : Int) : Except Fault Double :=
  if v = 0 then .ok (Double.ofMagnitude neg 0)
  else
    let top : Int := (Nat.toDigits 10 v).length + e
    if 400 < top then .error .tooLarge
    else if top < -400 then .ok (Double.ofMagnitude neg 0)
    else
      let r := Double.decimalRatio v e
      match Double.ofRatio? neg r.num r.den with
      | some x => .ok x
      | none => .error .tooLarge

def ofBinary (neg : Bool) (v : Nat) (e : Int) : Except Fault Double :=
  if v = 0 then .ok (Double.ofMagnitude neg 0)
  else
    let top : Int := v.log2 + e
    if 1100 < top then .error .tooLarge
    else if top < -1200 then .ok (Double.ofMagnitude neg 0)
    else
      let r := Double.binaryRatio v e
      match Double.ofRatio? neg r.num r.den with
      | some x => .ok x
      | none => .error .tooLarge

/-- Does every underscore stand between two decimal digits? `after` says that the last character was
a digit. -/
def separated : Bool → List Char → Bool
  | _, [] => true
  | after, c :: cs =>
    if c = '_' then after && (cs.head?.map Char.isDigit).getD false && separated false cs
    else separated c.isDigit cs

def special? (cs : List Char) : Option Double :=
  let (neg, body) := sign cs
  let word := String.ofList (Text.lower body)
  if word = "inf" || word = "infinity" then some (Double.infinity neg)
  else if String.ofList (Text.lower cs) = "nan" then some Double.nan
  else none

def double (cs : List Char) : Except Fault Double :=
  match special? cs with
  | some x => .ok x
  | none =>
    let (neg, body) := sign cs
    match body with
    | '0' :: x :: c :: cs' =>
      if x = 'x' || x = 'X' then
        let s := significand 16 false 0 0 false (c :: cs')
        match s.any, s.rest with
        | true, p :: es =>
          if p = 'p' || p = 'P' then
            match exponent? es with
            | some e => ofBinary neg s.value (e - 4 * s.places)
            | none => .error .malformed
          else .error .malformed
        | _, _ => .error .malformed
      else decimal neg body
    | _ => decimal neg body
where
  decimal (neg : Bool) (body : List Char) : Except Fault Double :=
    let s := significand 10 false 0 0 false body
    match s.any, s.rest with
    | true, [] => ofDecimal neg s.value (-s.places)
    | true, m :: es =>
      if m = 'e' || m = 'E' then
        match exponent? es with
        | some e => ofDecimal neg s.value (e - s.places)
        | none => .error .malformed
      else .error .malformed
    | false, _ => .error .malformed

end Numeral

namespace Number

def isFloat : Number → Bool
  | .int _ => false
  | .float _ => true

/-- Integers in decimal, infinities and no number with a leading point, other doubles shortest. -/
def text : Number → String
  | .int v => toString v
  | .float x =>
    if x.isNaN then ".nan"
    else if x.isInfinite then (if x.negative then "-.inf" else ".inf")
    else x.render .general

def ofText? (s : String) : Option Number :=
  let t := Text.trim s
  match Numeral.integer? t.toList with
  | some v => some (.int v)
  | none =>
    let word := Text.lowerText t
    if word ∈ [".inf", "+.inf", "inf", "+inf"] then some (.float (Double.infinity false))
    else if word ∈ ["-.inf", "-inf"] then some (.float (Double.infinity true))
    else
      match Numeral.double (t.toList.filter (· != '_')) with
      | .ok x => some (.float x)
      | .error _ => none

def invalidMessage (s : String) : String :=
  "invalid number " ++ Text.quoted (Text.trim s)

end Number

end FormatFuzz
