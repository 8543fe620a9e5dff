import FormatFuzz.Double.Basic

/-!
# The shortest decimal of a double

Among the decimals that lie in the interval of reals rounding to a double, the text takes one with
the fewest digits, and of those the nearest. The search tries one digit, two digits, and so on: on
each decimal grid only the two neighbours of the value matter.
-/

set_option autoImplicit false

namespace FormatFuzz

namespace Double

structure Ratio where
  num : Nat
  den : Nat

def Ratio.le (a b : Ratio) : Bool :=
  a.num * b.den ≤ b.num * a.den

def Ratio.lt (a b : Ratio) : Bool :=
  a.num * b.den < b.num * a.den

def Ratio.floor (a : Ratio) : Nat :=
  a.num / a.den

def decimalRatio (n : Nat) (t : Int) : Ratio :=
  if 0 ≤ t then ⟨n * Nat.pow 10 t.toNat, 1⟩ else ⟨n, Nat.pow 10 (-t).toNat⟩

def Ratio.shift (a : Ratio) (t : Int) : Ratio :=
  if 0 ≤ t then ⟨a.num, a.den * Nat.pow 10 t.toNat⟩ else ⟨a.num * Nat.pow 10 (-t).toNat, a.den⟩

def binaryRatio (n : Nat) (q : Int) : Ratio :=
  if 0 ≤ q then ⟨n * Nat.pow 2 q.toNat, 1⟩ else ⟨n, Nat.pow 2 (-q).toNat⟩

/-- The reals that round to a positive double: its ends belong to it when the mantissa is even. -/
structure Interval where
  low : Ratio
  value : Ratio
  high : Ratio
  closed : Bool

def interval (x : Double) : Interval :=
  let m := x.mantissa
  let q := x.exponent - 2
  let below := if m = fractionSpan && 1 < x.exponentField then 1 else 2
  { low := binaryRatio (4 * m - below) q
    value := binaryRatio (4 * m) q
    high := binaryRatio (4 * m + 2) q
    closed := m % 2 == 0 }

def Interval.contains (i : Interval) (r : Ratio) : Bool :=
  if i.closed then i.low.le r && r.le i.high else i.low.lt r && r.lt i.high

/-- The largest `k` with `10 ^ k ≤ v`, searched upwards from an estimate that is at most two
short of it. -/
def decimalExponent (v : Ratio) : Int :=
  let estimate := (((v.num.log2 : Int) - v.den.log2) * 30103).fdiv 100000 - 1
  let up (k : Int) : Int := if (decimalRatio 1 (k + 1)).le v then k + 1 else k
  up (up (up estimate))

structure Decimal where
  digits : List Nat
  point : Int
  deriving DecidableEq, Repr

def digitsOf (n : Nat) : List Nat :=
  (Nat.toDigits 10 n).map fun c => c.toNat - 48

def Decimal.ofScaled (n : Nat) (t : Int) : Decimal :=
  let ds := digitsOf n
  { digits := (ds.reverse.dropWhile (· == 0)).reverse, point := t + ds.length }

/-- The neighbour of the value on the grid `10 ^ t` that lies in the interval, the nearer if both
do, the even one if they are equally near. -/
def Interval.onGrid? (i : Interval) (t : Int) : Option Nat :=
  let a := (i.value.shift t).floor
  let lower := i.contains (decimalRatio a t)
  let upper := i.contains (decimalRatio (a + 1) t)
  if lower && upper then
    let middle : Ratio := ⟨2 * a + 1, 2⟩
    let v := i.value.shift t
    if v.lt middle then some a
    else if middle.lt v then some (a + 1)
    else some (a + a % 2)
  else if lower then some a
  else if upper then some (a + 1)
  else none

def Interval.search (i : Interval) (k : Int) : Nat → Nat → Decimal
  | 0, n => Decimal.ofScaled (i.value.shift (k - n + 1)).floor (k - n + 1)
  | fuel + 1, n =>
    match i.onGrid? (k - n + 1) with
    | some d => Decimal.ofScaled d (k - n + 1)
    | none => i.search k fuel (n + 1)

def shortest (x : Double) : Decimal :=
  if x.mantissa = 0 then ⟨[], 0⟩
  else
    let i := x.interval
    i.search (decimalExponent i.value) 17 1

end Double

/-- Which decimal exponents a layout writes positionally: those from `least` up to, not
including, `bound`. -/
structure FloatLayout where
  least : Int
  bound : Int

def FloatLayout.general : FloatLayout := ⟨-4, 6⟩

def FloatLayout.display : FloatLayout := ⟨-4, 21⟩

namespace Double

def digitText (ds : List Nat) : String :=
  String.ofList (ds.map fun d => Char.ofNat (48 + d))

/-- One digit before the point, then the exponent with its sign and at least two digits. -/
def scientific (d : Decimal) : String :=
  let e := d.point - 1
  let expo := toString e.natAbs
  let head := digitText (d.digits.take 1)
  let tail := d.digits.drop 1
  head ++ (if tail.isEmpty then "" else "." ++ digitText tail) ++ "e"
    ++ (if e < 0 then "-" else "+") ++ (if expo.length < 2 then "0" ++ expo else expo)

def positional (d : Decimal) : String :=
  if d.point ≤ 0 then
    if d.digits.isEmpty then "0"
    else "0." ++ digitText (List.replicate (-d.point).toNat 0 ++ d.digits)
  else
    let n := d.point.toNat
    let whole := d.digits.take n
    let tail := d.digits.drop n
    digitText (whole ++ List.replicate (n - whole.length) 0)
      ++ (if tail.isEmpty then "" else "." ++ digitText tail)

def render (l : FloatLayout) (x : Double) : String :=
  if x.isNaN then "NaN"
  else
    let sign := if x.negative then "-" else ""
    if x.isInfinite then (if x.negative then "-Inf" else "+Inf")
    else
      let d := x.shortest
      let e := if d.digits.isEmpty then 0 else d.point - 1
      if e < l.least || l.bound ≤ e then sign ++ scientific d else sign ++ positional d

end Double

end FormatFuzz
