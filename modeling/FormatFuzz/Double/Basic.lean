/-!
# Words and doubles by their bits

A word has sixty-four bits. Read with a sign it is an integer from `-half` up to, but without,
`half`; read without one it is a natural number below `size`.

A double is its sixty-four bits. A finite one has the value `mantissa * 2 ^ exponent` with a
natural mantissa below `2 ^ 53`; all arithmetic on it is exact arithmetic on naturals.
-/

set_option autoImplicit false

namespace FormatFuzz.Word

abbrev half : Nat := 0x8000000000000000

abbrev size : Nat := 0x10000000000000000

def isSigned (v : Int) : Bool :=
  -(half : Int) ≤ v && v < half

def wrap (v : Int) : Int :=
  v.bmod size

end FormatFuzz.Word

namespace FormatFuzz

structure Double where
  bits : UInt64
  deriving DecidableEq, Repr, Inhabited

namespace Double

abbrev fractionSpan : Nat := 0x10000000000000

def negative (x : Double) : Bool :=
  Word.half ≤ x.bits.toNat

def exponentField (x : Double) : Nat :=
  x.bits.toNat / fractionSpan % 2048

def fraction (x : Double) : Nat :=
  x.bits.toNat % fractionSpan

def isNaN (x : Double) : Bool :=
  x.exponentField == 2047 && x.fraction != 0

def isInfinite (x : Double) : Bool :=
  x.exponentField == 2047 && x.fraction == 0

def isFinite (x : Double) : Bool :=
  x.exponentField != 2047

def mantissa (x : Double) : Nat :=
  if x.exponentField = 0 then x.fraction else fractionSpan + x.fraction

def exponent (x : Double) : Int :=
  (max x.exponentField 1 : Nat) - 1075

def ofMagnitude (neg : Bool) (magnitude : Nat) : Double :=
  ⟨UInt64.ofNat (if neg then Word.half + magnitude else magnitude)⟩

def infiniteMagnitude : Nat := 2047 * fractionSpan

def infinity (neg : Bool) : Double :=
  ofMagnitude neg infiniteMagnitude

def nan : Double :=
  ofMagnitude false (infiniteMagnitude + fractionSpan / 2 + 1)

def roundDiv (num den : Nat) : Nat :=
  let f := num / den
  let r := num % den
  if 2 * r < den then f else if den < 2 * r then f + 1 else f + f % 2

def scaled (num den : Nat) (q : Int) : Nat × Nat :=
  if 0 ≤ q then (num, den * Nat.pow 2 q.toNat) else (num * Nat.pow 2 (-q).toNat, den)

def lastBit (num den : Nat) : Int :=
  let q := max ((num.log2 : Int) - den.log2 - 53) (-1074)
  let s := scaled num den q
  if 2 * fractionSpan ≤ s.1 / s.2 then q + 1 else q

/-- The magnitude of the double nearest to `num / den`; a carry out of the mantissa moves into
the exponent by itself. -/
def nearestMagnitude (num den : Nat) : Nat :=
  if num = 0 then 0
  else
    let q := lastBit num den
    let s := scaled num den q
    (q + 1074).toNat * fractionSpan + roundDiv s.1 s.2

def ofRatio? (neg : Bool) (num den : Nat) : Option Double :=
  let b := nearestMagnitude num den
  if b < infiniteMagnitude then some (ofMagnitude neg b) else none

def truncate (x : Double) : Int :=
  let e := x.exponent
  let a : Nat :=
    if 0 ≤ e then x.mantissa * Nat.pow 2 e.toNat else x.mantissa / Nat.pow 2 (-e).toNat
  if x.negative then -(a : Int) else a

/-- A number that orders doubles as their values do; both zeros have the same. -/
def rank (x : Double) : Int :=
  let m : Int := (x.bits.toNat % Word.half : Nat)
  if x.negative then -m else m

/-- The double nearest to an integer, infinite for one beyond all finite doubles. -/
def ofInt (v : Int) : Double :=
  (ofRatio? (v < 0) v.natAbs 1).getD (infinity (v < 0))

end Double

end FormatFuzz
