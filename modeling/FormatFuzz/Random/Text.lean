import FormatFuzz.Random.Draw
import FormatFuzz.Random.Encoding

/-!
# Random text

Text of an exact encoded length. With a terminator the last byte is the terminator, and no byte
before it is. UTF-8 text is made of whole characters: the room left bounds the next character.
`tries` bounds how many draws in a row may be refused, the words of a single draw as well as the
characters or bytes that are drawn for one place.
-/

set_option autoImplicit false

namespace FormatFuzz

namespace Draw

variable {σ : Type} [RandomSource σ]

def greatestIn (room : Nat) : Int64 :=
  if room = 1 then 0x7f else if room = 2 then 0x7ff else if room = 3 then 0xffff else 0x10ffff

def character (tries room : Nat) (exclude : Option UInt8) : Nat → Draw σ (List UInt8)
  | 0 => throw .stalled
  | fuel + 1 => do
    let c ← int tries 0 (greatestIn room)
    let n := c.toInt.toNat
    if n.isValidChar then
      let bs := String.utf8EncodeChar (Char.ofNat n)
      if exclude.any bs.contains then character tries room exclude fuel else return bs
    else character tries room exclude fuel

/-- Characters that fill exactly `room` bytes; at most `fuel` of them. -/
def characters (tries : Nat) (exclude : Option UInt8) : Nat → Nat → Draw σ (List UInt8)
  | 0, _ => pure []
  | fuel + 1, room =>
    if room = 0 then pure []
    else do
      let bs ← character tries room exclude tries
      let rest ← characters tries exclude fuel (room - bs.length)
      return bs ++ rest

def tableByte (tries : Nat) (table : List UInt8) (exclude : Option UInt8) : Nat → Draw σ UInt8
  | 0 => throw .stalled
  | fuel + 1 => do
    let i ← position tries table.length
    let b := table.getD i 0
    if exclude = some b then tableByte tries table exclude fuel else return b

def tableBytes (tries : Nat) (table : List UInt8) (exclude : Option UInt8) :
    Nat → Draw σ (List UInt8)
  | 0 => pure []
  | n + 1 => do
    let b ← tableByte tries table exclude tries
    let bs ← tableBytes tries table exclude n
    return b :: bs

def body (tries : Nat) (src : TextSource) (n : Nat) (exclude : Option UInt8) :
    Draw σ (List UInt8) :=
  match src with
  | .encoded .utf8 => characters tries exclude n n
  | src => tableBytes tries src.table exclude n

/-- The byte that a terminator keeps out of the text before it. A table holds no terminator beyond
a byte, UTF-8 text is kept free of the byte that is written. -/
def excluded (src : TextSource) (terminator : Int) : Option UInt8 :=
  if src = .encoded .utf8 || (0 ≤ terminator && terminator < 256) then
    some (UInt8.ofInt terminator)
  else none

/-- Text whose encoded form takes exactly `n` bytes, the terminator included; of a terminator the
lowest eight bits are written. -/
def text (tries : Nat) (src : TextSource) (n : Int) (terminator : Option Int) :
    Draw σ (List UInt8) :=
  if n < 0 then throw (.negativeText n)
  else match terminator with
    | none => body tries src n.toNat none
    | some t =>
      if n < 1 then throw (.noRoom n)
      else do
        let bs ← body tries src (n.toNat - 1) (excluded src t)
        return bs ++ [UInt8.ofInt t]

end Draw

end FormatFuzz
