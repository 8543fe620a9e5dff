import FormatFuzz.Double.Basic
import FormatFuzz.Text.Bytes

/-!
# Random draws

A source gives one sixty-four bit word after another. The generator in use is a linear congruential
one on 128 bits of state whose output is a multiplicative mix of both halves.

Bytes, integers of a closed range, counts, floats by their bits, and choices are drawn. A draw that
is refused, for instance for an empty range, takes nothing from the source. Uniform numbers below a
bound come from a product of sixty-four by sixty-four bits; words that would make some results
likelier than others are drawn again, at most as often as the argument `tries` says. A pool hands
out each of its items once, from the front or at random; the others keep their order.
-/

set_option autoImplicit false

namespace FormatFuzz

class RandomSource (σ : Type) where
  next : σ → UInt64 × σ

structure Pcg where
  hi : UInt64
  lo : UInt64
  deriving DecidableEq, Repr

namespace Pcg

def multiplier : Nat := 2549297995355413924 * Word.size + 4865540595714422341
def increment : Nat := 6364136223846793005 * Word.size + 1442695040888963407

def ofSeed (seed : UInt64) : Pcg :=
  ⟨seed, seed ^^^ 0x9e3779b97f4a7c15⟩

def state (g : Pcg) : Nat :=
  g.hi.toNat * Word.size + g.lo.toNat

def advance (g : Pcg) : Pcg :=
  let s := g.state * multiplier + increment
  ⟨UInt64.ofNat (s / Word.size), UInt64.ofNat s⟩

def output (g : Pcg) : UInt64 :=
  let h := g.hi ^^^ (g.hi >>> 32)
  let h := h * 0xda942042e4dd58b5
  let h := h ^^^ (h >>> 48)
  h * (g.lo ||| 1)

instance : RandomSource Pcg where
  next g := (g.advance.output, g.advance)

end Pcg

namespace Random

inductive Error where
  | negativeBytes (n : Int)
  | negativeCount (lo hi : Int)
  | emptyInt (lo hi : Int)
  | emptyUint (lo hi : Nat)
  | emptyChoice
  | negativeText (n : Int)
  | noRoom (n : Int)
  | exhausted
  | stalled
  deriving DecidableEq, Repr

def Error.message : Error → String
  | .negativeBytes n => "bytes(" ++ toString n ++ "): negative length"
  | .negativeCount lo hi =>
    "count [" ++ toString lo ++ ", " ++ toString hi ++ "]: negative length"
  | .emptyInt lo hi => "int [" ++ toString lo ++ ", " ++ toString hi ++ "]: empty range"
  | .emptyUint lo hi => "uint [" ++ toString lo ++ ", " ++ toString hi ++ "]: empty range"
  | .emptyChoice => "empty choice set"
  | .negativeText n => "text(" ++ toString n ++ "): negative length"
  | .noRoom n => "text(" ++ toString n ++ ") with terminator: terminator cannot fit"
  | .exhausted => "order pool exhausted"
  | .stalled => "no acceptable draw"

end Random

/-- A computation that draws from a source of type `σ` and may be refused. -/
abbrev Draw (σ : Type) := ExceptT Random.Error (StateM σ)

namespace Draw

variable {σ : Type} [RandomSource σ]

def word : Draw σ UInt64 :=
  fun s => let (w, s) := RandomSource.next s; (.ok w, s)

def words : Nat → Draw σ (List UInt64)
  | 0 => pure []
  | n + 1 => do
    let w ← word
    let ws ← words n
    return w :: ws

def wordBytes (w : UInt64) : List UInt8 :=
  (List.range 8).map fun i => UInt8.ofNat (w.toNat / Nat.pow 256 i)

def bytes (n : Int) : Draw σ (List UInt8) :=
  if n < 0 then throw (.negativeBytes n)
  else do
    let ws ← words ((n.toNat + 7) / 8)
    return (ws.flatMap wordBytes).take n.toNat

/-- Draws until the low half of the product with `n` is at least `least`; gives the high half. -/
def highProduct (n least : Nat) : Nat → Draw σ Nat
  | 0 => throw .stalled
  | fuel + 1 => do
    let w ← word
    let p := w.toNat * n
    if p % Word.size < least then highProduct n least fuel else return p / Word.size

/-- A uniform number below `n`, for positive `n` of sixty-four bits: the low bits of a word for a
power of two, else a product whose low half does not fall among the `2 ^ 64 % n` surplus ones. -/
def below (tries : Nat) (n : UInt64) : Draw σ UInt64 :=
  if n &&& (n - 1) = 0 then do
    let w ← word
    return w &&& (n - 1)
  else do
    let k ← highProduct n.toNat ((Word.size - n.toNat) % n.toNat) tries
    return UInt64.ofNat k

/-- A uniform integer from `lo` to `hi`. The width of the range is computed modulo `2 ^ 64`. -/
def int (tries : Nat) (lo hi : Int64) : Draw σ Int64 :=
  if hi < lo then throw (.emptyInt lo.toInt hi.toInt)
  else
    let span := hi.toUInt64 - lo.toUInt64
    if span = 0xffffffffffffffff then do
      let w ← word
      return w.toInt64
    else do
      let k ← below tries (span + 1)
      return lo + k.toInt64

def uint (tries : Nat) (lo hi : UInt64) : Draw σ UInt64 :=
  if hi < lo then throw (.emptyUint lo.toNat hi.toNat)
  else
    let span := hi - lo
    if span = 0xffffffffffffffff then word
    else do
      let k ← below tries (span + 1)
      return lo + k

/-- A number of elements from `lo` to `hi`, neither negative. -/
def count (tries : Nat) (lo hi : Int64) : Draw σ Int64 :=
  if lo < 0 || hi < 0 then throw (.negativeCount lo.toInt hi.toInt) else int tries lo hi

def position (tries n : Nat) : Draw σ Nat := do
  let k ← below tries (UInt64.ofNat n)
  return k.toNat

def float32 : Draw σ UInt32 := do
  let w ← word
  return (w >>> 32).toUInt32

def float64 : Draw σ UInt64 := word

def choice {α : Type} (tries : Nat) (xs : List α) : Draw σ α :=
  match xs with
  | [] => throw .emptyChoice
  | x :: rest => do
    let i ← position tries (x :: rest).length
    return (x :: rest).getD i x

end Draw

end FormatFuzz

namespace FormatFuzz

structure Pool (α : Type) where
  items : List α
  deriving DecidableEq, Repr

namespace Pool

variable {α σ : Type} [RandomSource σ]

def ofList (items : List α) : Pool α := ⟨items⟩

def size (p : Pool α) : Nat := p.items.length

def popFront (p : Pool α) : Except Random.Error (α × Pool α) :=
  match p.items with
  | [] => .error .exhausted
  | x :: rest => .ok (x, ⟨rest⟩)

def popRandom (tries : Nat) (p : Pool α) : Draw σ (α × Pool α) :=
  match p.items with
  | [] => throw .exhausted
  | x :: rest => do
    let i ← Draw.position tries (x :: rest).length
    return ((x :: rest).getD i x, ⟨(x :: rest).eraseIdx i⟩)

end Pool

end FormatFuzz
