import FormatFuzz.Digest.Blocks
import FormatFuzz.Double.Basic
import FormatFuzz.Numeral

/-!
# What generated programs call

Operators of the expression language on words of sixty-four bits; none of them fails: a division by
zero and an element that is not there give zero. Byte buffers grow at their end and are read from a
position inside. A zlib stream is a header of two bytes, blocks, and a checksum of the content: the
writer stores the content in blocks as it is, and the reader undoes exactly that.
-/

set_option autoImplicit false

namespace FormatFuzz.Arithmetic

def div (a b : Int64) : Int64 :=
  if b = 0 then 0 else a / b

def mod (a b : Int64) : Int64 :=
  if b = 0 then 0
  else
    let m := a % b
    if m ≠ 0 ∧ decide (m < 0) ≠ decide (b < 0) then m + b else m

def ofBool (b : Bool) : Int64 :=
  if b then 1 else 0

def elementAt (xs : List Int64) (i : Int64) : Int64 :=
  if i < 0 then 0 else xs.getD i.toInt.toNat 0

def first (xs : List Int64) : Int64 :=
  elementAt xs 0

def last (xs : List Int64) : Int64 :=
  xs.getLast?.getD 0

def select {α : Type} (c : Bool) (a b : α) : α :=
  if c then a else b

def concat (parts : List (List UInt8)) : List UInt8 :=
  parts.flatten

/-- Each byte combined with a byte of the repeated key; an empty key changes nothing. -/
def xor (data key : List UInt8) : List UInt8 :=
  if key.isEmpty then data
  else data.mapIdx fun i b => b ^^^ key.getD (i % key.length) 0

/-- The integer of a decimal text, cut off at the ends of the range; zero for other text. -/
def ofText (s : String) : Int64 :=
  let (neg, ds) := Numeral.sign (Text.trim s).toList
  match Numeral.upTo 10 Word.size ds with
  | .ok n =>
    if neg then (if Word.half < n then Int64.minValue else Int64.ofInt (-n))
    else if Word.half ≤ n then Int64.maxValue else Int64.ofInt n
  | .error .tooLarge => if neg then Int64.minValue else Int64.maxValue
  | .error .malformed => 0

end FormatFuzz.Arithmetic

namespace FormatFuzz

structure Buffer where
  data : List UInt8
  pos : Nat
  deriving DecidableEq, Repr

namespace Buffer

inductive Error where
  | whence (w : Int)
  | offset (p : Int)
  deriving DecidableEq, Repr

def Error.message : Error → String
  | .whence w => "whence " ++ toString w ++ ": seek out of range"
  | .offset p => "offset " ++ toString p ++ ": seek out of range"

def empty : Buffer := ⟨[], 0⟩

def size (b : Buffer) : Nat := b.data.length

def atEnd (b : Buffer) : Bool := b.size ≤ b.pos

def rest (b : Buffer) : List UInt8 := b.data.drop b.pos

def append (b : Buffer) (parts : List (List UInt8)) : Buffer :=
  { b with data := b.data ++ parts.flatten }

def write (b : Buffer) (bs : List UInt8) : Nat × Buffer :=
  (bs.length, { b with data := b.data ++ bs })

/-- Up to `n` bytes from the position on; nothing at the end of the buffer. -/
def read (b : Buffer) (n : Nat) : Option (List UInt8 × Buffer) :=
  if b.atEnd then none
  else
    let bs := b.rest.take n
    some (bs, { b with pos := b.pos + bs.length })

/-- The next `n` bytes; all that is left for a negative or too large `n`. -/
def next (b : Buffer) (n : Int) : List UInt8 × Buffer :=
  let bs := if n < 0 then b.rest else b.rest.take n.toNat
  (bs, { b with pos := b.pos + bs.length })

/-- Moves the position to an offset from the start, the position or the end. The sum is taken in
sixty-four bits. -/
def seek (b : Buffer) (offset : Int64) (whence : Int) : Except Error (Int × Buffer) :=
  let base : Option Nat :=
    if whence = 0 then some 0
    else if whence = 1 then some b.pos
    else if whence = 2 then some b.size
    else none
  match base with
  | none => .error (.whence whence)
  | some n =>
    let p := (Int64.ofNat n + offset).toInt
    if p < 0 || (b.size : Int) < p then .error (.offset p)
    else .ok (p, { b with pos := p.toNat })

end Buffer

end FormatFuzz

namespace FormatFuzz.Zlib

def adler32 (data : List UInt8) : Nat :=
  let s := data.foldl (fun (s : Nat × Nat) b =>
    let a := (s.1 + b.toNat) % 65521
    (a, (s.2 + a) % 65521)) (1, 0)
  s.2 * 65536 + s.1

def header : List UInt8 := [0x78, 0x9c]

/-- A stored block: a flag for the last one, the length and its complement, the content. -/
def storedBlock (last : Bool) (content : List UInt8) : List UInt8 :=
  (if last then 1 else 0) :: Digest.littleEndian 2 content.length
    ++ Digest.littleEndian 2 (65535 - content.length) ++ content

def storedBlocks : List (List UInt8) → List UInt8
  | [] => storedBlock true []
  | [b] => storedBlock true b
  | b :: bs => storedBlock false b ++ storedBlocks bs

def compress (data : List UInt8) : List UInt8 :=
  header ++ storedBlocks (Digest.blocks 65535 data) ++ Digest.bigEndian 4 (adler32 data)

/-- Reads stored blocks up to the last one; gives the content and what follows. -/
def readBlocks : Nat → List UInt8 → Option (List UInt8 × List UInt8)
  | 0, _ => none
  | fuel + 1, flag :: a :: b :: c :: d :: rest =>
    let n := a.toNat + 256 * b.toNat
    if 1 < flag || c.toNat + 256 * d.toNat + n ≠ 65535 || rest.length < n then none
    else if flag = 1 then some (rest.take n, rest.drop n)
    else (readBlocks fuel (rest.drop n)).map fun r => (rest.take n ++ r.1, r.2)
  | _ + 1, _ => none

def decompress (stream : List UInt8) : Option (List UInt8) :=
  match stream with
  | a :: b :: rest =>
    if [a, b] ≠ header then none
    else match readBlocks stream.length rest with
      | some (data, sum) => if sum = Digest.bigEndian 4 (adler32 data) then some data else none
      | none => none
  | _ => none

end FormatFuzz.Zlib
