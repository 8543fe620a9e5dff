import FormatFuzz.Digest.Blocks

/-!
# SHA-3

The sponge over the Keccak permutation on twenty-five lanes of 64 bits; lane `x + 5 * y` stands in
column `x` of row `y`.
-/

set_option autoImplicit false

namespace FormatFuzz.Digest.Sha3

def roundConstants : Array UInt64 := #[
  0x0000000000000001, 0x0000000000008082, 0x800000000000808a,
  0x8000000080008000, 0x000000000000808b, 0x0000000080000001,
  0x8000000080008081, 0x8000000000008009, 0x000000000000008a,
  0x0000000000000088, 0x0000000080008009, 0x000000008000000a,
  0x000000008000808b, 0x800000000000008b, 0x8000000000008089,
  0x8000000000008003, 0x8000000000008002, 0x8000000000000080,
  0x000000000000800a, 0x800000008000000a, 0x8000000080008081,
  0x8000000000008080, 0x0000000080000001, 0x8000000080008008]

def rotations : Array UInt64 := #[
  0, 1, 62, 28, 27, 36, 44, 6, 55, 20, 3, 10, 43,
  25, 39, 41, 45, 15, 21, 8, 18, 2, 61, 56, 14]

abbrev Lanes := Array UInt64

def lane (s : Lanes) (x y : Nat) : UInt64 :=
  s.getD (x % 5 + 5 * (y % 5)) 0

def build (f : Nat → Nat → UInt64) : Lanes :=
  ((List.range 25).map fun i => f (i % 5) (i / 5)).toArray

def theta (s : Lanes) : Lanes :=
  let parity := ((List.range 5).map fun x =>
    lane s x 0 ^^^ lane s x 1 ^^^ lane s x 2 ^^^ lane s x 3 ^^^ lane s x 4).toArray
  build fun x y =>
    lane s x y ^^^ parity.getD ((x + 4) % 5) 0 ^^^ rotl64 (parity.getD ((x + 1) % 5) 0) 1

def rhoPi (s : Lanes) : Lanes :=
  build fun x y =>
    let fx := (x + 3 * y) % 5
    rotl64 (lane s fx x) (rotations.getD (fx + 5 * x) 0)

def chi (s : Lanes) : Lanes :=
  build fun x y => lane s x y ^^^ (~~~lane s (x + 1) y &&& lane s (x + 2) y)

def round (s : Lanes) (i : Nat) : Lanes :=
  let t := chi (rhoPi (theta s))
  t.setIfInBounds 0 (t.getD 0 0 ^^^ roundConstants.getD i 0)

def permute (s : Lanes) : Lanes :=
  (List.range 24).foldl round s

def absorb (s : Lanes) (block : List UInt8) : Lanes :=
  let ws := ((blocks 8 block).map fun w => UInt64.ofNat (ofLittleEndian w)).toArray
  permute (build fun x y => lane s x y ^^^ ws.getD (x + 5 * y) 0)

/-- Pads to whole blocks: the first added byte carries `6`, the last one the top bit. -/
def padded (rate : Nat) (message : List UInt8) : List UInt8 :=
  let gap := rate - message.length % rate
  if gap = 1 then message ++ [0x86]
  else message ++ 6 :: List.replicate (gap - 2) 0 ++ [0x80]

/-- The digest of `size` bytes; the rate is what twice that size leaves of the state. -/
def digest (size : Nat) (data : List UInt8) : List UInt8 :=
  let rate := 200 - 2 * size
  let s := (blocks rate (padded rate data)).foldl absorb (Array.replicate 25 0)
  (s.toList.flatMap fun w => littleEndian 8 w.toNat).take size

end FormatFuzz.Digest.Sha3
