/-!
# Digests over blocks of words

A message is padded with one set bit, zeros and its length in bits, and cut into blocks of words.
MD5 and SHA-1 work on words of 32 bits, SHA-2 is a family on these and one on words of 64 bits. The
round constants of SHA-2 are the first fractional bits of the cube roots of the first primes.

The cyclic redundancy check goes bit by bit: it is the reflected 32-bit code with polynomial
`0xedb88320`, inverted at both ends.
-/

set_option autoImplicit false

namespace FormatFuzz.Digest

def littleEndian (width n : Nat) : List UInt8 :=
  (List.range width).map fun i => UInt8.ofNat (n / Nat.pow 256 i)

def bigEndian (width n : Nat) : List UInt8 :=
  (littleEndian width n).reverse

def ofBigEndian (bs : List UInt8) : Nat :=
  bs.foldl (fun acc b => acc * 256 + b.toNat) 0

def ofLittleEndian (bs : List UInt8) : Nat :=
  ofBigEndian bs.reverse

/-- Cuts a list into parts of `n` elements; the last may be shorter. -/
def chunks {α : Type} (n : Nat) : Nat → List α → List (List α)
  | 0, _ => []
  | _, [] => []
  | fuel + 1, xs => xs.take n :: chunks n fuel (xs.drop n)

def blocks {α : Type} (n : Nat) (xs : List α) : List (List α) :=
  chunks n (xs.length + 1) xs

/-- Pads a message to whole blocks of `block` bytes whose last `tail` bytes hold its length. -/
def padded (block tail : Nat) (lengthBytes : Nat → List UInt8) (message : List UInt8) :
    List UInt8 :=
  let used := (message.length + 1 + tail) % block
  let zeros := (block - used) % block
  message ++ 0x80 :: List.replicate zeros 0 ++ lengthBytes (8 * message.length)

def rotl32 (x : UInt32) (n : UInt32) : UInt32 :=
  (x <<< n) ||| (x >>> (32 - n))

def rotr32 (x : UInt32) (n : UInt32) : UInt32 :=
  (x >>> n) ||| (x <<< (32 - n))

def rotl64 (x : UInt64) (n : UInt64) : UInt64 :=
  if n = 0 then x else (x <<< n) ||| (x >>> (64 - n))

def rotr64 (x : UInt64) (n : UInt64) : UInt64 :=
  (x >>> n) ||| (x <<< (64 - n))

end FormatFuzz.Digest

namespace FormatFuzz.Digest.Crc32

def polynomial : UInt32 := 0xedb88320

def bitStep (crc : UInt32) : UInt32 :=
  if crc &&& 1 = 1 then (crc >>> 1) ^^^ polynomial else crc >>> 1

def bitSteps : Nat → UInt32 → UInt32
  | 0, crc => crc
  | n + 1, crc => bitSteps n (bitStep crc)

def byteStep (crc : UInt32) (b : UInt8) : UInt32 :=
  bitSteps 8 (crc ^^^ b.toUInt32)

def checksum (data : List UInt8) : UInt32 :=
  data.foldl byteStep 0xffffffff ^^^ 0xffffffff

def digest (data : List UInt8) : List UInt8 :=
  bigEndian 4 (checksum data).toNat

end FormatFuzz.Digest.Crc32

namespace FormatFuzz.Digest.Md5

def table : Array UInt32 := #[
  0xd76aa478, 0xe8c7b756, 0x242070db, 0xc1bdceee,
  0xf57c0faf, 0x4787c62a, 0xa8304613, 0xfd469501,
  0x698098d8, 0x8b44f7af, 0xffff5bb1, 0x895cd7be,
  0x6b901122, 0xfd987193, 0xa679438e, 0x49b40821,
  0xf61e2562, 0xc040b340, 0x265e5a51, 0xe9b6c7aa,
  0xd62f105d, 0x02441453, 0xd8a1e681, 0xe7d3fbc8,
  0x21e1cde6, 0xc33707d6, 0xf4d50d87, 0x455a14ed,
  0xa9e3e905, 0xfcefa3f8, 0x676f02d9, 0x8d2a4c8a,
  0xfffa3942, 0x8771f681, 0x6d9d6122, 0xfde5380c,
  0xa4beea44, 0x4bdecfa9, 0xf6bb4b60, 0xbebfbc70,
  0x289b7ec6, 0xeaa127fa, 0xd4ef3085, 0x04881d05,
  0xd9d4d039, 0xe6db99e5, 0x1fa27cf8, 0xc4ac5665,
  0xf4292244, 0x432aff97, 0xab9423a7, 0xfc93a039,
  0x655b59c3, 0x8f0ccc92, 0xffeff47d, 0x85845dd1,
  0x6fa87e4f, 0xfe2ce6e0, 0xa3014314, 0x4e0811a1,
  0xf7537e82, 0xbd3af235, 0x2ad7d2bb, 0xeb86d391]

def shifts : Array UInt32 := #[
  7, 12, 17, 22, 5, 9, 14, 20, 4, 11, 16, 23, 6, 10, 15, 21]

structure State where
  a : UInt32
  b : UInt32
  c : UInt32
  d : UInt32

def initial : State := ⟨0x67452301, 0xefcdab89, 0x98badcfe, 0x10325476⟩

def mix (i : Nat) (s : State) : UInt32 × Nat :=
  if i < 16 then ((s.b &&& s.c) ||| (~~~s.b &&& s.d), i)
  else if i < 32 then ((s.d &&& s.b) ||| (~~~s.d &&& s.c), (5 * i + 1) % 16)
  else if i < 48 then (s.b ^^^ s.c ^^^ s.d, (3 * i + 5) % 16)
  else (s.c ^^^ (s.b ||| ~~~s.d), (7 * i) % 16)

def step (block : Array UInt32) (s : State) (i : Nat) : State :=
  let (f, g) := mix i s
  let x := s.a + f + table.getD i 0 + block.getD g 0
  ⟨s.d, s.b + rotl32 x (shifts.getD (4 * (i / 16) + i % 4) 0), s.b, s.c⟩

def compress (s : State) (block : List UInt8) : State :=
  let ws := ((blocks 4 block).map fun w => UInt32.ofNat (ofLittleEndian w)).toArray
  let t := (List.range 64).foldl (step ws) s
  ⟨s.a + t.a, s.b + t.b, s.c + t.c, s.d + t.d⟩

def digest (data : List UInt8) : List UInt8 :=
  let s := (blocks 64 (padded 64 8 (littleEndian 8) data)).foldl compress initial
  [s.a, s.b, s.c, s.d].flatMap fun w => littleEndian 4 w.toNat

end FormatFuzz.Digest.Md5

namespace FormatFuzz.Digest.Sha1

structure State where
  a : UInt32
  b : UInt32
  c : UInt32
  d : UInt32
  e : UInt32

def initial : State := ⟨0x67452301, 0xefcdab89, 0x98badcfe, 0x10325476, 0xc3d2e1f0⟩

def schedule : Nat → Array UInt32 → Array UInt32
  | 0, w => w
  | n + 1, w =>
    let i := w.size
    let x := w.getD (i - 3) 0 ^^^ w.getD (i - 8) 0 ^^^ w.getD (i - 14) 0 ^^^ w.getD (i - 16) 0
    schedule n (w.push (rotl32 x 1))

def mix (i : Nat) (s : State) : UInt32 × UInt32 :=
  if i < 20 then ((s.b &&& s.c) ||| (~~~s.b &&& s.d), 0x5a827999)
  else if i < 40 then (s.b ^^^ s.c ^^^ s.d, 0x6ed9eba1)
  else if i < 60 then ((s.b &&& s.c) ||| (s.b &&& s.d) ||| (s.c &&& s.d), 0x8f1bbcdc)
  else (s.b ^^^ s.c ^^^ s.d, 0xca62c1d6)

def step (w : Array UInt32) (s : State) (i : Nat) : State :=
  let (f, k) := mix i s
  ⟨rotl32 s.a 5 + f + s.e + k + w.getD i 0, s.a, rotl32 s.b 30, s.c, s.d⟩

def compress (s : State) (block : List UInt8) : State :=
  let ws := ((blocks 4 block).map fun w => UInt32.ofNat (ofBigEndian w)).toArray
  let t := (List.range 80).foldl (step (schedule 64 ws)) s
  ⟨s.a + t.a, s.b + t.b, s.c + t.c, s.d + t.d, s.e + t.e⟩

def digest (data : List UInt8) : List UInt8 :=
  let s := (blocks 64 (padded 64 8 (bigEndian 8) data)).foldl compress initial
  [s.a, s.b, s.c, s.d, s.e].flatMap fun w => bigEndian 4 w.toNat

end FormatFuzz.Digest.Sha1

namespace FormatFuzz.Digest.Sha2

structure State (α : Type) where
  a : α
  b : α
  c : α
  d : α
  e : α
  f : α
  g : α
  h : α

def State.zipWith {α : Type} (op : α → α → α) (s t : State α) : State α :=
  ⟨op s.a t.a, op s.b t.b, op s.c t.c, op s.d t.d, op s.e t.e, op s.f t.f, op s.g t.g, op s.h t.h⟩

def State.toList {α : Type} (s : State α) : List α :=
  [s.a, s.b, s.c, s.d, s.e, s.f, s.g, s.h]

def table32 : Array UInt32 := #[
  0x428a2f98, 0x71374491, 0xb5c0fbcf, 0xe9b5dba5,
  0x3956c25b, 0x59f111f1, 0x923f82a4, 0xab1c5ed5,
  0xd807aa98, 0x12835b01, 0x243185be, 0x550c7dc3,
  0x72be5d74, 0x80deb1fe, 0x9bdc06a7, 0xc19bf174,
  0xe49b69c1, 0xefbe4786, 0x0fc19dc6, 0x240ca1cc,
  0x2de92c6f, 0x4a7484aa, 0x5cb0a9dc, 0x76f988da,
  0x983e5152, 0xa831c66d, 0xb00327c8, 0xbf597fc7,
  0xc6e00bf3, 0xd5a79147, 0x06ca6351, 0x14292967,
  0x27b70a85, 0x2e1b2138, 0x4d2c6dfc, 0x53380d13,
  0x650a7354, 0x766a0abb, 0x81c2c92e, 0x92722c85,
  0xa2bfe8a1, 0xa81a664b, 0xc24b8b70, 0xc76c51a3,
  0xd192e819, 0xd6990624, 0xf40e3585, 0x106aa070,
  0x19a4c116, 0x1e376c08, 0x2748774c, 0x34b0bcb5,
  0x391c0cb3, 0x4ed8aa4a, 0x5b9cca4f, 0x682e6ff3,
  0x748f82ee, 0x78a5636f, 0x84c87814, 0x8cc70208,
  0x90befffa, 0xa4506ceb, 0xbef9a3f7, 0xc67178f2]

def table64 : Array UInt64 := #[
  0x428a2f98d728ae22, 0x7137449123ef65cd, 0xb5c0fbcfec4d3b2f,
  0xe9b5dba58189dbbc, 0x3956c25bf348b538, 0x59f111f1b605d019,
  0x923f82a4af194f9b, 0xab1c5ed5da6d8118, 0xd807aa98a3030242,
  0x12835b0145706fbe, 0x243185be4ee4b28c, 0x550c7dc3d5ffb4e2,
  0x72be5d74f27b896f, 0x80deb1fe3b1696b1, 0x9bdc06a725c71235,
  0xc19bf174cf692694, 0xe49b69c19ef14ad2, 0xefbe4786384f25e3,
  0x0fc19dc68b8cd5b5, 0x240ca1cc77ac9c65, 0x2de92c6f592b0275,
  0x4a7484aa6ea6e483, 0x5cb0a9dcbd41fbd4, 0x76f988da831153b5,
  0x983e5152ee66dfab, 0xa831c66d2db43210, 0xb00327c898fb213f,
  0xbf597fc7beef0ee4, 0xc6e00bf33da88fc2, 0xd5a79147930aa725,
  0x06ca6351e003826f, 0x142929670a0e6e70, 0x27b70a8546d22ffc,
  0x2e1b21385c26c926, 0x4d2c6dfc5ac42aed, 0x53380d139d95b3df,
  0x650a73548baf63de, 0x766a0abb3c77b2a8, 0x81c2c92e47edaee6,
  0x92722c851482353b, 0xa2bfe8a14cf10364, 0xa81a664bbc423001,
  0xc24b8b70d0f89791, 0xc76c51a30654be30, 0xd192e819d6ef5218,
  0xd69906245565a910, 0xf40e35855771202a, 0x106aa07032bbd1b8,
  0x19a4c116b8d2d0c8, 0x1e376c085141ab53, 0x2748774cdf8eeb99,
  0x34b0bcb5e19b48a8, 0x391c0cb3c5c95a63, 0x4ed8aa4ae3418acb,
  0x5b9cca4f7763e373, 0x682e6ff3d6b2b8a3, 0x748f82ee5defb2fc,
  0x78a5636f43172f60, 0x84c87814a1f0ab72, 0x8cc702081a6439ec,
  0x90befffa23631e28, 0xa4506cebde82bde9, 0xbef9a3f7b2c67915,
  0xc67178f2e372532b, 0xca273eceea26619c, 0xd186b8c721c0c207,
  0xeada7dd6cde0eb1e, 0xf57d4f7fee6ed178, 0x06f067aa72176fba,
  0x0a637dc5a2c898a6, 0x113f9804bef90dae, 0x1b710b35131c471b,
  0x28db77f523047d84, 0x32caab7b40c72493, 0x3c9ebe0a15c9bebc,
  0x431d67c49c100d4c, 0x4cc5d4becb3e42b6, 0x597f299cfc657e2a,
  0x5fcb6fab3ad6faec, 0x6c44198c4a475817]

def initial224 : State UInt32 := ⟨
  0xc1059ed8, 0x367cd507, 0x3070dd17, 0xf70e5939,
  0xffc00b31, 0x68581511, 0x64f98fa7, 0xbefa4fa4⟩

def initial256 : State UInt32 := ⟨
  0x6a09e667, 0xbb67ae85, 0x3c6ef372, 0xa54ff53a,
  0x510e527f, 0x9b05688c, 0x1f83d9ab, 0x5be0cd19⟩

def initial384 : State UInt64 := ⟨
  0xcbbb9d5dc1059ed8, 0x629a292a367cd507, 0x9159015a3070dd17, 0x152fecd8f70e5939,
  0x67332667ffc00b31, 0x8eb44a8768581511, 0xdb0c2e0d64f98fa7, 0x47b5481dbefa4fa4⟩

def initial512 : State UInt64 := ⟨
  0x6a09e667f3bcc908, 0xbb67ae8584caa73b, 0x3c6ef372fe94f82b, 0xa54ff53a5f1d36f1,
  0x510e527fade682d1, 0x9b05688c2b3e6c1f, 0x1f83d9abfb41bd6b, 0x5be0cd19137e2179⟩

def schedule32 : Nat → Array UInt32 → Array UInt32
  | 0, w => w
  | n + 1, w =>
    let i := w.size
    let x := w.getD (i - 15) 0
    let y := w.getD (i - 2) 0
    let s0 := rotr32 x 7 ^^^ rotr32 x 18 ^^^ (x >>> 3)
    let s1 := rotr32 y 17 ^^^ rotr32 y 19 ^^^ (y >>> 10)
    schedule32 n (w.push (w.getD (i - 16) 0 + s0 + w.getD (i - 7) 0 + s1))

def schedule64 : Nat → Array UInt64 → Array UInt64
  | 0, w => w
  | n + 1, w =>
    let i := w.size
    let x := w.getD (i - 15) 0
    let y := w.getD (i - 2) 0
    let s0 := rotr64 x 1 ^^^ rotr64 x 8 ^^^ (x >>> 7)
    let s1 := rotr64 y 19 ^^^ rotr64 y 61 ^^^ (y >>> 6)
    schedule64 n (w.push (w.getD (i - 16) 0 + s0 + w.getD (i - 7) 0 + s1))

def step32 (w : Array UInt32) (s : State UInt32) (i : Nat) : State UInt32 :=
  let s1 := rotr32 s.e 6 ^^^ rotr32 s.e 11 ^^^ rotr32 s.e 25
  let ch := (s.e &&& s.f) ^^^ (~~~s.e &&& s.g)
  let t1 := s.h + s1 + ch + table32.getD i 0 + w.getD i 0
  let s0 := rotr32 s.a 2 ^^^ rotr32 s.a 13 ^^^ rotr32 s.a 22
  let maj := (s.a &&& s.b) ^^^ (s.a &&& s.c) ^^^ (s.b &&& s.c)
  ⟨t1 + s0 + maj, s.a, s.b, s.c, s.d + t1, s.e, s.f, s.g⟩

def step64 (w : Array UInt64) (s : State UInt64) (i : Nat) : State UInt64 :=
  let s1 := rotr64 s.e 14 ^^^ rotr64 s.e 18 ^^^ rotr64 s.e 41
  let ch := (s.e &&& s.f) ^^^ (~~~s.e &&& s.g)
  let t1 := s.h + s1 + ch + table64.getD i 0 + w.getD i 0
  let s0 := rotr64 s.a 28 ^^^ rotr64 s.a 34 ^^^ rotr64 s.a 39
  let maj := (s.a &&& s.b) ^^^ (s.a &&& s.c) ^^^ (s.b &&& s.c)
  ⟨t1 + s0 + maj, s.a, s.b, s.c, s.d + t1, s.e, s.f, s.g⟩

def compress32 (s : State UInt32) (block : List UInt8) : State UInt32 :=
  let ws := ((blocks 4 block).map fun w => UInt32.ofNat (ofBigEndian w)).toArray
  State.zipWith (· + ·) s ((List.range 64).foldl (step32 (schedule32 48 ws)) s)

def compress64 (s : State UInt64) (block : List UInt8) : State UInt64 :=
  let ws := ((blocks 8 block).map fun w => UInt64.ofNat (ofBigEndian w)).toArray
  State.zipWith (· + ·) s ((List.range 80).foldl (step64 (schedule64 64 ws)) s)

def digest32 (initial : State UInt32) (size : Nat) (data : List UInt8) : List UInt8 :=
  let s := (blocks 64 (padded 64 8 (bigEndian 8) data)).foldl compress32 initial
  (s.toList.flatMap fun w => bigEndian 4 w.toNat).take size

def digest64 (initial : State UInt64) (size : Nat) (data : List UInt8) : List UInt8 :=
  let s := (blocks 128 (padded 128 16 (bigEndian 16) data)).foldl compress64 initial
  (s.toList.flatMap fun w => bigEndian 8 w.toNat).take size

end FormatFuzz.Digest.Sha2
