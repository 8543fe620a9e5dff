import FormatFuzz.Text.Characters
import FormatFuzz.Text.Words

/-!
# Text encodings

The encodings a string field can have: UTF-8, ASCII and the parts of ISO 8859. A single-byte
encoding is the list of the bytes it defines.
-/

set_option autoImplicit false

namespace FormatFuzz

inductive Encoding where
  | utf8
  | ascii
  | latin (part : Nat)
  deriving DecidableEq, Repr

namespace Encoding

def parts : List Nat := [1, 2, 3, 4, 5, 6, 7, 8, 9, 10, 13, 14, 15, 16]

def name : Encoding → String
  | .utf8 => "UTF-8"
  | .ascii => "ASCII"
  | .latin part => "ISO8859-" ++ toString part

/-- The part named at the end of an ISO 8859 name, with or without the first hyphen. -/
def part? (s : String) : Option Nat :=
  match Text.dropPrefix? s "ISO-8859-", Text.dropPrefix? s "ISO8859-" with
  | some n, _ => parts.find? fun p => toString p == n
  | none, some n => parts.find? fun p => toString p == n
  | none, none => none

/-- The encoding of a name: blanks around it and case do not matter, an underscore is a hyphen. -/
def ofName? (s : String) : Option Encoding :=
  let n := Text.upperText (Text.replaceAll (Text.trim s) "_" "-")
  if n = "UTF-8" || n = "UTF8" then some .utf8
  else if n = "ASCII" || n = "US-ASCII" then some .ascii
  else (part? n).map .latin

def canonical (s : String) : String :=
  ((ofName? s).map name).getD ""

/-- The bytes of the upper half that a part of ISO 8859 leaves undefined, as closed ranges. -/
def undefinedRanges : Nat → List (Nat × Nat)
  | 3 => [(0xa5, 0xa5), (0xae, 0xae), (0xbe, 0xbe), (0xc3, 0xc3), (0xd0, 0xd0), (0xe3, 0xe3),
      (0xf0, 0xf0)]
  | 6 => [(0xa1, 0xa3), (0xa5, 0xab), (0xae, 0xba), (0xbc, 0xbe), (0xc0, 0xc0), (0xdb, 0xdf),
      (0xf3, 0xff)]
  | 7 => [(0xae, 0xae), (0xd2, 0xd2), (0xff, 0xff)]
  | 8 => [(0xa1, 0xa1), (0xbf, 0xde), (0xfb, 0xfc), (0xff, 0xff)]
  | _ => []

/-- Is a byte defined in a part of ISO 8859? The controls from 128 on are in parts 1 and 9. -/
def isDefined (part b : Nat) : Bool :=
  if b < 0x80 then true
  else if b < 0xa0 then part == 1 || part == 9
  else !(undefinedRanges part).any fun r => r.1 ≤ b && b ≤ r.2

/-- The bytes of a single-byte encoding in increasing order; UTF-8 has no such table. -/
def table : Encoding → List UInt8
  | .utf8 => []
  | .ascii => (List.range 128).map UInt8.ofNat
  | .latin part => ((List.range 256).filter (isDefined part)).map UInt8.ofNat

end Encoding

/-- What random text is made of: an encoding, or any bytes at all. -/
inductive TextSource where
  | encoded (e : Encoding)
  | binary
  deriving DecidableEq, Repr

def TextSource.table : TextSource → List UInt8
  | .encoded e => e.table
  | .binary => (List.range 256).map UInt8.ofNat

end FormatFuzz
