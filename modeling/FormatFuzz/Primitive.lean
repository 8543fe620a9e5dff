import FormatFuzz.Text.Bytes

/-!
# Built-in types

Integers of one, two, four and eight bytes, floats of four and eight, and strings. A type of more
than one byte names its byte order by a suffix, or leaves it to the type that declares the field.
-/

set_option autoImplicit false

namespace FormatFuzz

inductive Kind where
  | bytes
  | int
  | float
  | string
  | user
  | switch
  deriving DecidableEq, Repr

def Kind.text : Kind → String
  | .bytes => "bytes"
  | .int => "int"
  | .float => "float"
  | .string => "string"
  | .user => "user"
  | .switch => "switch"

inductive Endian where
  | little
  | big
  deriving DecidableEq, Repr

def Endian.text : Endian → String
  | .little => "le"
  | .big => "be"

def Endian.ofText? (s : String) : Option Endian :=
  if s = "le" then some .little else if s = "be" then some .big else none

inductive Primitive where
  | int (signed : Bool) (width : Nat) (endian : Option Endian)
  | float (width : Nat) (endian : Option Endian)
  | string (terminated : Bool)
  deriving DecidableEq, Repr

namespace Primitive

def kind : Primitive → Kind
  | .int .. => .int
  | .float .. => .float
  | .string _ => .string

def width : Primitive → Nat
  | .int _ w _ => w
  | .float w _ => w
  | .string _ => 0

def endian : Primitive → Option Endian
  | .int _ _ e => e
  | .float _ e => e
  | .string _ => none

def isSigned : Primitive → Bool
  | .int s _ _ => s
  | _ => false

def isTerminated : Primitive → Bool
  | .string t => t
  | _ => false

def suffixText : Option Endian → String
  | some e => e.text
  | none => ""

def name : Primitive → String
  | .int s w e => (if s then "s" else "u") ++ toString w ++ suffixText e
  | .float w e => "f" ++ toString w ++ suffixText e
  | .string t => if t then "strz" else "str"

def bare? (s : String) : Option (Option Endian → Primitive) :=
  match s with
  | "u1" => some (.int false 1)
  | "u2" => some (.int false 2)
  | "u4" => some (.int false 4)
  | "u8" => some (.int false 8)
  | "s1" => some (.int true 1)
  | "s2" => some (.int true 2)
  | "s4" => some (.int true 4)
  | "s8" => some (.int true 8)
  | "f4" => some (.float 4)
  | "f8" => some (.float 8)
  | _ => none

def splitEndian (s : String) : String × Option Endian :=
  match Text.dropSuffix? s "le", Text.dropSuffix? s "be" with
  | some b, _ => (b, some .little)
  | none, some b => (b, some .big)
  | none, none => (s, none)

/-- The built-in type of a name. A type of one byte has no byte order. -/
def ofName? (s : String) : Option Primitive :=
  if s = "str" then some (.string false)
  else if s = "strz" then some (.string true)
  else
    let (base, e) := splitEndian s
    match bare? base with
    | some p => if (p none).width = 1 && e.isSome then none else some (p e)
    | none => none

def isAmbiguous (p : Primitive) : Bool :=
  1 < p.width && p.endian.isNone

def bounds (signed : Bool) (width : Nat) : Int × Int :=
  if signed then
    let half : Int := Nat.pow 2 (8 * width - 1)
    (-half, half - 1)
  else (0, Nat.pow 2 (8 * width) - 1)

def intBounds (p : Primitive) : Int × Int :=
  bounds p.isSigned p.width

end Primitive

end FormatFuzz
