import FormatFuzz.Double.Basic
import FormatFuzz.Program.Name

/-!
# Values in generated programs

The types an expression can have in a generated program, and the code of a value together with its
type. Numbers are held in the width of their field and computed with in sixty-four bits.
-/

set_option autoImplicit false

namespace FormatFuzz.Program

inductive ValueType where
  | int (signed : Bool) (width : Nat)
  | float (width : Nat)
  | bool
  | str
  | bytes
  | object (path : TypePath)
  | encoder
  | list (elem : ValueType)
  deriving DecidableEq, Repr

namespace ValueType

def kind : ValueType → String
  | .int .. => "integer"
  | .float _ => "float"
  | .bool => "boolean"
  | .str => "string"
  | .bytes => "bytes"
  | .object _ => "object"
  | .encoder => "switch value"
  | .list _ => "list"

def code : ValueType → String
  | .int signed width => (if signed then "int" else "uint") ++ toString (8 * width)
  | .float width => "float" ++ toString (8 * width)
  | .bool => "bool"
  | .str => "string"
  | .bytes => "[]byte"
  | .object path => "*" ++ typeName path
  | .encoder => "fzrt.Encoder"
  | .list elem => "[]" ++ elem.code

def word : ValueType := .int true 8
def double : ValueType := .float 8

def isInt : ValueType → Bool
  | .int .. => true
  | _ => false

def isFloat : ValueType → Bool
  | .float _ => true
  | _ => false

def isNumeric (t : ValueType) : Bool :=
  t.isInt || t.isFloat

end ValueType

def elementType (f : Field) : ValueType :=
  match f.type with
  | .bytes => .bytes
  | .prim (.int signed width _) => .int signed width
  | .prim (.float width _) => .float width
  | .prim (.string _) => .str
  | .user path => .object path
  | .switch .. => .encoder

def storageType (f : Field) : ValueType :=
  if f.repeated.isSome then .list (elementType f) else elementType f

/-- Code and its type. An untyped value is a constant that takes its type from what is around it. -/
structure Value where
  code : String
  type : ValueType
  untyped : Bool := false
  deriving DecidableEq, Repr

def call (f : String) (args : List String) : String :=
  f ++ "(" ++ Text.join ", " args ++ ")"

namespace Value

def typed (v : Value) : String :=
  if v.untyped then
    match v.type with
    | .int .. => call "int64" [v.code]
    | .float _ => call "float64" [v.code]
    | _ => v.code
  else v.code

def ofStored (code : String) (t : ValueType) : Value :=
  match t with
  | .int signed width =>
    ⟨if ValueType.int signed width = .word then code else call "int64" [code], .word, false⟩
  | .float width =>
    ⟨if ValueType.float width = .double then code else call "float64" [code], .double, false⟩
  | t => ⟨code, t, false⟩

def ofField (code : String) (f : Field) : Value :=
  if f.repeated.isSome then ⟨code, .list (elementType f), false⟩
  else ofStored code (elementType f)

def ofInt (v : Int) : Value :=
  ⟨toString (Word.wrap v), .word, true⟩

def ofDouble (x : Double) : Value :=
  if x.isNaN then ⟨"math.NaN()", .double, false⟩
  else if x.isInfinite then
    ⟨if x.negative then "math.Inf(-1)" else "math.Inf(1)", .double, false⟩
  else
    let code := x.render .general
    let whole := !code.toList.any fun c => c == '.' || c == 'e'
    ⟨if whole then code ++ ".0" else code, .double, true⟩

def promoteTo (other v : Value) : Value :=
  if v.type.isInt && other.type.isFloat then ⟨call "float64" [v.code], .double, v.untyped⟩ else v

def promote (a b : Value) : Value × Value :=
  (promoteTo b a, promoteTo a b)

end Value

def byteCode (b : UInt8) : String :=
  "0x" ++ Text.hex [b]

def byteList (codes : List String) : String :=
  "[]byte\x7b" ++ Text.join ", " codes ++ "\x7d"

end FormatFuzz.Program
