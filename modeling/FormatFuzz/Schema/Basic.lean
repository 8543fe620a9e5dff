import FormatFuzz.Keyed
import FormatFuzz.Numeral
import FormatFuzz.Value

/-!
# Format descriptions

A schema describes a format or one of its types: a sequence of attributes, named values, enums,
nested types, and the pool its fields may draw from. Keys with an untyped value keep that value.
-/

set_option autoImplicit false

namespace FormatFuzz

structure Meta where
  id : String
  title : String
  application : Value
  fileExtension : Value
  endian : String
  encoding : String
  imports : List String
  version : String
  deriving Inhabited

def Meta.empty : Meta := ⟨"", "", .null, .null, "", "", [], ""⟩

/-- The value of a `type` key: a name, or a choice among types by the value of an expression. -/
inductive TypeSpec where
  | named (name : String)
  | switch (on : Value) (cases : Keyed String)

structure Attr where
  id : String := ""
  doc : String := ""
  docRef : List String := []
  type : Option TypeSpec := none
  size : Value := .null
  sizeEos : Bool := false
  encoding : String := ""
  terminator : Option Int := none
  contents : Value := .null
  enum : String := ""
  process : String := ""
  valid : Value := .null
  guard : Value := .null
  value : Value := .null
  repeated : String := ""
  repeatExpr : Value := .null
  repeatUntil : Value := .null
  rangeMin : Option Number := none
  rangeMax : Option Number := none
  sizeMin : Option Int := none
  sizeMax : Option Int := none
  repeatMin : Option Int := none
  repeatMax : Option Int := none
  attrLen : Value := .null
  choice : List Value := []
  orderPop : Bool := false
  randOrderPop : Bool := false
  extra : Keyed Value := []

namespace Attr

def digestKey : String := "-fz-process-"

def insertByKey (p : String × Value) : Keyed Value → Keyed Value
  | [] => [p]
  | q :: qs => if p.1 < q.1 then p :: q :: qs else q :: insertByKey p qs

def sortByKey (ps : Keyed Value) : Keyed Value :=
  ps.foldl (fun acc p => insertByKey p acc) []

def checksums (a : Attr) : List (String × Value) :=
  (sortByKey a.extra).filterMap fun e =>
    (Text.dropPrefix? e.1 digestKey).map fun name => (name, e.2)

def isSwitch (a : Attr) : Bool :=
  match a.type with
  | some (.switch ..) => true
  | _ => false

/-- The plain type name, empty for raw bytes and for a switch. -/
def typeName (a : Attr) : String :=
  match a.type with
  | some (.named name) => name
  | _ => ""

end Attr

structure EnumValue where
  id : String
  doc : String
  docRef : List String
  deriving DecidableEq, Repr

/-- What an enum entry says of its value: a name, a description, or neither. -/
inductive EnumForm where
  | short (name : String)
  | verbose (v : EnumValue)
  | malformed
  deriving DecidableEq, Repr

structure EnumEntry where
  value : Int
  form : EnumForm
  line : Nat
  deriving DecidableEq, Repr

structure SchemaBody where
  head : Meta := .empty
  doc : String := ""
  docRef : List String := []
  seq : List Attr := []
  instances : Keyed Attr := []
  enums : Keyed (List EnumEntry) := []
  order : List Value := []

inductive Schema where
  | mk (body : SchemaBody) (types : List (String × Schema))

namespace Schema

def body : Schema → SchemaBody
  | .mk b _ => b

def types : Schema → Keyed Schema
  | .mk _ ts => ts

def id (s : Schema) : String := s.body.head.id

def empty : Schema := .mk {} []

end Schema

instance : Inhabited Schema := ⟨Schema.empty⟩

structure SchemaFile where
  path : String
  schema : Schema

/-- A schema file with all files it imports, keyed by id. -/
structure SchemaSet where
  main : SchemaFile
  imported : Keyed SchemaFile

end FormatFuzz
