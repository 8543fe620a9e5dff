import FormatFuzz.Digest.Basic
import FormatFuzz.Expr.Basic
import FormatFuzz.Primitive
import FormatFuzz.Schema.Scope

/-!
# The typed model of a format

A model lists the types of a format, the tree of the main schema first and then those of the
imported ones, each type before the types nested in it. A type is named by its path everywhere:
fields refer to types, enums and pools by the path of the type that declares them.
-/

set_option autoImplicit false

namespace FormatFuzz

def qualified (p : TypePath) : String :=
  Text.join "::" p

inductive TypeRef where
  | bytes
  | prim (p : Primitive)
  | user (path : TypePath)
  | switch (on : Expr) (cases : List (Expr × TypePath)) (default : Option TypePath)

namespace TypeRef

def kind : TypeRef → Kind
  | .bytes => .bytes
  | .prim p => p.kind
  | .user _ => .user
  | .switch .. => .switch

def name : TypeRef → String
  | .bytes => "bytes"
  | .prim p => p.name
  | .user p => qualified p
  | .switch .. => "switch"

def users : TypeRef → List TypePath
  | .user p => [p]
  | .switch _ cases default => cases.map Prod.snd ++ default.toList
  | _ => []

end TypeRef

inductive Role where
  | derivedLength
  | repeated
  | randomPop
  | fixedPop
  | randomChoice
  | checksum
  | switch
  | base
  deriving DecidableEq, Repr

def Role.text : Role → String
  | .derivedLength => "derived-length"
  | .repeated => "repeat"
  | .randomPop => "random-pop"
  | .fixedPop => "fixed-pop"
  | .randomChoice => "random-choice"
  | .checksum => "checksum"
  | .switch => "switch"
  | .base => "base"

/-- When a repeated field ends: after a counted number of elements, when a condition on the last one
holds, or after a random number of them. -/
inductive RepeatForm where
  | count (n : Expr)
  | until (cond : Expr)
  | eos

def RepeatForm.text : RepeatForm → String
  | .count _ => "expr"
  | .until _ => "until"
  | .eos => "eos"

def RepeatForm.count? : RepeatForm → Option Expr
  | .count n => some n
  | _ => none

def RepeatForm.until? : RepeatForm → Option Expr
  | .until c => some c
  | _ => none

structure Repeat where
  form : RepeatForm
  min : Int
  max : Int

/-- The length of bytes or text: as declared, or free between two bounds. -/
structure Size where
  expr : Option Expr
  min : Int
  max : Int

def Size.isFree (s : Size) : Bool :=
  s.expr.isNone

inductive Process where
  | zlib
  | xor (key : Expr)

def Process.name : Process → String
  | .zlib => "zlib"
  | .xor _ => "xor"

def Process.key? : Process → Option Expr
  | .zlib => none
  | .xor key => some key

structure EnumMember where
  value : Int
  id : String
  doc : String
  docRef : List String
  deriving DecidableEq, Repr

structure EnumDef where
  name : String
  members : List EnumMember
  deriving DecidableEq, Repr

def EnumDef.member? (e : EnumDef) (id : String) : Option EnumMember :=
  e.members.find? fun m => m.id == id

structure EnumId where
  owner : TypePath
  name : String
  deriving DecidableEq, Repr

def EnumId.text (e : EnumId) : String :=
  qualified e.owner ++ "::" ++ e.name

/-- Values that are handed out one by one; either all integers or all strings. -/
structure PoolDef where
  kind : Kind
  entries : List Expr

structure Field where
  id : String
  doc : String
  docRef : List String
  type : TypeRef
  role : Role
  elemRole : Role
  guard : Option Expr := none
  repeated : Option Repeat := none
  range : Option (Int × Int) := none
  fixed : Option Expr := none
  enum : Option EnumId := none
  contents : Option (List UInt8) := none
  size : Option Size := none
  encoding : String := ""
  terminator : Option UInt8 := none
  process : Option Process := none
  measure : Option Expr := none
  digest : Option Digest := none
  input : Option Expr := none
  choices : List Expr := []
  pool : Option TypePath := none
  deps : List String := []

structure Instance where
  id : String
  doc : String
  docRef : List String
  value : Expr
  guard : Option Expr
  isStatic : Bool := false
  deps : List String := []

structure TypeDef where
  path : TypePath
  doc : String
  docRef : List String
  endian : String
  encoding : String
  fields : List Field := []
  instances : List Instance := []
  enums : List EnumDef := []
  pool : Option PoolDef := none
  users : List TypePath := []
  refs : List String := []
  statics : List String := []
  order : List String := []

namespace TypeDef

def name (t : TypeDef) : String :=
  qualified t.path

def field? (t : TypeDef) (id : String) : Option Field :=
  t.fields.find? fun f => f.id == id

def instance? (t : TypeDef) (id : String) : Option Instance :=
  t.instances.find? fun i => i.id == id

def enum? (t : TypeDef) (name : String) : Option EnumDef :=
  t.enums.find? fun e => e.name == name

end TypeDef

structure Model where
  types : List TypeDef

namespace Model

def find? (m : Model) (p : TypePath) : Option TypeDef :=
  m.types.find? fun t => t.path == p

def has (m : Model) (p : TypePath) : Bool :=
  (m.find? p).isSome

def tops (m : Model) : List TypeDef :=
  m.types.filter fun t => t.path.length == 1

def root? (m : Model) : Option TypeDef :=
  m.types.head?

/-- The types that were noted to have a field that can hold a type. -/
def users (m : Model) (p : TypePath) : List TypePath :=
  match m.find? p with
  | some t => t.users
  | none => []

end Model

end FormatFuzz
