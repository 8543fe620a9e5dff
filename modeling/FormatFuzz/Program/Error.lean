import FormatFuzz.Expr.Basic
import FormatFuzz.Program.Value
import FormatFuzz.Schema.Fault

/-!
# What programs cannot express
-/

set_option autoImplicit false

namespace FormatFuzz.Program

inductive Reason where
  | missing
  | notCurrent
  | stream
  | inStatic
  | ambiguousParent (type : String) (users : Nat)
  | notStatic (id : String)
  | noAttribute (id : String) (type : ValueType)
  | indexType
  | notIndexable (type : ValueType)
  | unary (op : UnaryOp) (type : ValueType)
  | binary (op : BinaryOp) (left right : ValueType)
  | condition
  | branches (left right : ValueType)
  | listElement
  | notByte (v : Int)
  | notBytes (type : ValueType)

def Reason.message : Reason → String
  | .missing => "unexpected node <nil>"
  | .notCurrent => "only valid inside repeat-until"
  | .stream => "stream state is not available while generating"
  | .inStatic => "not available in a static instance"
  | .ambiguousParent type n =>
    type ++ " is used by " ++ toString n ++ " types, its parent is ambiguous"
  | .notStatic id => Text.quoted id ++ " is not static"
  | .noAttribute id t => "no attribute " ++ Text.quoted id ++ " on " ++ t.kind
  | .indexType => "index must be an integer"
  | .notIndexable t => "cannot index " ++ t.kind
  | .unary op t => "operator " ++ op.text ++ " on " ++ t.kind
  | .binary op a b => "operator " ++ op.text ++ " on " ++ a.kind ++ " and " ++ b.kind
  | .condition => "condition must be a boolean"
  | .branches a b => "branches have different types " ++ a.kind ++ " and " ++ b.kind
  | .listElement => "list elements must be integers"
  | .notByte v => toString v ++ " is not a byte"
  | .notBytes t => t.kind ++ " cannot be used as bytes"

inductive Key where
  | guard
  | until
  | count
  | size
  | valid
  deriving DecidableEq, Repr

def Key.message (k : Key) (e : Expr) (t : ValueType) : String :=
  match k with
  | .guard => "condition " ++ e.printed ++ " is " ++ t.kind ++ ", not a boolean"
  | .until => "repeat-until " ++ e.printed ++ " is " ++ t.kind ++ ", not a boolean"
  | .count => "repeat-expr " ++ e.printed ++ " is " ++ t.kind
  | .size => "size " ++ e.printed ++ " is " ++ t.kind
  | .valid => "valid " ++ e.printed ++ " is " ++ t.kind

inductive Error where
  | expr (e : Expr) (r : Reason)
  | mistyped (key : Key) (e : Expr) (type : ValueType)
  | selfReference (id : String)
  | choiceField (type : ValueType)
  | choice (e : Expr) (type field : ValueType)
  | foreignRoot (type : TypePath)
  | unknownMember (id : String) (type : TypePath)
  | enum (f : Fault)
  | nameClash (first second : TypePath) (name : String)
  | layout
  | located (type : TypePath) (member key : String) (e : Error)

def Error.message : Error → String
  | .expr e r => "unsupported expression: " ++ e.printed ++ ": " ++ r.message
  | .mistyped k e t => "unsupported expression: " ++ k.message e t
  | .selfReference id =>
    "unsupported expression: instance " ++ Text.quoted id ++ " refers to itself"
  | .choiceField t => "unsupported expression: -fz-choice on a " ++ t.kind ++ " field"
  | .choice e t field =>
    "unsupported expression: choice " ++ e.printed ++ " is " ++ t.kind ++ ", field is " ++ field.kind
  | .foreignRoot t =>
    "unsupported expression: " ++ qualified t
      ++ " uses _root and is instantiated from another schema"
  | .unknownMember id t => "unknown reference: " ++ Text.quoted id ++ " in " ++ qualified t
  | .enum f => f.message
  | .nameClash a b name =>
    "types " ++ qualified a ++ " and " ++ qualified b ++ " both map to Go type " ++ name
  | .layout => "failed to format generated code"
  | .located type member key e =>
    Text.join "::" type ++ (if member = "" then "" else "." ++ member)
      ++ (if key = "" then "" else " (" ++ key ++ ")") ++ ": " ++ e.message

def Error.at_ {α : Type} (type : TypePath) (member key : String) (r : Except Error α) :
    Except Error α :=
  match r with
  | .ok a => .ok a
  | .error e => .error (.located type member key e)

end FormatFuzz.Program
