import FormatFuzz.Digest.Basic
import FormatFuzz.Expr.Parser
import FormatFuzz.Graph
import FormatFuzz.Primitive
import FormatFuzz.Schema.Decode

/-!
# Faults of a schema

What can be wrong with a schema that reads well, each with the place where it stands: a type, one of
its members, and a key.
-/

set_option autoImplicit false

namespace FormatFuzz

inductive RangeFault where
  | notIntegers (lo hi : Number)
  | exceeds (lo hi : Int) (type : String) (least greatest : Int)
  | reversed (lo hi : Int)
  | unset
  | repeatBounds (lo hi : Int)
  | sizeBounds (lo hi : Int)
  | negativeSize (n : Int)
  | terminator (n : Int)

def bracketed (lo hi : String) : String :=
  "[" ++ lo ++ ", " ++ hi ++ "]"

def intBracket (lo hi : Int) : String :=
  bracketed (toString lo) (toString hi)

def RangeFault.message : RangeFault → String
  | .notIntegers lo hi => "integer range " ++ bracketed lo.text hi.text ++ " must use integers"
  | .exceeds lo hi type least greatest =>
    intBracket lo hi ++ " exceeds " ++ type ++ " " ++ intBracket least greatest
  | .reversed lo hi => "min " ++ toString lo ++ " is greater than max " ++ toString hi
  | .unset => "integer range not normalized"
  | .repeatBounds lo hi => "repeat bounds " ++ intBracket lo hi
  | .sizeBounds lo hi => "size bounds " ++ intBracket lo hi
  | .negativeSize n => "negative size " ++ toString n
  | .terminator n => "terminator " ++ toString n ++ " is not a byte"

inductive EnumFault where
  | noId
  | neither
  | notNormalized
  deriving DecidableEq, Repr

def EnumFault.message : EnumFault → String
  | .noId => "has no id"
  | .neither => "must be a name or a mapping"
  | .notNormalized => "is not normalized"

inductive Misuse where
  | endian (text : String)
  | poolEntry (index : Nat)
  | mixedPool
  | noInstanceValue
  | noId
  | measureType (type : String)
  | poolKind (field pool : Kind)
  | noSwitchOn
  | caseType (key type : String)
  | noCount
  | noCondition
  | repeatForm (text : String)
  | enumKind (kind : Kind)
  | contentsKind (kind : Kind)
  | contentsItem (type : String) (index : Nat)
  | contentsForm
  | process (text : String)
  | manyChecksums
  | noChecksumInput
  | digestType (digest : Digest) (type : String)
  | digestSize (digest : Digest) (size : Int)
  | checksumKind (kind : Kind)

def digestWidth (d : Digest) : String :=
  d.name ++ " digest is " ++ toString d.size ++ " bytes"

def Misuse.message : Misuse → String
  | .endian text => "endian " ++ Text.quoted text
  | .poolEntry i => "entry " ++ toString i ++ " must be an integer, string or enum member"
  | .mixedPool => "entries mix integers and strings"
  | .noInstanceValue => "only value instances are supported"
  | .noId => "seq entry without id"
  | .measureType type => "length field must be an integer, got " ++ type
  | .poolKind field pool => field.text ++ " field cannot take " ++ pool.text ++ " pool entries"
  | .noSwitchOn => "switch without switch-on"
  | .caseType key type =>
    "switch case " ++ Text.quoted key ++ " must name a user type, got " ++ type
  | .noCount => "repeat: expr needs repeat-expr"
  | .noCondition => "repeat: until needs repeat-until"
  | .repeatForm text => "repeat " ++ Text.quoted text
  | .enumKind kind => "enum on a " ++ kind.text ++ " field"
  | .contentsKind kind => "contents on a " ++ kind.text ++ " field"
  | .contentsItem type i => "unsupported " ++ type ++ " at index " ++ toString i
  | .contentsForm => "contents must be a string or a list"
  | .process text => "unsupported process " ++ Text.quoted text
  | .manyChecksums => "more than one checksum directive"
  | .noChecksumInput => "checksum without input"
  | .digestType d type => digestWidth d ++ ", field is " ++ type
  | .digestSize d size => digestWidth d ++ ", size is " ++ toString size
  | .checksumKind kind => "checksum on a " ++ kind.text ++ " field"

inductive Fault where
  | expr (e : Expr.Error)
  | caseKey (key : String) (m : Expr.Malformed)
  | graph (e : Graph.Error)
  | unknownType (name : String)
  | unknownEnum (name : String)
  | unknownEnumPath (path : List String)
  | noMember (enum id : String)
  | unknownDigest (name : String)
  | unknownRef (name : String)
  | unknownEncoding (name : String)
  | enumEntry (value : Int) (e : EnumFault)
  | range (r : RangeFault)
  | contentsByte (value : Int) (index : Nat)
  | terminatorFit
  | missingSize
  | duplicateId
  | duplicateMember (id : String)
  | noPool
  | noEndian
  | noTypeEndian (type : String)
  | validNumber (key text : String)
  | invalid (m : Misuse)

def Fault.message : Fault → String
  | .expr e => e.message
  | .caseKey key m => "case " ++ Text.quoted key ++ ": " ++ m.message
  | .graph e => e.message
  | .unknownType name => "unknown type: " ++ Text.quoted name
  | .unknownEnum name => "unknown enum: " ++ Text.quoted name
  | .unknownEnumPath path => "unknown enum: " ++ Text.join "::" path
  | .noMember enum id => "unknown enum: " ++ enum ++ " has no member " ++ Text.quoted id
  | .unknownDigest name =>
    "unknown digest: " ++ Text.quoted name ++ " (supported: " ++ Text.join ", " Digest.names ++ ")"
  | .unknownRef name => "unknown reference: " ++ Text.quoted name
  | .unknownEncoding name => "unknown encoding: " ++ Text.quoted name
  | .enumEntry value e => "malformed enum entry: value " ++ toString value ++ " " ++ e.message
  | .range r => "value out of range: " ++ r.message
  | .contentsByte value i =>
    "contents byte out of range: " ++ toString value ++ " at index " ++ toString i
  | .terminatorFit => "terminator cannot fit: size 0"
  | .missingSize => "size is required"
  | .duplicateId => "duplicate id"
  | .duplicateMember id => "duplicate id: " ++ Text.quoted id
  | .noPool => "no -fz-order pool in scope"
  | .noEndian => "endianness not resolved"
  | .noTypeEndian type => "endianness not resolved: " ++ type
  | .validNumber key text => "valid." ++ key ++ ": " ++ Number.invalidMessage text
  | .invalid m => "invalid schema: " ++ m.message

/-- A fault and its place; the names of member and key are empty where there is none. -/
inductive SchemaError where
  | copy (e : Decode.Error)
  | located (type : List String) (member key : String) (fault : Fault)

def SchemaError.message : SchemaError → String
  | .copy e => "failed to copy schema: " ++ e.message
  | .located type member key fault =>
    Text.join "::" type ++ (if member = "" then "" else "." ++ member)
      ++ (if key = "" then "" else " (" ++ key ++ ")") ++ ": " ++ fault.message

def Fault.at_ {α : Type} (type : List String) (member key : String) (r : Except Fault α) :
    Except SchemaError α :=
  match r with
  | .ok a => .ok a
  | .error e => .error (.located type member key e)

end FormatFuzz
