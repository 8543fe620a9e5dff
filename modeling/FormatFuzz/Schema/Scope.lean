import FormatFuzz.Schema.Basic

/-!
# Type names in schemas

A type name is looked up from a place in the schema tree: among the types nested there, then
outwards through the enclosing types, then among the imported schemas. The segments of a qualified
name lead further inwards.
-/

set_option autoImplicit false

namespace FormatFuzz

abbrev TypePath := List String

/-- A place in a schema tree: the schema there and those around it from the inside out, each with
its path. -/
abbrev Scope := List (TypePath × Schema)

namespace Scope

def top (s : Schema) : Scope := [([s.id], s)]

def path (sc : Scope) : TypePath :=
  (sc.head?.map Prod.fst).getD []

def child (sc : Scope) (name : String) (s : Schema) : Scope :=
  (path sc ++ [name], s) :: sc

def start? : Scope → String → Option (TypePath × Schema)
  | [], _ => none
  | (p, s) :: outer, name =>
    match Keyed.get? s.types name with
    | some t => some (p ++ [name], t)
    | none => if outer.isEmpty && s.id == name then some (p, s) else start? outer name

def descend? : TypePath × Schema → List String → Option (TypePath × Schema)
  | here, [] => some here
  | (p, s), name :: rest =>
    match Keyed.get? s.types name with
    | some t => descend? (p ++ [name], t) rest
    | none => none

end Scope

namespace SchemaSet

def top? (s : SchemaSet) (name : String) : Option (TypePath × Schema) :=
  match Keyed.get? s.imported name with
  | some f => some ([name], f.schema)
  | none => if s.main.schema.id == name then some ([name], s.main.schema) else none

/-- The type a name stands for, seen from a place of the set. -/
def lookupType (s : SchemaSet) (sc : Scope) (name : String) : Option (TypePath × Schema) :=
  match Text.splitOn name "::" with
  | [] => none
  | first :: rest =>
    match (Scope.start? sc first).or (s.top? first) with
    | some here => Scope.descend? here rest
    | none => none

end SchemaSet

end FormatFuzz
