import FormatFuzz.Model.Basic
import FormatFuzz.Schema.Fault

/-!
# Names in a model

Types, enums and enum members by name, seen from a type: what is declared inside goes before what is
declared around it.
-/

set_option autoImplicit false

namespace FormatFuzz

def enclosing (p : TypePath) : List TypePath :=
  (List.range p.length).map fun i => p.take (p.length - i)

namespace Model

/-- Where the first segment of a type name leads from one of the enclosing types. -/
def startAt (m : Model) (name : String) (p : TypePath) : Option TypePath :=
  if m.has (p ++ [name]) then some (p ++ [name])
  else if p = [name] then some p
  else none

def descend? (m : Model) : TypePath → List String → Option TypePath
  | p, [] => some p
  | p, name :: rest => if m.has (p ++ [name]) then m.descend? (p ++ [name]) rest else none

def lookupType (m : Model) (here : TypePath) (name : String) : Option TypePath :=
  match Text.splitOn name "::" with
  | [] => none
  | first :: rest =>
    let top := if m.has [first] then some [first] else none
    match ((enclosing here).findSome? (m.startAt first)).or top with
    | some p => m.descend? p rest
    | none => none

def enumAt (m : Model) (name : String) (p : TypePath) : Option (EnumId × EnumDef) :=
  match m.find? p with
  | some t => (t.enum? name).map fun e => (⟨p, name⟩, e)
  | none => none

/-- The enum of a path whose last segment is its name and whose others name a type. -/
def lookupEnum (m : Model) (here : TypePath) (path : List String) : Option (EnumId × EnumDef) :=
  match path.getLast?, path.dropLast with
  | none, _ => none
  | some name, [] => (enclosing here).findSome? (m.enumAt name)
  | some name, owner =>
    match m.lookupType here (Text.join "::" owner) with
    | some p => m.enumAt name p
    | none => none

def lookupMember (m : Model) (here : TypePath) (path : List String) (id : String) :
    Except Fault (EnumId × EnumMember) :=
  match m.lookupEnum here path with
  | none => .error (.unknownEnumPath path)
  | some (e, d) =>
    match d.member? id with
    | some x => .ok (e, x)
    | none => .error (.noMember d.name id)

def poolOwner? (m : Model) (here : TypePath) : Option (TypePath × PoolDef) :=
  (enclosing here).findSome? fun p =>
    match m.find? p with
    | some t => t.pool.map fun d => (p, d)
    | none => none

/-- A path that leads to an enum, seen from a type: its bare name if that suffices. -/
def enumPath (m : Model) (here : TypePath) (e : EnumId) : List String :=
  match m.lookupEnum here [e.name] with
  | some (f, _) => if f = e then [e.name] else e.owner ++ [e.name]
  | none => e.owner ++ [e.name]

end Model

end FormatFuzz
