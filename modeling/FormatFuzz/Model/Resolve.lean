import FormatFuzz.Model.Build
import FormatFuzz.Model.Lookup
import FormatFuzz.Schema.Normal

/-!
# Generation order and compilation

Within a type, a field comes after every member that its expressions mention. Instances that depend
on nothing but one another are static and stand outside of the order. A field whose size names the
length field that measures it has no size of its own: the length follows from what was generated.

A schema is compiled by bringing it into normal form, building the model, and ordering its members.
-/

set_option autoImplicit false

namespace FormatFuzz

namespace Resolve

def optRefs (e : Option Expr) : List String :=
  (e.map Expr.refs).getD []

def instanceRefs (i : Instance) : List String :=
  distinct (i.value.refs ++ optRefs i.guard)

def usesReserved (i : Instance) : Bool :=
  i.value.usesReserved || i.guard.any Expr.usesReserved

def isStaticGiven (statics : List String) (i : Instance) : Bool :=
  !usesReserved i && (instanceRefs i).all fun r => r != i.id && statics.contains r

def staticPass (is : List Instance) (statics : List String) : List String :=
  is.foldl (fun s i => if !s.contains i.id && isStaticGiven s i then s ++ [i.id] else s) statics

def staticPasses (is : List Instance) : Nat → List String → List String
  | 0, statics => statics
  | n + 1, statics => staticPasses is n (staticPass is statics)

/-- The static instances in the order in which they can be computed. -/
def statics (is : List Instance) : List String :=
  staticPasses is is.length []

def keyedExprs (f : Field) : List (String × Expr) :=
  let one (key : String) (e : Option Expr) := e.toList.map fun e => (key, e)
  one "if" f.guard ++ one "valid" f.fixed ++ one "-fz-attr-len" f.measure
    ++ one "-fz-process" f.input
    ++ one "repeat-expr" (f.repeated.bind fun r => r.form.count?)
    ++ one "repeat-until" (f.repeated.bind fun r => r.form.until?)
    ++ one "process" (f.process.bind Process.key?)
    ++ f.choices.map (fun e => ("-fz-choice", e))
    ++ match f.type with
      | .switch on cases _ => ("type.switch-on", on) :: cases.map fun c => ("type.cases", c.1)
      | _ => []

def isMeasured (t : TypeDef) (id : String) (size : Expr) : Bool :=
  size.refs.any fun r =>
    match t.field? r with
    | some l => l.role == .derivedLength && (optRefs l.measure).contains id
    | none => false

def freeSize (t : TypeDef) (f : Field) : Field :=
  match f.size with
  | some s =>
    match s.expr with
    | some e => if isMeasured t f.id e then { f with size := some { s with expr := none } } else f
    | none => f
  | none => f

def sizeExpr? (f : Field) : Option Expr :=
  f.size.bind Size.expr

def parentExprs (f : Field) : List Expr :=
  f.guard.toList ++ f.fixed.toList ++ f.measure.toList ++ f.input.toList ++ (sizeExpr? f).toList
    ++ (f.repeated.bind fun r => r.form.count?).toList
    ++ (f.repeated.bind fun r => r.form.until?).toList
    ++ (match f.type with
      | .switch on _ _ => [on]
      | _ => [])
    ++ f.choices

def parentRefs (u : TypeDef) : List String :=
  let exprs := u.fields.flatMap parentExprs
    ++ u.instances.flatMap fun i => i.value :: i.guard.toList
  distinct (exprs.flatMap (Expr.attributesOf Expr.parent))

def addDep (t : TypeDef) (f : Field) (deps : List String) (key name : String) :
    Except SchemaError (List String) :=
  if !t.refs.contains name then .error (.located t.path f.id key (.unknownRef name))
  else if t.statics.contains name || deps.contains name then .ok deps
  else if name = f.id && key = "repeat-until" then .ok deps
  else .ok (deps ++ [name])

/-- What a field has to be generated after; `find?` gives the types as they stand now. -/
def fieldDeps (find? : TypePath → Option TypeDef) (t : TypeDef) (f : Field) :
    Except SchemaError (List String) := do
  let keys := keyedExprs f ++ (sizeExpr? f).toList.map fun e => ("size", e)
  let named := keys.flatMap fun k => k.2.refs.map fun r => (k.1, r)
  let read := (f.type.users.filterMap find?).flatMap parentRefs
  let read := (read.filter fun r => t.refs.contains r && r != f.id).map fun r => ("type", r)
  (named ++ read).foldlM (fun deps k => addDep t f deps k.1 k.2) []

/-- The fields of a type with their dependencies; `find?` gives the types while this one stands as
it is given. -/
def fields (find? : TypeDef → TypePath → Option TypeDef) (t : TypeDef) :
    List Field → List Field → Except SchemaError (List Field)
  | done, [] => .ok done
  | done, f :: rest => do
    let f := freeSize t f
    let now := { t with fields := done ++ f :: rest }
    let deps ← fieldDeps (find? now) now f
    fields find? t (done ++ [{ f with deps := deps }]) rest

def instanceDeps (t : TypeDef) (i : Instance) : Except SchemaError Instance :=
  if t.statics.contains i.id then .ok { i with isStatic := true }
  else do
    let refs := instanceRefs i
    match refs.find? fun r => !t.refs.contains r with
    | some r => throw (.located t.path i.id "value" (.unknownRef r))
    | none => return { i with deps := refs.filter fun r => !t.statics.contains r }

def memberIds (t : TypeDef) : Except SchemaError (List String) :=
  (t.fields.map Field.id ++ t.instances.map Instance.id).foldlM (fun ids id =>
    if id ∈ ids then .error (.located t.path id "id" .duplicateId) else .ok (ids ++ [id])) []

def graph (t : TypeDef) : Except Graph.Error Graph :=
  let g := t.refs.foldl Graph.addNode Graph.empty
  let edges := (t.fields.flatMap fun f => f.deps.map fun d => (f.id, d))
    ++ t.instances.flatMap fun i => i.deps.map fun d => (i.id, d)
  edges.foldlM (fun g e => g.addDependency e.1 e.2) g

def order (t : TypeDef) : Except SchemaError (List String) :=
  match (graph t).bind Graph.linearize with
  | .ok ids => .ok (ids.filter fun id => !t.statics.contains id)
  | .error e => .error (.located t.path "" "" (.graph e))

/-- One type with its references, static instances, dependencies and order. -/
def typeDef (find? : TypeDef → TypePath → Option TypeDef) (t : TypeDef) :
    Except SchemaError TypeDef := do
  let refs ← memberIds t
  let t := { t with refs := refs, statics := statics t.instances }
  let fs ← fields find? t [] t.fields
  let is ← t.instances.mapM (instanceDeps t)
  let t := { t with fields := fs, instances := is }
  return { t with order := ← order t }

/-- Resolves types one after the other; each sees those before it resolved. -/
def types : List TypeDef → List TypeDef → Except SchemaError (List TypeDef)
  | done, [] => .ok done
  | done, t :: rest => do
    let t ← typeDef (fun now => Model.find? ⟨done ++ now :: rest⟩) t
    types (done ++ [t]) rest

end Resolve

namespace Model

def resolve (m : Model) : Except SchemaError Model := do
  return ⟨← Resolve.types [] m.types⟩

end Model

end FormatFuzz

namespace FormatFuzz.Model

def ofNormal (o : Options) (s : SchemaSet) : Except SchemaError Model := do
  let m ← build o s
  m.resolve

def compile (o : Options) (s : SchemaSet) : Except SchemaError Model := do
  ofNormal o (← s.normalize o)

end FormatFuzz.Model
