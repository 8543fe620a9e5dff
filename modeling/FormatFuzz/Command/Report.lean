import FormatFuzz.Log
import FormatFuzz.Model.Resolve
import FormatFuzz.Text.Columns
import FormatFuzz.Yaml.Printer

/-!
# Reports on schemas

What a compilation logs, the order in which the members of every type are generated, and a schema
written out in full.
-/

set_option autoImplicit false

namespace FormatFuzz.Command

open Log (Logger)

/-- The model of a schema, and what was logged on the way: that the schema is in normal form, and
then the order of every type. -/
def compileLogged (log : Logger) (o : Options) (s : SchemaSet) :
    String × Except SchemaError Model :=
  let log := log.add "schema" s.main.schema.id
  match s.normalize o with
  | .error e => ("", .error e)
  | .ok normal =>
    let first := log.write ⟨.debug, "schema normalized", []⟩
    match Model.ofNormal o normal with
    | .error e => (first, .error e)
    | .ok m =>
      let ordered := m.types.map fun t =>
        log.write ⟨.debug, "type ordered", [("type", .text t.name), ("order", .texts t.order)]⟩
      (first ++ Text.join "" ordered, .ok m)

def repeatRole (f : Field) : String :=
  match f.repeated with
  | some r => "repeat-" ++ r.form.text ++ " of " ++ f.elemRole.text
  | none => f.role.text

def roleOf (t : TypeDef) (id : String) : String × List String :=
  match t.field? id with
  | some f => (repeatRole f, f.deps)
  | none => ("instance", ((t.instance? id).map Instance.deps).getD [])

def orderRows (t : TypeDef) : List (List String) :=
  let generated := t.order.zipIdx.map fun (id, i) =>
    let (role, deps) := roleOf t id
    [t.name, toString (i + 1), id, role, if deps.isEmpty then "-" else Text.join ", " deps]
  let statics := (t.instances.filter Instance.isStatic).map fun i =>
    [t.name, "-", i.id, "static instance", "-"]
  generated ++ statics

def orderTable (m : Model) : String :=
  let rows := ["TYPE", "STEP", "ID", "ROLE", "DEPENDS ON"] :: m.types.flatMap orderRows
  Text.aligned (Text.join "" (rows.map fun r => Text.join "\t" r ++ "\n"))

def document (s : Schema) : Except Decode.Error String :=
  match Encode.schema s with
  | .ok n => .ok (n.render 2)
  | .error _ => .error .malformed

def importDocuments : Keyed SchemaFile → String × Option Decode.Error
  | [] => ("", none)
  | (id, f) :: fs =>
    let head := "---\n# imported as " ++ id ++ "\n"
    match document f.schema with
    | .error e => (head, some e)
    | .ok text =>
      let (rest, e) := importDocuments fs
      (head ++ text ++ rest, e)

/-- A schema and its imports as documents, up to the first that cannot be written. -/
def documents (s : SchemaSet) : String × Option Decode.Error :=
  match document s.main.schema with
  | .error e => ("", some e)
  | .ok text =>
    let (rest, e) := importDocuments s.imported
    (text ++ rest, e)

end FormatFuzz.Command
