import FormatFuzz.Model.Basic
import FormatFuzz.Random.Encoding
import FormatFuzz.Text.Characters
import FormatFuzz.Text.Words
import Std.Data.HashMap

/-!
# Names in generated programs

Exported names are the words of an identifier, each with a capital letter; well-known abbreviations
are written in capitals throughout. A name never starts with a digit and is never empty.
-/

set_option autoImplicit false

namespace FormatFuzz.Program

def keywords : List String :=
  ["break", "case", "chan", "const", "continue", "default", "defer", "else", "fallthrough", "for",
    "func", "go", "goto", "if", "import", "interface", "map", "package", "range", "return",
    "select", "struct", "switch", "type", "var"]

def abbreviations : List String :=
  ["id", "url", "http", "api", "json", "xml", "sql", "html", "ip", "tcp", "udp", "crc", "cpu",
    "uri"]

def exportedWord (w : List Char) : List Char :=
  if String.ofList (Text.lower w) ∈ abbreviations then w.map Char.toUpper else Text.capitalize w

def exportedName (s : String) : String :=
  let body := (Text.words s.toList).flatMap exportedWord
  String.ofList (if body.isEmpty || Text.startsWithDigit body then 'X' :: body else body)

def hiddenName (s : String) : String :=
  match s.toList with
  | [] => ""
  | c :: cs => String.ofList (c.toLower :: cs)

/-- The name of the structure of a type: its path in one word. -/
def typeName (p : TypePath) : String :=
  exportedName (Text.join "_" p)

def enumName (e : EnumId) : String :=
  typeName e.owner ++ exportedName e.name

def memberConst (e : EnumId) (id : String) : String :=
  enumName e ++ exportedName id

def poolName (owner : TypePath) : String :=
  "pool" ++ typeName owner

def encodingName (encoding : String) : String :=
  "enc" ++ exportedName (Encoding.canonical encoding)

/-- A name with underscores added until it is not taken; at most `fuel` of them. -/
def untaken (taken : List String) : Nat → String → String
  | 0, name => name
  | fuel + 1, name => if name ∈ taken then untaken taken fuel (name ++ "_") else name

def assignNames (taken : List String) : List String → List (String × String)
  | [] => []
  | id :: ids =>
    let name := untaken taken taken.length (exportedName id)
    (id, name) :: assignNames (name :: taken) ids

/-- The names that members give way to: the method `Bytes` and the accessors of the fields. -/
def accessorNames (t : TypeDef) : List String :=
  "Bytes" :: t.fields.map fun f => exportedName f.id ++ "Bytes"

def memberNames (t : TypeDef) : List (String × String) :=
  assignNames (accessorNames t) (t.fields.map Field.id ++ t.instances.map Instance.id)

/-- The names of the members of all types, by the path of the type and the id of the member. -/
abbrev NameTable := Std.HashMap TypePath (Std.HashMap String String)

namespace NameTable

def ofTypes (ts : List TypeDef) : NameTable :=
  ts.foldl (fun names t => names.insert t.path (.ofList (memberNames t))) ∅

def member (names : NameTable) (t : TypeDef) (id : String) : String :=
  (names[t.path]?.bind fun ns => ns[id]?).getD ""

def static (names : NameTable) (t : TypeDef) (id : String) : String :=
  hiddenName (typeName t.path) ++ names.member t id

def wire (names : NameTable) (t : TypeDef) (id : String) : String :=
  "wire" ++ names.member t id

def flag (names : NameTable) (t : TypeDef) (id : String) : String :=
  "has" ++ names.member t id

end NameTable

def comment (doc : String) : String :=
  let doc := Text.trim doc
  if doc = "" then ""
  else
    let lines := (Text.splitOn doc "\n").map fun l =>
      String.ofList (Text.dropTrailing (· == ' ') ("// " ++ l).toList)
    Text.join "\n" lines ++ "\n"

end FormatFuzz.Program
