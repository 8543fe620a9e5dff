import FormatFuzz.Path
import FormatFuzz.Schema.Decode
import FormatFuzz.Version
import FormatFuzz.Yaml.Reader

/-!
# Loading schemas

A schema is read from a file together with every file it imports, directly or through others. A file
is read once, whatever path leads to it, and no two files may declare the same id.
-/

set_option autoImplicit false

namespace FormatFuzz

inductive FileCause where
  | absent
  | noEntry
  | invalid
  | isDirectory
  | notDirectory
  | tooLong
  deriving DecidableEq, Repr

def FileCause.message : FileCause → String
  | .absent => "file does not exist"
  | .noEntry => "no such file or directory"
  | .invalid => "invalid argument"
  | .isDirectory => "is a directory"
  | .notDirectory => "not a directory"
  | .tooLong => "file name too long"

structure FileError where
  op : String
  path : String
  cause : FileCause
  deriving DecidableEq, Repr

def FileError.message (e : FileError) : String :=
  e.op ++ " " ++ e.path ++ ": " ++ e.cause.message

def FileError.isMissing (e : FileError) : Bool :=
  e.cause == .absent || e.cause == .noEntry

/-- Readable files: the names of all there are, and what reading a path gives. -/
structure FileSystem where
  names : List String
  read : String → Except FileError String

def FileSystem.ofList (files : List (String × String)) : FileSystem where
  names := files.map Prod.fst
  read path :=
    match Keyed.get? files path with
    | some text => if Path.isValid path then .ok text else .error ⟨"open", path, .absent⟩
    | none =>
      if path = "." || (files.any fun f => (path ++ "/").toList.isPrefixOf f.1.toList) then
        .error ⟨"read", path, .invalid⟩
      else .error ⟨"open", path, .absent⟩

inductive LoadError where
  | file (e : FileError)
  | malformed (path : String)
  | decode (path : String) (e : Decode.Error)
  | missingId (path : String)
  | version (path : String) (r : Version.Refusal)
  | imported (name importer : String) (e : LoadError)
  | defined (name id : String)
  deriving DecidableEq, Repr

def LoadError.message : LoadError → String
  | .file e => e.message
  | .malformed path => path ++ ": malformed text"
  | .decode path e => path ++ ": " ++ e.message
  | .missingId path => path ++ ": missing meta.id"
  | .version path r => path ++ ": " ++ r.message
  | .imported name importer e =>
    "import " ++ Text.quoted name ++ " from " ++ importer ++ ": " ++ e.message
  | .defined name id =>
    "import " ++ Text.quoted name ++ ": type " ++ Text.quoted id ++ " is already defined"

namespace SchemaFile

/-- The schema of a text. It needs an id and a version that is understood. -/
def parse (path text : String) : Except LoadError SchemaFile :=
  match Yaml.Node.parse text with
  | .error _ => .error (.malformed path)
  | .ok root =>
    match Decode.alone (Decode.schema (root.getD (.scalar 0 .plain ""))) with
    | .error e => .error (.decode path e)
    | .ok s =>
      if s.id = "" then .error (.missingId path)
      else match Version.check s.body.head.version with
        | .error r => .error (.version path r)
        | .ok _ => .ok ⟨path, s⟩

def read (fs : FileSystem) (path : String) : Except LoadError SchemaFile :=
  match fs.read path with
  | .error e => .error (.file e)
  | .ok text => parse path text

def isHollow (fs : FileSystem) (f : SchemaFile) : Bool :=
  match fs.read f.path with
  | .error _ => false
  | .ok text =>
    match Yaml.Node.parse text with
    | .ok (some root) => Decode.isHollow root
    | _ => false

end SchemaFile

namespace SchemaSet

/-- The file an import names, seen from a directory. A leading slash stands for the root. -/
def importPath (dir name : String) : String :=
  let p := if Text.endsWith ".ksy".toList name.toList then name else name ++ ".ksy"
  match Text.dropPrefix? p "/" with
  | some rest => Path.clean rest
  | none => Path.clean (Path.join [dir, p])

/-- What loading has found: the imports and the paths already taken care of. -/
structure Progress where
  imported : Keyed SchemaFile
  seen : List String

/-- Loads one import unless it was seen; gives the file to go on with. -/
def loadImport (fs : FileSystem) (mainId : String) (importer : SchemaFile) (dir name : String)
    (p : Progress) : Except LoadError (Progress × Option (SchemaFile × String)) :=
  let path := importPath dir name
  if path ∈ p.seen then .ok (p, none)
  else
    match SchemaFile.read fs path with
    | .error e => .error (.imported name importer.path e)
    | .ok f =>
      let id := f.schema.id
      if (Keyed.get? p.imported id).isSome || id = mainId then .error (.defined name id)
      else .ok (⟨Keyed.set p.imported id f, path :: p.seen⟩, some (f, Path.dir path))

/-- Loads the imports of a file and of the files they lead to, depth first. `fuel` bounds how many
files deep an import can lie. -/
def loadImports (fs : FileSystem) (mainId : String) :
    Nat → SchemaFile → String → List String → Progress → Except LoadError Progress
  | _, _, _, [], p => .ok p
  | 0, _, _, _ :: _, p => .ok p
  | fuel + 1, importer, dir, name :: names, p => do
    let (p, next) ← loadImport fs mainId importer dir name p
    let p ← match next with
      | none => .ok p
      | some (f, sub) => loadImports fs mainId fuel f sub f.schema.body.head.imports p
    loadImports fs mainId (fuel + 1) importer dir names p

def load (fs : FileSystem) (path : String) : Except LoadError SchemaSet := do
  let main ← SchemaFile.read fs path
  let p ← loadImports fs main.schema.id (fs.names.length + 1) main (Path.dir path)
    main.schema.body.head.imports ⟨[], [Path.clean path]⟩
  return ⟨main, p.imported⟩

/-- Does a document of a loaded set leave something undeclared? Normalization crashes there. -/
def isHollow (fs : FileSystem) (s : SchemaSet) : Bool :=
  SchemaFile.isHollow fs s.main || s.imported.any fun e => SchemaFile.isHollow fs e.2

def ofText (path text : String) : Except LoadError SchemaSet := do
  return ⟨← SchemaFile.parse path text, []⟩

end SchemaSet

end FormatFuzz
