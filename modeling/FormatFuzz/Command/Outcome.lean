import FormatFuzz.Command.Line
import FormatFuzz.Config
import FormatFuzz.FileTree
import FormatFuzz.Program.Error
import FormatFuzz.Schema.Load
import FormatFuzz.Text.Columns

/-!
# Working directories and outcomes of commands

The working directory has a name of its own, which paths that are not rooted are put after. A schema
is opened from a root directory, by default the one it lies in; imports do not leave it.

A command leaves text on two streams, files, and possibly an error. A compilation goes through
several schemas; what stops one of them is told on the error stream and does not stop the others,
unless the program itself comes to its end.
-/

set_option autoImplicit false

namespace FormatFuzz

structure Workspace where
  directory : String
  files : FileTree
  deriving DecidableEq, Repr

namespace Workspace

def absolute (w : Workspace) (path : String) : String :=
  if Path.isRooted path then Path.clean path else Path.join [w.directory, path]

/-- Files below a root. Errors name a file by its path below the root; only reading a directory
names the whole path. -/
def below (w : Workspace) (root : String) : FileSystem where
  names := w.files.files.map fun f => Text.join "/" f.1
  read path :=
    if !Path.isValid path then .error ⟨"open", path, .invalid⟩
    else
      let whole := Path.join [root, path]
      match w.files.read (Path.relative w.directory whole) with
      | .ok text => .ok text
      | .error .missing => .error ⟨"open", path, .noEntry⟩
      | .error .notDirectory => .error ⟨"open", path, .notDirectory⟩
      | .error .isDirectory => .error ⟨"read", whole, .isDirectory⟩
      | .error .invalid => .error ⟨"open", path, .invalid⟩
      | .error .tooLong => .error ⟨"open", path, .tooLong⟩

/-- The directory a schema is opened from; `root` is empty for the one it lies in. -/
def top (w : Workspace) (root path : String) : String :=
  if root = "" then Path.dir (w.absolute path) else w.absolute root

def load (w : Workspace) (root path : String) : Except LoadError SchemaSet :=
  let top := w.top root path
  SchemaSet.load (w.below top) (Path.relative top (w.absolute path))

def isHollow (w : Workspace) (root path : String) (s : SchemaSet) : Bool :=
  s.isHollow (w.below (w.top root path))

end Workspace

end FormatFuzz

namespace FormatFuzz.Command

inductive Error where
  | line (e : LineError)
  | logLevel (name : String)
  | logFormat (name : String)
  | config (e : Config.Error)
  | load (e : LoadError)
  | schema (e : SchemaError)
  | document (e : Decode.Error)
  | existing
  | unknownBackend (name : String)
  | unsupportedBackend (name : String)
  | noSchema
  | notWritten (path : String)
  | failed (count : Nat)
  | crash

def backendNames : List String := ["go", "markdown"]

def Error.message : Error → String
  | .line e => e.message
  | .logLevel name => "invalid log level: " ++ name
  | .logFormat name => "invalid log format: " ++ name
  | .config e => e.message
  | .load e => "failed to load schema: " ++ e.message
  | .schema e => e.message
  | .document e => "failed to encode schema: " ++ e.message
  | .existing => Config.fileName ++ " already exists; project already initialized"
  | .unknownBackend name => "unknown translator: " ++ name
  | .unsupportedBackend name =>
    "unsupported backend " ++ Text.quoted name ++ ". Available backends: "
      ++ Text.join ", " backendNames
  | .noSchema => "no schema given"
  | .notWritten path => "failed to write " ++ path ++ ": is a directory"
  | .failed n => "failed to compile " ++ toString n ++ " schema(s)"
  | .crash => "runtime error: invalid memory address or nil pointer dereference"

/-- Why one schema was not compiled. A crash is the end of all compilations. -/
inductive Obstacle where
  | load (e : LoadError)
  | schema (e : SchemaError)
  | program (e : Program.Error)
  | crash
  | noDirectory (path : String) (fault : FileTree.Fault)
  | notReplaced (path : String) (fault : FileTree.Fault)

def Obstacle.message : Obstacle → String
  | .load e => (Error.load e).message
  | .schema e => e.message
  | .program e => e.message
  | .crash => Error.crash.message
  | .noDirectory path fault =>
    "failed to create output directory: mkdir " ++ path ++ ": " ++ fault.message
  | .notReplaced path .isDirectory => "rename " ++ path ++ ": file exists"
  | .notReplaced path fault => "open " ++ path ++ ": " ++ fault.message

structure Outcome where
  output : String := ""
  errors : String := ""
  /-- The files after the command. -/
  files : FileTree
  /-- What was written, by path, in order. -/
  writes : List (String × String) := []
  failure : Option Error := none

def markedLines (mark : String) (fields : List (String × String)) : String :=
  Text.join "" (fields.map fun f => mark ++ " " ++ Text.boxed (f.1 ++ ":") ++ " " ++ f.2 ++ "\n")

/-- A summary: an empty line, what was done, and a closing message below a line of blanks. -/
def summary (fields : List (String × String)) (message : String) : String :=
  "\n" ++ markedLines "✓" fields ++ Text.boxed ("\n" ++ message) ++ "\n"

def failures (fields : List (String × String)) : String :=
  "\n" ++ markedLines "✗" fields

end FormatFuzz.Command
