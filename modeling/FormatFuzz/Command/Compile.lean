import FormatFuzz.Command.Outcome
import FormatFuzz.Command.Report
import FormatFuzz.Markdown
import FormatFuzz.Program.Source

/-!
# Compiling files

Each schema is compiled on its own into one file, a program or a page. One that cannot be compiled
leaves no file and does not keep the others from being compiled, unless it ends the whole program.
-/

set_option autoImplicit false

namespace FormatFuzz.Command

open Log (Logger)

inductive Backend where
  | program
  | page
  deriving DecidableEq, Repr

def Backend.ofName? : String → Option Backend
  | "go" => some .program
  | "markdown" => some .page
  | _ => none

def Backend.name : Backend → String
  | .program => "go"
  | .page => "markdown"

def Backend.suffix : Backend → String
  | .program => ".go"
  | .page => ".md"

/-- The text of a model. Its members are described whatever the text is to be. -/
def Backend.render (b : Backend) (s : Program.Settings) (m : Model) : Except Obstacle String :=
  match Markdown.page s.source m, b with
  | none, _ => .error .crash
  | some text, .page => .ok text
  | some _, .program =>
    match Program.text s m with
    | .ok text => .ok text
    | .error e => .error (.program e)

/-- What a compilation is told by its flags and the configuration. -/
structure Job where
  backend : Backend
  output : String
  package : String
  seed : Nat
  root : String
  options : Options

/-- The file a type is written to. A program of its own gets a directory of its own. -/
def Job.file (j : Job) (id : String) : String :=
  let dir :=
    if j.backend = .program && j.package = "main" then Path.join [j.output, id] else j.output
  Path.join [dir, id ++ j.backend.suffix]

/-- Writes a file into a directory that is made for it. The directory stays even if the file cannot
be written. -/
def place (t : FileTree) (file text : String) : FileTree × Except Obstacle Unit :=
  let (t, made) := t.makeDir (Path.dir file)
  match made with
  | some (dir, fault) => (t, .error (.noDirectory dir fault))
  | none =>
    match t.replace file text with
    | .error fault => (t, .error (.notReplaced file fault))
    | .ok t => (t, .ok ())

/-- A schema read, compiled and written: the log, the files after it, and the file with its text or
what was in the way. -/
def compileOne (w : Workspace) (log : Logger) (j : Job) (path : String) :
    String × FileTree × Except Obstacle (String × String) :=
  let log := log.add "schema" path
  match w.load j.root path with
  | .error e => ("", w.files, .error (.load e))
  | .ok s =>
    if w.isHollow j.root path s then ("", w.files, .error .crash)
    else
      let (lines, r) := compileLogged log j.options s
      match r with
      | .error e => (lines, w.files, .error (.schema e))
      | .ok m =>
        match j.backend.render ⟨j.package, Path.base path, j.seed⟩ m with
        | .error o => (lines, w.files, .error o)
        | .ok text =>
          let file := j.file ((m.root?.map TypeDef.name).getD "")
          match place w.files file text with
          | (t, .error o) => (lines, t, .error o)
          | (t, .ok _) =>
            let written := log.write
              ⟨.info, "output written", [("file", .text file), ("bytes", .count text.utf8ByteSize)]⟩
            (lines ++ written, t, .ok (file, text))

structure Progress where
  files : FileTree
  log : String := ""
  writes : List (String × String) := []
  done : List (String × String) := []
  failed : List (String × String) := []
  crashed : Bool := false

def Progress.add (p : Progress) (path : String) :
    String × FileTree × Except Obstacle (String × String) → Progress
  | (lines, t, .error .crash) => { p with files := t, log := p.log ++ lines, crashed := true }
  | (lines, t, .error o) =>
    { p with files := t, log := p.log ++ lines, failed := p.failed ++ [(path, o.message)] }
  | (lines, t, .ok (file, text)) =>
    { p with
      files := t
      log := p.log ++ lines
      writes := p.writes ++ [(file, text)]
      done := p.done ++ [(path, file)] }

def compileAll (w : Workspace) (log : Logger) (j : Job) : Progress → List String → Progress
  | p, [] => p
  | p, path :: rest =>
    let p := p.add path (compileOne { w with files := p.files } log j path)
    if p.crashed then p else compileAll w log j p rest

/-- What is told of some compilations. Nothing is, once the program has ended in their midst. -/
def Progress.outcome (p : Progress) (b : Backend) : Outcome :=
  if p.crashed then
    { errors := p.log, files := p.files, writes := p.writes, failure := some .crash }
  else
    { output := if p.done.isEmpty then "" else summary p.done
        ("Compiled " ++ toString p.done.length ++ " schema(s) with the " ++ b.name ++ " backend")
      errors := p.log ++ if p.failed.isEmpty then "" else failures p.failed
      files := p.files
      writes := p.writes
      failure := if p.failed.isEmpty then none else some (.failed p.failed.length) }

def compileRun (w : Workspace) (log : Logger) (c : Config) (l : Line) : Outcome :=
  let stopped (e : Error) : Outcome := { files := w.files, failure := some e }
  let backend := (l.text? "backend").getD c.backend
  let package := (l.text? "package").getD c.package
  match l.parsed.arguments, Backend.ofName? backend with
  | [], _ => stopped .noSchema
  | _, none => stopped (.unsupportedBackend backend)
  | paths, some b =>
    let p := compileAll w log
      { backend := b
        output := (l.text? "output").getD c.output
        package := if package = "" then "main" else package
        seed := (l.nat? "seed").getD c.seed
        root := (l.text? "import-root").getD ""
        options := c.options {} }
      { files := w.files } paths
    p.outcome b

end FormatFuzz.Command
