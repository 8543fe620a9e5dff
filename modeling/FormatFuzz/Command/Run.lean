import FormatFuzz.Command.Compile
import FormatFuzz.Version

/-!
# Running commands

Every command first sets up its logger, then reads the configuration of the working directory.
`order` lists the members of every type in the order they are generated in, `inspect` writes a
schema in normal form, `compile` writes programs or pages, `init` a configuration and `version`
what the program is.
-/

set_option autoImplicit false

namespace FormatFuzz.Command

open Log (Logger)

def initRun (w : Workspace) (l : Line) : Outcome :=
  let stopped (e : Error) : Outcome := { files := w.files, failure := some e }
  let blank : Config := {}
  let c := { blank with
    output := (l.text? "output").getD blank.output
    backend := (l.text? "backend").getD blank.backend
    package := (l.text? "package").getD blank.package
    seed := (l.nat? "seed").getD blank.seed }
  match w.files.stat Config.fileName with
  | .ok _ => stopped .existing
  | .error _ =>
    match Backend.ofName? c.backend with
    | none => stopped (.unknownBackend c.backend)
    | some _ =>
      match c.validate with
      | .error e => stopped (.config (.invalid e))
      | .ok _ =>
        match w.files.write? Config.fileName c.text with
        | none => stopped (.notWritten Config.fileName)
        | some t =>
          { output := summary [("Output", c.output), ("Backend", c.backend)]
              "✓ Initialization completed"
            files := t
            writes := [(Config.fileName, c.text)] }

def logger (l : Line) : Except Error Logger :=
  let level := (l.text? "loglevel").getD "warn"
  let format := (l.text? "logformat").getD "text"
  match Log.Level.ofName? level with
  | none => .error (.logLevel level)
  | some lv =>
    match Log.Format.ofName? format with
    | none => .error (.logFormat format)
    | some f => .ok ⟨lv, f, []⟩

def orderRun (w : Workspace) (log : Logger) (c : Config) (l : Line) (path : String) : Outcome :=
  let root := (l.text? "import-root").getD ""
  match w.load root path with
  | .error e => { files := w.files, failure := some (.load e) }
  | .ok s =>
    if w.isHollow root path s then { files := w.files, failure := some .crash }
    else
      let (lines, r) := compileLogged log (c.options {}) s
      match r with
      | .error e => { errors := lines, files := w.files, failure := some (.schema e) }
      | .ok m => { output := orderTable m, errors := lines, files := w.files }

def inspectRun (w : Workspace) (c : Config) (l : Line) (path : String) : Outcome :=
  let root := (l.text? "import-root").getD ""
  match w.load root path with
  | .error e => { files := w.files, failure := some (.load e) }
  | .ok s =>
    if w.isHollow root path s then { files := w.files, failure := some .crash }
    else
      match s.normalize (c.options {}) with
      | .error e => { files := w.files, failure := some (.schema e) }
      | .ok normal =>
        let (text, e) := documents normal
        { output := text, files := w.files, failure := e.map Error.document }

def versionText (build : BuildInfo) (toolchain : String) (short : Bool) : String :=
  if short then build.version ++ "\n"
  else build.text toolchain ++ "\nsupported ks-version: " ++ Version.supportedText ++ "\n"

def run (build : BuildInfo) (toolchain : String) (w : Workspace) (args : List String) : Outcome :=
  let stopped (e : Error) : Outcome := { files := w.files, failure := some e }
  match Line.parse args with
  | .error e => stopped (.line e)
  | .ok l =>
    if l.command = .help || l.command = .completion then { files := w.files }
    else match logger l with
      | .error e => stopped e
      | .ok log =>
        match Config.find w.files with
        | .error e => stopped (.config e)
        | .ok (c, _) =>
          let path := l.parsed.arguments.headD ""
          match l.command with
          | .init => initRun w l
          | .compile => compileRun w log c l
          | .order => orderRun w log c l path
          | .inspect => inspectRun w c l path
          | .version =>
            { output := versionText build toolchain (l.isOn "short"), files := w.files }
          | .help | .completion => { files := w.files }

end FormatFuzz.Command
