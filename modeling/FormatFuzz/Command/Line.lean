import FormatFuzz.Flags
import FormatFuzz.Text.Words

/-!
# Command lines

A command line names a command and gives it flags and arguments. Flags may stand before the name of
the command. A name that is not known is answered with names close to it.
-/

set_option autoImplicit false

namespace FormatFuzz

inductive Command where
  | init
  | compile
  | order
  | inspect
  | version
  | help
  | completion
  deriving DecidableEq, Repr

namespace Command

def all : List Command :=
  [.init, .compile, .order, .inspect, .version, .help, .completion]

def name : Command → String
  | .init => "init"
  | .compile => "compile"
  | .order => "order"
  | .inspect => "inspect"
  | .version => "version"
  | .help => "help"
  | .completion => "completion"

def ofName? (s : String) : Option Command :=
  all.find? fun c => c.name == s

def program : String := "ksfuzz"

def loggingFlags : List Flags.Flag :=
  [⟨"loglevel", none, .text⟩, ⟨"logformat", none, .text⟩]

def commonFlags : List Flags.Flag :=
  loggingFlags ++ [⟨"help", some 'h', .switch⟩]

def outputFlags : List Flags.Flag :=
  [⟨"output", some 'o', .text⟩, ⟨"backend", some 'b', .text⟩, ⟨"package", some 'p', .text⟩,
    ⟨"seed", none, .uint⟩, ⟨"non-interactive", none, .switch⟩]

def flags (c : Command) : List Flags.Flag :=
  commonFlags ++ match c with
    | .init => outputFlags
    | .compile => outputFlags ++ [⟨"import-root", none, .text⟩, ⟨"jobs", some 'j', .int⟩]
    | .order | .inspect => [⟨"import-root", none, .text⟩]
    | .version => [⟨"short", some 's', .switch⟩]
    | .help | .completion => []

/-- Is the argument after this one the value of a flag? A flag that is not known takes one. -/
def takesNext (flags : List Flags.Flag) (arg : String) : Bool :=
  let bare := !arg.toList.contains '='
  let isSwitch (f : Option Flags.Flag) := (f.map fun f => f.kind == .switch).getD false
  match arg.toList with
  | '-' :: '-' :: cs => bare && !isSwitch (flags.find? fun f => f.name == String.ofList cs)
  | '-' :: cs =>
    bare && arg.utf8ByteSize = 2 && !isSwitch (flags.find? fun f => f.letter == cs.head?)
  | _ => false

def isFlag (arg : String) : Bool :=
  arg.toList.head? == some '-'

/-- The arguments that are neither flags nor values of flags. A flag at the end or next to the end
closes the list. -/
def plainArguments (flags : List Flags.Flag) : List String → List String
  | [] => []
  | arg :: rest =>
    if arg = "--" then []
    else if takesNext flags arg then
      match rest with
      | [] => []
      | [_] => []
      | _ :: rest => plainArguments flags rest
    else if arg ≠ "" && !isFlag arg then arg :: plainArguments flags rest
    else plainArguments flags rest

def dropFirst (flags : List Flags.Flag) (x : String) : List String → List String
  | [] => []
  | arg :: rest =>
    if arg = "--" then arg :: rest
    else if takesNext flags arg then
      match rest with
      | [] => [arg]
      | v :: rest => arg :: v :: dropFirst flags x rest
    else if !isFlag arg && arg = x then rest
    else arg :: dropFirst flags x rest

/-- The next row of the table of edit distances: `row` belongs to the elements before `a`, and
`left` is the first entry of the next one. -/
def nextRow {α : Type} [DecidableEq α] (a : α) : Nat → List α → List Nat → List Nat
  | left, b :: bs, diag :: above :: row =>
    let here := if a = b then diag else min (min above left) diag + 1
    left :: nextRow a here bs (above :: row)
  | left, _, _ => [left]

/-- How many elements to insert, delete or replace to get from one list to another. -/
def distance {α : Type} [DecidableEq α] (s t : List α) : Nat :=
  let rows := s.foldl (fun (row : Nat × List Nat) a =>
    (row.1 + 1, nextRow a (row.1 + 1) t row.2)) (0, List.range (t.length + 1))
  rows.2.getLast?.getD 0

/-- Is a command meant by a word: is it at most two bytes away, or does the word begin it? -/
def isClose (word : String) (c : Command) : Bool :=
  let w := Text.utf8 (Text.lowerText word)
  distance w (Text.utf8 c.name) ≤ 2 || w.isPrefixOf (Text.utf8 c.name)

def suggestions (word : String) : List String :=
  ((all.filter fun c => c ≠ .help).filter (isClose word)).map name

inductive LineError where
  | flags (e : Flags.Error)
  | unknownCommand (word : String)
  | unexpected (word : String) (c : Command)
  | argumentCount (wanted given : Nat)
  deriving DecidableEq, Repr

def suggestionText : List String → String
  | [] => ""
  | ns => "\n\nDid you mean this?\n" ++ Text.join "" (ns.map fun n => "\t" ++ n ++ "\n")

def LineError.message : LineError → String
  | .flags e => e.message
  | .unknownCommand word =>
    "unknown command " ++ Text.quoted word ++ " for " ++ Text.quoted program
      ++ suggestionText (suggestions word)
  | .unexpected word c =>
    "unknown command " ++ Text.quoted word ++ " for " ++ Text.quoted (program ++ " " ++ c.name)
  | .argumentCount wanted given =>
    "accepts " ++ toString wanted ++ " arg(s), received " ++ toString given

structure Line where
  command : Command
  parsed : Flags.Parsed
  deriving DecidableEq, Repr

def checkArguments (c : Command) (args : List String) : Except LineError Unit :=
  match c with
  | .init | .version =>
    match args with
    | [] => .ok ()
    | word :: _ => .error (.unexpected word c)
  | .order | .inspect =>
    if args.length = 1 then .ok () else .error (.argumentCount 1 args.length)
  | .compile | .help | .completion => .ok ()

/-- Reads a command line. Without a command, or where help is asked for, the command is `help`. -/
def Line.parse (args : List String) : Except LineError Line :=
  match plainArguments loggingFlags args with
  | [] =>
    match Flags.parse commonFlags args with
    | .error e => .error (.flags e)
    | .ok p => .ok ⟨.help, p⟩
  | word :: _ =>
    match ofName? word with
    | none => .error (.unknownCommand word)
    | some c =>
      match Flags.parse c.flags (dropFirst loggingFlags word args) with
      | .error e => .error (.flags e)
      | .ok p =>
        if p.get? "help" = some (.switch true) then .ok ⟨.help, p⟩
        else match checkArguments c p.arguments with
          | .error e => .error e
          | .ok _ => .ok ⟨c, p⟩

namespace Line

def text? (l : Line) (name : String) : Option String :=
  match l.parsed.get? name with
  | some (.text s) => some s
  | _ => none

def nat? (l : Line) (name : String) : Option Nat :=
  match l.parsed.get? name with
  | some (.uint n) => some n
  | _ => none

def isOn (l : Line) (name : String) : Bool :=
  l.parsed.get? name == some (.switch true)

end Line

end Command

end FormatFuzz
