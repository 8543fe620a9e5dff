import FormatFuzz.Text.Characters

/-!
# Log lines

A record has a level, a message and attributes. It is one line, as `key=value` pairs or as an
object. A logger drops records below its level and puts its own attributes before theirs.
-/

set_option autoImplicit false

namespace FormatFuzz.Log

inductive Level where
  | debug
  | info
  | warn
  | error
  deriving DecidableEq, Repr

def Level.ofName? : String → Option Level
  | "debug" => some .debug
  | "info" => some .info
  | "warn" => some .warn
  | "error" => some .error
  | _ => none

def Level.text : Level → String
  | .debug => "DEBUG"
  | .info => "INFO"
  | .warn => "WARN"
  | .error => "ERROR"

def Level.rank : Level → Nat
  | .debug => 0
  | .info => 1
  | .warn => 2
  | .error => 3

inductive Format where
  | text
  | json
  deriving DecidableEq, Repr

def Format.ofName? : String → Option Format
  | "text" => some .text
  | "json" => some .json
  | _ => none

inductive Attribute where
  | text (s : String)
  | texts (ss : List String)
  | count (n : Nat)
  deriving DecidableEq, Repr

structure Record where
  level : Level
  message : String
  attributes : List (String × Attribute)
  deriving DecidableEq, Repr

/-- Characters that a bare value may hold. The replacement character is not among them. -/
def isBare (c : Char) : Bool :=
  if c.toNat < 0x80 then 0x20 < c.toNat && c != '=' && c != '"'
  else c != '\ufffd' && Text.isPrintable c && !Text.isBlank c

def bareOrQuoted (s : String) : String :=
  if s ≠ "" && s.toList.all isBare then s else Text.quoted s

def Attribute.pairText : Attribute → String
  | .text s => bareOrQuoted s
  | .texts ss => bareOrQuoted ("[" ++ Text.join " " ss ++ "]")
  | .count n => toString n

def jsonEscape (c : Char) : List Char :=
  if c = '"' || c = '\\' then ['\\', c]
  else if c = '\x08' then ['\\', 'b']
  else if c = '\x0c' then ['\\', 'f']
  else if c = '\n' then ['\\', 'n']
  else if c = '\r' then ['\\', 'r']
  else if c = '\t' then ['\\', 't']
  else if c.toNat < 0x20 || c = '\u2028' || c = '\u2029' then
    '\\' :: 'u' :: Text.hexFixed 4 c.toNat
  else [c]

def jsonText (s : String) : String :=
  String.ofList ('"' :: s.toList.flatMap jsonEscape ++ ['"'])

def Attribute.json : Attribute → String
  | .text s => jsonText s
  | .texts ss => "[" ++ Text.join "," (ss.map jsonText) ++ "]"
  | .count n => toString n

def Record.line (r : Record) : Format → String
  | .text =>
    Text.join " " (["level=" ++ r.level.text, "msg=" ++ bareOrQuoted r.message]
      ++ r.attributes.map fun a => a.1 ++ "=" ++ a.2.pairText)
  | .json =>
    let pairs := [("level", Attribute.text r.level.text), ("msg", .text r.message)] ++ r.attributes
    "\x7b" ++ Text.join "," (pairs.map fun a => jsonText a.1 ++ ":" ++ a.2.json) ++ "\x7d"

structure Logger where
  level : Level
  format : Format
  attributes : List (String × Attribute)
  deriving DecidableEq, Repr

namespace Logger

def add (l : Logger) (key value : String) : Logger :=
  { l with attributes := l.attributes ++ [(key, .text value)] }

def write (l : Logger) (r : Record) : String :=
  if r.level.rank < l.level.rank then ""
  else { r with attributes := l.attributes ++ r.attributes : Record }.line l.format ++ "\n"

end Logger

end FormatFuzz.Log
