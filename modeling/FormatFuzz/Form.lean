import FormatFuzz.FileTree
import FormatFuzz.Text.Characters

/-!
# Form fields

Checks of what a user types: names that are not reserved, required texts and lists of schema files.
-/

set_option autoImplicit false

namespace FormatFuzz.Form

inductive Refusal where
  | noName
  | badStart
  | badCharacter
  | reserved (name : String)
  | required (field : String)
  | noSchema
  | notSchema (path : String)
  | directory (path : String)
  | unreadable (path : String) (fault : FileTree.Fault)
  deriving DecidableEq, Repr

def Refusal.message : Refusal → String
  | .noName => "name is required"
  | .badStart => "must start with letter or underscore"
  | .badCharacter => "must contain only letters, numbers, underscores"
  | .reserved name => Text.quoted name ++ " is reserved"
  | .required field => field ++ " is required"
  | .noSchema => "at least one schema is required"
  | .notSchema path => path ++ ": not a .ksy file"
  | .directory path => path ++ " is a directory"
  | .unreadable path fault => "stat " ++ path ++ ": " ++ fault.message

def startsName (c : Char) : Bool :=
  Text.isLetter c || c == '_'

def continuesName (c : Char) : Bool :=
  Text.isLetter c || Text.isDecimalDigit c || c == '_'

def identifier (reserved : List String) (s : String) : Except Refusal Unit :=
  match s.toList with
  | [] => .error .noName
  | c :: cs =>
    if !startsName c then .error .badStart
    else if !cs.all continuesName then .error .badCharacter
    else if s ∈ reserved then .error (.reserved s)
    else .ok ()

def optional (check : String → Except Refusal Unit) (s : String) : Except Refusal Unit :=
  if s = "" then .ok () else check s

def required (field s : String) : Except Refusal Unit :=
  if Text.trim s = "" then .error (.required field) else .ok ()

/-- The parts between commas without blanks around them; empty parts are left out. -/
def splitList (s : String) : List String :=
  ((Text.splitOn s ",").map Text.trim).filter (· ≠ "")

def schemaPath (t : FileTree) (path : String) : Except Refusal Unit :=
  if Path.ext path ≠ ".ksy" then .error (.notSchema path)
  else match t.stat path with
    | .error e => .error (.unreadable path e)
    | .ok .dir => .error (.directory path)
    | .ok (.file _) => .ok ()

def schemaPaths (t : FileTree) (s : String) : Except Refusal Unit :=
  if Text.trim s = "" then .error .noSchema
  else (splitList s).forM (schemaPath t)

end FormatFuzz.Form
