import FormatFuzz.Double.Basic
import FormatFuzz.Double.Shortest
import FormatFuzz.Text.Bytes
import FormatFuzz.Timestamp

/-!
# Values of unknown type

What a schema key without a fixed type can hold. A mapping whose keys are all strings is a `map`,
any other mapping a `table`. Integers lie between `-2 ^ 63` and `2 ^ 64 - 1`.
-/

set_option autoImplicit false

namespace FormatFuzz

inductive Value where
  | null
  | int (v : Int)
  | float (v : Double)
  | bool (b : Bool)
  | str (s : String)
  | time (t : Timestamp)
  | list (xs : List Value)
  | map (entries : List (String × Value))
  | table (entries : List (Value × Value))
  deriving Repr, Inhabited

namespace Value

def isNull : Value → Bool
  | .null => true
  | _ => false

def get? (v : Value) (key : String) : Option Value :=
  match v with
  | .map entries => (entries.find? fun e => e.1 == key).map Prod.snd
  | _ => none

def isCollection : Value → Bool
  | .list _ => true
  | .map _ => true
  | .table _ => true
  | _ => false

/-- Are two values one key of a mapping? They are of one kind and equal, and what is no number
equals nothing. -/
def sameKey : Value → Value → Bool
  | .null, .null => true
  | .int a, .int b => a == b
  | .float a, .float b => !a.isNaN && !b.isNaN && a.rank == b.rank
  | .bool a, .bool b => a == b
  | .str a, .str b => a == b
  | .time a, .time b => a == b
  | _, _ => false

def typeName : Value → String
  | .null => "<nil>"
  | .int v => if v < Word.half then "int" else "uint64"
  | .float _ => "float64"
  | .bool _ => "bool"
  | .str _ => "string"
  | .time _ => "time.Time"
  | .list _ => "[]interface \x7b\x7d"
  | .map _ => "map[string]interface \x7b\x7d"
  | .table _ => "map[interface \x7b\x7d]interface \x7b\x7d"

/-- An entry of a mapping in a message: its key, and the texts of key and value. -/
structure Shown where
  key : Value
  keyText : String
  text : String

def keyRank : Value → Nat
  | .null => 0
  | .bool _ => 1
  | .float _ => 2
  | .int v => if v < Word.half then 3 else 5
  | .str _ => 4
  | .time _ => 6
  | .list _ => 7
  | .map _ => 8
  | .table _ => 9

/-- Keys come by kind. Numbers come by value and after what is no number, times by their fraction
and then by their moment, and other keys of a kind by text. -/
def Shown.before (a b : Shown) : Bool :=
  if a.key.keyRank ≠ b.key.keyRank then a.key.keyRank < b.key.keyRank
  else match a.key, b.key with
    | .int x, .int y => x < y
    | .float x, .float y =>
      if x.isNaN then !y.isNaN else !y.isNaN && x.rank < y.rank
    | .time x, .time y => x.nano < y.nano || (x.nano == y.nano && x.seconds < y.seconds)
    | _, _ => a.keyText < b.keyText

def insertShown (e : Shown) : List Shown → List Shown
  | [] => [e]
  | q :: qs => if e.before q then e :: q :: qs else q :: insertShown e qs

def shownText (es : List Shown) : String :=
  let sorted := es.foldl (fun acc e => insertShown e acc) []
  "map[" ++ Text.join " " (sorted.map fun e => e.keyText ++ ":" ++ e.text) ++ "]"

mutual

/-- The text of a value inside a message: mappings by sorted key, parts separated by blanks. -/
def display : Value → String
  | .null => "<nil>"
  | .int v => toString v
  | .float x => x.render .display
  | .bool b => if b then "true" else "false"
  | .str s => s
  | .time t => t.display
  | .list xs => "[" ++ Text.join " " (displays xs) ++ "]"
  | .map es => shownText (displayEntries es)
  | .table es => shownText (displayPairs es)

def displays : List Value → List String
  | [] => []
  | x :: xs => x.display :: displays xs

def displayEntries : List (String × Value) → List Shown
  | [] => []
  | (k, v) :: es => ⟨.str k, k, v.display⟩ :: displayEntries es

def displayPairs : List (Value × Value) → List Shown
  | [] => []
  | (k, v) :: es => ⟨k, k.display, v.display⟩ :: displayPairs es

end

end Value

end FormatFuzz
