import FormatFuzz.Yaml.Scalar

/-!
# Nodes of a YAML document

Scalars, sequences and mappings with the line on which each begins, counted from one; nodes that
were built and not read have line zero.
-/

set_option autoImplicit false

namespace FormatFuzz.Yaml

/-- How a scalar is to be understood and written: by its spelling, as a string in one form, or under
an explicit tag. -/
inductive Style where
  | plain
  | single
  | double
  | literal
  | tagged (tag : String)
  deriving DecidableEq, Repr

def Form.style : Form → Style
  | .plain => .plain
  | .single => .single
  | .double => .double
  | .literal => .literal

/-- The key whose value is merged into the mapping around it, and the tag that tells it from the
string. -/
def mergeText : String := "<<"
def mergeTag : String := "!!merge"

inductive Node where
  | scalar (line : Nat) (style : Style) (text : String)
  | seq (line : Nat) (items : List Node)
  | map (line : Nat) (entries : List (Node × Node))
  deriving Repr, Inhabited

namespace Node

def line : Node → Nat
  | .scalar l _ _ => l
  | .seq l _ => l
  | .map l _ => l

def text : Node → String
  | .scalar _ _ t => t
  | _ => ""

def isScalar : Node → Bool
  | .scalar .. => true
  | _ => false

def sameKey (a b : Node) : Bool :=
  (match a, b with
    | .scalar .., .scalar .. => true
    | .seq .., .seq .. => true
    | .map .., .map .. => true
    | _, _ => false) && a.text == b.text

/-- The value of a scalar by its style. The numeral of an integer may stand for a float. -/
def scalarValue (style : Style) (text : String) : Value :=
  match style with
  | .plain => plainValue text
  | .tagged tag =>
    match plainValue text with
    | .int i => if tag == "!!str" then .str text
      else if tag == "!!float" then .float (.ofInt i) else .int i
    | v => if tag == "!!str" then .str text else v
  | _ => .str text

def isNull : Node → Bool
  | .scalar _ .plain t => (plainValue t).isNull
  | _ => false

def isString : Node → Bool
  | .scalar _ style t =>
    match style with
    | .plain => match plainValue t with
      | .str _ => true
      | _ => false
    | .tagged tag => tag == "!!str"
    | _ => true
  | _ => false

def isMerge : Node → Bool
  | .scalar _ (.tagged tag) t => tag == mergeTag && t == mergeText
  | _ => false

def isMap : Node → Bool
  | .map .. => true
  | _ => false

mutual

def unplaced : Node → Node
  | .scalar _ style t => .scalar 0 style t
  | .seq _ xs => .seq 0 (unplacedItems xs)
  | .map _ es => .map 0 (unplacedEntries es)

def unplacedItems : List Node → List Node
  | [] => []
  | x :: xs => x.unplaced :: unplacedItems xs

def unplacedEntries : List (Node × Node) → List (Node × Node)
  | [] => []
  | (k, v) :: es => (k.unplaced, v.unplaced) :: unplacedEntries es

end

mutual

def depth : Node → Nat
  | .scalar .. => 1
  | .seq _ xs => depthItems xs + 1
  | .map _ es => depthEntries es + 1

def depthItems : List Node → Nat
  | [] => 0
  | x :: xs => max x.depth (depthItems xs)

def depthEntries : List (Node × Node) → Nat
  | [] => 0
  | (k, v) :: es => max (max k.depth v.depth) (depthEntries es)

end

def hasClash : List (Node × Node) → Bool
  | [] => false
  | (k, _) :: es => es.any (fun e => e.1.sameKey k) || hasClash es

end Node

end FormatFuzz.Yaml
