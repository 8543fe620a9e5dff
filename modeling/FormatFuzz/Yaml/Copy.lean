import FormatFuzz.Yaml.Printer
import FormatFuzz.Yaml.Reader

/-!
# Copies of nodes

A node is copied by writing it and reading the text. Most nodes come back as they are and need not
be written for that: nested collections of words, of plain text on one line, and of strings between
double quotes that nothing is escaped in.
-/

set_option autoImplicit false

namespace FormatFuzz.Yaml

/-- How much deeper each level of a copied node stands. -/
def copyStep : Nat := 4

def isSmoothScalar (style : Style) (text : String) : Bool :=
  let cs := text.toList
  match style with
  | .plain => !cs.isEmpty && allowsPlain cs && text ≠ mergeText
  | .double => cs.all fun c => isBare c && !isGap c
  | _ => false

namespace Node

def isSmoothKey : Node → Bool
  | .scalar l .plain t =>
    l == 0 && isSimpleKey (.scalar l .plain t) && isSmoothScalar .plain t && !t.toList.any isGap
  | _ => false

mutual

def isSmooth : Node → Bool
  | .scalar l style t => l == 0 && isSmoothScalar style t
  | .seq l xs => l == 0 && areSmooth xs
  | .map l es => l == 0 && haveSmooth es

def areSmooth : List Node → Bool
  | [] => true
  | x :: xs => isSmooth x && areSmooth xs

def haveSmooth : List (Node × Node) → Bool
  | [] => true
  | (k, v) :: es => isSmoothKey k && isSmooth v && haveSmooth es

end

/-- Is a node sure to come back as it is? -/
def isSteady (n : Node) : Bool :=
  n.isSmooth && n.depth ≤ Token.Scan.depthLimit

/-- The node that the text of a node denotes. -/
def reread (n : Node) : Except Token.Malformed Node :=
  match document? (n.chars copyStep) with
  | .ok (some m) => .ok m.unplaced
  | .ok none => .ok (.scalar 0 .plain "")
  | .error e => .error e

/-- A node written and read back. -/
def copy (n : Node) : Except Token.Malformed Node :=
  if n.isSteady then .ok n else n.reread

end Node

end FormatFuzz.Yaml
