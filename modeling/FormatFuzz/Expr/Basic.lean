import FormatFuzz.Double.Basic
import FormatFuzz.Double.Shortest
import FormatFuzz.Keyed
import FormatFuzz.Text.Characters

/-!
# Expression trees

The trees of the schema expression language, their text and their names. Names that begin with an
underscore and have a meaning of their own are ordinary names of a tree; `Expr.reserved` lists them.
An attribute is not a name: `hdr.len` mentions `hdr` only.

In the text every binary and conditional node is written in parentheses, so a text has one reading.
A tree with an empty place has no text: what is printed where one is asked for tells that there is
none.
-/

set_option autoImplicit false

namespace FormatFuzz

inductive UnaryOp where
  | neg
  | compl
  | not
  deriving DecidableEq, Repr

inductive BinaryOp where
  | or
  | and
  | eq
  | ne
  | lt
  | le
  | gt
  | ge
  | bitOr
  | bitXor
  | bitAnd
  | shl
  | shr
  | add
  | sub
  | mul
  | div
  | mod
  deriving DecidableEq, Repr

def UnaryOp.text : UnaryOp → String
  | .neg => "-"
  | .compl => "~"
  | .not => "!"

def BinaryOp.text : BinaryOp → String
  | .or => "||"
  | .and => "&&"
  | .eq => "=="
  | .ne => "!="
  | .lt => "<"
  | .le => "<="
  | .gt => ">"
  | .ge => ">="
  | .bitOr => "|"
  | .bitXor => "^"
  | .bitAnd => "&"
  | .shl => "<<"
  | .shr => ">>"
  | .add => "+"
  | .sub => "-"
  | .mul => "*"
  | .div => "/"
  | .mod => "%"

/-- An expression. `member` is a name reached through `::`, its path all segments but the last.
`absent` holds the place of a null inside a list of values; no text denotes it. -/
inductive Expr where
  | int (v : Int)
  | float (v : Double)
  | str (s : String)
  | bool (b : Bool)
  | name (id : String)
  | member (path : List String) (id : String)
  | unary (op : UnaryOp) (x : Expr)
  | binary (op : BinaryOp) (x y : Expr)
  | cond (c a b : Expr)
  | attr (x : Expr) (id : String)
  | index (x i : Expr)
  | list (xs : List Expr)
  | absent
  deriving Repr, Inhabited

namespace Expr

def root : String := "_root"
def parent : String := "_parent"
def stream : String := "_io"
def current : String := "_"
def repeatIndex : String := "_index"

def reserved : List String := [root, parent, stream, current, repeatIndex]

def isReserved (id : String) : Bool :=
  reserved.contains id

mutual

def subterms : Expr → List Expr
  | .unary op x => .unary op x :: x.subterms
  | .binary op x y => .binary op x y :: (x.subterms ++ y.subterms)
  | .cond c a b => .cond c a b :: (c.subterms ++ a.subterms ++ b.subterms)
  | .attr x id => .attr x id :: x.subterms
  | .index x i => .index x i :: (x.subterms ++ i.subterms)
  | .list xs => .list xs :: listSubterms xs
  | .absent => []
  | e => [e]

def listSubterms : List Expr → List Expr
  | [] => []
  | x :: xs => x.subterms ++ listSubterms xs

end

mutual

def complete : Expr → Bool
  | .unary _ x => x.complete
  | .binary _ x y => x.complete && y.complete
  | .cond c a b => c.complete && a.complete && b.complete
  | .attr x _ => x.complete
  | .index x i => x.complete && i.complete
  | .list xs => listComplete xs
  | .absent => false
  | _ => true

def listComplete : List Expr → Bool
  | [] => true
  | x :: xs => x.complete && listComplete xs

end

end Expr

end FormatFuzz

namespace FormatFuzz.Expr

mutual

def text : Expr → String
  | .int v => toString v
  | .float v => v.render .general
  | .str s => Text.quoted s
  | .bool b => if b then "true" else "false"
  | .name id => id
  | .member path id => Text.join "::" (path ++ [id])
  | .unary op x => op.text ++ x.text
  | .binary op x y => "(" ++ x.text ++ " " ++ op.text ++ " " ++ y.text ++ ")"
  | .cond c a b => "(" ++ c.text ++ " ? " ++ a.text ++ " : " ++ b.text ++ ")"
  | .attr x id => x.text ++ "." ++ id
  | .index x i => x.text ++ "[" ++ i.text ++ "]"
  | .list xs => "[" ++ Text.join ", " (texts xs) ++ "]"
  | .absent => ""

def texts : List Expr → List String
  | [] => []
  | x :: xs => x.text :: texts xs

end

def printed (e : Expr) : String :=
  if e.complete then e.text
  else match e with
    | .absent => "%!s(<nil>)"
    | _ => "%!s(PANIC=String method: runtime error: "
        ++ "invalid memory address or nil pointer dereference)"

def name? : Expr → Option String
  | .name id => some id
  | _ => none

def names (e : Expr) : List String :=
  e.subterms.filterMap name?

/-- The distinct names that are not reserved, in order of first appearance. -/
def refs (e : Expr) : List String :=
  distinct (e.names.filter fun id => !isReserved id)

def mentions (e : Expr) (id : String) : Bool :=
  e.names.contains id

/-- Does the tree consist of literals and enum members only? -/
def isConst (e : Expr) : Bool :=
  e.names.isEmpty

def usesReserved (e : Expr) : Bool :=
  e.names.any isReserved

def attributesOf (id : String) (e : Expr) : List String :=
  e.subterms.filterMap fun
    | .attr (.name n) a => if n = id then some a else none
    | _ => none

end FormatFuzz.Expr
