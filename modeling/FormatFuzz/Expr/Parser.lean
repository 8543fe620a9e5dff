import FormatFuzz.Expr.Basic
import FormatFuzz.Expr.Token
import FormatFuzz.Numeral
import FormatFuzz.Value

/-!
# Reading expressions

A conditional holds chains of nine ranks of binary operators, each rank binding tighter than the
one before. `not` stands between the logical ranks and the comparisons, the signs below the
products, then attributes, indices and primaries. A minus before an integer literal belongs to the
literal.

The readers recurse on a count of steps. `parse` starts them with thirty-two steps per token and
thirty-two more; no path takes that many between two tokens.

A key that takes an expression may hold a number or a truth value, which are literals, a string,
which is read as an expression, or a list of such values.
-/

set_option autoImplicit false

namespace FormatFuzz

namespace Expr

inductive Fault where
  | token (f : Token.Fault)
  | badInteger (text : String)
  | badFloat (text : String)
  | loneQuestion
  | loneColon
  | strayQuestion
  | noAttribute
  | noSegment
  | noBracket
  | noParenthesis
  | noSeparator
  | ended
  | unexpected (text : String)
  deriving DecidableEq, Repr

def Fault.message : Fault → String
  | .token (.character b) => "unexpected character " ++ Text.quotedChar (Char.ofNat b.toNat)
  | .token .unterminated => "unterminated string literal"
  | .badInteger t => "invalid integer " ++ Text.quoted t
  | .badFloat t => "invalid float " ++ Text.quoted t
  | .loneQuestion => "'?' without matching ':'"
  | .loneColon => "':' without matching '?'"
  | .strayQuestion => "unexpected '?'"
  | .noAttribute => "expected attribute name after '.'"
  | .noSegment => "expected name after '::'"
  | .noBracket => "expected ']'"
  | .noParenthesis => "expected ')'"
  | .noSeparator => "expected ',' or ']'"
  | .ended => "unexpected end of expression"
  | .unexpected t => "unexpected " ++ Text.quoted t

/-- A text that is no expression: what is wrong, and at which byte. -/
structure Malformed where
  source : String
  pos : Nat
  fault : Fault
  deriving DecidableEq, Repr

def Malformed.message (m : Malformed) : String :=
  m.fault.message ++ " at offset " ++ toString m.pos ++ " in " ++ Text.quoted m.source

inductive Rank where
  | disjunction
  | conjunction
  | comparison
  | bitOr
  | bitXor
  | bitAnd
  | shift
  | sum
  | product
  deriving DecidableEq, Repr

def isWord (w : String) : Lexeme → Bool
  | .word t => t == Text.utf8 w
  | _ => false

def Rank.op? (r : Rank) (l : Lexeme) : Option BinaryOp :=
  match r, l with
  | .disjunction, .symbol .or => some .or
  | .disjunction, .word t => if t == Text.utf8 "or" then some .or else none
  | .conjunction, .symbol .and => some .and
  | .conjunction, .word t => if t == Text.utf8 "and" then some .and else none
  | .comparison, .symbol .eq => some .eq
  | .comparison, .symbol .ne => some .ne
  | .comparison, .symbol .lt => some .lt
  | .comparison, .symbol .le => some .le
  | .comparison, .symbol .gt => some .gt
  | .comparison, .symbol .ge => some .ge
  | .bitOr, .symbol .bar => some .bitOr
  | .bitXor, .symbol .caret => some .bitXor
  | .bitAnd, .symbol .amp => some .bitAnd
  | .shift, .symbol .shl => some .shl
  | .shift, .symbol .shr => some .shr
  | .sum, .symbol .plus => some .add
  | .sum, .symbol .minus => some .sub
  | .product, .symbol .star => some .mul
  | .product, .symbol .slash => some .div
  | .product, .symbol .percent => some .mod
  | _, _ => none

def sign? : Lexeme → Option UnaryOp
  | .symbol .minus => some .neg
  | .symbol .tilde => some .compl
  | .symbol .bang => some .not
  | _ => none

/-- A sign before an operand; a minus before an integer literal changes the literal. -/
def signed (op : UnaryOp) (x : Expr) : Expr :=
  match op, x with
  | .neg, .int v => .int (-v)
  | op, x => .unary op x

abbrev Stop := Nat × Fault

abbrev Read := Except Stop (Expr × List Token)

def next (stop : Nat) : List Token → Nat
  | [] => stop
  | t :: _ => t.start

def segments (stop : Nat) : List Token → Except Stop (List String × List Token)
  | ⟨.symbol .scope, _, _⟩ :: t :: rest =>
    match t.lexeme with
    | .word w => (segments stop rest).map fun r => (Text.ofAscii w :: r.1, r.2)
    | _ => .error (t.start, .noSegment)
  | [⟨.symbol .scope, _, _⟩] => .error (stop, .noSegment)
  | ts => .ok ([], ts)

def word (stop : Nat) (w : String) (ts : List Token) : Read :=
  if w = "true" then .ok (.bool true, ts)
  else if w = "false" then .ok (.bool false, ts)
  else match segments stop ts with
    | .error e => .error e
    | .ok ([], rest) => .ok (.name w, rest)
    | .ok (s :: ss, rest) =>
      let path := w :: s :: ss
      .ok (.member path.dropLast (path.getLast?.getD ""), rest)

mutual

def conditional (stop : Nat) : Nat → List Token → Read
  | 0, _ => .error (stop, .ended)
  | n + 1, ts => do
    let (c, ts) ← chain stop n .disjunction ts
    match ts with
    | ⟨.symbol .question, q, _⟩ :: rest =>
      let (a, ts) ← conditional stop n rest
      match ts with
      | ⟨.symbol .colon, _, _⟩ :: rest =>
        let (b, ts) ← conditional stop n rest
        .ok (.cond c a b, ts)
      | _ => .error (q, .loneQuestion)
    | _ => .ok (c, ts)

def chain (stop : Nat) : Nat → Rank → List Token → Read
  | 0, _, _ => .error (stop, .ended)
  | n + 1, r, ts => do
    let (x, ts) ← operand stop n r ts
    more stop n r x ts

def more (stop : Nat) : Nat → Rank → Expr → List Token → Read
  | 0, _, _, _ => .error (stop, .ended)
  | n + 1, r, x, ts =>
    match ts with
    | [] => .ok (x, [])
    | t :: rest =>
      match r.op? t.lexeme with
      | none => .ok (x, t :: rest)
      | some op => do
        let (y, ts) ← operand stop n r rest
        more stop n r (.binary op x y) ts

def operand (stop : Nat) : Nat → Rank → List Token → Read
  | 0, _, _ => .error (stop, .ended)
  | n + 1, r, ts =>
    match r with
    | .disjunction => chain stop n .conjunction ts
    | .conjunction => negation stop n ts
    | .comparison => chain stop n .bitOr ts
    | .bitOr => chain stop n .bitXor ts
    | .bitXor => chain stop n .bitAnd ts
    | .bitAnd => chain stop n .shift ts
    | .shift => chain stop n .sum ts
    | .sum => chain stop n .product ts
    | .product => prefixed stop n ts

def negation (stop : Nat) : Nat → List Token → Read
  | 0, _ => .error (stop, .ended)
  | n + 1, ts =>
    match ts with
    | t :: rest =>
      if isWord "not" t.lexeme then do
        let (x, ts) ← negation stop n rest
        .ok (.unary .not x, ts)
      else chain stop n .comparison (t :: rest)
    | [] => chain stop n .comparison []

def prefixed (stop : Nat) : Nat → List Token → Read
  | 0, _ => .error (stop, .ended)
  | n + 1, ts =>
    match ts with
    | t :: rest =>
      match sign? t.lexeme with
      | some op => do
        let (x, ts) ← prefixed stop n rest
        .ok (signed op x, ts)
      | none => do
        let (x, ts) ← primary stop n (t :: rest)
        trail stop n x ts
    | [] => .error (stop, .ended)

def trail (stop : Nat) : Nat → Expr → List Token → Read
  | 0, _, _ => .error (stop, .ended)
  | n + 1, x, ts =>
    match ts with
    | ⟨.symbol .dot, _, _⟩ :: t :: rest =>
      match t.lexeme with
      | .word w => trail stop n (.attr x (Text.ofAscii w)) rest
      | _ => .error (t.start, .noAttribute)
    | [⟨.symbol .dot, _, _⟩] => .error (stop, .noAttribute)
    | ⟨.symbol .lbracket, _, _⟩ :: rest => do
      let (i, ts) ← conditional stop n rest
      match ts with
      | ⟨.symbol .rbracket, _, _⟩ :: rest => trail stop n (.index x i) rest
      | ts => .error (next stop ts, .noBracket)
    | ts => .ok (x, ts)

def primary (stop : Nat) : Nat → List Token → Read
  | 0, _ => .error (stop, .ended)
  | n + 1, ts =>
    match ts with
    | [] => .error (stop, .ended)
    | t :: rest =>
      match t.lexeme with
      | .int s =>
        match Numeral.integer? (Text.ofAscii s).toList with
        | some v => .ok (.int v, rest)
        | none => .error (t.start, .badInteger (Text.ofAscii s))
      | .float s =>
        match Numeral.double ((Text.ofAscii s).toList.filter (· != '_')) with
        | .ok v => .ok (.float v, rest)
        | .error _ => .error (t.start, .badFloat (Text.ofAscii s))
      | .str v => .ok (.str (Text.ofUtf8 v), rest)
      | .word w =>
        if Text.ofAscii w ∈ ["and", "or", "not"] then
          .error (t.start, .unexpected (Text.ofAscii w))
        else word stop (Text.ofAscii w) rest
      | .symbol .lparen => do
        let (x, ts) ← conditional stop n rest
        match ts with
        | ⟨.symbol .rparen, _, _⟩ :: rest => .ok (x, rest)
        | ts => .error (next stop ts, .noParenthesis)
      | .symbol .lbracket =>
        match rest with
        | ⟨.symbol .rbracket, _, _⟩ :: rest => .ok (.list [], rest)
        | rest => items stop n [] rest
      | .symbol .question => .error (t.start, .strayQuestion)
      | .symbol .colon => .error (t.start, .loneColon)
      | .symbol s => .error (t.start, .unexpected s.text)

/-- The elements of a list up to its closing bracket; `done` holds the ones read, last first. -/
def items (stop : Nat) : Nat → List Expr → List Token → Read
  | 0, _, _ => .error (stop, .ended)
  | n + 1, done, ts => do
    let (x, ts) ← conditional stop n ts
    match ts with
    | ⟨.symbol .comma, _, _⟩ :: rest => items stop n (x :: done) rest
    | ⟨.symbol .rbracket, _, _⟩ :: rest => .ok (.list (x :: done).reverse, rest)
    | ts => .error (next stop ts, .noSeparator)

end

def trailing (l : Lexeme) : Fault :=
  if l.text = ":" then .loneColon
  else if l.text = "?" then .strayQuestion
  else .unexpected l.text

def ofTokens (stop : Nat) (ts : List Token) : Except Stop Expr :=
  match conditional stop (32 * (ts.length + 1)) ts with
  | .error e => .error e
  | .ok (x, []) => .ok x
  | .ok (_, t :: _) => .error (t.start, trailing t.lexeme)

def ofBytes (bs : List UInt8) : Except Stop Expr :=
  match Token.scan bs with
  | .error (pos, f) => .error (pos, .token f)
  | .ok ts => ofTokens bs.length ts

def parse (src : String) : Except Malformed Expr :=
  match ofBytes (Text.utf8 src) with
  | .ok x => .ok x
  | .error (pos, f) => .error ⟨src, pos, f⟩

end Expr

end FormatFuzz

namespace FormatFuzz.Expr

inductive Error where
  | malformed (m : Malformed)
  | unsupported (v : Value)
  deriving Repr

def Error.message : Error → String
  | .malformed m => m.message
  | .unsupported v =>
    "expression syntax error: unsupported value " ++ v.display ++ " (" ++ v.typeName ++ ")"

mutual

def ofValue : Value → Except Error (Option Expr)
  | .null => .ok none
  | .int v => .ok (some (.int v))
  | .float v => .ok (some (.float v))
  | .bool b => .ok (some (.bool b))
  | .str s =>
    match parse s with
    | .ok x => .ok (some x)
    | .error m => .error (.malformed m)
  | .list xs =>
    match ofValues xs with
    | .ok es => .ok (some (.list es))
    | .error e => .error e
  | .time t => .error (.unsupported (.time t))
  | .map es => .error (.unsupported (.map es))
  | .table es => .error (.unsupported (.table es))

/-- The expressions of a list of values; a null leaves its place empty. -/
def ofValues : List Value → Except Error (List Expr)
  | [] => .ok []
  | x :: xs =>
    match ofValue x with
    | .error e => .error e
    | .ok e =>
      match ofValues xs with
      | .error e => .error e
      | .ok es => .ok (e.getD .absent :: es)

end

end FormatFuzz.Expr
