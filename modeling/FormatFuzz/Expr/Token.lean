import FormatFuzz.Text.Bytes
import FormatFuzz.Text.Characters

/-!
# Tokens of the expression language

Expressions are read byte by byte, and positions count bytes. `scan` cuts a byte string into
tokens; between tokens only space, tab, carriage return and line feed may stand. The length of a
token is found first and its bytes are then stepped over, so `scan` recurses on the byte string.
-/

set_option autoImplicit false

namespace FormatFuzz

inductive Symbol where
  | scope
  | shl
  | shr
  | le
  | ge
  | eq
  | ne
  | and
  | or
  | plus
  | minus
  | star
  | slash
  | percent
  | amp
  | bar
  | caret
  | tilde
  | bang
  | lt
  | gt
  | question
  | colon
  | lparen
  | rparen
  | lbracket
  | rbracket
  | dot
  | comma
  deriving DecidableEq, Repr

namespace Symbol

def text : Symbol → String
  | scope => "::"
  | shl => "<<"
  | shr => ">>"
  | le => "<="
  | ge => ">="
  | eq => "=="
  | ne => "!="
  | and => "&&"
  | or => "||"
  | plus => "+"
  | minus => "-"
  | star => "*"
  | slash => "/"
  | percent => "%"
  | amp => "&"
  | bar => "|"
  | caret => "^"
  | tilde => "~"
  | bang => "!"
  | lt => "<"
  | gt => ">"
  | question => "?"
  | colon => ":"
  | lparen => "("
  | rparen => ")"
  | lbracket => "["
  | rbracket => "]"
  | dot => "."
  | comma => ","

def bytes (s : Symbol) : List UInt8 :=
  Text.utf8 s.text

def all : List Symbol :=
  [scope, shl, shr, le, ge, eq, ne, and, or, plus, minus, star, slash, percent, amp, bar, caret,
    tilde, bang, lt, gt, question, colon, lparen, rparen, lbracket, rbracket, dot, comma]

end Symbol

/-- What a token is. Texts are the token's bytes, the value of a string is its content with
escapes resolved. -/
inductive Lexeme where
  | int (text : List UInt8)
  | float (text : List UInt8)
  | str (value : List UInt8)
  | word (text : List UInt8)
  | symbol (s : Symbol)
  deriving DecidableEq, Repr

def Lexeme.text : Lexeme → String
  | .int t => Text.ofAscii t
  | .float t => Text.ofAscii t
  | .str v => Text.ofUtf8 v
  | .word t => Text.ofAscii t
  | .symbol s => s.text

/-- A lexeme and the bytes it takes: from `start` up to, not including, `stop`. -/
structure Token where
  lexeme : Lexeme
  start : Nat
  stop : Nat
  deriving DecidableEq, Repr

namespace Token

def byte (c : Char) : UInt8 := UInt8.ofNat c.toNat

def isSpace (b : UInt8) : Bool :=
  b == 32 || b == 9 || b == 10 || b == 13

def isDigit (b : UInt8) : Bool :=
  48 ≤ b && b ≤ 57

def isHexDigit (b : UInt8) : Bool :=
  isDigit b || (97 ≤ b && b ≤ 102) || (65 ≤ b && b ≤ 70)

def isWordStart (b : UInt8) : Bool :=
  b == 95 || (97 ≤ b && b ≤ 122) || (65 ≤ b && b ≤ 90)

def isWordPart (b : UInt8) : Bool :=
  isWordStart b || isDigit b

def isNumberPart (b : UInt8) : Bool :=
  isDigit b || b == 95

def isBaseMark (b : UInt8) : Bool :=
  b == 120 || b == 88 || b == 98 || b == 66 || b == 111 || b == 79

def fractionLength : List UInt8 → Nat
  | p :: d :: rest =>
    if p == 46 && isDigit d then 1 + ((d :: rest).takeWhile isNumberPart).length else 0
  | _ => 0

/-- Length of an exponent: a mark, an optional sign, digits; none without a digit. -/
def exponentLength : List UInt8 → Nat
  | e :: rest =>
    if e == 101 || e == 69 then
      let s := match rest with
        | c :: _ => if c == 43 || c == 45 then 1 else 0
        | [] => 0
      let ds := (rest.drop s).takeWhile isDigit
      if ds.isEmpty then 0 else 1 + s + ds.length
    else 0
  | [] => 0

def decimalLength (bs : List UInt8) : Bool × Nat :=
  let whole := (bs.takeWhile isNumberPart).length
  let fraction := fractionLength (bs.drop whole)
  let expo := exponentLength (bs.drop (whole + fraction))
  (fraction != 0 || expo != 0, whole + fraction + expo)

def numberLength : List UInt8 → Bool × Nat
  | z :: m :: rest =>
    if z == 48 && isBaseMark m then
      (false, 2 + (rest.takeWhile fun b => isHexDigit b || b == 95).length)
    else decimalLength (z :: m :: rest)
  | bs => decimalLength bs

def unescape (e : UInt8) : UInt8 :=
  if e == 110 then 10 else if e == 116 then 9 else if e == 114 then 13 else if e == 48 then 0 else e

/-- Content of a string up to its closing quote, and how many bytes that took. A backslash is an
escape between double quotes only. -/
def stringBody (quote : UInt8) : List UInt8 → Option (List UInt8 × Nat)
  | [] => none
  | [c] => if c == quote then some ([], 1) else none
  | c :: e :: rest =>
    if c == quote then some ([], 1)
    else if c == 92 && quote == 34 then
      (stringBody quote rest).map fun r => (unescape e :: r.1, r.2 + 2)
    else (stringBody quote (e :: rest)).map fun r => (c :: r.1, r.2 + 1)

inductive Fault where
  | character (b : UInt8)
  | unterminated
  deriving DecidableEq, Repr

/-- The lexeme at the front of a byte string that does not start with a space, and its length. -/
def munch (b : UInt8) (rest : List UInt8) : Except Fault (Lexeme × Nat) :=
  if isDigit b then
    let (float, n) := numberLength (b :: rest)
    let t := (b :: rest).take n
    .ok (if float then .float t else .int t, n)
  else if isWordStart b then
    let t := b :: rest.takeWhile isWordPart
    .ok (.word t, t.length)
  else if b == 34 || b == 39 then
    match stringBody b rest with
    | some (v, n) => .ok (.str v, n + 1)
    | none => .error .unterminated
  else
    match Symbol.all.find? fun s => s.bytes.isPrefixOf (b :: rest) with
    | some s => .ok (.symbol s, s.bytes.length)
    | none => .error (.character b)

/-- Scans from position `pos`; the first `skip` bytes belong to the token before. -/
def scanFrom (pos : Nat) : Nat → List UInt8 → Except (Nat × Fault) (List Token)
  | _, [] => .ok []
  | skip + 1, _ :: rest => scanFrom (pos + 1) skip rest
  | 0, b :: rest =>
    if isSpace b then scanFrom (pos + 1) 0 rest
    else match munch b rest with
      | .error f => .error (pos, f)
      | .ok (l, n) => (scanFrom (pos + 1) (n - 1) rest).map (⟨l, pos, pos + n⟩ :: ·)

/-- The tokens of a byte string, or the first fault and its position. -/
def scan (bs : List UInt8) : Except (Nat × Fault) (List Token) :=
  scanFrom 0 0 bs

end Token

end FormatFuzz
