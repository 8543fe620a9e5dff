import FormatFuzz.Program.Method
import FormatFuzz.Text.Characters

/-!
# Tokens of generated programs

A line of a program is a list of tokens: names, numbers, strings, operators, and a comment that
reaches to the end of the line. With each token goes what stands before it.
-/

set_option autoImplicit false

namespace FormatFuzz.Program

/-- What stands before a token: nothing, a blank, or the beginning of a column. -/
inductive Gap where
  | none
  | blank
  | column
  deriving DecidableEq, Repr

structure Piece where
  gap : Gap
  token : String
  deriving DecidableEq, Repr

abbrev TokenLine := List Piece

def longOperators : List String :=
  ["<<=", ">>=", "&^=", "...", "&&", "||", "<-", "++", "--", "==", "<=", ">=", "!=", ":=", "+=",
    "-=", "*=", "/=", "%=", "&=", "|=", "^=", "<<", ">>", "&^"]

def isNameStart (c : Char) : Bool :=
  Text.isLetter c || c == '_'

def isNamePart (c : Char) : Bool :=
  isNameStart c || Text.isDecimalDigit c

/-- How many characters of a string literal follow its opening quote, with the closing one. -/
def stringLength : List Char → Option Nat
  | [] => none
  | '\\' :: _ :: cs => (stringLength cs).map (· + 2)
  | c :: cs => if c = '"' then some 1 else (stringLength cs).map (· + 1)

/-- How many characters of a number follow; `exponent` says that a sign may come next. -/
def numberLength (hex exponent : Bool) : List Char → Nat
  | [] => 0
  | c :: cs =>
    if c.isAlphanum || c == '.' || c == '_' then
      1 + numberLength hex (!hex && (c == 'e' || c == 'E')) cs
    else if exponent && (c == '+' || c == '-') then 1 + numberLength hex false cs
    else 0

def isHexNumber : List Char → Bool
  | '0' :: 'x' :: _ => true
  | '0' :: 'X' :: _ => true
  | _ => false

def tokenLength (c : Char) (cs : List Char) : Option Nat :=
  if isNameStart c then some (1 + (cs.takeWhile isNamePart).length)
  else if c.isDigit then some (numberLength (isHexNumber (c :: cs)) false (c :: cs))
  else if c = '"' then (stringLength cs).map (· + 1)
  else if c = '/' && cs.head? == some '/' then some (1 + cs.length)
  else match longOperators.find? fun op => op.toList.isPrefixOf (c :: cs) with
    | some op => some op.length
    | none => some 1

def cleanToken (cs : List Char) : String :=
  match cs with
  | '/' :: '/' :: _ => String.ofList (Text.trimRight (cs.filter (· != '\r')))
  | cs => String.ofList cs

/-- The tokens of a line after a gap; `skip` characters belong to the last one. A tab begins a
column. None for a string that does not end. -/
def tokensFrom : Gap → Nat → List Char → Option TokenLine
  | _, _, [] => some []
  | gap, skip + 1, _ :: cs => tokensFrom gap skip cs
  | gap, 0, c :: cs =>
    if c = '\t' then tokensFrom .column 0 cs
    else if Text.isBlank c then tokensFrom (if gap = .column then .column else .blank) 0 cs
    else do
      let n ← tokenLength c cs
      let rest ← tokensFrom .none (n - 1) cs
      return ⟨gap, cleanToken ((c :: cs).take n)⟩ :: rest

def tokens (line : String) : Option TokenLine :=
  tokensFrom .none 0 line.toList

def spaced (line : TokenLine) : String :=
  Text.join " " (line.map Piece.token)

/-- The lines of a text that are not empty, with one blank between each two tokens. -/
def spacedLines (text : String) : List String :=
  (((Text.splitOn text "\n").filterMap tokens).filter fun l => !l.isEmpty).map spaced

end FormatFuzz.Program
