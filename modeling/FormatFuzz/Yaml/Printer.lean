import FormatFuzz.Yaml.Node
import FormatFuzz.Yaml.Token

/-!
# Text of a YAML document

Collections are written in block form, empty ones in flow form. The parts of a mapping's value stand
at the next multiple of a number of blanks, those of an item two blanks deeper. A string stands
plain where reading it plain gives the string back, else quoted, and as a literal block where it
has several lines. Lines are never folded.
-/

set_option autoImplicit false

namespace FormatFuzz.Yaml

def isBreak (c : Char) : Bool :=
  c == '\n' || c == '\r' || c == '\u0085' || c == '\u2028' || c == '\u2029'

def isGap (c : Char) : Bool :=
  c == ' ' || c == '\t'

/-- Characters that stand for themselves: those of the basic plane without controls, tab and byte
order mark. -/
def isShown (c : Char) : Bool :=
  let n := c.toNat
  n == 0x0a || (0x20 ≤ n && n ≤ 0x7e) || (0xa0 ≤ n && n ≤ 0xfffd && n != 0xfeff)

def hasPair (p q : Char → Bool) : List Char → Bool
  | a :: b :: cs => (p a && q b) || hasPair p q (b :: cs)
  | _ => false

def indicators : List Char :=
  ['#', ',', '[', ']', '\x7b', '\x7d', '&', '*', '!', '|', '>', '\'', '"', '%', '@', '\x60']

def hasIndicator (cs : List Char) : Bool :=
  let atStart := match cs with
    | [] => false
    | c :: rest =>
      indicators.contains c
        || ((c == '?' || c == ':' || c == '-') && (rest.head?.map isGap).getD true)
  atStart || "---".toList.isPrefixOf cs || "...".toList.isPrefixOf cs
    || hasPair (· == ':') isGap cs || cs.getLast? == some ':'
    || hasPair (fun c => isGap c || isBreak c || c == '\x00') (· == '#') cs

def hasSpecial (cs : List Char) : Bool :=
  cs.any fun c => !isShown c && c != '\t'

def blankBeforeBreak (cs : List Char) : Bool :=
  hasPair (· == ' ') isBreak cs

def allowsPlain (cs : List Char) : Bool :=
  !(cs.any fun c => isBreak c || c == '\t' || !isShown c)
    && cs.head? != some ' ' && cs.getLast? != some ' ' && !hasIndicator cs

def allowsSingle (cs : List Char) : Bool :=
  !hasPair isBreak (· == ' ') cs && !blankBeforeBreak cs && !cs.contains '\t' && !hasSpecial cs

def allowsLiteral (cs : List Char) : Bool :=
  !cs.isEmpty && cs.getLast? != some ' ' && !blankBeforeBreak cs && !hasSpecial cs

/-- Words that were truth values once; as strings they are quoted. -/
def formerTruths : List String :=
  ["y", "Y", "yes", "Yes", "YES", "on", "On", "ON", "n", "N", "no", "No", "NO", "off", "Off", "OFF"]

def isSexagesimalRest (seen : Bool) : List Char → Bool
  | [] => seen
  | '.' :: cs => seen && cs.all fun c => c.isDigit || c == '_'
  | ':' :: a :: b :: cs =>
    if '0' ≤ a && a ≤ '5' && b.isDigit then isSexagesimalRest true cs
    else a.isDigit && isSexagesimalRest true (b :: cs)
  | [':', a] => a.isDigit
  | _ => false

def isSexagesimal (s : String) : Bool :=
  let cs := (Numeral.sign s.toList).2
  (cs.head?.map Char.isDigit).getD false
    && isSexagesimalRest false (cs.dropWhile fun c => c.isDigit || c == '_')

def readsAsString (s : String) : Bool :=
  (match plainValue s with
    | .str t => t == s
    | _ => false)
    && !isSexagesimal s && !formerTruths.contains s

/-- The style of a string: plain where reading it plain gives the string back, else quoted, and a
literal block for several lines. -/
def stringStyle (s : String) : Style :=
  let cs := s.toList
  if cs.contains '\n' then if allowsLiteral cs then .literal else .double
  else if !readsAsString s then .double
  else if allowsPlain cs then .plain
  else if allowsSingle cs then .single
  else .double

def wantedForm (style : Style) (text : String) : Form :=
  let several := text.toList.contains '\n'
  match style with
  | .tagged _ => .plain
  | .plain => if several then .literal else .plain
  | .single => .single
  | .double => .double
  | .literal => .literal

/-- The form a scalar gets. In a key on one line a literal and nothing at all are quoted. -/
def formOf (inKey : Bool) (style : Style) (text : String) : Form :=
  let cs := text.toList
  let quote := if allowsSingle cs then Form.single else .double
  match wantedForm style text with
  | .plain => if !allowsPlain cs || (inKey && cs.isEmpty) then quote else .plain
  | .single => quote
  | .double => .double
  | .literal => if inKey || !allowsLiteral cs then .double else .literal

def escapeLetter? (c : Char) : Option Char :=
  match c.toNat with
  | 0x00 => some '0'
  | 0x07 => some 'a'
  | 0x08 => some 'b'
  | 0x09 => some 't'
  | 0x0a => some 'n'
  | 0x0b => some 'v'
  | 0x0c => some 'f'
  | 0x0d => some 'r'
  | 0x1b => some 'e'
  | 0x22 => some '"'
  | 0x5c => some '\\'
  | 0x85 => some 'N'
  | 0xa0 => some '_'
  | 0x2028 => some 'L'
  | 0x2029 => some 'P'
  | _ => none

/-- A character inside double quotes. Those that do not stand for themselves are escaped. -/
def escaped (c : Char) : List Char :=
  match escapeLetter? c with
  | some l => ['\\', l]
  | none =>
    let digits (width : Nat) := (Text.hexFixed width c.toNat).map Char.toUpper
    if c.toNat ≤ 0xff then '\\' :: 'x' :: digits 2
    else if c.toNat ≤ 0xffff then '\\' :: 'u' :: digits 4
    else '\\' :: 'U' :: digits 8

/-- Does a character stand for itself inside double quotes? -/
def isBare (c : Char) : Bool :=
  isShown c && !isBreak c && c != '"' && c != '\\'

def doubleQuoted (cs : List Char) : List Char :=
  let marked := cs.head? == some Token.byteOrderMark
  let one (c : Char) : List Char := if !marked && isBare c then [c] else escaped c
  '"' :: cs.flatMap one ++ ['"']

def margin (col : Nat) : List Char := List.replicate col ' '

/-- Characters after which a line begins at a column; `fresh` says that one is to begin. -/
def indented (col : Nat) : Bool → List Char → List Char
  | _, [] => []
  | fresh, c :: cs =>
    if isBreak c then c :: indented col true cs
    else (if fresh then margin col else []) ++ c :: indented col false cs

def singleQuoted (col : Nat) (cs : List Char) : List Char :=
  let inner := (indented col false cs).flatMap fun c => if c == '\'' then ['\'', '\''] else [c]
  '\'' :: inner ++ ['\'']

/-- The line a literal block begins with: how deep its lines stand if the first one does not show
it, and what becomes of the breaks at its end. -/
def literalHead (step : Nat) (cs : List Char) : List Char :=
  let depth := match cs with
    | c :: _ => if c == ' ' || isBreak c then (toString step).toList else []
    | [] => []
  let chomp := match cs.reverse with
    | [] => ['-']
    | [c] => if isBreak c then ['+'] else ['-']
    | c :: d :: _ => if !isBreak c then ['-'] else if isBreak d then ['+'] else []
  '|' :: depth ++ chomp

/-- A literal block. A break that begins the text also ends the line of the sign. -/
def literalBlock (step col : Nat) (cs : List Char) : List Char :=
  let body := indented col true cs
  literalHead step cs ++ if (cs.head?.map isBreak).getD true then body else '\n' :: body

/-- The text of a scalar whose lines after the first stand at a column. -/
def scalarText (step col : Nat) (inKey : Bool) (style : Style) (text : String) : List Char :=
  let cs := text.toList
  let tag := match style with
    | .tagged t => t.toList ++ if cs.isEmpty then [] else [' ']
    | _ => []
  match formOf inKey style text with
  | .plain => tag ++ cs
  | .single => tag ++ singleQuoted col cs
  | .double => tag ++ doubleQuoted cs
  | .literal => literalBlock step col cs

namespace Node

def isCompact : Node → Bool
  | .scalar .. => true
  | .seq _ xs => xs.isEmpty
  | .map _ es => es.isEmpty

/-- Keys that stand on one line before a colon: scalars without breaks and not overlong. -/
def isSimpleKey : Node → Bool
  | .scalar _ style t =>
    let tag := match style with
      | .tagged tag => tag.utf8ByteSize
      | _ => 0
    !t.toList.any isBreak && tag + t.utf8ByteSize ≤ 128
  | _ => false

def keyText : Node → List Char
  | .scalar _ style t => scalarText 0 0 true style t
  | _ => []

def deeper (step col : Nat) : Nat := step * ((col + step) / step)

def behind (col : Nat) (mark : Char) (piece : List Char) : List Char :=
  margin col ++ mark :: if piece.isEmpty then [] else ' ' :: piece

/-- Puts pieces that stand at a deeper column behind a mark, the first on the line of the mark. -/
def hang (col : Nat) (mark : Char) : List (List Char) → List (List Char)
  | [] => []
  | p :: ps => (margin col ++ mark :: p.drop (col + 1)) :: ps

mutual

/-- The pieces of a collection that stands at a column, each from the start of a line. A scalar or
an empty collection is one piece, without its margin. -/
def pieces (step col : Nat) : Node → List (List Char)
  | .scalar _ style t => [scalarText step col false style t]
  | .seq _ xs => if xs.isEmpty then [['[', ']']] else itemPieces step col xs
  | .map _ es => if es.isEmpty then [['\x7b', '\x7d']] else entryPieces step col es

def itemPieces (step col : Nat) : List Node → List (List Char)
  | [] => []
  | x :: xs => (if x.isCompact then (pieces step (col + 2) x).map (behind col '-')
      else hang col '-' (pieces step (col + 2) x)) ++ itemPieces step col xs

def entryPieces (step col : Nat) : List (Node × Node) → List (List Char)
  | [] => []
  | (k, v) :: es =>
    let inner := deeper step col
    let value := pieces step inner v
    (if k.isSimpleKey then
        let key := margin col ++ keyText k ++ [':']
        if v.isCompact then value.map fun p => if p.isEmpty then key else key ++ ' ' :: p
        else key :: value
      else
        (if k.isCompact then (pieces step inner k).map (behind col '?')
          else hang col '?' (pieces step inner k))
        ++ (if v.isCompact then value.map (behind col ':') else hang col ':' value))
      ++ entryPieces step col es

end

/-- Ends a line unless a line break ends it already. -/
def ended (line : List Char) : List Char :=
  if (line.getLast?.map isBreak).getD false then line else line ++ ['\n']

def chars (step : Nat) (n : Node) : List Char :=
  (pieces step (if n.isScalar then step else 0) n).flatMap ended

/-- The text of a document; each level stands `step` blanks deeper. -/
def render (step : Nat) (n : Node) : String :=
  String.ofList (n.chars step)

end Node

end FormatFuzz.Yaml
