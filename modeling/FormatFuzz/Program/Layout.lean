import FormatFuzz.Program.Token
import FormatFuzz.Text.Columns

/-!
# Layout of generated programs

A program is drafted line by line and then laid out: imports without a use go, conditions lose the
parentheses around them, empty brackets close on their line, and between two declarations there is
at most one empty line. Lines are indented by the brackets open before them, columns are aligned,
and an operator deep inside of an expression stands close to its operands.
-/

set_option autoImplicit false

namespace FormatFuzz.Program

def isName (s : String) : Bool :=
  match s.toList with
  | [] => false
  | c :: cs => isNameStart c && cs.all isNamePart && s ∉ keywords && s ≠ "_"

def isOpening (t : String) : Bool :=
  t == "(" || t == "[" || t == "\x7b"

def isClosing (t : String) : Bool :=
  t == ")" || t == "]" || t == "\x7d"

def isForbidden (c : Char) : Bool :=
  c.toNat = 0 || c.toNat = 0xfeff

def isComment (t : String) : Bool :=
  Text.startsWith ['/', '/'] t.toList

def isString (t : String) : Bool :=
  t.toList.head? == some '"'

def escapeDigits : Char → Nat
  | 'x' => 2
  | 'u' => 4
  | 'U' => 8
  | _ => 0

/-- Has every backslash in a string its letter and digits? `due` digits are still to come. -/
def escapesHold : Nat → List Char → Bool
  | 0, [] => true
  | _ + 1, [] => false
  | due + 1, c :: cs => (Text.hexValue c).isSome && escapesHold due cs
  | 0, '\\' :: c :: cs => "abfnrtv\\\"xuU".toList.contains c && escapesHold (escapeDigits c) cs
  | 0, _ :: cs => escapesHold 0 cs

/-- Strings are whole: their escapes hold, and nothing but a mark comes behind one. -/
def stringsHold : List String → Bool
  | [] => true
  | [t] => !isString t || escapesHold 0 t.toList
  | t :: next :: rest =>
    (!isString t || (escapesHold 0 t.toList && !isString next && !isOpening next
      && !next.toList.head?.any isNamePart)) && stringsHold (next :: rest)

def beginsDeclaration (l : TokenLine) : Bool :=
  match l.head?.map Piece.token with
  | some t =>
    isComment t || isClosing t || ["package", "import", "type", "const", "var", "func"].contains t
  | none => true

/-- Closes a bracket. Brackets opened by one line indent once; they are counted together. -/
def closeOne : List Nat → List Nat
  | [] => []
  | n :: rest => if n ≤ 1 then rest else (n - 1) :: rest

/-- Brackets open before a line and those open in it, after one more token of it. -/
def bracketStep (state : List Nat × Nat) (p : Piece) : List Nat × Nat :=
  if isOpening p.token then (state.1, state.2 + 1)
  else if !isClosing p.token then state
  else if state.2 = 0 then (closeOne state.1, 0)
  else (state.1, state.2 - 1)

def openAfter (levels : List Nat) (l : TokenLine) : List Nat :=
  match l.foldl bracketStep (levels, 0) with
  | (ls, 0) => ls
  | (ls, n + 1) => (n + 1) :: ls

def declarationsHold : List Nat → List TokenLine → Bool
  | _, [] => true
  | levels, l :: ls =>
    (!levels.isEmpty || beginsDeclaration l) && declarationsHold (openAfter levels l) ls

/-- Can a line be laid out? The package needs a name, and no operator is doubled but the step of a
loop. -/
def lineHolds (ts : List String) : Bool :=
  match ts with
  | "package" :: rest => rest.length == 1 && rest.all isName
  | ts => !ts.contains "--" && !ts.any (fun t => t.toList.any isForbidden) && stringsHold ts

def wellFormed (lines : List TokenLine) : Bool :=
  lines.all (fun l => lineHolds (l.map Piece.token)) && declarationsHold [] lines

def importName (path : String) : String :=
  String.ofList (path.toList.filter (· != '"') |>.reverse.takeWhile (· != '/')).reverse

/-- Is a package named in a line? Its name stands before a point and not behind one. -/
def usesPackage (name : String) : String → List String → Bool
  | _, [] => false
  | before, t :: rest =>
    (t == name && before != "." && rest.head? == some ".") || usesPackage name t rest

def import? (l : TokenLine) : Option String :=
  match l with
  | [p] => if p.token.toList.head? == some '"' then some (importName p.token) else none
  | _ => none

def dropImports (lines : List TokenLine) : List TokenLine :=
  let isUsed (name : String) : Bool := lines.any fun l => usesPackage name "" (l.map Piece.token)
  lines.filter fun l => (import? l).all isUsed

def opensAtEnd (l : TokenLine) : Bool :=
  l.getLast?.any fun p => isOpening p.token

def closesAtStart (l : TokenLine) : Bool :=
  l.head?.any fun p => isClosing p.token

/-- One empty line at most between two others, and none next to a bracket; `before` is the line
before, or empty. -/
def spareLines : TokenLine → List TokenLine → List TokenLine
  | _, [] => []
  | _, (p :: l) :: rest => (p :: l) :: spareLines (p :: l) rest
  | before, [] :: rest =>
    match rest with
    | [] => []
    | next :: _ =>
      if before.isEmpty || next.isEmpty || opensAtEnd before || closesAtStart next then
        spareLines before rest
      else [] :: spareLines [] rest

def emptyBrackets (l next : TokenLine) : Bool :=
  match l.getLast?.map Piece.token, next.head?.map Piece.token with
  | some "(", some ")" => true
  | some "\x7b", some "\x7d" => true
  | _, _ => false

def joinEmpty : List TokenLine → List TokenLine
  | l :: next :: rest =>
    if emptyBrackets l next then (l ++ next) :: joinEmpty rest else l :: joinEmpty (next :: rest)
  | ls => ls

/-- Does the first bracket close only at the end? `depth` are the brackets open so far. -/
def closesAtEnd : Nat → TokenLine → Bool
  | depth, [] => depth == 0
  | depth, p :: rest =>
    let depth := if p.token = "(" then depth + 1 else if p.token = ")" then depth - 1 else depth
    (0 < depth || rest.isEmpty) && closesAtEnd depth rest

def bareCondition : Nat → TokenLine → TokenLine
  | 0, ps => ps
  | fuel + 1, ps =>
    if (ps.head?.map Piece.token) == some "(" && closesAtEnd 0 ps then
      bareCondition fuel (ps.drop 1).dropLast
    else ps

def afterBlank : TokenLine → TokenLine
  | [] => []
  | p :: ps => { p with gap := .blank } :: ps

def bareIf (l : TokenLine) : TokenLine :=
  match l with
  | ⟨gap, "if"⟩ :: rest =>
    if (rest.getLast?.map Piece.token) == some "\x7b" then
      ⟨gap, "if"⟩ :: afterBlank (bareCondition rest.length rest.dropLast) ++ [⟨.blank, "\x7b"⟩]
    else l
  | l => l

/-- A part of a line: a token, or what stands between two brackets. -/
inductive Part where
  | piece (p : Piece)
  | group (opening : Piece) (inside : List Part) (closing : Piece)

structure OpenGroup where
  before : List Part
  opening : Piece

/-- The parts of a line; `done` are those read in the innermost open bracket, last first. A bracket
without its partner is a token like others. -/
def partsFrom : List OpenGroup → List Part → TokenLine → List Part
  | [], done, [] => done.reverse
  | o :: os, done, [] => partsFrom os (done ++ .piece o.opening :: o.before) []
  | os, done, p :: ps =>
    if isOpening p.token then partsFrom (⟨done, p⟩ :: os) [] ps
    else if isClosing p.token then
      match os with
      | o :: os => partsFrom os (.group o.opening done.reverse p :: o.before) ps
      | [] => partsFrom [] (.piece p :: done) ps
    else partsFrom os (.piece p :: done) ps
termination_by os _ ps => (ps.length, os.length)

def closeOperators : List String :=
  ["+", "-", "|", "^", "*", "/", "%", "<<", ">>", "&"]

def looseOperators : List String :=
  ["||", "&&", "==", "!=", "<", "<=", ">", ">="]

def Part.first : Part → Piece
  | .piece p => p
  | .group opening _ _ => opening

def Part.isOperator (p : Part) (next : Option Part) : Bool :=
  match p with
  | .piece q =>
    q.gap == .blank && next.any (fun n => n.first.gap == .blank)
      && (closeOperators.contains q.token || looseOperators.contains q.token)
  | .group .. => false

def hasOperator : List Part → Bool
  | [] => false
  | p :: ps => p.isOperator ps.head? || hasOperator ps

def Part.isToken (token : String) : Part → Bool
  | .piece p => p.token == token
  | .group .. => false

def isApplied (before : Option Part) (opening : Piece) : Bool :=
  opening.gap == .none && match before with
    | some (.piece p) => p.token.toList.head?.any isNameStart
    | some (.group ..) => true
    | none => false

/-- How deep the inside of a bracket lies if the bracket lies at a depth: parentheses bring it back
by one, several arguments and an index add one, and a list begins anew. -/
def insideDepth (depth : Nat) (before : Option Part) (opening : Piece) (inside : List Part) : Nat :=
  if opening.token == "\x7b" then 1
  else if opening.token == "[" then depth + 1
  else if isApplied before opening then
    if inside.any (Part.isToken ",") then depth + 1 else depth
  else max 1 (depth - 1)

/-- Does an operator lose its blanks at a depth? Two minus signs are kept apart. -/
def isTight (depth : Nat) (p : Part) (next : Option Part) : Bool :=
  1 < depth && p.isOperator next && closeOperators.contains p.first.token
    && !(p.isToken "-" && next.any (Part.isToken "-"))

def closeUp : TokenLine → TokenLine
  | [] => []
  | p :: ps => { p with gap := .none } :: ps

mutual

def Part.tokens (depth : Nat) (before : Option Part) : Part → TokenLine
  | .piece p => [p]
  | .group opening inside closing =>
    let d := insideDepth depth before opening inside
    opening :: partTokens d (if hasOperator inside then d + 1 else d) false none inside ++ [closing]

/-- The tokens of parts: operators lie at one depth and operands at another. `tight` says that an
operator without blanks comes before. -/
def partTokens (depth operands : Nat) (tight : Bool) (before : Option Part) :
    List Part → TokenLine
  | [] => []
  | p :: ps =>
    let here := isTight depth p ps.head?
    let own := Part.tokens operands before p
    (if tight || here then closeUp own else own) ++ partTokens depth operands here (some p) ps

end

def tightened (l : TokenLine) : TokenLine :=
  let parts := partsFrom [] [] l
  partTokens 1 (if hasOperator parts then 2 else 1) false none parts

/-- How far a line is indented. A branch of a choice stands where the choice does. -/
def indentation (levels : List Nat) (l : TokenLine) : Nat :=
  let closing := l.takeWhile fun p => isClosing p.token
  let depth := (closing.foldl (fun ls _ => closeOne ls) levels).length
  match l.head?.map Piece.token with
  | some "case" => depth - 1
  | some "default" => depth - 1
  | _ => depth

def indentations (levels : List Nat) : List TokenLine → List Nat
  | [] => []
  | l :: ls => indentation levels l :: indentations (openAfter levels l) ls

def cellsFrom (text : String) : TokenLine → List String
  | [] => [text]
  | ⟨.column, t⟩ :: ps => text :: cellsFrom t ps
  | ⟨.blank, t⟩ :: ps => cellsFrom (text ++ " " ++ t) ps
  | ⟨.none, t⟩ :: ps => cellsFrom (text ++ t) ps

def cells : TokenLine → List String
  | [] => []
  | p :: ps => cellsFrom p.token ps

def arranged (lines : Lines) : Option (List TokenLine) := do
  let ls ← (lines.flatMap fun l => Text.splitOn l "\n").mapM tokens
  if wellFormed ls then
    return (joinEmpty (spareLines [] ((dropImports ls).map bareIf))).map tightened
  else none

/-- Lines as text: a tab for every level, and columns one blank apart. -/
def written (lines : List TokenLine) : String :=
  let texts := Text.alignedRows 1 (lines.map cells)
  let indented (text : String) (n : Nat) : String :=
    if text = "" then "\n" else String.ofList (List.replicate n '\t') ++ text ++ "\n"
  Text.join "" (List.zipWith indented texts (indentations [] lines))

end FormatFuzz.Program
