import FormatFuzz.Text.Bytes
import FormatFuzz.Yaml.Scalar

/-!
# Tokens of a YAML text

A text is cut into tokens from left to right. Indentation is made explicit: a collection in block
form begins with a start token and ends with `blockEnd`. A key is recognized only when its colon
is met, so the place where a key may have begun is kept, and its tokens are put in there.

Comments, blanks and line ends separate tokens. Aliases, anchors and tags of one's own are refused.
The tokens of the first document and two after its end are all that is scanned.
-/

set_option autoImplicit false

namespace FormatFuzz.Yaml

inductive Token.Kind where
  | documentStart
  | documentEnd
  | sequenceStart
  | mappingStart
  | blockEnd
  | flowSequenceStart
  | flowSequenceEnd
  | flowMappingStart
  | flowMappingEnd
  | blockEntry
  | flowEntry
  | key
  | value
  | scalar (form : Form) (text : String)
  /-- A standard tag, such as `!!int`. -/
  | tag (name : String)
  /-- A directive that names the version of the language. -/
  | version (major minor : Nat)
  /-- A directive that declares a handle for tags. -/
  | tagHandle (name : String)
  | bad
  deriving DecidableEq, Repr

def Token.Kind.isDirective : Token.Kind → Bool
  | .version .. => true
  | .tagHandle _ => true
  | _ => false

/-- A token and the line on which it begins, counted from one. -/
structure Token where
  kind : Token.Kind
  line : Nat
  deriving DecidableEq, Repr

namespace Token

inductive Malformed where
  | malformed
  deriving DecidableEq, Repr

/-- A place where a key may have begun: the number of the token there, and where it stands. A
required key must turn out to be one. -/
structure KeyMark where
  required : Bool
  token : Nat
  index : Nat
  line : Nat
  col : Nat

structure Scan where
  rest : List Char
  index : Nat
  line : Nat
  col : Nat
  tokens : Array Token
  flow : Nat
  indent : Int
  indents : List Int
  /-- The possible key of each open flow level, innermost first. -/
  keys : List (Option KeyMark)
  keyAllowed : Bool
  /-- The number of the marker that ends the first document. -/
  marker : Option Nat
  /-- Is one character passed over at the start of every line? -/
  skips : Bool

def byteOrderMark : Char := '\ufeff'

/-- A second mark at the start makes every line lose its first character. -/
def Scan.start (cs : List Char) : Scan :=
  { rest := cs, index := 0, line := 1, col := 0, tokens := #[], flow := 0, indent := -1,
    indents := [], keys := [none], keyAllowed := true, marker := none,
    skips := cs.head? == some byteOrderMark }

def isBreak (c : Char) : Bool :=
  c == '\n' || c == '\r' || c.toNat == 0x85 || c.toNat == 0x2028 || c.toNat == 0x2029

def isBlank (c : Char) : Bool :=
  c == ' ' || c == '\t'

def atBlank : List Char → Bool
  | [] => true
  | c :: _ => isBlank c || isBreak c

def atBreak : List Char → Bool
  | [] => true
  | c :: _ => isBreak c

namespace Scan

def step (s : Scan) : Scan :=
  match s.rest with
  | [] => s
  | '\r' :: '\n' :: r => { s with rest := r, index := s.index + 2, line := s.line + 1, col := 0 }
  | c :: r =>
    if isBreak c then { s with rest := r, index := s.index + 1, line := s.line + 1, col := 0 }
    else { s with rest := r, index := s.index + 1, col := s.col + 1 }

def steps : Nat → Scan → Scan
  | 0, s => s
  | n + 1, s => steps n s.step

def breakText (s : Scan) : List Char :=
  match s.rest with
  | c :: _ => if c.toNat == 0x2028 || c.toNat == 0x2029 then [c] else ['\n']
  | [] => []

def atMarker (s : Scan) : Bool :=
  s.col == 0 && match s.rest with
    | a :: b :: c :: r =>
      ((a == '-' && b == '-' && c == '-') || (a == '.' && b == '.' && c == '.')) && atBlank r
    | _ => false

def push (s : Scan) (k : Kind) (line : Nat) : Scan :=
  { s with tokens := s.tokens.push ⟨k, line⟩ }

def roll (s : Scan) (col : Nat) (place : Option Nat) (k : Kind) (line : Nat) : Scan :=
  if s.flow == 0 && s.indent < col then
    let s := { s with indents := s.indent :: s.indents, indent := (col : Int) }
    match place with
    | some i => { s with tokens := s.tokens.insertIdxIfInBounds i ⟨k, line⟩ }
    | none => s.push k line
  else s

def unroll (col : Int) : List Int → Scan → Scan
  | [], s => s
  | i :: is, s =>
    if s.flow == 0 && col < s.indent then
      unroll col is { s.push .blockEnd s.line with indent := i, indents := is }
    else s

def unrollTo (s : Scan) (col : Int) : Scan :=
  unroll col s.indents s

/-- Gives up the possible key; a required one is missing its colon. -/
def dropKey (s : Scan) : Except Malformed Scan :=
  match s.keys with
  | some k :: ks => if k.required then .error .malformed else .ok { s with keys := none :: ks }
  | _ => .ok s

def saveKey (s : Scan) : Except Malformed Scan :=
  if s.keyAllowed then do
    let s ← s.dropKey
    let k : KeyMark :=
      { required := s.flow == 0 && s.indent == (s.col : Int), token := s.tokens.size,
        index := s.index, line := s.line, col := s.col }
    .ok { s with keys := some k :: s.keys.drop 1 }
  else .ok s

def skip (s : Scan) : Scan :=
  match s.rest with
  | [] => s
  | _ :: r => { s with rest := r, index := s.index + 1, col := s.col + 1 }

def atComment (cs : List Char) : Bool :=
  (cs.dropWhile fun c => isBlank c || isBreak c).head? == some '#'

/-- Skips blanks, comments and line ends. A tab does not indent a key. `commented` says that a
comment was met; those after it go with it. -/
def toNextToken : Nat → Bool → Scan → Scan
  | 0, _, s => s
  | n + 1, commented, s =>
    let s := if s.skips && s.col == 0 && !(commented && atComment s.rest) then s.skip else s
    match s.rest with
    | [] => s
    | c :: _ =>
      if c == ' ' || (c == '\t' && (s.flow != 0 || !s.keyAllowed)) then
        toNextToken n commented s.step
      else if c == '#' then
        toNextToken n true (steps (s.rest.takeWhile (!isBreak ·)).length s)
      else if isBreak c then
        let s := s.step
        toNextToken n commented (if s.flow == 0 then { s with keyAllowed := true } else s)
      else s

end Scan

/-- Text read so far, last character first, and the blanks or line breaks after it. -/
structure Folded where
  out : List Char
  white : List Char
  first : List Char
  more : List Char
  broken : Bool

namespace Folded

def empty : Folded := ⟨[], [], [], [], false⟩

/-- Writes the pending blanks: one line break becomes a space, further ones stay. -/
def join (f : Folded) : Folded :=
  if f.broken then
    let out :=
      if f.first == ['\n'] then
        if f.more.isEmpty then ' ' :: f.out else f.more.reverse ++ f.out
      else (f.first ++ f.more).reverse ++ f.out
    { empty with out := out }
  else { empty with out := f.white ++ f.out }

def add (f : Folded) (c : Char) : Folded :=
  { f with out := c :: f.out }

def blank (f : Folded) (c : Char) : Folded :=
  if f.broken then f else { f with white := c :: f.white }

def lineBreak (f : Folded) (b : List Char) : Folded :=
  if f.broken then { f with more := f.more ++ b }
  else { f with white := [], first := b, broken := true }

def text (f : Folded) : String :=
  String.ofList f.out.reverse

end Folded

namespace Scan

/-- Blanks and line breaks inside a scalar. A plain scalar in block form may not be indented by
tabs. -/
def blanks (indent : Int) (strict : Bool) : Nat → Scan → Folded → Except Malformed (Scan × Folded)
  | 0, s, f => .ok (s, f)
  | n + 1, s, f =>
    match s.rest with
    | [] => .ok (s, f)
    | c :: _ =>
      if isBlank c then
        if strict && f.broken && (s.col : Int) < indent && c == '\t' then .error .malformed
        else blanks indent strict n s.step (f.blank c)
      else if isBreak c then blanks indent strict n s.step (f.lineBreak s.breakText)
      else .ok (s, f)

def isFlowEnd (c : Char) : Bool :=
  c == ',' || c == '?' || c == '[' || c == ']' || c == '\x7b' || c == '\x7d'

def plainRun : Nat → Scan → Folded → Scan × Folded
  | 0, s, f => (s, f)
  | n + 1, s, f =>
    match s.rest with
    | [] => (s, f)
    | c :: r =>
      if isBlank c || isBreak c then (s, f)
      else if (c == ':' && atBlank r) || (s.flow != 0 && isFlowEnd c) then (s, f)
      else plainRun n s.step (f.join.add c)

def plainScalar (indent : Int) : Nat → Scan → Folded → Except Malformed (Scan × Folded)
  | 0, s, f => .ok (s, f)
  | n + 1, s, f =>
    if s.atMarker || s.rest.head? == some '#' then .ok (s, f)
    else
      let (s, f) := plainRun s.rest.length s f
      if s.rest.isEmpty || !atBlank s.rest then .ok (s, f)
      else do
        let (s, f) ← blanks indent true s.rest.length s f
        if s.flow == 0 && (s.col : Int) < indent then .ok (s, f)
        else plainScalar indent n s f

def escape? (c : Char) : Option Nat :=
  match c with
  | '0' => some 0
  | 'a' => some 7
  | 'b' => some 8
  | 't' => some 9
  | '\t' => some 9
  | 'n' => some 10
  | 'v' => some 11
  | 'f' => some 12
  | 'r' => some 13
  | 'e' => some 27
  | ' ' => some 32
  | '"' => some 34
  | '/' => some 47
  | '\'' => some 39
  | '\\' => some 92
  | 'N' => some 0x85
  | '_' => some 0xa0
  | 'L' => some 0x2028
  | 'P' => some 0x2029
  | _ => none

def escapeWidth? (c : Char) : Option Nat :=
  if c == 'x' then some 2 else if c == 'u' then some 4 else if c == 'U' then some 8 else none

def hexNumber (cs : List Char) : Option Nat :=
  cs.foldlM (fun acc c => (Text.hexValue c).map (acc * 16 + ·)) 0

def escaped (r : List Char) : Except Malformed (Char × Nat) :=
  match r with
  | [] => .error .malformed
  | e :: hs =>
    match escape? e, escapeWidth? e with
    | some v, _ => .ok (Char.ofNat v, 2)
    | none, some w =>
      match (if (hs.take w).length == w then hexNumber (hs.take w) else none) with
      | some v =>
        if v.isValidChar then .ok (Char.ofNat v, 2 + w) else .error .malformed
      | none => .error .malformed
    | none, none => .error .malformed

/-- A run of a quoted scalar without blanks; the flag says that the closing quote is next. -/
def quotedRun (quote : Char) : Nat → Scan → Folded → Except Malformed (Scan × Folded × Bool)
  | 0, _, _ => .error .malformed
  | n + 1, s, f =>
    match s.rest with
    | [] => .ok (s, f, false)
    | c :: r =>
      if isBlank c || isBreak c then .ok (s, f, false)
      else if c == quote then
        if quote == '\'' && r.head? == some '\'' then
          quotedRun quote n (steps 2 s) (f.add '\'')
        else .ok (s, f, true)
      else if quote == '"' && c == '\\' then
        match r with
        | b :: _ =>
          if isBreak b then .ok (s.step.step, { f with broken := true }, false)
          else do
            let (v, len) ← escaped r
            quotedRun quote n (steps len s) (f.add v)
        | [] => .error .malformed
      else quotedRun quote n s.step (f.add c)

def quotedScalar (quote : Char) : Nat → Scan → Folded → Except Malformed (Scan × Folded)
  | 0, _, _ => .error .malformed
  | n + 1, s, f =>
    if s.atMarker || s.rest.isEmpty then .error .malformed
    else do
      let (s, f, closed) ← quotedRun quote (s.rest.length + 1) s f
      if closed then .ok (s.step, f)
      else
        let (s, f) ← blanks 0 false s.rest.length s f
        quotedScalar quote n s f.join

inductive Chomp where
  | strip
  | clip
  | keep
  deriving DecidableEq

/-- Indentation and line breaks before a line of a block scalar. Without a known indentation the
deepest one met is noted. -/
def blockBreaks (indent : Nat) :
    Nat → Scan → Nat → List Char → Except Malformed (Scan × Nat × List Char)
  | 0, s, deepest, acc => .ok (s, deepest, acc)
  | n + 1, s, deepest, acc =>
    match s.rest with
    | c :: _ =>
      if c == ' ' && (indent == 0 || s.col < indent) then blockBreaks indent n s.step deepest acc
      else
        let deepest := max deepest s.col
        if c == '\t' && (indent == 0 || s.col < indent) then .error .malformed
        else if isBreak c then blockBreaks indent n s.step deepest (acc ++ s.breakText)
        else .ok (s, deepest, acc)
    | [] => .ok (s, max deepest s.col, acc)

/-- The lines of a block scalar: `lead` is the break after the line before, `breaks` the empty
lines after that. -/
def blockLines (literal : Bool) (indent : Nat) :
    Nat → Scan → List Char → List Char → List Char → Bool →
      Except Malformed (Scan × List Char × List Char × List Char)
  | 0, s, out, lead, breaks, _ => .ok (s, out, lead, breaks)
  | n + 1, s, out, lead, breaks, leadBlank =>
    match s.rest with
    | [] => .ok (s, out, lead, breaks)
    | c :: _ =>
      if s.col != indent then .ok (s, out, lead, breaks)
      else do
        let blank := isBlank c
        let glue :=
          if !literal && !leadBlank && !blank && lead == ['\n'] then
            if breaks.isEmpty then [' '] else []
          else lead
        let line := s.rest.takeWhile (!isBreak ·)
        let out := line.reverse ++ (breaks.reverse ++ (glue.reverse ++ out))
        let s := steps line.length s
        let lead := s.breakText
        let s := s.step
        let (s, _, breaks) ← blockBreaks indent (s.rest.length + 1) s 0 []
        blockLines literal indent n s out lead breaks blank

def blockHeader : List Char → Except Malformed (Chomp × Nat × Nat)
  | a :: b :: _ =>
    match chomp? a, b.isDigit, a.isDigit, chomp? b with
    | some c, true, _, _ => if b == '0' then .error .malformed else .ok (c, b.toNat - 48, 2)
    | some c, false, _, _ => .ok (c, 0, 1)
    | none, _, true, some c => if a == '0' then .error .malformed else .ok (c, a.toNat - 48, 2)
    | none, _, true, none => if a == '0' then .error .malformed else .ok (.clip, a.toNat - 48, 1)
    | none, _, false, _ => .ok (.clip, 0, 0)
  | [a] =>
    match chomp? a with
    | some c => .ok (c, 0, 1)
    | none => if a.isDigit && a != '0' then .ok (.clip, a.toNat - 48, 1)
      else if a == '0' then .error .malformed else .ok (.clip, 0, 0)
  | [] => .ok (.clip, 0, 0)
where
  chomp? (c : Char) : Option Chomp :=
    if c == '+' then some .keep else if c == '-' then some .strip else none

def blockScalar (literal : Bool) (s : Scan) : Except Malformed (Scan × String) := do
  let s := s.step
  let (chomp, increment, len) ← blockHeader s.rest
  let s := steps len s
  let s := steps (s.rest.takeWhile isBlank).length s
  let s := if s.rest.head? == some '#' then steps (s.rest.takeWhile (!isBreak ·)).length s else s
  if !atBreak s.rest then .error .malformed
  else
    let s := s.step
    let fixed := if increment == 0 then 0
      else if 0 ≤ s.indent then s.indent.toNat + increment else increment
    let (s, deepest, breaks) ← blockBreaks fixed (s.rest.length + 1) s 0 []
    let indent := if fixed == 0 then max (max deepest (s.indent + 1).toNat) 1 else fixed
    let (s, out, lead, breaks) ← blockLines literal indent (s.rest.length + 1) s [] [] breaks false
    let out := if chomp == .strip then out else lead.reverse ++ out
    let out := if chomp == .keep then breaks.reverse ++ out else out
    .ok (s, String.ofList out.reverse)

def isIndicator (c : Char) : Bool :=
  "-?:,[]\x7b\x7d#&*!|>'\"%@`".toList.contains c

def startsPlain (s : Scan) (c : Char) (r : List Char) : Bool :=
  !(isBlank c || isBreak c || isIndicator c)
    || (c == '-' && !(match r with | b :: _ => isBlank b | [] => false))
    || (s.flow == 0 && (c == '?' || c == ':') && !atBlank r)

def isNameChar (c : Char) : Bool :=
  c.isAlphanum || c == '_' || c == '-'

def isTagChar (c : Char) : Bool :=
  isNameChar c || ";/?:@&=+$,.!~*'()[]%".toList.contains c

def versionNumber (cs : List Char) : Option (Nat × List Char) :=
  let ds := cs.takeWhile Char.isDigit
  if ds.isEmpty || 2 < ds.length then none
  else some (ds.foldl (fun n d => n * 10 + (d.toNat - 48)) 0, cs.drop ds.length)

def directive? (cs : List Char) : Option (Kind × List Char) :=
  let name := String.ofList (cs.takeWhile isNameChar)
  let rest := cs.dropWhile isNameChar
  let body := rest.dropWhile isBlank
  if !atBlank rest then none
  else if name = "YAML" then
    match versionNumber body with
    | some (major, '.' :: r) =>
      (versionNumber r).map fun (minor, r) => (.version major minor, r)
    | _ => none
  else if name = "TAG" then
    match body with
    | '!' :: r =>
      let word := r.takeWhile isNameChar
      let closed := (r.drop word.length).head? == some '!'
      let r := r.drop (word.length + (if closed then 1 else 0))
      let uri := r.dropWhile isBlank
      if (closed || word.isEmpty) && (r.head?.map isBlank).getD false
          && (uri.head?.map isTagChar).getD false then
        some (.tagHandle (String.ofList word ++ (if closed then "!" else "")),
          uri.dropWhile isTagChar)
      else none
    | _ => none
  else none

def directiveToken (s : Scan) : Except Malformed Scan := do
  let line := s.line
  let s ← (s.unrollTo (-1)).dropKey
  match directive? s.rest.tail with
  | none => .error .malformed
  | some (kind, rest) =>
    let after := rest.dropWhile isBlank
    let comment := if after.head? == some '#' then after.takeWhile (!isBreak ·) else []
    if !atBreak (after.drop comment.length) || !(rest.isEmpty || atBlank rest) then
      .error .malformed
    else
      let ended := if s.tokens.all (·.kind.isDirective) then s.marker
        else s.marker <|> some s.tokens.size
      let s := { s with keyAllowed := false, marker := ended }
      let s := steps (s.rest.length - (after.length - comment.length)) s
      .ok (s.step.push kind line)

def tagToken (s : Scan) : Except Malformed Scan := do
  let line := s.line
  let s ← s.saveKey
  match s.rest with
  | '!' :: '!' :: r =>
    let name := r.takeWhile isTagChar
    if name.isEmpty || !atBlank (r.drop name.length) then .error .malformed
    else .ok ((steps (name.length + 2) { s with keyAllowed := false }).push
      (.tag (String.ofList name)) line)
  | _ => .error .malformed

def valueToken (s : Scan) : Except Malformed Scan := do
  let line := s.line
  let live := match s.keys with
    | some k :: _ => if k.line == s.line && s.index ≤ k.index + 1024 then some k else none
    | _ => none
  match live with
  | some k =>
    let s := { s with tokens := s.tokens.insertIdxIfInBounds k.token ⟨.key, k.line⟩ }
    let s := s.roll k.col (some k.token) .mappingStart k.line
    let s := { s with keys := none :: s.keys.drop 1, keyAllowed := false }
    .ok (s.step.push .value line)
  | none =>
    match s.keys with
    | some k :: _ => if k.required then .error .malformed
    | _ => pure ()
    if s.flow == 0 then
      if !s.keyAllowed then .error .malformed
      else
        let s := { s with keys := none :: s.keys.drop 1 }
        let s := s.roll s.col none .mappingStart s.line
        .ok ({ s with keyAllowed := true }.step.push .value line)
    else
      .ok ({ s with keys := none :: s.keys.drop 1, keyAllowed := false }.step.push .value line)

def fetch (s : Scan) (c : Char) (r : List Char) : Except Malformed Scan := do
  let line := s.line
  if s.atMarker then
    let s ← (s.unrollTo (-1)).dropKey
    let ended := if s.tokens.all (·.kind.isDirective) then none
      else s.marker <|> some s.tokens.size
    let s := { s with keyAllowed := false, marker := ended }
    .ok ((steps 3 s).push (if c == '-' then .documentStart else .documentEnd) line)
  else if c == '%' && s.col == 0 then s.directiveToken
  else if c == '[' || c == '\x7b' then
    let s ← s.saveKey
    let s := { s with flow := s.flow + 1, keys := none :: s.keys, keyAllowed := true }
    .ok (s.step.push (if c == '[' then .flowSequenceStart else .flowMappingStart) line)
  else if c == ']' || c == '\x7d' then
    let s ← s.dropKey
    let s := if s.flow == 0 then s else { s with flow := s.flow - 1, keys := s.keys.drop 1 }
    let s := { s with keyAllowed := false }
    .ok (s.step.push (if c == ']' then .flowSequenceEnd else .flowMappingEnd) line)
  else if c == ',' then
    let s ← s.dropKey
    .ok ({ s with keyAllowed := true }.step.push .flowEntry line)
  else if c == '-' && atBlank r then
    if s.flow == 0 && !s.keyAllowed then .error .malformed
    else
      let s := s.roll s.col none .sequenceStart s.line
      let s ← s.dropKey
      .ok ({ s with keyAllowed := true }.step.push .blockEntry line)
  else if c == '?' && (s.flow != 0 || atBlank r) then
    if s.flow == 0 && !s.keyAllowed then .error .malformed
    else
      let s := s.roll s.col none .mappingStart s.line
      let s ← s.dropKey
      .ok ({ s with keyAllowed := s.flow == 0 }.step.push .key line)
  else if c == ':' && (s.flow != 0 || atBlank r) then s.valueToken
  else if (c == '|' || c == '>') && s.flow == 0 then
    let s ← s.dropKey
    let (s, text) ← { s with keyAllowed := true }.blockScalar (c == '|')
    .ok (s.push (.scalar .literal text) line)
  else if c == '!' then s.tagToken
  else if c == '\'' || c == '"' then
    let s ← s.saveKey
    let s := { s with keyAllowed := false }
    let (s, f) ← quotedScalar c (s.rest.length + 1) s.step .empty
    .ok (s.push (.scalar (if c == '"' then .double else .single) f.text) line)
  else if s.startsPlain c r then
    let s ← s.saveKey
    let s := { s with keyAllowed := false }
    let (s, f) ← plainScalar (s.indent + 1) (s.rest.length + 1) s .empty
    let s := if f.broken then { s with keyAllowed := true } else s
    .ok (s.push (.scalar .plain f.text) line)
  else .error .malformed

def closeLine (s : Scan) : Scan :=
  if s.col == 0 then s else { s with line := s.line + 1, col := 0 }

def finished (s : Scan) : Bool :=
  s.marker.any fun m => m + 2 < s.tokens.size

def chunk : Nat := 512

/-- A line loses its first character only while much of the first chunk lies ahead. -/
def settle (s : Scan) : Scan :=
  if s.skips && (s.rest.length < 4 || chunk ≤ s.index + 4) then { s with skips := false } else s

def depthLimit : Nat := 10000

def isTooDeep (s : Scan) : Bool :=
  depthLimit < s.flow || depthLimit < s.indents.length

/-- The tokens of the first document and two more, and how many characters were looked at. A fault
ends them with a bad token. -/
def run : Nat → Scan → Array Token × Nat
  | 0, s => (s.tokens, s.index)
  | n + 1, s =>
    let s := toNextToken (s.rest.length + 1) false s
    let s := s.settle.unrollTo s.col
    match s.rest with
    | [] =>
      let s := s.closeLine.unrollTo (-1)
      match s.dropKey with
      | .ok s => (s.tokens, s.index)
      | .error _ => (s.tokens.push ⟨.bad, s.line⟩, s.index)
    | c :: r =>
      match s.fetch c r with
      | .error _ => (s.tokens.push ⟨.bad, s.line⟩, s.index)
      | .ok s =>
        if s.isTooDeep then (s.tokens.push ⟨.bad, s.line⟩, s.index)
        else if s.finished then (s.tokens, s.index)
        else run n s

end Scan

def isAllowed (c : Char) : Bool :=
  let n := c.toNat
  n == 0x09 || n == 0x0a || n == 0x0d || (0x20 ≤ n && n ≤ 0x7e) || n == 0x85
    || (0xa0 ≤ n && n ≤ 0xfffd) || 0x10000 ≤ n

/-- The characters of a text in whole chunks, so that at least `n` of them are there. -/
def loaded (n : Nat) (cs : List Char) : List Char :=
  let need := (String.ofList (cs.take n)).utf8ByteSize
  let limit := (need + Scan.chunk - 1) / Scan.chunk * Scan.chunk
  go limit cs
where
  go (limit : Nat) : List Char → List Char
    | [] => []
    | c :: cs => if c.utf8Size ≤ limit then c :: go (limit - c.utf8Size) cs else []

/-- The tokens of the first document of a text and two more. A byte order mark at the start is no
part of the text, and a character that no text may hold makes it all bad. -/
def scan (cs : List Char) : List Token :=
  let cs := if cs.head? == some byteOrderMark then cs.tail else cs
  let (ts, seen) := Scan.run (cs.length + 1) (Scan.start cs)
  if (loaded (seen + 4) cs).all isAllowed then ts.toList else [⟨.bad, 1⟩]

end Token

end FormatFuzz.Yaml
