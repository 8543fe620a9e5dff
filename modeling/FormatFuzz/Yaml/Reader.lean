import FormatFuzz.Yaml.Node
import FormatFuzz.Yaml.Token

/-!
# Documents from tokens

A node is a scalar, or a sequence or mapping in block or in flow form. A missing value is an empty
plain scalar. The readers recurse on a count of steps, of which there are four per token.
-/

set_option autoImplicit false

namespace FormatFuzz.Yaml

namespace Node

abbrev ReadNode := Except Token.Malformed (Node × List Token)
abbrev ReadItems := Except Token.Malformed (List Node × List Token)
abbrev ReadEntries := Except Token.Malformed (List (Node × Node) × List Token)

def afterComma (first : Bool) (ts : List Token) : Except Token.Malformed (List Token) :=
  if first then .ok ts
  else match ts with
    | ⟨.flowEntry, _⟩ :: rest => .ok rest
    | _ => .error .malformed

def blankAt (line : Nat) : Node :=
  .scalar line .plain ""

/-- A scalar has the style of its form; the merge key has its tag. -/
def scalarStyle (form : Form) (text : String) : Style :=
  if form = .plain && text = mergeText then .tagged mergeTag else form.style

/-- The style of a scalar under a standard tag, if the tag fits what the text spells. -/
def taggedStyle? (tag text : String) : Option Style :=
  match tag, plainValue text with
  | "str", _ => some (.tagged "!!str")
  | "int", .int _ | "int", .float _ => some (.tagged "!!int")
  | "float", .int _ | "float", .float _ => some (.tagged "!!float")
  | "bool", .bool _ | "null", .null | "timestamp", .time _ => some .plain
  | "merge", _ => if text = mergeText then some (.tagged mergeTag) else none
  | _, _ => none

def lineOf : List Token → Nat
  | t :: _ => t.line
  | [] => 0

mutual

/-- A node. In block form it may be a block collection, and after a key also a sequence that is
not indented. -/
def read : Nat → Bool → Bool → List Token → ReadNode
  | 0, _, _, _ => .error .malformed
  | n + 1, block, loose, ts =>
    match ts with
    | ⟨.scalar form text, line⟩ :: rest => .ok (.scalar line (scalarStyle form text) text, rest)
    | ⟨.tag name, line⟩ :: ⟨.scalar _ text, _⟩ :: rest =>
      match taggedStyle? name text with
      | some style => .ok (.scalar line style text, rest)
      | none => .error .malformed
    | ⟨.flowSequenceStart, line⟩ :: rest => do
      let (xs, rest) ← readFlowItems n true rest
      .ok (.seq line xs, rest)
    | ⟨.flowMappingStart, line⟩ :: rest => do
      let (es, rest) ← readFlowEntries n true rest
      .ok (.map line es, rest)
    | ⟨.sequenceStart, line⟩ :: rest =>
      if block then do
        let (xs, rest) ← readItems n rest
        .ok (.seq line xs, rest)
      else .error .malformed
    | ⟨.mappingStart, line⟩ :: rest =>
      if block then do
        let (es, rest) ← readEntries n rest
        .ok (.map line es, rest)
      else .error .malformed
    | ⟨.blockEntry, line⟩ :: rest =>
      if loose then do
        let (xs, rest) ← readLooseItems n (⟨.blockEntry, line⟩ :: rest)
        .ok (.seq line xs, rest)
      else .error .malformed
    | _ => .error .malformed

def readItems : Nat → List Token → ReadItems
  | 0, _ => .error .malformed
  | n + 1, ts =>
    match ts with
    | ⟨.blockEnd, _⟩ :: rest => .ok ([], rest)
    | ⟨.blockEntry, line⟩ :: rest =>
      match rest with
      | ⟨.blockEntry, _⟩ :: _ | ⟨.blockEnd, _⟩ :: _ => do
        let (xs, ts) ← readItems n rest
        .ok (blankAt line :: xs, ts)
      | _ => do
        let (x, ts) ← read n true false rest
        let (xs, ts) ← readItems n ts
        .ok (x :: xs, ts)
    | _ => .error .malformed

def readLooseItems : Nat → List Token → ReadItems
  | 0, _ => .error .malformed
  | n + 1, ts =>
    match ts with
    | ⟨.blockEntry, line⟩ :: rest =>
      match rest with
      | ⟨.blockEntry, _⟩ :: _ | ⟨.key, _⟩ :: _ | ⟨.value, _⟩ :: _ | ⟨.blockEnd, _⟩ :: _ => do
        let (xs, ts) ← readLooseItems n rest
        .ok (blankAt line :: xs, ts)
      | _ => do
        let (x, ts) ← read n true false rest
        let (xs, ts) ← readLooseItems n ts
        .ok (x :: xs, ts)
    | ts => .ok ([], ts)

def readEntries : Nat → List Token → ReadEntries
  | 0, _ => .error .malformed
  | n + 1, ts =>
    match ts with
    | ⟨.blockEnd, _⟩ :: rest => .ok ([], rest)
    | ⟨.key, line⟩ :: rest => do
      let (k, ts) ← match rest with
        | ⟨.key, _⟩ :: _ | ⟨.value, _⟩ :: _ | ⟨.blockEnd, _⟩ :: _ => .ok (blankAt line, rest)
        | _ => read n true true rest
      let (v, ts) ← readValue n ts
      let (es, ts) ← readEntries n ts
      .ok ((k, v) :: es, ts)
    | _ => .error .malformed

def readValue : Nat → List Token → ReadNode
  | 0, _ => .error .malformed
  | n + 1, ts =>
    match ts with
    | ⟨.value, line⟩ :: rest =>
      match rest with
      | ⟨.key, _⟩ :: _ | ⟨.value, _⟩ :: _ | ⟨.blockEnd, _⟩ :: _ => .ok (blankAt line, rest)
      | _ => read n true true rest
    | ts => .ok (blankAt (lineOf ts), ts)

def readFlowItems : Nat → Bool → List Token → ReadItems
  | 0, _, _ => .error .malformed
  | n + 1, first, ts =>
    match ts with
    | ⟨.flowSequenceEnd, _⟩ :: rest => .ok ([], rest)
    | _ => do
      let ts ← afterComma first ts
      match ts with
      | ⟨.flowSequenceEnd, _⟩ :: rest => .ok ([], rest)
      | ⟨.key, line⟩ :: rest =>
        let (k, ts) ← match rest with
          | ⟨.value, _⟩ :: after | ⟨.flowEntry, _⟩ :: after | ⟨.flowSequenceEnd, _⟩ :: after =>
            .ok (blankAt (lineOf rest), after)
          | _ => read n false false rest
        let (v, ts) ← readFlowValue n ts
        let (xs, ts) ← readFlowItems n false ts
        .ok (.map line [(k, v)] :: xs, ts)
      | _ =>
        let (x, ts) ← read n false false ts
        let (xs, ts) ← readFlowItems n false ts
        .ok (x :: xs, ts)

def readFlowEntries : Nat → Bool → List Token → ReadEntries
  | 0, _, _ => .error .malformed
  | n + 1, first, ts =>
    match ts with
    | ⟨.flowMappingEnd, _⟩ :: rest => .ok ([], rest)
    | _ => do
      let ts ← afterComma first ts
      match ts with
      | ⟨.flowMappingEnd, _⟩ :: rest => .ok ([], rest)
      | ⟨.key, _⟩ :: rest =>
        let (k, ts) ← match rest with
          | ⟨.value, _⟩ :: _ | ⟨.flowEntry, _⟩ :: _ | ⟨.flowMappingEnd, _⟩ :: _ =>
            .ok (blankAt (lineOf rest), rest)
          | _ => read n false false rest
        let (v, ts) ← readFlowValue n ts
        let (es, ts) ← readFlowEntries n false ts
        .ok ((k, v) :: es, ts)
      | _ =>
        let (k, ts) ← read n false false ts
        let (es, rest) ← readFlowEntries n false ts
        .ok ((k, blankAt (lineOf ts)) :: es, rest)

def readFlowValue : Nat → List Token → ReadNode
  | 0, _ => .error .malformed
  | n + 1, ts =>
    match ts with
    | ⟨.value, _⟩ :: rest =>
      match rest with
      | ⟨.flowEntry, _⟩ :: _ | ⟨.flowMappingEnd, _⟩ :: _ | ⟨.flowSequenceEnd, _⟩ :: _ =>
        .ok (blankAt (lineOf rest), rest)
      | _ => read n false false rest
    | ts => .ok (blankAt (lineOf ts), ts)

end

/-- How far the text is looked at beyond the token that ends a document: that token and two more. -/
def lookahead : Nat := 3

def isSound (rest : List Token) : Bool :=
  !(rest.take lookahead).any fun t => t.kind == .bad

def directivesAgree (ts : List Token) : Bool :=
  let versions := ts.filter fun t => match t.kind with
    | .version .. => true
    | _ => false
  let handles := ts.filterMap fun t => match t.kind with
    | .tagHandle name => some name
    | _ => none
  versions.length ≤ 1 && versions.all (·.kind == .version 1 1)
    && handles.length == handles.eraseDups.length

/-- The first document of a text; nothing if the text holds none. Directives come before its mark.
-/
def document? (text : List Char) : Except Token.Malformed (Option Node) :=
  let ts := Token.scan text
  let fuel := 4 * (ts.length + 2)
  let document (ts : List Token) : Except Token.Malformed (Option Node) := do
    let (x, rest) ← read fuel true false ts
    if isSound rest then .ok (some x) else .error .malformed
  let directives := ts.takeWhile (·.kind.isDirective)
  match ts.dropWhile (·.kind.isDirective) with
  | [] => if directives.isEmpty then .ok none else .error .malformed
  | ⟨.documentStart, line⟩ :: rest =>
    if !directivesAgree directives then .error .malformed
    else match rest with
    | [] => .ok (some (blankAt line))
    | ⟨.documentStart, _⟩ :: _ | ⟨.documentEnd, _⟩ :: _ | ⟨.version .., _⟩ :: _
    | ⟨.tagHandle _, _⟩ :: _ =>
      if isSound rest then .ok (some (blankAt line)) else .error .malformed
    | _ => document rest
  | rest => if directives.isEmpty then document rest else .error .malformed

def parse (text : String) : Except Token.Malformed (Option Node) :=
  document? (Text.chars text)

end Node

end FormatFuzz.Yaml
