import FormatFuzz.Model.Basic
import FormatFuzz.Text.Words

/-!
# Documentation of a model

A Markdown page with a table of the members of every type, of how each is generated and in which
order, and a table for every enum. Choices, values and conditions of instances are spelled out, which
takes trees without an empty place; other trees are shown whatever they lack.
-/

set_option autoImplicit false

namespace FormatFuzz.Markdown

abbrev Detail := String × String

def exprDetail (key : String) (e : Option Expr) : List Detail :=
  e.toList.map fun e => (key, e.printed)

def repeatDetail (r : Repeat) : Detail :=
  match r.form with
  | .count n => ("repeat", n.printed ++ " times")
  | .until c => ("repeat until", c.printed ++ " (at most " ++ toString r.max ++ ")")
  | .eos => ("repeat", toString r.min ++ " to " ++ toString r.max ++ " times")

def roleDetail (f : Field) : List Detail :=
  match f.elemRole with
  | .derivedLength => exprDetail "length of" f.measure
  | .randomPop => f.pool.toList.map fun p => ("pool", qualified p)
  | .fixedPop => f.pool.toList.map fun p => ("pool", qualified p)
  | .randomChoice => [("one of", Text.join ", " (f.choices.map Expr.printed))]
  | .checksum => exprDetail ((f.digest.map Digest.name).getD "" ++ " of") f.input
  | .switch =>
    match f.type with
    | .switch on _ _ => [("switch-on", on.printed)]
    | _ => []
  | _ => []

def rangeDetail (f : Field) : List Detail :=
  match f.type, f.range with
  | .prim p, some (lo, hi) =>
    if p.kind = .int && (lo, hi) ≠ p.intBounds then
      [("range", "[" ++ toString lo ++ ", " ++ toString hi ++ "]")]
    else []
  | _, _ => []

def sizeDetail (s : Size) : Detail :=
  match s.expr with
  | some e => ("size", e.printed)
  | none => ("size", toString s.min ++ " to " ++ toString s.max ++ " bytes")

def processDetail : Process → Detail
  | .zlib => ("process", "zlib")
  | .xor key => ("process", "xor(" ++ key.printed ++ ")")

def details (f : Field) : List Detail :=
  exprDetail "if" f.guard ++ f.repeated.toList.map repeatDetail ++ roleDetail f
    ++ f.enum.toList.map (fun e => ("enum", e.name)) ++ exprDetail "valid" f.fixed ++ rangeDetail f
    ++ f.contents.toList.map (fun bs => ("contents", Text.hex bs)) ++ f.size.toList.map sizeDetail
    ++ (if f.type.kind = .string then [("encoding", f.encoding)] else [])
    ++ f.terminator.toList.map (fun t => ("terminator", "0x" ++ Text.hex [t]))
    ++ f.process.toList.map processDetail

def detailsCell (ds : List Detail) : String :=
  Text.join "<br>" (ds.map fun d => d.1 ++ ": `" ++ Text.replaceAll d.2 "|" "\\|" ++ "`")

def anchor (p : TypePath) : String :=
  Text.lowerText (Text.pascalCase (Text.join "_" p))

def elementType : TypeRef → String
  | .bytes => "bytes"
  | .prim p => p.name
  | .user p => "[" ++ qualified p ++ "](#" ++ anchor p ++ ")"
  | .switch _ cases default =>
    let names := (cases.map Prod.snd ++ default.toList).map fun p => p.getLastD ""
    "switch(" ++ Text.join " \\| " names ++ ")"

def fieldType (f : Field) : String :=
  if f.repeated.isSome then "array(" ++ elementType f.type ++ ")" else elementType f.type

def row (cells : List String) : String :=
  "| " ++ Text.join " | " cells ++ " |\n"

def yesNo (b : Bool) : String :=
  if b then "Yes" else "No"

def fieldRow (f : Field) : String :=
  row ["`" ++ f.id ++ "`", fieldType f, f.role.text, yesNo f.guard.isSome, detailsCell (details f)]

def instanceRow (i : Instance) : String :=
  row ["`" ++ i.id ++ "`", "value", if i.isStatic then "static instance" else "instance",
    yesNo i.guard.isSome, detailsCell (("value", i.value.printed) :: exprDetail "if" i.guard)]

def concat (parts : List String) : String :=
  Text.join "" parts

def memberTable (t : TypeDef) : String :=
  "| Field | Type | Role | Optional | Details |\n|-------|------|------|----------|---------|\n"
    ++ concat (t.fields.map fieldRow) ++ concat (t.instances.map instanceRow)

def enumTable (e : EnumDef) : String :=
  "\n#### Enum `" ++ e.name ++ "`\n\n| Value | ID | Description |\n|-------|----|-------------|\n"
    ++ concat (e.members.map fun m => row [toString m.value, "`" ++ m.id ++ "`", m.doc])

/-- What follows the heading of a type: its members, their order, and its enums. -/
def typeSection (t : TypeDef) : String :=
  memberTable t ++ "\nGeneration order: " ++ Text.join ", " t.order ++ "\n"
    ++ concat (t.enums.map enumTable)

def paragraph (s : String) : String :=
  if s = "" then "" else "\n" ++ s ++ "\n"

def nestedSection (t : TypeDef) : String :=
  "\n### " ++ t.name ++ "\n" ++ paragraph t.doc ++ "\n" ++ typeSection t

/-- The trees that are spelled out: choices, and the values and conditions of instances. -/
def spelled (t : TypeDef) : List Expr :=
  (t.fields.flatMap fun f => if f.elemRole = .randomChoice then f.choices else [])
    ++ t.instances.flatMap fun i => i.value :: i.guard.toList

def isDescribable (m : Model) : Bool :=
  m.types.all fun t => (spelled t).all Expr.complete

def describe (source : String) (m : Model) : String :=
  match m.types with
  | [] => ""
  | root :: others =>
    "# " ++ root.name ++ "\n" ++ paragraph root.doc
      ++ paragraph (if source = "" then "" else "Generated from `" ++ source ++ "`.")
      ++ "\n## Fields\n\n" ++ typeSection root
      ++ (if others.isEmpty then "" else "\n## Types\n" ++ concat (others.map nestedSection))

/-- The page of a model whose schema came from a file of the given name. Spelling out a tree with an
empty place ends the program, so that there is no page. -/
def page (source : String) (m : Model) : Option String :=
  if isDescribable m then some (describe source m) else none

end FormatFuzz.Markdown
