import FormatFuzz.Program.Layout

/-!
# Generated programs

A program has a structure for every type of a model, with a constructor that generates its members
in their order, constants for the members of enums, and variables for static instances. It makes
one sample from a source of random data.
-/

set_option autoImplicit false

namespace FormatFuzz.Program

structure Settings where
  package : String := ""
  source : String := ""
  seed : Nat := 0
  deriving DecidableEq, Repr

def nameClash? : List TypePath → List TypePath → Option Error
  | _, [] => none
  | seen, p :: rest =>
    match seen.find? fun q => typeName q == typeName p with
    | some q => some (.nameClash q p (typeName p))
    | none => nameClash? (seen ++ [p]) rest

def fieldExprs (f : Field) : List Expr :=
  f.guard.toList ++ f.fixed.toList ++ f.measure.toList ++ f.input.toList ++ f.choices
    ++ (f.repeated.bind fun r => r.form.count?).toList
    ++ (f.repeated.bind fun r => r.form.until?).toList
    ++ (f.size.bind Size.expr).toList ++ (f.process.bind Process.key?).toList
    ++ match f.type with
      | .switch on cases _ => on :: cases.map Prod.fst
      | _ => []

def typeExprs (t : TypeDef) : List Expr :=
  t.fields.flatMap fieldExprs ++ t.instances.flatMap fun i => i.value :: i.guard.toList

def readsForeignRoot (m : Model) (t : TypeDef) : Bool :=
  t.path.length != 1 && (m.users t.path).any (fun u => treeRoot u != treeRoot t.path)
    && (typeExprs t).any fun e => e.mentions Expr.root

def checkModel (m : Model) : Except Error Unit :=
  match nameClash? [] (m.types.map TypeDef.path) with
  | some e => .error e
  | none =>
    match m.types.find? (readsForeignRoot m) with
    | some t => .error (.foreignRoot t.path)
    | none => .ok ()

def documented (doc : String) (l : String) : Lines :=
  if doc = "" then [l] else [comment doc, l]

def apart (ls : Lines) : Lines :=
  "" :: ls

def poolType (d : PoolDef) : String :=
  if d.kind = .string then "string" else "int64"

def contextLines (m : Model) : Lines :=
  apart ("// fuzzContext is shared by all objects of one generated sample."
    :: block "type fuzzContext struct" ("rand\t*fzrt.Rand"
      :: m.types.filterMap fun t =>
        t.pool.map fun d => poolName t.path ++ "\t*fzrt.Pool[" ++ poolType d ++ "]"))

def enumLines (t : TypeDef) (e : EnumDef) : Lines :=
  let id : EnumId := ⟨t.path, e.name⟩
  let values := enumName id ++ "Values"
  let const (m : EnumMember) : Lines :=
    documented m.doc (memberConst id m.id ++ "\tint64\t= " ++ toString m.value)
  apart (["// " ++ id.text, "const ("] ++ e.members.flatMap const ++ [")"])
    ++ apart (["// " ++ values ++ " lists the values of " ++ id.text ++ ".",
        "var " ++ values ++ " = []int64\x7b"]
      ++ e.members.map (fun m => memberConst id m.id ++ ",") ++ ["\x7d"])

def varLines (decls : Lines) : Lines :=
  if decls.isEmpty then [] else apart ("var (" :: decls ++ [")"])

def drawsText (f : Field) : Bool :=
  f.elemRole == .base && f.type.kind == .string && f.fixed.isNone

/-- The variables of the encodings in use, by the canonical name of the encoding. -/
def encodingVars (m : Model) : Keyed String :=
  Keyed.ofPairs (m.types.flatMap fun t => (t.fields.filter drawsText).map fun f =>
    (Encoding.canonical f.encoding, encodingName f.encoding))

/-- Puts an encoding in front of the first one whose variable has a greater name. -/
def insertVar (e : String × String) : List (String × String) → List (String × String)
  | [] => [e]
  | d :: ds => if e.2 < d.2 then e :: d :: ds else d :: insertVar e ds

def encodings (m : Model) : List (String × String) :=
  (encodingVars m).foldl (fun es e => insertVar e es) []

def encodingLines (m : Model) : Lines :=
  varLines ((encodings m).map fun e => e.2 ++ "\t= " ++ call "fzrt.MustEncoding" [Text.quoted e.1])

def staticLines (m : Plan) (t : TypeDef) : Except Error Lines := do
  let decls ← (t.instances.filter Instance.isStatic).mapM fun i => do
    let v ← Error.at_ t.path i.id "value" (Frame.expr ⟨m, t, "", []⟩ i.value)
    return documented i.doc (m.names.static t i.id ++ "\t= " ++ v.typed)
  return decls.flatten

/-- The type of the object around an object; any, unless there is exactly one. -/
def parentType (m : Model) (t : TypeDef) : String :=
  match parent? m t.path with
  | some p => "*" ++ typeName p
  | none => "any"

def rootType (t : TypeDef) : String :=
  "*" ++ typeName (treeRoot t.path)

structure MemberDecl where
  name : String
  type : String
  doc : String

def MemberDecl.lines (d : MemberDecl) : Lines :=
  apart (documented d.doc (d.name ++ "\t" ++ d.type))

def fieldDecl (names : NameTable) (t : TypeDef) (f : Field) : MemberDecl :=
  ⟨names.member t f.id, (storageType f).code, f.doc⟩

def instanceDecl (m : Plan) (t : TypeDef) (i : Instance) : Except Error MemberDecl := do
  return ⟨m.names.member t i.id, (← infer m t i).code, i.doc⟩

def ownInstances (t : TypeDef) : List Instance :=
  t.instances.filter fun i => !i.isStatic

def flagDecls (names : NameTable) (t : TypeDef) : Lines :=
  let guarded := (t.fields.filter fun f => f.guard.isSome).map Field.id
    ++ ((ownInstances t).filter fun i => i.guard.isSome).map Instance.id
  guarded.map fun id => names.flag t id ++ "\tbool"

def wireDecls (names : NameTable) (t : TypeDef) : Lines :=
  (t.fields.filter fun f => f.process.isSome).map fun f =>
    names.wire t f.id ++ if f.repeated.isSome then "\t[][]byte" else "\t[]byte"

def poolEntryCodes (m : Plan) (t : TypeDef) (d : PoolDef) : Except Error (List String) :=
  Error.at_ t.path "" "-fz-order" (d.entries.mapM fun e => do
    return (← Frame.expr ⟨m, t, "", []⟩ e).code)

def deferred (statement : String) : Lines :=
  if statement.length ≤ 94 then ["defer func() \x7b " ++ statement ++ " \x7d()"]
  else ["defer func() \x7b", statement, "\x7d()"]

def poolLines (m : Plan) (t : TypeDef) : Except Error Lines :=
  match t.pool with
  | none => .ok []
  | some d => do
    let codes ← poolEntryCodes m t d
    let place := "ctx." ++ poolName t.path
    return ["prev := " ++ place,
      place ++ " = " ++ call ("fzrt.NewPool[" ++ poolType d ++ "]") codes]
      ++ deferred (place ++ " = prev")

def structLines (m : Plan) (t : TypeDef) (members : List MemberDecl) : Lines :=
  let name := typeName t.path
  apart ((comment t.doc ++ "// " ++ name ++ " is a generated " ++ t.name ++ ".")
    :: block ("type " ++ name ++ " struct")
      (["ctx\t*fuzzContext", "parent\t" ++ parentType m.toModel t, "root\t" ++ rootType t,
        "bytes\tfunc() []byte"] ++ members.flatMap MemberDecl.lines
        ++ apart (flagDecls m.names t ++ wireDecls m.names t)))

def ownRootLines (p : TypePath) : Lines :=
  if p.length = 1 then block "if g.root == nil" ["g.root = g"] else []

def constructorLines (m : Plan) (t : TypeDef) (pool : Lines) : Lines :=
  let name := typeName t.path
  apart <| ("// New" ++ name ++ " generates a " ++ t.name ++ ".")
    :: block ("func New" ++ name ++ "(ctx *fuzzContext, parent " ++ parentType m.toModel t
        ++ ", root " ++ rootType t ++ ") (*" ++ name ++ ", error)")
      (["g := &" ++ name ++ "\x7bctx: ctx, parent: parent, root: root\x7d"]
        ++ ownRootLines t.path
        ++ pool
        ++ ["for _, gen := range []func() error\x7b"]
        ++ t.order.map (fun id => "g.gen" ++ m.names.member t id ++ ",")
        ++ ["\x7d \x7b"]
        ++ block "if err := gen(); err != nil"
          ["return nil, fmt.Errorf(\"" ++ t.name ++ ": %w\", err)"]
        ++ ["\x7d", "g.bytes = sync.OnceValue(func() []byte \x7b", "var buf fzrt.Buffer",
          "buf.Append("]
        ++ t.fields.map (fun f => accessor m.names "g" t f.id ++ ",")
        ++ [")", "return buf.Bytes()", "\x7d)", "return g, nil"])

def bytesMethod (t : TypeDef) : Lines :=
  apart (("// Bytes returns the encoded " ++ t.name ++ ".")
    :: block (methodHead t "Bytes" "[]byte") ["return g.bytes()"])

def typeLines (m : Plan) (t : TypeDef) : Except Error Lines := do
  let instances ← (ownInstances t).mapM (instanceDecl m t)
  let pool ← poolLines m t
  let fields ← t.fields.mapM fun f => do
    return apart (← fieldMethod m t f) ++ apart (accessorMethod m.names t f)
  let computed ← (ownInstances t).mapM fun i => do return apart (← instanceMethod m t i)
  return structLines m t (t.fields.map (fieldDecl m.names t) ++ instances)
    ++ constructorLines m t pool ++ bytesMethod t ++ fields.flatten ++ computed.flatten

/-- The packages a program can use; those of the language and then its own. -/
def imports : Lines :=
  ["\"bytes\"", "\"encoding/binary\"", "\"fmt\"", "\"math\"", "\"strconv\"", "\"sync\"",
    "\"unicode/utf8\"", "", "\"github.com/dacolabs/ksfuzz/pkg/fzrt\""]

def headLines (package source : String) : Lines :=
  ["// Code generated by ksfuzz from " ++ source ++ ". DO NOT EDIT.", "", "package " ++ package, "",
    "import ("] ++ imports ++ [")"]

def generateLines (id : String) (root : TypePath) : Lines :=
  apart (("// Generate builds one random " ++ id ++ " sample.")
    :: block "func Generate(r *fzrt.Rand) (fzrt.Encoder, error)"
      (["v, err := New" ++ typeName root ++ "(&fuzzContext\x7brand: r\x7d, nil, nil)"]
        ++ block "if err != nil" ["return nil, err"] ++ ["return v, nil"]))

def mainLines (id : String) (seed : Nat) : Lines :=
  let withSeed := if seed = 0 then [] else [call "fzrt.WithSeed" [toString seed]]
  apart (block "func main()" [call "fzrt.Main" ([Text.quoted id, "Generate"] ++ withSeed)])

def typeParts (m : Plan) : List TypeDef → Except Error (Lines × Lines)
  | [] => .ok ([], [])
  | t :: rest => do
    let statics ← staticLines m t
    let type ← typeLines m t
    let (moreStatics, moreTypes) ← typeParts m rest
    return (statics ++ moreStatics, type ++ moreTypes)

def draft (s : Settings) (m : Model) : Except Error Lines := do
  checkModel m
  let root := (m.root?.map TypeDef.path).getD []
  let id := root.headD ""
  let package := if s.package = "" then "main" else s.package
  let source := if s.source = "" then id ++ ".ksy" else s.source
  let (statics, types) ← typeParts (.ofModel m) m.types
  return headLines package source ++ contextLines m
    ++ m.types.flatMap (fun t => t.enums.flatMap (enumLines t))
    ++ encodingLines m ++ varLines statics ++ types ++ generateLines id root
    ++ if package = "main" then mainLines id s.seed else []

def source (s : Settings) (m : Model) : Except Error (List TokenLine) := do
  match arranged (← draft s m) with
  | some ls => return ls
  | none => throw .layout

/-- The lines of a program that are not empty, one blank between each two tokens. -/
def lines (s : Settings) (m : Model) : Except Error (List String) := do
  return ((← source s m).filter fun l => !l.isEmpty).map spaced

def text (s : Settings) (m : Model) : Except Error String := do
  return written (← source s m)

end FormatFuzz.Program
