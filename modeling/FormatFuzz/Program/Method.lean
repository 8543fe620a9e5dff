import FormatFuzz.Double.Basic
import FormatFuzz.Program.Frame

/-!
# Methods of generated types

Every field has a method that generates its value and an accessor of its encoded form; every
instance that is not static has a method that computes it. A method is a list of lines.
-/

set_option autoImplicit false

namespace FormatFuzz.Program

abbrev Lines := List String

def block (head : String) (body : Lines) : Lines :=
  (head ++ " \x7b") :: body ++ ["\x7d"]

def check (id : String) : Lines :=
  block "if err != nil" ["return " ++ call "fmt.Errorf" [Text.quoted (id ++ ": %w"), "err"]]

def intText (v : Int) : String :=
  toString v

def drawLines (id names code : String) : Lines :=
  (names ++ ", err := " ++ code) :: check id

def countCall (lo hi : Int) : String :=
  call "g.ctx.rand.Count" [intText lo, intText hi]

def terminatorArg (t : Option UInt8) : String :=
  match t with
  | some b => toString b.toNat
  | none => "-1"

def sizeLines (fr : Frame) (f : Field) : Except Error Lines :=
  match f.size with
  | none => .ok []
  | some s =>
    match s.expr with
    | none => .ok (drawLines f.id "n" (countCall s.min s.max))
    | some e => do
      let v ← fr.expr e
      if !v.type.isInt then throw (.mistyped .size e v.type)
      return ["n := " ++ v.typed]

/-- The root that an object hands to one it creates: its own, unless the other is of another tree. -/
def rootArgument (here u : TypePath) : String :=
  if treeRoot u = treeRoot here then "g.root" else "nil"

/-- Creates an object of a type; it knows the root of its own tree. -/
def constructLines (fr : Frame) (id : String) (u : TypePath) (name : String) : Lines :=
  drawLines id name (call ("New" ++ typeName u) ["g.ctx", "g", rootArgument fr.here.path u])

def rangeCall (range : Int × Int) : String :=
  let draw := if Word.isSigned range.1 && Word.isSigned range.2 then "Int" else "Uint"
  call ("g.ctx.rand." ++ draw) [intText range.1, intText range.2]

def fixedCode (fr : Frame) (f : Field) : Except Error (Option (Expr × Value)) :=
  match f.fixed with
  | none => .ok none
  | some e => do return some (e, ← fr.expr e)

def intLines (f : Field) (fixed : Option (Expr × Value)) : Except Error Lines := do
  let x : Lines ← match fixed, f.enum with
    | some (e, v), _ =>
      if !v.type.isInt then throw (.mistyped .valid e v.type) else pure ["x := " ++ v.typed]
    | none, some en =>
      pure (drawLines f.id "x" (call "fzrt.Choice" ["g.ctx.rand", enumName en ++ "Values"]))
    | none, none => pure (drawLines f.id "x" (rangeCall (f.range.getD (0, 0))))
  return x ++ ["v := " ++ call (elementType f).code ["x"]]

def floatLines (f : Field) (fixed : Option (Expr × Value)) : Except Error Lines :=
  match fixed with
  | some (e, v) =>
    if !v.type.isNumeric then .error (.mistyped .valid e v.type)
    else .ok ["x := " ++ call "float64" [v.code], "v := " ++ call (elementType f).code ["x"]]
  | none =>
    .ok [if elementType f = .float 4 then "v := g.ctx.rand.Float32()"
      else "v := g.ctx.rand.Float64()"]

def textLines (fr : Frame) (f : Field) (fixed : Option (Expr × Value)) : Except Error Lines :=
  match fixed with
  | some (e, v) =>
    if v.type ≠ .str then .error (.mistyped .valid e v.type) else .ok ["v := " ++ v.code]
  | none => do
    let size ← sizeLines fr f
    let draw := drawLines f.id "text"
      (call "g.ctx.rand.Text" [encodingName f.encoding, "n", terminatorArg f.terminator])
    let text := if f.terminator.isSome then "text[:len(text)-1]" else "text"
    return size ++ draw ++ ["v := " ++ call "string" [text]]

def bytesLines (fr : Frame) (f : Field) (fixed : Option (Expr × Value)) : Except Error Lines :=
  match f.contents, fixed with
  | some bs, _ => .ok ["v := " ++ byteList (bs.map byteCode)]
  | none, some (e, v) => do return ["v := " ++ (← bytesOf e v)]
  | none, none => do
    let size ← sizeLines fr f
    if f.terminator.isSome then
      return size ++ drawLines f.id "raw"
        (call "g.ctx.rand.Text" ["fzrt.Binary", "n", terminatorArg f.terminator])
        ++ ["v := raw[:len(raw)-1]"]
    else return size ++ drawLines f.id "v" (call "g.ctx.rand.Bytes" ["n"])

def baseLines (fr : Frame) (f : Field) : Except Error Lines := do
  let fixed ← fixedCode fr f
  match f.type with
  | .user u => return constructLines fr f.id u "v"
  | .prim (.int ..) => intLines f fixed
  | .prim (.float ..) => floatLines f fixed
  | .prim (.string _) => textLines fr f fixed
  | _ => bytesLines fr f fixed

def choiceType : ValueType → Option String
  | .int .. => some "int64"
  | .float _ => some "float64"
  | .str => some "string"
  | .bytes => some "[]byte"
  | _ => none

def choiceCode (fr : Frame) (t : ValueType) (e : Expr) : Except Error String := do
  let v ← fr.expr e
  if t.isFloat && v.type.isInt then return call "float64" [v.code]
  else if t = .bytes then bytesOf e v
  else if v.type.kind ≠ t.kind then throw (.choice e v.type t)
  else return v.code

def choiceLines (fr : Frame) (f : Field) : Except Error Lines :=
  let t := elementType f
  match choiceType t with
  | none => .error (.choiceField t)
  | some listed => do
    let codes ← f.choices.mapM (choiceCode fr t)
    let list := "[]" ++ listed ++ "\x7b" ++ Text.join ", " codes ++ "\x7d"
    let value := if t.isNumeric then call t.code ["c"] else "c"
    return drawLines f.id "c" (call "fzrt.Choice" ["g.ctx.rand", list]) ++ ["v := " ++ value]

def popLines (f : Field) (code : String) : Lines :=
  let t := elementType f
  let owner := (f.pool.map poolName).getD ""
  drawLines f.id "p" ("g.ctx." ++ owner ++ "." ++ code)
    ++ ["v := " ++ if t.isInt then call t.code ["p"] else "p"]

def digestValue : TypeRef → String
  | .prim (.int signed width _) =>
    let t := ValueType.int signed width
    if width = 1 then call t.code ["d[0]"]
    else call t.code [call ("binary.BigEndian.Uint" ++ toString (8 * width)) ["d"]]
  | _ => "d"

def digestLines (fr : Frame) (f : Field) : Except Error Lines :=
  match f.digest, f.input with
  | some d, some e => do
    let code ← fr.bytes e
    return drawLines f.id "d" (call "fzrt.Digest" [Text.quoted d.name, code])
      ++ ["v := " ++ digestValue f.type]
  | _, _ => .ok []

def caseLines (fr : Frame) (f : Field) (on : Expr) (c : Expr × TypePath) : Except Error Lines := do
  let v ← fr.expr (.binary .eq on c.1)
  return ("case " ++ v.code ++ ":") :: constructLines fr f.id c.2 "x" ++ ["v = x"]

def defaultLines (fr : Frame) (f : Field) (default : Option TypePath) : Except Error Lines :=
  match default with
  | some u => .ok (constructLines fr f.id u "x" ++ ["v = x"])
  | none =>
    if f.size.isSome then do
      let size ← sizeLines fr f
      return size ++ drawLines f.id "raw" (call "g.ctx.rand.Bytes" ["n"]) ++ ["v = fzrt.Raw(raw)"]
    else .ok ["v = fzrt.Empty\x7b\x7d"]

def switchLines (fr : Frame) (f : Field) : Except Error Lines :=
  match f.type with
  | .switch on cases default => do
    let arms ← cases.mapM (caseLines fr f on)
    let rest ← defaultLines fr f default
    return "var v fzrt.Encoder" :: block "switch" (arms.flatten ++ "default:" :: rest)
  | _ => .ok []

/-- Declares `v`, one element of a field in the type that holds it. -/
def valueLines (fr : Frame) (f : Field) : Except Error Lines :=
  match f.elemRole with
  | .derivedLength =>
    match f.measure with
    | some e => do
      let code ← fr.bytes e
      return ["v := " ++ call (elementType f).code [call "len" [code]]]
    | none => .ok []
  | .randomPop => .ok (popLines f "PopRandom(g.ctx.rand)")
  | .fixedPop => .ok (popLines f "PopFront()")
  | .randomChoice => choiceLines fr f
  | .checksum => digestLines fr f
  | .switch => switchLines fr f
  | _ => baseLines fr f

def processLines (fr : Frame) (f : Field) : Except Error Lines :=
  match f.process with
  | none => .ok []
  | some .zlib => .ok (drawLines f.id "wire" "fzrt.Zlib(v)")
  | some (.xor key) => do
    let k ← fr.expr key
    let code ← if k.type.isInt then pure (byteList [call "byte" [k.code]]) else bytesOf key k
    return ["wire := " ++ call "fzrt.XOR" ["v", code]]

def elementLines (fr : Frame) (f : Field) : Except Error Lines := do
  let value ← valueLines fr f
  let wire ← processLines fr f
  return value ++ wire

def assignment (place value : String) : String :=
  "g." ++ place ++ " = " ++ value

def appendLines (names : NameTable) (t : TypeDef) (f : Field) : Lines :=
  let one (place value : String) := assignment place (call "append" ["g." ++ place, value])
  one (names.member t f.id) "v"
    :: if f.process.isSome then [one (names.wire t f.id) "wire"] else []

def countLines (fr : Frame) (f : Field) (r : Repeat) : Except Error Lines :=
  match r.form with
  | .count e => do
    let v ← fr.expr e
    if !v.type.isInt then throw (.mistyped .count e v.type)
    return ("n := " ++ v.typed) :: block "if n < 0"
      ["return " ++ call "fmt.Errorf"
        [Text.quoted (f.id ++ ": repeat %d: %w"), "n", "fzrt.ErrNegativeLength"]]
  | _ => .ok (drawLines f.id "n" (countCall r.min r.max))

def indexed (fr : Frame) : Frame :=
  fr.withLocal Expr.repeatIndex ⟨"i", .word, false⟩

def loopHead (bound : String) : String :=
  "for i := int64(0); i < " ++ bound ++ "; i++"

def countedLines (fr : Frame) (f : Field) (r : Repeat) : Except Error Lines := do
  let t := fr.here
  let names := fr.plan.names
  let count ← countLines fr f r
  let make (place type : String) := assignment place (call "make" [type, "0", "n"])
  let element ← elementLines (indexed fr) f
  return count ++ [make (names.member t f.id) (storageType f).code]
    ++ (if f.process.isSome then [make (names.wire t f.id) "[][]byte"] else [])
    ++ block (loopHead "n") (element ++ appendLines names t f) ++ ["return nil"]

def untilLines (fr : Frame) (f : Field) (r : Repeat) (cond : Expr) : Except Error Lines := do
  let t := fr.here
  let names := fr.plan.names
  let inner := (indexed fr).withLocal Expr.current (.ofStored "v" (elementType f))
  let element ← elementLines inner f
  let v ← inner.expr cond
  if v.type ≠ .bool then throw (.mistyped .until cond v.type)
  let message := f.id ++ ": no terminating element in " ++ intText r.max ++ ": %w"
  return [assignment (names.member t f.id) "nil"]
    ++ (if f.process.isSome then [assignment (names.wire t f.id) "nil"] else [])
    ++ block (loopHead (intText r.max))
      (element ++ appendLines names t f ++ block ("if " ++ v.code) ["return nil"])
    ++ ["return " ++ call "fmt.Errorf" [Text.quoted message, "fzrt.ErrRepeatCap"]]

def singleLines (fr : Frame) (f : Field) : Except Error Lines := do
  let t := fr.here
  let names := fr.plan.names
  let element ← elementLines fr f
  return element ++ [assignment (names.member t f.id) "v"]
    ++ (if f.process.isSome then [assignment (names.wire t f.id) "wire"] else []) ++ ["return nil"]

def guardLines (fr : Frame) (id : String) (guard : Option Expr) : Except Error Lines :=
  match guard with
  | none => .ok []
  | some e => do
    let v ← fr.expr e
    if v.type ≠ .bool then throw (.mistyped .guard e v.type)
    let flag := fr.plan.names.flag fr.here id
    return assignment flag v.code :: block ("if !g." ++ flag) ["return nil"]

def methodHead (t : TypeDef) (name result : String) : String :=
  "func (g *" ++ typeName t.path ++ ") " ++ name ++ "() " ++ result

def ownFrame (m : Plan) (t : TypeDef) : Frame :=
  ⟨m, t, "g", []⟩

def fieldMethod (m : Plan) (t : TypeDef) (f : Field) : Except Error Lines := do
  let fr := ownFrame m t
  let guard ← Error.at_ t.path f.id "if" (guardLines fr f.id f.guard)
  let body ← Error.at_ t.path f.id f.elemRole.text (match f.repeated with
    | none => singleLines fr f
    | some r =>
      match r.form with
      | .until cond => untilLines fr f r cond
      | _ => countedLines fr f r)
  return block (methodHead t ("gen" ++ m.names.member t f.id) "error") (guard ++ body)

def instanceMethod (m : Plan) (t : TypeDef) (i : Instance) : Except Error Lines := do
  let fr := ownFrame m t
  let guard ← Error.at_ t.path i.id "if" (guardLines fr i.id i.guard)
  let v ← Error.at_ t.path i.id "value" (fr.expr i.value)
  return block (methodHead t ("gen" ++ m.names.member t i.id) "error")
    (guard ++ [assignment (m.names.member t i.id) v.typed, "return nil"])

def byteOrder : Option Endian → String
  | some .little => "LittleEndian"
  | _ => "BigEndian"

def appendNumber (width : Nat) (e : Option Endian) (bits : String) : String :=
  call ("binary." ++ byteOrder e ++ ".AppendUint" ++ toString (8 * width)) ["nil", bits]

def terminated (t : Option UInt8) (code : String) : String :=
  match t with
  | some b => call "fzrt.Concat" [code, byteList [byteCode b]]
  | none => code

def encodedCode (f : Field) (x : String) : String :=
  match f.type with
  | .prim (.int _ width e) =>
    if width = 1 then byteList [call "byte" [x]]
    else appendNumber width e (call ("uint" ++ toString (8 * width)) [x])
  | .prim (.float width e) =>
    appendNumber width e (call ("math.Float" ++ toString (8 * width) ++ "bits") [x])
  | .prim (.string _) => terminated f.terminator (call "[]byte" [x])
  | .bytes => terminated f.terminator x
  | _ => x ++ ".Bytes()"

def accessorMethod (names : NameTable) (t : TypeDef) (f : Field) : Lines :=
  let name := names.member t f.id
  let place := "g." ++ if f.process.isSome then names.wire t f.id else name
  let guard :=
    if f.guard.isSome then block ("if !g." ++ names.flag t f.id) ["return nil"] else []
  let body :=
    if f.repeated.isSome then
      "var out []byte" :: block ("for _, e := range " ++ place)
        ["out = " ++ call "append" ["out", encodedCode f "e" ++ "..."]] ++ ["return out"]
    else ["return " ++ encodedCode f place]
  ("// " ++ name ++ "Bytes returns the encoded " ++ f.id ++ " field.")
    :: block (methodHead t (name ++ "Bytes") "[]byte") (guard ++ body)

end FormatFuzz.Program
