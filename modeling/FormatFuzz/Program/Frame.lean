import FormatFuzz.Model.Lookup
import FormatFuzz.Program.Error

/-!
# Code of expressions

An expression becomes code in a frame: the type whose member it belongs to, the variable that holds
the object, if there is one, and local variables. The type of an instance is that of its value; an
instance whose value leads back to itself has none. Types are learned from instance to instance
before any code is made, so none is worked out twice.
-/

set_option autoImplicit false

namespace FormatFuzz.Program

/-- A model with what is settled before code is made: the names of members, and the types that
instances are known to have. -/
structure Plan extends Model where
  names : NameTable
  known : Std.HashMap (TypePath × String) ValueType

structure Frame where
  plan : Plan
  here : TypeDef
  /-- The variable that holds the object; empty outside of any object. -/
  holder : String
  locals : List (String × Value) := []

namespace Frame

def withLocal (f : Frame) (name : String) (v : Value) : Frame :=
  { f with locals := (name, v) :: f.locals }

end Frame

def treeRoot (p : TypePath) : TypePath :=
  p.take 1

def parent? (m : Model) (p : TypePath) : Option TypePath :=
  match m.users p with
  | [u] => some u
  | _ => none

abbrev Infer := TypeDef → Instance → Except Error ValueType

def memberCode (infer : Infer) (names : NameTable) (holder : String) (t : TypeDef) (id : String) :
    Except Error Value :=
  let ofInstance (code : String) (i : Instance) : Except Error Value := do
    return ⟨code, ← infer t i, false⟩
  match t.field? id, t.instance? id with
  | field, inst =>
    match inst.filter Instance.isStatic with
    | some i => ofInstance (names.static t id) i
    | none =>
      if holder = "" then .error (.expr (.name id) (.notStatic id))
      else
        let code := holder ++ "." ++ names.member t id
        match field, inst with
        | some f, _ => .ok (.ofField code f)
        | none, some i => ofInstance code i
        | none, none => .error (.unknownMember id t.path)

def outerCode (m : Model) (holder : String) (p : TypePath) (id : String) : Except Error Value :=
  if holder = "" then .error (.expr (.name id) .inStatic)
  else if id = Expr.root then .ok ⟨holder ++ ".root", .object (treeRoot p), false⟩
  else match parent? m p with
    | some u => .ok ⟨holder ++ ".parent", .object u, false⟩
    | none =>
      .error (.expr (.name id) (.ambiguousParent (qualified p) (m.users p).length))

def nameCode (infer : Infer) (f : Frame) (id : String) : Except Error Value :=
  match Keyed.get? f.locals id with
  | some v => .ok v
  | none =>
    if id = Expr.current || id = Expr.repeatIndex then .error (.expr (.name id) .notCurrent)
    else if id = Expr.stream then .error (.expr (.name id) .stream)
    else if id = Expr.root || id = Expr.parent then outerCode f.plan.toModel f.holder f.here.path id
    else memberCode infer f.plan.names f.holder f.here id

def builtinAttr (v : Value) (id : String) : Option Value :=
  let word (code : String) : Option Value := some ⟨code, .word, false⟩
  let length (code : String) := word (call "int64" [call "len" [code]])
  let pick (f : String) : Option Value :=
    match v.type with
    | .list elem => some (.ofStored (call f [v.code]) elem)
    | .bytes => word (call "int64" [call f [v.code]])
    | _ => none
  match id, v.type with
  | "length", .str => word (call "int64" [call "utf8.RuneCountInString" [v.code]])
  | "size", .str => length v.code
  | "first", _ => pick "fzrt.First"
  | "last", _ => pick "fzrt.Last"
  | "to_s", .int .. => some ⟨call "strconv.FormatInt" [v.typed, "10"], .str, false⟩
  | "to_i", .str => word (call "fzrt.ToI" [v.code])
  | "to_i", .float _ => word (call "int64" [v.code])
  | "to_i", .int .. => some v
  | "to_i", .bool => word (call "fzrt.Bool" [v.code])
  | id, t =>
    if id = "size" || id = "length" then
      match t with
      | .list _ => length v.code
      | .bytes => length v.code
      | .object _ => length (v.code ++ ".Bytes()")
      | .encoder => length (v.code ++ ".Bytes()")
      | _ => none
    else none

def attrCode (infer : Infer) (m : Plan) (x : Expr) (v : Value) (id : String) :
    Except Error Value :=
  let builtin : Except Error Value :=
    match builtinAttr v id with
    | some w => .ok w
    | none => .error (.expr (.attr x id) (.noAttribute id v.type))
  match v.type with
  | .object p =>
    match m.find? p with
    | some t =>
      if (t.field? id).isSome || (t.instance? id).isSome then
        memberCode infer m.names v.code t id
      else if id = Expr.parent || id = Expr.root then outerCode m.toModel v.code p id
      else builtin
    | none => builtin
  | _ => builtin

def indexCode (e : Expr) (v i : Value) : Except Error Value :=
  if !i.type.isInt then .error (.expr e .indexType)
  else
    let element := call "fzrt.At" [v.code, i.code]
    match v.type with
    | .list elem => .ok (.ofStored element elem)
    | .bytes => .ok ⟨call "int64" [element], .word, false⟩
    | t => .error (.expr e (.notIndexable t))

def unaryCode (e : Expr) (op : UnaryOp) (v : Value) : Except Error Value :=
  match op, v.type with
  | .neg, .int .. => .ok { v with code := "(-" ++ v.code ++ ")" }
  | .neg, .float _ => .ok { v with code := "(-" ++ v.code ++ ")" }
  | .compl, .int .. => .ok { v with code := "(^" ++ v.code ++ ")" }
  | .not, .bool => .ok { v with code := "(!" ++ v.code ++ ")" }
  | op, t => .error (.expr e (.unary op t))

def between (op : BinaryOp) (a b : Value) (t : ValueType) (untyped : Bool) : Value :=
  ⟨"(" ++ a.code ++ " " ++ op.text ++ " " ++ b.code ++ ")", t, untyped⟩

inductive OpClass where
  | add
  | arithmetic
  | division
  | bitwise
  | logical
  | equality
  | order
  deriving DecidableEq, Repr

def opClass : BinaryOp → OpClass
  | .add => .add
  | .sub => .arithmetic
  | .mul => .arithmetic
  | .div => .division
  | .mod => .division
  | .shl => .bitwise
  | .shr => .bitwise
  | .bitAnd => .bitwise
  | .bitOr => .bitwise
  | .bitXor => .bitwise
  | .and => .logical
  | .or => .logical
  | .eq => .equality
  | .ne => .equality
  | .lt => .order
  | .le => .order
  | .gt => .order
  | .ge => .order

def divisionCode (op : BinaryOp) (a b : Value) (untyped : Bool) : Value :=
  if a.type.isFloat then
    if op = .mod then ⟨call "math.Mod" [a.typed, b.typed], .double, false⟩
    else between op a b .double untyped
  else ⟨call (if op = .mod then "fzrt.Mod" else "fzrt.Div") [a.code, b.code], .word, false⟩

def binaryCode (e : Expr) (op : BinaryOp) (a b : Value) : Except Error Value :=
  let untyped := a.untyped && b.untyped
  let mismatch : Except Error Value := .error (.expr e (.binary op a.type b.type))
  let numeric := a.type.isNumeric && b.type.isNumeric
  let (x, y) := Value.promote a b
  let arithmetic := if numeric then .ok (between op x y x.type untyped) else mismatch
  match opClass op, a.type, b.type with
  | .add, .str, .str => .ok (between op a b .str untyped)
  | .add, .bytes, .bytes => .ok ⟨call "fzrt.Concat" [a.code, b.code], .bytes, false⟩
  | .add, _, _ => arithmetic
  | .arithmetic, _, _ => arithmetic
  | .division, _, _ => if numeric then .ok (divisionCode op x y untyped) else mismatch
  | .bitwise, _, _ =>
    if a.type.isInt && b.type.isInt then .ok (between op a b .word untyped) else mismatch
  | .logical, .bool, .bool => .ok (between op a b .bool untyped)
  | .logical, _, _ => mismatch
  | .equality, .bool, .bool => .ok (between op a b .bool untyped)
  | _, .str, .str => .ok (between op a b .bool untyped)
  | _, .bytes, .bytes =>
    .ok ⟨"(" ++ call "bytes.Compare" [a.code, b.code] ++ " " ++ op.text ++ " 0)", .bool, false⟩
  | _, _, _ => if numeric then .ok (between op x y .bool untyped) else mismatch

def condCode (e : Expr) (c a b : Value) : Except Error Value :=
  let (x, y) := Value.promote a b
  if x.type.kind ≠ y.type.kind || x.type.code ≠ y.type.code then
    .error (.expr e (.branches x.type y.type))
  else .ok ⟨call "fzrt.If" [c.code, x.typed, y.typed], x.type, false⟩

/-- The code of an element of a list literal; the list is one of bytes. -/
def elementCode (whole x : Expr) (v : Value) : Except Error String :=
  if !v.type.isInt then .error (.expr whole .listElement)
  else match x with
    | .int n =>
      if n < 0 || 255 < n then .error (.expr whole (.notByte n))
      else .ok (byteCode (UInt8.ofNat n.toNat))
    | _ => .ok (call "byte" [v.code])

mutual

def exprCode (infer : Infer) (f : Frame) : Expr → Except Error Value
  | .int v => .ok (.ofInt v)
  | .float x => .ok (.ofDouble x)
  | .str s => .ok ⟨Text.quoted s, .str, true⟩
  | .bool b => .ok ⟨if b then "true" else "false", .bool, true⟩
  | .name id => nameCode infer f id
  | .member path id =>
    match f.plan.lookupMember f.here.path path id with
    | .ok (e, m) => .ok ⟨memberConst e m.id, .word, false⟩
    | .error e => .error (.enum e)
  | .attr x id => do
    let v ← exprCode infer f x
    attrCode infer f.plan x v id
  | .index x i => do
    let v ← exprCode infer f x
    let w ← exprCode infer f i
    indexCode (.index x i) v w
  | .unary op x => do
    let v ← exprCode infer f x
    unaryCode (.unary op x) op v
  | .binary op x y => do
    let a ← exprCode infer f x
    let b ← exprCode infer f y
    binaryCode (.binary op x y) op a b
  | .cond c x y => do
    let v ← exprCode infer f c
    if v.type ≠ .bool then throw (.expr (.cond c x y) .condition)
    let a ← exprCode infer f x
    let b ← exprCode infer f y
    condCode (.cond c x y) v a b
  | .list xs => do
    let codes ← listCodes infer f (.list xs) xs
    return ⟨byteList codes, .bytes, false⟩
  | .absent => .error (.expr .absent .missing)

def listCodes (infer : Infer) (f : Frame) (whole : Expr) : List Expr → Except Error (List String)
  | [] => .ok []
  | x :: xs => do
    let v ← exprCode infer f x
    let code ← elementCode whole x v
    let codes ← listCodes infer f whole xs
    return code :: codes

end

namespace Plan

def instanceFrame (m : Plan) (t : TypeDef) (i : Instance) : Frame :=
  ⟨m, t, if i.isStatic then "" else "g", []⟩

def learn (m : Plan) (p : TypeDef × Instance) : Plan :=
  let lookUp : Infer := fun t i =>
    match m.known[(t.path, i.id)]? with
    | some type => .ok type
    | none => .error (.selfReference i.id)
  match exprCode lookUp (m.instanceFrame p.1 p.2) p.2.value with
  | .ok v => { m with known := m.known.insert (p.1.path, p.2.id) v.type }
  | .error _ => m

/-- Goes through instances forward and back until nothing is learned, `fuel` times at most. -/
def settle (instances : List (TypeDef × Instance)) : Nat → Plan → Plan
  | 0, m => m
  | fuel + 1, m =>
    let isNew (p : TypeDef × Instance) : Bool := !m.known.contains (p.1.path, p.2.id)
    let left := instances.filter isNew
    let next := (left ++ left.reverse).foldl learn m
    if next.known.size = m.known.size then m else settle left fuel next

def ofModel (m : Model) : Plan :=
  let instances := m.types.flatMap fun t => t.instances.map fun i => (t, i)
  settle instances (instances.length + 1) ⟨m, .ofTypes m.types, ∅⟩

end Plan

/-- The type of an instance. One that was not learned has none; what its value lacks is looked up
through the instances in `open_`, at most `fuel` more of them. -/
def inferWith (m : Plan) : Nat → List (TypePath × String) → Infer
  | 0, _, _, i => .error (.selfReference i.id)
  | fuel + 1, open_, t, i =>
    match m.known[(t.path, i.id)]? with
    | some type => .ok type
    | none =>
      if (t.path, i.id) ∈ open_ then .error (.selfReference i.id)
      else
        let inner := inferWith m fuel ((t.path, i.id) :: open_)
        match exprCode inner (m.instanceFrame t i) i.value with
        | .ok v => .ok v.type
        | .error e => .error (.located t.path i.id "value" e)

def infer (m : Plan) : Infer :=
  inferWith m ((m.types.flatMap TypeDef.instances).length + 1) []

def Frame.expr (f : Frame) (e : Expr) : Except Error Value :=
  exprCode (infer f.plan) f e

def bytesOf (e : Expr) (v : Value) : Except Error String :=
  match v.type with
  | .bytes => .ok v.code
  | .str => .ok (call "[]byte" [v.code])
  | .object _ => .ok (v.code ++ ".Bytes()")
  | .encoder => .ok (v.code ++ ".Bytes()")
  | t => .error (.expr e (.notBytes t))

def accessor (names : NameTable) (holder : String) (t : TypeDef) (id : String) : String :=
  holder ++ "." ++ names.member t id ++ "Bytes()"

def fieldBytes? (f : Frame) (e : Expr) : Except Error (Option String) :=
  match e with
  | .name id =>
    if (Keyed.get? f.locals id).isNone && !Expr.isReserved id && (f.here.field? id).isSome then
      .ok (some (accessor f.plan.names f.holder f.here id))
    else .ok none
  | .attr x id => do
    let v ← f.expr x
    match v.type with
    | .object p =>
      match f.plan.find? p with
      | some t =>
        return if (t.field? id).isSome then some (accessor f.plan.names v.code t id)
          else none
      | none => return none
    | _ => return none
  | _ => .ok none

def leafBytes (f : Frame) (e : Expr) : Except Error String := do
  match ← fieldBytes? f e with
  | some code => return code
  | none => bytesOf e (← f.expr e)

/-- Code as an argument of a concatenation: if it is a concatenation itself, the arguments of that. -/
def spliced (code : String) : String :=
  match Text.dropPrefix? code "fzrt.Concat(" with
  | some inner => (Text.dropSuffix? inner ")").getD inner
  | none => code

/-- The encoded form of what an expression refers to; a sum joins the forms of its operands. -/
def Frame.bytes (f : Frame) : Expr → Except Error String
  | .binary op x y =>
    if op = .add then do
      let left ← f.bytes x
      let right ← f.bytes y
      return call "fzrt.Concat" [spliced left, spliced right]
    else leafBytes f (.binary op x y)
  | e => leafBytes f e

end FormatFuzz.Program
