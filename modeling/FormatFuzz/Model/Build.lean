import FormatFuzz.Double.Basic
import FormatFuzz.Model.Lookup
import FormatFuzz.Schema.Normal
import FormatFuzz.Text.Characters

/-!
# Models from normal schemas

Types come first, then their enums, then their pools, then their members: the members of any type
may refer to what the others declare. The role of every field is decided here. Whenever the type of
a field leads to a user type, the type that the field is in is noted as a user of that one.
-/

set_option autoImplicit false

namespace FormatFuzz

namespace Build

/-- The expression of a value, with its faults as faults of the schema. -/
def expr? (v : Value) : Except Fault (Option Expr) :=
  match Expr.ofValue v with
  | .ok e => .ok e
  | .error e => .error (.expr e)

def exprOr (fault : Misuse) (v : Value) : Except Fault Expr := do
  match ← expr? v with
  | some e => return e
  | none => throw (.invalid fault)

mutual

def shells (path : TypePath) : Schema → List (TypeDef × SchemaBody)
  | .mk b ts =>
    ({ path := path, doc := b.doc, docRef := b.docRef, endian := b.head.endian,
       encoding := b.head.encoding }, b) :: nestedShells path ts

def nestedShells (path : TypePath) : List (String × Schema) → List (TypeDef × SchemaBody)
  | [] => []
  | (name, s) :: rest => shells (path ++ [name]) s ++ nestedShells path rest

end

def allShells (s : SchemaSet) : List (TypeDef × SchemaBody) :=
  shells [s.main.schema.id] s.main.schema
    ++ s.imported.flatMap fun e => shells [e.1] e.2.schema

def addMember (ms : List EnumMember) (e : EnumEntry) : Except Fault (List EnumMember) :=
  match e.form with
  | .verbose v =>
    if ms.any fun m => m.id == v.id then .error (.duplicateMember v.id)
    else .ok (ms ++ [⟨e.value, v.id, v.doc, v.docRef⟩])
  | _ => .error (.enumEntry e.value .notNormalized)

def enums (path : TypePath) (es : Keyed (List EnumEntry)) : Except SchemaError (List EnumDef) :=
  es.mapM fun e => do
    let ms ← Fault.at_ path "" ("enums." ++ e.1) (e.2.foldlM addMember [])
    return ⟨e.1, ms⟩

def poolEntryKind (m : Model) (path : TypePath) (index : Nat) : Option Expr → Except Fault Kind
  | some (.int _) => .ok .int
  | some (.str _) => .ok .string
  | some (.member p id) => do
    let _ ← m.lookupMember path p id
    return .int
  | _ => .error (.invalid (.poolEntry index))

/-- Reads the entries of a pool one after the other; all have the kind of the first. -/
def poolEntries (m : Model) (path : TypePath) : Nat → Option Kind → List Value →
    Except Fault (Option Kind × List Expr)
  | _, kind, [] => .ok (kind, [])
  | i, kind, v :: vs => do
    let e ← expr? v
    let k ← poolEntryKind m path i e
    if kind.any (· != k) then throw (.invalid .mixedPool)
    let (kind, es) ← poolEntries m path (i + 1) (some k) vs
    return (kind, e.toList ++ es)

def pool (m : Model) (path : TypePath) (order : List Value) :
    Except SchemaError (Option PoolDef) := do
  match ← Fault.at_ path "" "-fz-order" (poolEntries m path 0 none order) with
  | (some kind, es) => return some ⟨kind, es⟩
  | (none, _) => return none

abbrev Users := TypePath → List TypePath

def Users.note (us : Users) (user type : TypePath) : Users := fun p =>
  if p = type then distinctOnto (us p) [user] else us p

def findType (m : Model) (here : TypePath) (name : String) : Except Fault TypeRef :=
  match Primitive.ofName? name with
  | some p => if p.isAmbiguous then .error (.noTypeEndian name) else .ok (.prim p)
  | none =>
    match m.lookupType here name with
    | some p => .ok (.user p)
    | none => .error (.unknownType name)

/-- Finds the type of a name; if it is a user type, it is used here. -/
def namedType (m : Model) (here : TypePath) (name : String) :
    StateT Users (Except Fault) TypeRef := do
  let type ← findType m here name
  if let .user p := type then modify fun us => us.note here p
  return type

section

variable {M : Type → Type} [Monad M] [MonadLiftT (Except Fault) M] (named : String → M TypeRef)

/-- A case of a switch: the user type of its name under the expression of its key. -/
def caseType (key name : String) : M TypePath := do
  match ← named name with
  | .user p => return p
  | _ => (.error (.invalid (.caseType key name)) : Except Fault TypePath)

def switchCases : List (String × String) → M (List (Expr × TypePath) × Option TypePath)
  | [] => return ([], none)
  | (key, name) :: rest => do
    let p ← caseType named key name
    if key = "_" then
      let (cases, _) ← switchCases rest
      return (cases, some p)
    else
      match Expr.parse key with
      | .error e => (.error (.caseKey key e) : Except Fault _)
      | .ok x =>
        let (cases, default) ← switchCases rest
        return ((x, p) :: cases, default)

def typeRef (a : Attr) : M TypeRef :=
  match a.type with
  | some (.switch on cases) => do
    let on ← exprOr .noSwitchOn on
    let (cases, default) ← switchCases named cases
    return .switch on cases default
  | some (.named "") => return .bytes
  | some (.named name) => named name
  | none => return .bytes

end

def anyOf? (a : Attr) : Option (List Value) :=
  match a.valid.get? "any-of" with
  | some (.list xs) => some xs
  | _ => none

def role (element : Bool) (a : Attr) : Role :=
  if !a.attrLen.isNull then .derivedLength
  else if !element && a.repeated ≠ "" then .repeated
  else if a.randOrderPop then .randomPop
  else if a.orderPop then .fixedPop
  else if !a.choice.isEmpty || (anyOf? a).isSome then .randomChoice
  else if !a.checksums.isEmpty then .checksum
  else if a.isSwitch then .switch
  else .base

def repeatForm (a : Attr) : Except Fault RepeatForm :=
  if a.repeated = "expr" then do return .count (← exprOr .noCount a.repeatExpr)
  else if a.repeated = "until" then do return .until (← exprOr .noCondition a.repeatUntil)
  else if a.repeated = "eos" then .ok .eos
  else .error (.invalid (.repeatForm a.repeated))

def repeatDefaults (o : Options) : RepeatForm → Int × Int
  | .count _ => (0, 0)
  | .until _ => (1, o.untilMax)
  | .eos => (o.repeatMin, o.repeatMax)

def repetition (o : Options) (a : Attr) : Except Fault Repeat := do
  let form ← repeatForm a
  let (lo, hi) := repeatDefaults o form
  let lo := a.repeatMin.getD lo
  let hi := a.repeatMax.getD hi
  if lo < 0 || hi < lo || (form.until?.isSome && hi < 1) then
    throw (.range (.repeatBounds lo hi))
  return ⟨form, lo, hi⟩

def fixedValue (valid : Value) : Except Fault (Option Expr) :=
  match valid with
  | .map _ => expr? ((valid.get? "eq").getD .null)
  | v => expr? v

def enumId (m : Model) (here : TypePath) (type : TypeRef) (name : String) :
    Except Fault (Option EnumId) :=
  if name = "" then .ok none
  else if type.kind ≠ .int then .error (.invalid (.enumKind type.kind))
  else match m.lookupEnum here (Text.splitOn name "::") with
    | some (e, _) => .ok (some e)
    | none => .error (.unknownEnum name)

def contentsItem (i : Nat) : Value → Except Fault (List UInt8)
  | .str s => .ok (Text.utf8 s)
  | .int v =>
    if v < 0 || 255 < v then .error (.contentsByte v i) else .ok [UInt8.ofNat v.toNat]
  | v => .error (.invalid (.contentsItem v.typeName i))

def contentsItems : Nat → List Value → Except Fault (List UInt8)
  | _, [] => .ok []
  | i, v :: vs => do
    let bs ← contentsItem i v
    let rest ← contentsItems (i + 1) vs
    return bs ++ rest

def contents : Value → Except Fault (Option (List UInt8))
  | .null => .ok none
  | .str s => .ok (some (Text.utf8 s))
  | .int v =>
    if v < Word.half then (contentsItems 0 [.int v]).map some else .error (.invalid .contentsForm)
  | .list vs => (contentsItems 0 vs).map some
  | _ => .error (.invalid .contentsForm)

def process (s : String) : Except Fault (Option Process) :=
  if s = "" then .ok none
  else
    let t := Text.trim s
    match Text.cut t "(" with
    | none => if t = "zlib" then .ok (some .zlib) else .error (.invalid (.process s))
    | some (name, arg) =>
      match name == "xor", Text.dropSuffix? arg ")" with
      | true, some key =>
        match Expr.parse key with
        | .ok x => .ok (some (.xor x))
        | .error e => .error (.expr (.malformed e))
      | _, _ => .error (.invalid (.process s))

/-- The terminator of a text or of bytes; minus one stands for none. -/
def terminator (type : TypeRef) (t : Option Int) : Except Fault (Option UInt8) :=
  match type.kind, t with
  | .bytes, some n => byte n
  | .string, some n => byte n
  | _, _ => .ok none
where
  byte (n : Int) : Except Fault (Option UInt8) :=
    if n = -1 then .ok none
    else if n < 0 || 255 < n then .error (.range (.terminator n))
    else .ok (some (UInt8.ofNat n.toNat))

def checkSize (terminated : Bool) : Option Expr → Except Fault Unit
  | some (.int n) =>
    if n < 0 then .error (.range (.negativeSize n))
    else if terminated && n = 0 then .error .terminatorFit
    else .ok ()
  | _ => .ok ()

/-- The size of a field, none if it has no way to get one. A terminator takes at least one byte. -/
def size (o : Options) (a : Attr) (terminated : Bool) : Except Fault (Option Size) := do
  let lo := a.sizeMin.getD o.sizeMin
  let hi := a.sizeMax.getD o.sizeMax
  if lo < 0 || hi < lo then throw (.range (.sizeBounds lo hi))
  let declared ← expr? a.size
  checkSize terminated declared
  if declared.isNone && !a.sizeEos && !terminated then return none
  let (lo, hi) := if terminated && lo < 1 then (1, max hi 1) else (lo, hi)
  return some ⟨declared, lo, hi⟩

/-- A choice: a bare name is a member of the enum of the field. -/
def choice (m : Model) (here : TypePath) (enum : Option EnumId) (v : Value) :
    Except Fault Expr := do
  let e ← expr? v
  let e := match e, enum with
    | some (.name id), some en => some (Expr.member (m.enumPath here en) id)
    | e, _ => e
  match e with
  | some (.member p id) =>
    let _ ← m.lookupMember here p id
    return .member p id
  | some e => return e
  | none => return .absent

def choices (m : Model) (here : TypePath) (enum : Option EnumId) (a : Attr) :
    Except Fault (List Expr) :=
  let raw := if a.choice.isEmpty then (anyOf? a).getD [] else a.choice
  raw.mapM (choice m here enum)

def checkDigest (d : Digest) (type : TypeRef) (size : Option Size) : Except Fault Unit :=
  match type with
  | .prim (.int s w e) =>
    if w ≠ d.size then .error (.invalid (.digestType d (Primitive.int s w e).name)) else .ok ()
  | .bytes =>
    match size with
    | some ⟨some (.int n), _, _⟩ =>
      if n ≠ d.size then .error (.invalid (.digestSize d n)) else .ok ()
    | _ => .ok ()
  | t => .error (.invalid (.checksumKind t.kind))

def checksum (a : Attr) (type : TypeRef) (size : Option Size) : Except Fault (Digest × Expr) :=
  match a.checksums with
  | [(name, input)] =>
    match Digest.ofName? name with
    | none => .error (.unknownDigest name)
    | some d => do
      let input ← exprOr .noChecksumInput input
      checkDigest d type size
      return (d, input)
  | _ => .error (.invalid .manyChecksums)

def fieldPool (m : Model) (here : TypePath) (type : TypeRef) : Except Fault TypePath :=
  match m.poolOwner? here with
  | none => .error .noPool
  | some (p, d) =>
    if d.kind ≠ type.kind then .error (.invalid (.poolKind type.kind d.kind)) else .ok p

def measure (a : Attr) (type : TypeRef) : Except Fault (Option Expr) :=
  if type.kind ≠ .int then .error (.invalid (.measureType type.name)) else expr? a.attrLen

def checkLength (f : Field) : Except Fault Unit :=
  match f.type with
  | .bytes =>
    if f.contents.isNone && f.size.isNone && f.fixed.isNone then .error .missingSize else .ok ()
  | .prim (.string _) => if f.size.isNone && f.fixed.isNone then .error .missingSize else .ok ()
  | _ => .ok ()

def elementKeys (m : Model) (here : TypePath) (a : Attr) (f : Field) : Except SchemaError Field :=
  let at_ {α : Type} (key : String) (r : Except Fault α) := Fault.at_ here a.id key r
  match f.elemRole with
  | .derivedLength => do
    return { f with measure := ← at_ "-fz-attr-len" (measure a f.type) }
  | .randomPop | .fixedPop => do
    return { f with pool := some (← at_ "-fz-order-pop" (fieldPool m here f.type)) }
  | .randomChoice => do
    return { f with choices := ← at_ "-fz-choice" (choices m here f.enum a) }
  | .checksum => do
    let (d, input) ← at_ (Attr.digestKey ++ "*") (checksum a f.type f.size)
    return { f with digest := some d, input := some input }
  | .base => do
    at_ "size" (checkLength f)
    return f
  | _ => .ok f

def range (type : TypeRef) (a : Attr) : Except Fault (Option (Int × Int)) :=
  if type.kind ≠ .int then .ok none
  else match a.rangeMin, a.rangeMax with
    | some (.int lo), some (.int hi) => .ok (some (lo, hi))
    | _, _ => .error (.range .unset)

def hasSize (type : TypeRef) : Bool :=
  type.kind == .bytes || type.kind == .string || type.kind == .switch

def fieldOf (o : Options) (m : Model) (here : TypePath) (a : Attr) (type : TypeRef) :
    Except SchemaError Field := do
  let at_ {α : Type} (key : String) (r : Except Fault α) := Fault.at_ here a.id key r
  let guard ← at_ "if" (expr? a.guard)
  let fieldRole := role false a
  let repeated ←
    if fieldRole = .repeated then (at_ "repeat" (repetition o a)).map some else pure none
  let elemRole := if fieldRole = .repeated then role true a else fieldRole
  let fixed ← at_ "valid" (fixedValue a.valid)
  let enum ← at_ "enum" (enumId m here type a.enum)
  let range ← at_ "-fz-range-min" (range type a)
  let isBytes := type.kind == .bytes
  let contents ← if isBytes then at_ "contents" (contents a.contents) else pure none
  let process ← if isBytes then at_ "process" (process a.process) else pure none
  let terminator ← at_ "terminator" (terminator type a.terminator)
  if !a.contents.isNull && !isBytes then
    throw (.located here a.id "contents" (.invalid (.contentsKind type.kind)))
  let size ← if hasSize type then at_ "size" (size o a terminator.isSome) else pure none
  elementKeys m here a
    { id := a.id, doc := a.doc, docRef := a.docRef, type := type, role := fieldRole,
      elemRole := elemRole, guard := guard, repeated := repeated, range := range, fixed := fixed,
      enum := enum, contents := contents, size := size,
      encoding := if type.kind = .string then a.encoding else "",
      terminator := terminator, process := process }

def field (o : Options) (m : Model) (here : TypePath) (a : Attr) :
    StateT Users (Except SchemaError) Field := fun us => do
  if a.id = "" then throw (.located here "" "id" (.invalid .noId))
  let (type, us) ← Fault.at_ here a.id "type" (typeRef (namedType m here) a us)
  let f ← fieldOf o m here a type
  return (f, us)

def «instance» (here : TypePath) (id : String) (a : Attr) : Except SchemaError Instance := do
  let value ← Fault.at_ here id "value" (exprOr .noInstanceValue a.value)
  let guard ← Fault.at_ here id "if" (expr? a.guard)
  return { id := id, doc := a.doc, docRef := a.docRef, value := value, guard := guard }

def members (o : Options) (m : Model) (x : TypeDef × SchemaBody) :
    StateT Users (Except SchemaError) TypeDef := do
  let fields ← x.2.seq.mapM (field o m x.1.path)
  let instances ← (x.2.instances.mapM fun e => «instance» x.1.path e.1 e.2 :
    Except SchemaError (List Instance))
  return { x.1 with fields := fields, instances := instances }

end Build

/-- The model of a normal schema. Names are not resolved yet. -/
def Model.build (o : Options) (s : SchemaSet) : Except SchemaError Model := do
  let shells ← (Build.allShells s).mapM fun (t, b) => do
    return ({ t with enums := ← Build.enums t.path b.enums }, b)
  let m : Model := ⟨shells.map Prod.fst⟩
  let shells ← shells.mapM fun (t, b) => do
    return ({ t with pool := ← Build.pool m t.path b.order }, b)
  let m : Model := ⟨shells.map Prod.fst⟩
  let (types, users) ← shells.mapM (Build.members o m) fun _ => []
  return ⟨types.map fun t => { t with users := users t.path }⟩

end FormatFuzz
