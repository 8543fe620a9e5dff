import FormatFuzz.Primitive
import FormatFuzz.Random.Encoding
import FormatFuzz.Schema.Encode
import FormatFuzz.Schema.Fault
import FormatFuzz.Schema.Scope

/-!
# Normal schemas

Three steps bring a schema into normal form. `fillDefaults` gives every type a byte order and an
encoding, taken from the enclosing type unless it has its own, and every member the keys that its
type calls for. `spellEnums` writes every enum entry out. `resolveEndian` adds the byte order of a
type to the numeric types in it that need one. Each works on a copy. Options say what a schema
leaves open: the byte order of the host, and bounds of free sizes, of counts of elements and of
loops that run until a condition holds.
-/

set_option autoImplicit false

namespace FormatFuzz

structure Options where
  hostEndian : String := "le"
  sizeMin : Int := 0
  sizeMax : Int := 64
  repeatMin : Int := 0
  repeatMax : Int := 8
  untilMax : Int := 1024
  deriving DecidableEq, Repr

namespace Normal

def validBound (a : Attr) (key : String) (old : Option Number) : Except Fault (Option Number) :=
  match a.valid.get? key with
  | none => .ok old
  | some v =>
    match Number.ofText? v.display with
    | some n => .ok (some n)
    | none => .error (.validNumber key v.display)

def checkRange (p : Primitive) (lo hi : Number) : Except Fault Unit :=
  match lo, hi with
  | .int l, .int h =>
    let (least, greatest) := p.intBounds
    if l < least || greatest < h then .error (.range (.exceeds l h p.name least greatest))
    else if h < l then .error (.range (.reversed l h))
    else .ok ()
  | lo, hi => .error (.range (.notIntegers lo hi))

def intRange (p : Primitive) (a : Attr) : Except Fault Attr := do
  let lo ← validBound a "min" a.rangeMin
  let hi ← validBound a "max" a.rangeMax
  let (least, greatest) := p.intBounds
  let lo := lo.getD (.int least)
  let hi := hi.getD (.int greatest)
  checkRange p lo hi
  return { a with rangeMin := some lo, rangeMax := some hi }

def floatRange (a : Attr) : Attr :=
  { a with
    rangeMin := some (a.rangeMin.getD (.float (Double.infinity true)))
    rangeMax := some (a.rangeMax.getD (.float (Double.infinity false))) }

def stringKeys (terminated : Bool) (encoding : String) (a : Attr) : Except Fault Attr :=
  let name := if a.encoding = "" then encoding else a.encoding
  let canon := Encoding.canonical name
  if canon = "" then .error (.unknownEncoding name)
  else
    let terminator := if terminated && a.terminator.isNone then some 0 else a.terminator
    .ok { a with encoding := canon, terminator := terminator }

def checkType (set : SchemaSet) (sc : Scope) (name : String) : Except Fault Unit :=
  if (Primitive.ofName? name).isSome || (set.lookupType sc name).isSome then .ok ()
  else .error (.unknownType name)

def attr (set : SchemaSet) (sc : Scope) (encoding : String) (a : Attr) : Except Fault Attr :=
  match a.type with
  | none => .ok a
  | some (.switch _ cases) => do
    cases.forM fun c => checkType set sc c.2
    return a
  | some (.named "") => .ok a
  | some (.named name) =>
    match Primitive.ofName? name with
    | none => do
      checkType set sc name
      return a
    | some (.int s w e) => intRange (.int s w e) a
    | some (.float ..) => .ok (floatRange a)
    | some (.string terminated) => stringKeys terminated encoding a

def head (path : TypePath) (name endian encoding : String) (m : Meta) : Except SchemaError Meta :=
  let m := { m with
    id := if m.id = "" then name else m.id
    endian := if m.endian = "" then endian else m.endian
    encoding := if m.encoding = "" then encoding else m.encoding }
  if (Endian.ofText? m.endian).isNone then
    .error (.located path "" "meta.endian" (.invalid (.endian m.endian)))
  else
    let canon := Encoding.canonical m.encoding
    if canon = "" then .error (.located path "" "meta.encoding" (.unknownEncoding m.encoding))
    else .ok { m with encoding := canon }

def body (set : SchemaSet) (sc : Scope) (name endian encoding : String) (b : SchemaBody) :
    Except SchemaError SchemaBody := do
  let m ← head (Scope.path sc) name endian encoding b.head
  let seq ← b.seq.mapM fun a => Fault.at_ (Scope.path sc) a.id "" (attr set sc m.encoding a)
  let instances ← b.instances.mapM fun e => do
    let a ← Fault.at_ (Scope.path sc) e.1 "" (attr set sc m.encoding { e.2 with id := e.1 })
    return (e.1, a)
  return { b with head := m, seq := seq, instances := instances }

mutual

def schema (set : SchemaSet) (sc : Scope) (name endian encoding : String) :
    Schema → Except SchemaError Schema
  | .mk b ts => do
    let b ← body set sc name endian encoding b
    let ts ← schemas set sc b.head.endian b.head.encoding ts
    return .mk b ts

def schemas (set : SchemaSet) (sc : Scope) (endian encoding : String) :
    List (String × Schema) → Except SchemaError (List (String × Schema))
  | [] => .ok []
  | (name, s) :: rest => do
    let s ← schema set (Scope.child sc name s) name endian encoding s
    let rest ← schemas set sc endian encoding rest
    return (name, s) :: rest

end

end Normal

namespace SchemaSet

def mapSchemas (set : SchemaSet) (f : Schema → Except SchemaError Schema) :
    Except SchemaError SchemaSet := do
  let main ← f set.main.schema
  let imported ← set.imported.mapM fun e => do
    let s ← f e.2.schema
    return (e.1, { e.2 with schema := s })
  return ⟨{ set.main with schema := main }, imported⟩

def fresh (set : SchemaSet) : Except SchemaError SchemaSet :=
  match set.copy with
  | .ok s => .ok s
  | .error e => .error (.copy e)

/-- Every type gets a byte order and an encoding, every member what its type calls for. -/
def fillDefaults (o : Options) (set : SchemaSet) : Except SchemaError SchemaSet := do
  let set ← set.fresh
  set.mapSchemas fun s => Normal.schema set (Scope.top s) "" o.hostEndian "UTF-8" s

end SchemaSet

namespace Normal

def enumEntry (e : EnumEntry) : Except Fault EnumEntry :=
  match e.form with
  | .verbose v => if v.id = "" then .error (.enumEntry e.value .noId) else .ok e
  | .short name => .ok { e with form := .verbose ⟨name, "", []⟩ }
  | .malformed => .error (.enumEntry e.value .neither)

def enums (path : TypePath) (es : Keyed (List EnumEntry)) :
    Except SchemaError (Keyed (List EnumEntry)) :=
  es.mapM fun e => do
    let entries ← Fault.at_ path "" ("enums." ++ e.1) (e.2.mapM enumEntry)
    return (e.1, entries)

mutual

def spell (path : TypePath) : Schema → Except SchemaError Schema
  | .mk b ts => do
    let es ← enums path b.enums
    let ts ← spells path ts
    return .mk { b with enums := es } ts

def spells (path : TypePath) : List (String × Schema) → Except SchemaError (List (String × Schema))
  | [] => .ok []
  | (name, s) :: rest => do
    let s ← spell (path ++ [name]) s
    let rest ← spells path rest
    return (name, s) :: rest

end

def withEndian (endian name : String) : String :=
  match Primitive.ofName? name with
  | some p => if p.isAmbiguous then name ++ endian else name
  | none => name

def attrEndian (endian : String) (a : Attr) : Attr :=
  { a with type := a.type.map fun
      | .named name => .named (withEndian endian name)
      | .switch on cases => .switch on (cases.map fun c => (c.1, withEndian endian c.2)) }

mutual

def suffix (path : TypePath) : Schema → Except SchemaError Schema
  | .mk b ts => do
    let endian := b.head.endian
    if endian = "" then throw (.located path "" "meta.endian" .noEndian)
    let ts ← suffixes path ts
    return .mk { b with
      seq := b.seq.map (attrEndian endian)
      instances := b.instances.map fun e => (e.1, attrEndian endian e.2) } ts

def suffixes (path : TypePath) :
    List (String × Schema) → Except SchemaError (List (String × Schema))
  | [] => .ok []
  | (name, s) :: rest => do
    let s ← suffix (path ++ [name]) s
    let rest ← suffixes path rest
    return (name, s) :: rest

end

end Normal

namespace SchemaSet

def spellEnums (set : SchemaSet) : Except SchemaError SchemaSet := do
  let set ← set.fresh
  set.mapSchemas fun s => Normal.spell [s.id] s

/-- Every numeric type of more than one byte names its byte order. -/
def resolveEndian (set : SchemaSet) : Except SchemaError SchemaSet := do
  let set ← set.fresh
  set.mapSchemas fun s => Normal.suffix [s.id] s

/-- The normal form: defaults, then enums, then byte orders. -/
def normalize (o : Options) (set : SchemaSet) : Except SchemaError SchemaSet := do
  let set ← set.fillDefaults o
  let set ← set.spellEnums
  set.resolveEndian

end SchemaSet

end FormatFuzz
