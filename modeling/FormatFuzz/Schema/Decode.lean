import FormatFuzz.Double.Basic
import FormatFuzz.Schema.Basic
import FormatFuzz.Text.Characters
import FormatFuzz.Yaml.Field

/-!
# Schemas from nodes

Decoding goes through the entries of a mapping in their order. A value of the wrong type is noted
and decoding goes on; a fault of the schema's own making ends it at once. A null leaves a key unset.
-/

set_option autoImplicit false

namespace FormatFuzz

namespace Decode

open Yaml (Node)

inductive Error where
  | malformed
  | mismatch
  | noMapping (line : Nat)
  | noEnumMapping (line : Nat)
  | enumKey (line : Nat) (key : String)
  | noNumber (line : Nat)
  | badNumber (line : Nat) (text : String)
  | typeForm (line : Nat)
  | inKey (key : String) (e : Error)
  | atLine (line : Nat) (e : Error)
  deriving DecidableEq, Repr

def Error.isMismatch : Error → Bool
  | .mismatch => true
  | .inKey _ e => e.isMismatch
  | .atLine _ e => e.isMismatch
  | _ => false

def Error.isMalformed : Error → Bool
  | .malformed => true
  | .inKey _ e => e.isMalformed
  | .atLine _ e => e.isMalformed
  | _ => false

def lineText (line : Nat) : String := "line " ++ toString line ++ ": "

def Error.message : Error → String
  | .malformed => "malformed text"
  | .mismatch => "value of the wrong type"
  | .noMapping line => lineText line ++ "expected a mapping"
  | .noEnumMapping line => lineText line ++ "enum must be a mapping"
  | .enumKey line key =>
    lineText line ++ "enum key " ++ Text.quoted key ++ " is not a 64-bit integer"
  | .noNumber line => lineText line ++ "expected a number"
  | .badNumber line text => lineText line ++ Number.invalidMessage text
  | .typeForm line => lineText line ++ "type must be a name or a switch"
  | .inKey key e => "key " ++ Text.quoted key ++ ": " ++ e.message
  | .atLine line e => lineText line ++ e.message

end Decode

/-- A decoder notes in its state that a value had the wrong type. -/
abbrev Decoder := StateT Bool (Except Decode.Error)

namespace Decode

open Yaml (Node)

def mismatch {α : Type} (default : α) : Decoder α := do
  set true
  return default

def alone {α : Type} (d : Decoder α) : Except Error α :=
  match d.run false with
  | .error e => .error e
  | .ok (a, false) => .ok a
  | .ok (_, true) => .error .mismatch

def inner {α : Type} (default : α) (d : Decoder α) : Decoder α :=
  match alone d with
  | .ok a => pure a
  | .error .mismatch => mismatch default
  | .error e => throw e

def fail {α : Type} (e : Error) : Decoder α := throw e

def string (n : Node) : Decoder String :=
  match n with
  | .scalar _ _ t => if n.isNull then return "" else return t
  | _ => mismatch ""

/-- An integer from a value; a float is cut off, one beyond the range counts as the least. -/
def intOf? (v : Value) : Option Int :=
  match v with
  | .int i => if i < Word.half then some i else none
  | .float x =>
    if x.isNaN then none
    else if x.isInfinite then (if x.negative then some (-Word.half) else none)
    else
      let i := x.truncate
      if i < -Word.half || i = Word.half then some (-Word.half)
      else if i < Word.half then some i else none
  | _ => none

def int? (n : Node) : Decoder (Option Int) :=
  match n with
  | .scalar _ style t =>
    if n.isNull then return none
    else match intOf? (Node.scalarValue style t) with
      | some i => return some i
      | none => mismatch none
  | _ => mismatch none

/-- An unsigned integer from a value; a negative float wraps around. -/
def uintOf? (v : Value) : Option Nat :=
  match v with
  | .int i => if 0 ≤ i then some i.toNat else none
  | .float x =>
    if x.isNaN then none
    else if x.isInfinite then (if x.negative then some Word.half else none)
    else
      let i := x.truncate
      if i < -Word.half then some Word.half
      else if i ≤ Word.size then some (if i = Word.size then Word.half else (i % Word.size).toNat)
      else none
  | _ => none

def uint? (n : Node) : Decoder (Option Nat) :=
  match n with
  | .scalar _ style t =>
    if n.isNull then return none
    else match uintOf? (Node.scalarValue style t) with
      | some i => return some i
      | none => mismatch none
  | _ => mismatch none

def boolOf? (v : Value) : Option Bool :=
  match v with
  | .bool b => some b
  | .str s =>
    if s ∈ ["y", "Y", "yes", "Yes", "YES", "on", "On", "ON"] then some true
    else if s ∈ ["n", "N", "no", "No", "NO", "off", "Off", "OFF"] then some false
    else none
  | _ => none

def bool (n : Node) : Decoder Bool :=
  match n with
  | .scalar _ style t =>
    if n.isNull then return false
    else match boolOf? (Node.scalarValue style t) with
      | some b => return b
      | none => mismatch false
  | _ => mismatch false

def strings (n : Node) : Decoder (List String) :=
  match n with
  | .seq _ xs => (xs.filter fun x => !x.isNull).mapM string
  | n => if n.isNull then return [] else mismatch []

def docRef (n : Node) : Decoder (List String) :=
  match n with
  | .scalar _ _ t => if n.isNull then return [] else return [t]
  | n => inner [] (strings n)

def keyName (k : Node) : Decoder (Option String) :=
  match k with
  | .scalar _ _ t => if k.isNull then return none else return some t
  | _ => mismatch none

/-- Goes through the fields of a mapping, each changing what was there before. -/
def fields {α : Type} (entry : α → Node → Node → Decoder α) (start : α) (fs : List Yaml.Field) :
    Decoder α :=
  fs.foldlM (fun a f =>
    match f with
    | .entry k v => entry a k v
    | .clash => mismatch a
    | .noMerge => fail .malformed) start

def named {α : Type} (set : α → String → Node → Decoder α) (a : α) (k v : Node) : Decoder α := do
  match ← keyName k with
  | some name => set a name v
  | none => pure a

def record {α : Type} (empty : α) (set : α → String → Node → Decoder α) (n : Node) : Decoder α :=
  match n with
  | .map _ es => fields (named set) empty (Yaml.Field.ofEntries true es)
  | n => if n.isNull then return empty else mismatch empty

def setKey (key v : Value) : List (Value × Value) → List (Value × Value)
  | [] => [(key, v)]
  | e :: es => if e.1.sameKey key then (e.1, v) :: es else e :: setKey key v es

/-- An entry of a mapping with keys of any kind; a collection is no key. -/
def tableEntry (value : Node → Decoder Value) (es : List (Value × Value)) (k v : Node) :
    Decoder (List (Value × Value)) := do
  let key ← value k
  if key.isCollection then fail .malformed
  else return setKey key (← value v) es

def valueWithin : Nat → Node → Decoder Value
  | 0, _ => fail .malformed
  | n + 1, x =>
    match x with
    | .scalar _ style t => pure (Node.scalarValue style t)
    | .seq _ xs => do return .list (← xs.mapM (valueWithin n))
    | .map _ es =>
      if es.all fun e => e.1.isString || e.1.isMerge then do
        let set := named fun m key v => do return Keyed.set m key (← valueWithin n v)
        return .map (← fields set [] (Yaml.Field.ofEntries true es))
      else do
        return .table (← fields (tableEntry (valueWithin n)) [] (Yaml.Field.ofEntries false es))

def value (n : Node) : Decoder Value := valueWithin n.depth n

def valueList (n : Node) : Decoder (List Value) :=
  match n with
  | .seq _ xs => xs.mapM value
  | n => if n.isNull then return [] else mismatch []

def number? (n : Node) : Decoder (Option Number) :=
  if n.isNull then return none
  else match n with
    | .scalar line _ t =>
      match Number.ofText? t with
      | some v => return some v
      | none => fail (.badNumber line t)
    | n => fail (.noNumber n.line)

/-- A mapping whose keys are free: each value on its own, its faults named by the key. -/
def keyed {α : Type} (one : Node → Decoder α) (n : Node) : Decoder (Keyed α) :=
  if n.isNull then return []
  else match n with
    | .map _ es => es.foldlM (fun m e =>
        match alone (one e.2) with
        | .ok v => pure (Keyed.set m e.1.text v)
        | .error err => fail (.inKey e.1.text err)) []
    | n => fail (.noMapping n.line)

def head (n : Node) : Decoder Meta :=
  record .empty (fun m key v =>
    match key with
    | "id" => do return { m with id := ← string v }
    | "title" => do return { m with title := ← string v }
    | "application" => do return { m with application := ← value v }
    | "file-extension" => do return { m with fileExtension := ← value v }
    | "endian" => do return { m with endian := ← string v }
    | "encoding" => do return { m with encoding := ← string v }
    | "imports" => do return { m with imports := ← strings v }
    | "ks-version" => do return { m with version := ← string v }
    | _ => pure m) n

def switchSpec (n : Node) : Decoder (Value × Keyed String) :=
  record (.null, []) (fun s key v =>
    match key with
    | "switch-on" => do return (← value v, s.2)
    | "cases" => do return (s.1, ← keyed string v)
    | _ => pure s) n

def typeSpec? (n : Node) : Decoder (Option TypeSpec) :=
  if n.isNull then return none
  else match n with
    | .scalar _ _ t => return some (.named t)
    | .map .. => do
      let (on, cases) ← inner (.null, []) (switchSpec n)
      return some (.switch on cases)
    | n => fail (.typeForm n.line)

def attr (n : Node) : Decoder Attr :=
  record {} (fun a key v =>
    match key with
    | "id" => do return { a with id := ← string v }
    | "doc" => do return { a with doc := ← string v }
    | "doc-ref" => do return { a with docRef := ← docRef v }
    | "type" => do return { a with type := ← typeSpec? v }
    | "size" => do return { a with size := ← value v }
    | "size-eos" => do return { a with sizeEos := ← bool v }
    | "encoding" => do return { a with encoding := ← string v }
    | "terminator" => do return { a with terminator := ← int? v }
    | "contents" => do return { a with contents := ← value v }
    | "enum" => do return { a with enum := ← string v }
    | "process" => do return { a with process := ← string v }
    | "valid" => do return { a with valid := ← value v }
    | "if" => do return { a with guard := ← value v }
    | "value" => do return { a with value := ← value v }
    | "repeat" => do return { a with repeated := ← string v }
    | "repeat-expr" => do return { a with repeatExpr := ← value v }
    | "repeat-until" => do return { a with repeatUntil := ← value v }
    | "-fz-range-min" => do return { a with rangeMin := ← number? v }
    | "-fz-range-max" => do return { a with rangeMax := ← number? v }
    | "-fz-size-min" => do return { a with sizeMin := ← int? v }
    | "-fz-size-max" => do return { a with sizeMax := ← int? v }
    | "-fz-repeat-min" => do return { a with repeatMin := ← int? v }
    | "-fz-repeat-max" => do return { a with repeatMax := ← int? v }
    | "-fz-attr-len" => do return { a with attrLen := ← value v }
    | "-fz-choice" => do return { a with choice := ← valueList v }
    | "-fz-order-pop" => do return { a with orderPop := ← bool v }
    | "-fz-rand-order-pop" => do return { a with randOrderPop := ← bool v }
    | key => do return { a with extra := Keyed.set a.extra key (← value v) }) n

def attrs (n : Node) : Decoder (List Attr) :=
  match n with
  | .seq _ xs => xs.mapM attr
  | n => if n.isNull then return [] else mismatch []

def enumValue (n : Node) : Decoder EnumValue :=
  record ⟨"", "", []⟩ (fun e key v =>
    match key with
    | "id" => do return { e with id := ← string v }
    | "doc" => do return { e with doc := ← string v }
    | "doc-ref" => do return { e with docRef := ← docRef v }
    | _ => pure e) n

def enumKey? (t : String) : Option Int :=
  match Number.ofText? t with
  | some (.int v) => if Word.isSigned v then some v else none
  | _ => none

def enumEntry (k v : Node) : Decoder EnumEntry :=
  match enumKey? k.text with
  | none => fail (.enumKey k.line k.text)
  | some i =>
    match v with
    | .scalar line _ t =>
      if v.isString && t ≠ "" then return ⟨i, .short t, line⟩ else return ⟨i, .malformed, line⟩
    | .map line _ =>
      match alone (enumValue v) with
      | .ok e => return ⟨i, .verbose e, line⟩
      | .error e => fail (.atLine line e)
    | .seq line _ => return ⟨i, .malformed, line⟩

def enumEntries (n : Node) : Decoder (List EnumEntry) :=
  if n.isNull then return []
  else match n with
    | .map _ es => es.mapM fun e => enumEntry e.1 e.2
    | n => fail (.noEnumMapping n.line)

def bodyEntry (b : SchemaBody) (key : String) (v : Node) : Decoder SchemaBody :=
  match key with
  | "meta" => do return { b with head := ← head v }
  | "doc" => do return { b with doc := ← string v }
  | "doc-ref" => do return { b with docRef := ← docRef v }
  | "seq" => do return { b with seq := ← attrs v }
  | "instances" => do return { b with instances := ← keyed attr v }
  | "enums" => do return { b with enums := ← keyed enumEntries v }
  | "-fz-order" => do return { b with order := ← valueList v }
  | _ => pure b

def schemaEntry (types : Node → Decoder (Keyed Schema)) (s : Schema) (key : String) (v : Node) :
    Decoder Schema :=
  match key with
  | "types" => do return .mk s.body (← types v)
  | key => do return .mk (← bodyEntry s.body key v) s.types

def schemaWithin : Nat → Node → Decoder Schema
  | 0, _ => fail .malformed
  | n + 1, x => record .empty (schemaEntry (keyed (schemaWithin n))) x

def schema (n : Node) : Decoder Schema := schemaWithin n.depth n

def isHollowWithin : Nat → Node → Bool
  | n + 1, .map _ es =>
    (Yaml.Field.ofEntries true es).any fun f =>
      match f with
      | .entry k (.seq _ xs) => k.text = "seq" && xs.any Node.isNull
      | .entry k (.map _ vs) =>
        -- of several values under one key the last counts
        let values := (Keyed.ofPairs (vs.map fun e => (e.1.text, e.2))).map Prod.snd
        if k.text = "types" then values.any fun v => v.isNull || isHollowWithin n v
        else (k.text = "instances" || k.text = "enums") && values.any Node.isNull
      | _ => false
  | _, _ => false

/-- Does a null stand where a field, an instance, a type or an enum should be declared? It is decoded
like one that says nothing, but nothing is declared by it. -/
def isHollow (n : Node) : Bool := isHollowWithin n.depth n

end Decode

end FormatFuzz
