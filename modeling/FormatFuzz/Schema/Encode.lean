import FormatFuzz.Double.Basic
import FormatFuzz.Schema.Decode
import FormatFuzz.Text.Characters
import FormatFuzz.Yaml.Copy

/-!
# Nodes from schemas

A schema is written as nodes in which keys that hold nothing are left out. Every value of a mapping
with free keys and every description of an enum value is copied on its own first. Reading the nodes
back gives a copy of the schema. Two things always change in it: enum entries lose their lines, and
a float whose text is that of an integer becomes one.
-/

set_option autoImplicit false

namespace FormatFuzz

namespace Encode

open Yaml (Node)

abbrev Written := Except Yaml.Token.Malformed

def string (s : String) : Node := .scalar 0 (Yaml.stringStyle s) s
def plain (s : String) : Node := .scalar 0 .plain s

def floatText (x : Double) : String := (Number.float x).text

/-- The number of sixty-four bits that a run of digits spells onto `acc`, and the run's length. -/
def digitRun (acc : Int64) (cs : List Char) : Int64 × Nat :=
  let ds := cs.takeWhile Text.isDecimalDigit
  (ds.foldl (fun n c => n * 10 + (Int64.ofNat c.toNat - 48)) acc, ds.length)

/-- Order of keys: letters after other characters, runs of digits by their number. `before` holds
the characters both keys share, last first. -/
def keyLess (before : List Char) : List Char → List Char → Bool
  | [], [] => false
  | [], _ :: _ => true
  | _ :: _, [] => false
  | a :: as, b :: bs =>
    if a = b then keyLess (a :: before) as bs
    else
      let la := Text.isLetter a
      let lb := Text.isLetter b
      if la && lb then a < b
      else if la || lb then
        if (before.head?.map Text.isDecimalDigit).getD false then la else lb
      else
        let zero := a == '0' || b == '0'
        let nonZero := (before.takeWhile Text.isDecimalDigit).any (· != '0')
        let start : Int64 := if zero && nonZero then 1 else 0
        let (an, ai) := digitRun start (a :: as)
        let (bn, bi) := digitRun start (b :: bs)
        if an ≠ bn then an < bn
        else if ai ≠ bi then ai < bi
        else a < b

/-- The place of a number among numbers; truth values count as one and zero. -/
def keyRank? : Value → Option Int
  | .bool b => some (Double.ofInt (if b then 1 else 0)).rank
  | .int v => some (Double.ofInt v).rank
  | .float x => some x.rank
  | _ => none

def kindRank : Value → Nat
  | .bool _ => 1
  | .int v => if v < Word.half then 2 else 3
  | .float _ => 4
  | .str _ => 6
  | .time _ => 7
  | _ => 5

def valueKeyLess (a b : Value) : Bool :=
  match keyRank? a, keyRank? b with
  | some x, some y =>
    if x ≠ y then x < y
    else match a, b with
      | .int v, .int w => v < w
      | a, b => kindRank a < kindRank b
  | _, _ =>
    match a, b with
    | .str s, .str t => keyLess [] s.toList t.toList
    | a, b => kindRank a < kindRank b

def insertEntry {α : Type} (less : α → α → Bool) (e : α) : List α → List α
  | [] => [e]
  | q :: qs => if less e q then e :: q :: qs else q :: insertEntry less e qs

def sortEntries {α : Type} (less : α → α → Bool) (es : List α) : List α :=
  es.foldl (fun acc e => insertEntry less e acc) []

mutual

def value : Value → Node
  | .null => plain "null"
  | .int v => plain (toString v)
  | .float x => plain (floatText x)
  | .bool b => plain (if b then "true" else "false")
  | .str s => string s
  | .time t => plain t.text
  | .list xs => .seq 0 (values xs)
  | .map es => .map 0 ((sortEntries (fun a b => keyLess [] a.1.toList b.1.toList)
      (mapEntries es)).map fun e => (string e.1, e.2))
  | .table es => .map 0 ((sortEntries (fun a b => valueKeyLess a.1 b.1)
      (tableEntries es)).map fun e => e.2)

def values : List Value → List Node
  | [] => []
  | x :: xs => value x :: values xs

def mapEntries : List (String × Value) → List (String × Node)
  | [] => []
  | (k, v) :: es => (k, value v) :: mapEntries es

def tableEntries : List (Value × Value) → List (Value × (Node × Node))
  | [] => []
  | (k, v) :: es => (k, (value k, value v)) :: tableEntries es

end

def isZero : Value → Bool
  | .null => true
  | .time t => t.isZero
  | _ => false

def entry (key : String) (keep : Bool) (n : Node) : List (Node × Node) :=
  if keep then [(string key, n)] else []

def text (key s : String) : List (Node × Node) := entry key (s ≠ "") (string s)
def untyped (key : String) (v : Value) : List (Node × Node) := entry key (!isZero v) (value v)
def truth (key : String) (b : Bool) : List (Node × Node) := entry key b (plain "true")

def integer (key : String) (v : Option Int) : List (Node × Node) :=
  match v with
  | some i => [(string key, plain (toString i))]
  | none => []

/-- A number with exactly its digits; a tag says what they do not say themselves. -/
def numberNode (n : Number) : Node :=
  match n, Yaml.plainValue n.text with
  | .int _, .int _ => plain n.text
  | .int _, _ => .scalar 0 (.tagged "!!int") n.text
  | .float _, .float _ => plain n.text
  | .float _, _ => .scalar 0 (.tagged "!!float") n.text

def number (key : String) (n : Option Number) : List (Node × Node) :=
  match n with
  | some n => [(string key, numberNode n)]
  | none => []

def docRefNode (refs : List String) : Node :=
  match refs with
  | [r] => string r
  | refs => .seq 0 (refs.map string)

def docRef (refs : List String) : List (Node × Node) :=
  entry "doc-ref" (!refs.isEmpty) (docRefNode refs)

def list (key : String) (xs : List Node) : List (Node × Node) :=
  entry key (!xs.isEmpty) (.seq 0 xs)

def keyedNode (es : Keyed Node) : Written Node := do
  return .map 0 (← es.mapM fun e => do return (plain e.1, ← e.2.copy))

def keyed (key : String) (es : Keyed Node) : Written (List (Node × Node)) := do
  return entry key (!es.isEmpty) (← keyedNode es)

def head (m : Meta) : List (Node × Node) :=
  text "id" m.id ++ text "title" m.title ++ untyped "application" m.application
    ++ untyped "file-extension" m.fileExtension ++ text "endian" m.endian
    ++ text "encoding" m.encoding ++ list "imports" (m.imports.map string)
    ++ text "ks-version" m.version

def typeSpecNode : TypeSpec → Written Node
  | .named name => .ok (string name)
  | .switch on cases => do
    let cases ← keyedNode (cases.map fun c => (c.1, string c.2))
    return .map 0 [(string "switch-on", value on), (string "cases", cases)]

def typeSpec (t : Option TypeSpec) : Written (List (Node × Node)) :=
  match t with
  | some t => do return [(string "type", ← typeSpecNode t)]
  | none => .ok []

def extra (es : Keyed Value) : List (Node × Node) :=
  (sortEntries (fun a b => keyLess [] a.1.toList b.1.toList) es).map fun e =>
    (string e.1, value e.2)

def attr (a : Attr) : Written Node := do
  let type ← typeSpec a.type
  return .map 0 (text "id" a.id ++ text "doc" a.doc ++ docRef a.docRef ++ type
    ++ untyped "size" a.size ++ truth "size-eos" a.sizeEos ++ text "encoding" a.encoding
    ++ integer "terminator" a.terminator ++ untyped "contents" a.contents ++ text "enum" a.enum
    ++ text "process" a.process ++ untyped "valid" a.valid ++ untyped "if" a.guard
    ++ untyped "value" a.value ++ text "repeat" a.repeated
    ++ untyped "repeat-expr" a.repeatExpr ++ untyped "repeat-until" a.repeatUntil
    ++ number "-fz-range-min" a.rangeMin ++ number "-fz-range-max" a.rangeMax
    ++ integer "-fz-size-min" a.sizeMin ++ integer "-fz-size-max" a.sizeMax
    ++ integer "-fz-repeat-min" a.repeatMin ++ integer "-fz-repeat-max" a.repeatMax
    ++ untyped "-fz-attr-len" a.attrLen ++ list "-fz-choice" (values a.choice)
    ++ truth "-fz-order-pop" a.orderPop ++ truth "-fz-rand-order-pop" a.randOrderPop
    ++ extra a.extra)

def enumForm : EnumForm → Written Node
  | .short name => (string name).copy
  | .verbose v =>
    Node.copy (.map 0 [(string "id", string v.id), (string "doc", string v.doc),
      (string "doc-ref", docRefNode v.docRef)])
  | .malformed => .ok (plain "~")

def enumEntries (es : List EnumEntry) : Written Node := do
  return .map 0 (← es.mapM fun e => do return (plain (toString e.value), ← enumForm e.form))

mutual

def schema : Schema → Written Node
  | .mk b ts => do
    let m := head b.head
    let seq ← b.seq.mapM attr
    let types ← keyed "types" (← schemas ts)
    let instances ← keyed "instances" (← b.instances.mapM fun e => do return (e.1, ← attr e.2))
    let enums ← keyed "enums" (← b.enums.mapM fun e => do return (e.1, ← enumEntries e.2))
    return .map 0 (entry "meta" (!m.isEmpty) (.map 0 m) ++ text "doc" b.doc ++ docRef b.docRef
      ++ list "seq" seq ++ types ++ instances ++ enums ++ list "-fz-order" (values b.order))

def schemas : List (String × Schema) → Written (List (String × Node))
  | [] => .ok []
  | (k, s) :: ts => do
    let n ← schema s
    let ns ← schemas ts
    return (k, n) :: ns

end

def copied (s : Schema) : Written Node := do
  (← schema s).copy

end Encode

def Schema.copy (s : Schema) : Except Decode.Error Schema :=
  match Encode.copied s with
  | .ok n => Decode.alone (Decode.schema n)
  | .error _ => .error .malformed

def SchemaFile.copy (f : SchemaFile) : Except Decode.Error SchemaFile :=
  match f.schema.copy with
  | .ok s => .ok { f with schema := s }
  | .error e => .error e

def SchemaSet.copy (s : SchemaSet) : Except Decode.Error SchemaSet := do
  let main ← s.main.copy
  let imported ← s.imported.mapM fun e => do return (e.1, ← e.2.copy)
  return ⟨main, imported⟩

end FormatFuzz
