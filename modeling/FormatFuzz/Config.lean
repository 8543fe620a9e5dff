import FormatFuzz.FileTree
import FormatFuzz.Schema.Decode
import FormatFuzz.Schema.Encode
import FormatFuzz.Schema.Normal
import FormatFuzz.Yaml.Printer
import FormatFuzz.Yaml.Reader

/-!
# Project configuration

A project may keep a file with defaults of the compiler. Keys it does not set keep their defaults,
keys it does not know are passed over. Limits narrow or widen the options of the compiler.
-/

set_option autoImplicit false

namespace FormatFuzz

structure Limits where
  sizeMin : Option Int := none
  sizeMax : Option Int := none
  repeatMin : Option Int := none
  repeatMax : Option Int := none
  untilMax : Option Int := none
  deriving DecidableEq, Repr

structure Config where
  version : Int := 1
  output : String := "generated"
  backend : String := "go"
  package : String := ""
  seed : Nat := 0
  limits : Limits := {}
  deriving DecidableEq, Repr

namespace Config

def fileName : String := "ksfuzz.yaml"

def currentVersion : Int := 1

inductive ReadError where
  | nothing
  | malformed
  | mismatch (e : Decode.Error)
  | directory (path : String)
  deriving DecidableEq, Repr

def ReadError.message : ReadError → String
  | .nothing => "EOF"
  | .malformed => "malformed text"
  | .mismatch e => e.message
  | .directory path => "read " ++ path ++ ": is a directory"

open Yaml (Node)

def unlessNull {α : Type} (old : α) (read : Node → Decoder α) (n : Node) : Decoder α :=
  if n.isNull then return old else read n

def decodeLimits (old : Limits) (n : Node) : Decoder Limits :=
  Decode.record old (fun l key v =>
    match key with
    | "size-min" => do return { l with sizeMin := ← Decode.int? v }
    | "size-max" => do return { l with sizeMax := ← Decode.int? v }
    | "repeat-min" => do return { l with repeatMin := ← Decode.int? v }
    | "repeat-max" => do return { l with repeatMax := ← Decode.int? v }
    | "until-max" => do return { l with untilMax := ← Decode.int? v }
    | _ => pure l) n

def decode (n : Node) : Decoder Config :=
  Decode.record {} (fun c key v =>
    match key with
    | "version" => do return { c with version := (← Decode.int? v).getD c.version }
    | "output" => do return { c with output := ← unlessNull c.output Decode.string v }
    | "backend" => do return { c with backend := ← unlessNull c.backend Decode.string v }
    | "package" => do return { c with package := ← unlessNull c.package Decode.string v }
    | "seed" => do return { c with seed := (← Decode.uint? v).getD c.seed }
    | "limits" => do return { c with limits := ← decodeLimits c.limits v }
    | _ => pure c) n

def ofText (text : String) : Except ReadError Config :=
  match Node.parse text with
  | .error _ => .error .malformed
  | .ok none => .error .nothing
  | .ok (some root) =>
    match Decode.alone (decode root) with
    | .ok c => .ok c
    | .error e => .error (.mismatch e)

/-- The node of a configuration; what is empty, zero or not set is left out. -/
def node (c : Config) : Node :=
  let l := c.limits
  let limits := Encode.integer "size-min" l.sizeMin ++ Encode.integer "size-max" l.sizeMax
    ++ Encode.integer "repeat-min" l.repeatMin ++ Encode.integer "repeat-max" l.repeatMax
    ++ Encode.integer "until-max" l.untilMax
  .map 0 (Encode.integer "version" (some c.version) ++ Encode.text "output" c.output
    ++ Encode.text "backend" c.backend ++ Encode.text "package" c.package
    ++ Encode.integer "seed" (if c.seed = 0 then none else some (Int.ofNat c.seed))
    ++ Encode.entry "limits" (!limits.isEmpty) (.map 0 limits))

/-- The text of a configuration, two blanks deeper at every level. -/
def text (c : Config) : String := c.node.render 2

def options (c : Config) (base : Options) : Options :=
  { base with
    sizeMin := c.limits.sizeMin.getD base.sizeMin
    sizeMax := c.limits.sizeMax.getD base.sizeMax
    repeatMin := c.limits.repeatMin.getD base.repeatMin
    repeatMax := c.limits.repeatMax.getD base.repeatMax
    untilMax := c.limits.untilMax.getD base.untilMax }

inductive Invalid where
  | version
  | sizeRange (lo hi : Int)
  | repeatRange (lo hi : Int)
  | untilMax
  deriving DecidableEq, Repr

def rangeText (what : String) (lo hi : Int) : String :=
  "limits: " ++ what ++ " range [" ++ toString lo ++ ", " ++ toString hi
    ++ "] is empty or negative"

def Invalid.message : Invalid → String
  | .version => "unsupported config version"
  | .sizeRange lo hi => rangeText "size" lo hi
  | .repeatRange lo hi => rangeText "repeat" lo hi
  | .untilMax => "limits: until-max must be at least 1"

/-- Has a configuration a version that is understood, and limits that leave room? -/
def validate (c : Config) : Except Invalid Unit :=
  let o := c.options {}
  if c.version ≠ currentVersion then .error .version
  else if o.sizeMin < 0 || o.sizeMax < o.sizeMin then .error (.sizeRange o.sizeMin o.sizeMax)
  else if o.repeatMin < 0 || o.repeatMax < o.repeatMin then
    .error (.repeatRange o.repeatMin o.repeatMax)
  else if o.untilMax < 1 then .error .untilMax
  else .ok ()

inductive Error where
  | unreadable (e : ReadError)
  | invalid (e : Invalid)
  deriving DecidableEq, Repr

def Error.message : Error → String
  | .unreadable e => "invalid configuration: " ++ e.message
  | .invalid e => "invalid configuration: " ++ e.message

/-- The configuration that holds in a directory, and whether a file gave it. Without a file the
defaults hold. -/
def find (t : FileTree) : Except Error (Config × Bool) :=
  match t.read fileName with
  | .error .isDirectory => .error (.unreadable (.directory fileName))
  | .error _ => .ok ({}, false)
  | .ok s =>
    match ofText s with
    | .error e => .error (.unreadable e)
    | .ok c =>
      match c.validate with
      | .error e => .error (.invalid e)
      | .ok _ => .ok (c, true)

end Config

end FormatFuzz
