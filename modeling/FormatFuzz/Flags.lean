import FormatFuzz.Double.Basic
import FormatFuzz.Numeral
import FormatFuzz.Text.Characters

/-!
# Command-line flags

A flag has a long name and may have a letter. `--name=value`, `--name value`, `-lvalue`, `-l=value`
and `-l value` set it; a switch needs no value, and letters of switches may be run together. A
double hyphen ends the flags.
-/

set_option autoImplicit false

namespace FormatFuzz

namespace Flags

inductive Kind where
  | text
  | switch
  | int
  | uint
  deriving DecidableEq, Repr

structure Flag where
  name : String
  letter : Option Char
  kind : Kind
  deriving DecidableEq, Repr

inductive Error where
  | help
  | badForm (arg : String)
  | unknownName (name : String)
  | unknownLetter (letter : UInt8) (letters : String)
  | noValue (name : String)
  | noLetterValue (letter : UInt8) (letters : String)
  | invalid (value shown reader : String) (fault : Numeral.Fault)
  deriving DecidableEq, Repr

def faultText : Numeral.Fault → String
  | .malformed => "invalid syntax"
  | .tooLarge => "value out of range"

def byteText (b : UInt8) : String :=
  Text.quotedChar (Char.ofNat b.toNat)

def leadByte (b : UInt8) : UInt8 :=
  if b < 0x80 then b else if b < 0xc0 then 0xc2 else 0xc3

def Error.message : Error → String
  | .help => "pflag: help requested"
  | .badForm arg => "bad flag syntax: " ++ arg
  | .unknownName name => "unknown flag: --" ++ name
  | .unknownLetter l letters =>
    "unknown shorthand flag: " ++ byteText (leadByte l) ++ " in -" ++ letters
  | .noValue name => "flag needs an argument: --" ++ name
  | .noLetterValue l letters =>
    "flag needs an argument: " ++ byteText l ++ " in -" ++ letters
  | .invalid value shown reader fault =>
    "invalid argument " ++ Text.quoted value ++ " for " ++ Text.quoted shown ++ " flag: " ++ reader
      ++ ": parsing " ++ Text.quoted value ++ ": " ++ faultText fault

def Flag.shown (f : Flag) : String :=
  match f.letter with
  | some l => "-" ++ String.singleton l ++ ", --" ++ f.name
  | none => "--" ++ f.name

inductive Setting where
  | text (s : String)
  | switch (b : Bool)
  | int (v : Int)
  | uint (v : Nat)
  deriving DecidableEq, Repr

def truths : List String := ["1", "t", "T", "TRUE", "true", "True"]
def falsehoods : List String := ["0", "f", "F", "FALSE", "false", "False"]

def Flag.read (f : Flag) (value : String) : Except Error Setting :=
  match f.kind with
  | .text => .ok (.text value)
  | .switch =>
    if value ∈ truths then .ok (.switch true)
    else if value ∈ falsehoods then .ok (.switch false)
    else .error (.invalid value f.shown "strconv.ParseBool" .malformed)
  | .int =>
    match Numeral.integer64 value.toList with
    | .ok v => .ok (.int v)
    | .error e => .error (.invalid value f.shown "strconv.ParseInt" e)
  | .uint =>
    match Numeral.naturalBelow Word.size value.toList with
    | .ok v => .ok (.uint v)
    | .error e => .error (.invalid value f.shown "strconv.ParseUint" e)

/-- Settings in the order they were made, and the arguments that are no flags. -/
structure Parsed where
  settings : List (String × Setting)
  arguments : List String
  deriving DecidableEq, Repr

def setFlag (f : Flag) (value : String) : Except Error (String × Setting) :=
  match f.read value with
  | .ok s => .ok (f.name, s)
  | .error e => .error e

/-- A long flag; `rest` are the arguments after it. Gives what is left of them. -/
def readLong (flags : List Flag) (arg : String) (rest : List String) :
    Except Error ((String × Setting) × List String) :=
  let body := String.ofList (arg.toList.drop 2)
  match body.toList with
  | [] => .error (.badForm arg)
  | c :: _ =>
    if c = '-' || c = '=' then .error (.badForm arg)
    else
      let (name, value?) := match Text.cut body "=" with
        | some (n, v) => (n, some v)
        | none => (body, none)
      match flags.find? fun f => f.name == name with
      | none => if name = "help" then .error .help else .error (.unknownName name)
      | some f =>
        match value?, f.kind, rest with
        | some v, _, _ => do return (← setFlag f v, rest)
        | none, .switch, _ => do return (← setFlag f "true", rest)
        | none, _, v :: rest => do return (← setFlag f v, rest)
        | none, _, [] => .error (.noValue name)

def testLetters : String := "test."

def readLetters (flags : List Flag) (rest : List String) :
    List Char → Except Error (List (String × Setting) × List String)
  | [] => .ok ([], rest)
  | c :: cs =>
    let letters := String.ofList (c :: cs)
    let first := (Text.utf8 letters).headD 0
    if Text.startsWith testLetters.toList (c :: cs) then .ok ([], rest)
    else match flags.find? fun f => f.letter == some c with
    | none => if c = 'h' then .error .help else .error (.unknownLetter first letters)
    | some f =>
      match cs, f.kind with
      | '=' :: v :: vs, _ => do return ([← setFlag f (String.ofList (v :: vs))], rest)
      | cs, .switch => do
        let s ← setFlag f "true"
        let (more, rest) ← readLetters flags rest cs
        return (s :: more, rest)
      | v :: vs, _ => do return ([← setFlag f (String.ofList (v :: vs))], rest)
      | [], _ =>
        match rest with
        | v :: rest => do return ([← setFlag f v], rest)
        | [] => .error (.noLetterValue first letters)

/-- Reads arguments one after the other; every step takes at least one. -/
def readAll (flags : List Flag) : Nat → List String → Except Error Parsed
  | 0, _ => .ok ⟨[], []⟩
  | _ + 1, [] => .ok ⟨[], []⟩
  | n + 1, arg :: rest =>
    match arg.toList with
    | '-' :: '-' :: [] => .ok ⟨[], rest⟩
    | '-' :: '-' :: _ => do
      let (s, rest) ← readLong flags arg rest
      let p ← readAll flags n rest
      return { p with settings := s :: p.settings }
    | '-' :: c :: cs => do
      let (ss, rest) ← readLetters flags rest (c :: cs)
      let p ← readAll flags n rest
      return { p with settings := ss ++ p.settings }
    | _ => do
      let p ← readAll flags n rest
      return { p with arguments := arg :: p.arguments }

def parse (flags : List Flag) (args : List String) : Except Error Parsed :=
  readAll flags args.length args

def Parsed.get? (p : Parsed) (name : String) : Option Setting :=
  (p.settings.reverse.find? fun s => s.1 == name).map Prod.snd

end Flags

end FormatFuzz
