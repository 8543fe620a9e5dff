import FormatFuzz.Double.Basic
import FormatFuzz.Text.Bytes
import FormatFuzz.Text.Characters

/-!
# Versions

A version of the language is one to three numbers separated by points, then a pre-release after a
hyphen and metadata after a plus sign. A schema may ask for a version up to the supported one. What
a binary says about itself is filled from settings recorded by the build.
-/

set_option autoImplicit false

namespace FormatFuzz

structure Version where
  major : Nat
  minor : Nat
  patch : Nat
  pre : String
  build : String
  deriving DecidableEq, Repr

namespace Version

inductive Error where
  | malformed
  | tooLarge (digits : String)
  | leadingZero
  deriving DecidableEq, Repr

def Error.message : Error → String
  | .malformed => "invalid semantic version"
  | .tooLarge digits =>
    "error parsing version segment: strconv.ParseUint: parsing " ++ Text.quoted digits
      ++ ": value out of range"
  | .leadingZero => "version segment starts with 0"

def supported : Version := ⟨0, 11, 0, "", ""⟩

def supportedText : String := "0.11"

def text (v : Version) : String :=
  toString v.major ++ "." ++ toString v.minor ++ "." ++ toString v.patch
    ++ (if v.pre = "" then "" else "-" ++ v.pre)
    ++ (if v.build = "" then "" else "+" ++ v.build)

/-- Order by the three numbers; a pre-release comes before its release. -/
def newer (a b : Version) : Bool :=
  if a.major ≠ b.major then b.major < a.major
  else if a.minor ≠ b.minor then b.minor < a.minor
  else if a.patch ≠ b.patch then b.patch < a.patch
  else a.pre = "" && b.pre ≠ ""

def isLabelChar (c : Char) : Bool :=
  c.isAlpha || c.isDigit || c == '-'

def isLabels (cs : List Char) : Bool :=
  (Text.splitOn (String.ofList cs) ".").all fun l => l ≠ "" && l.toList.all isLabelChar

def dotNumber : List Char → Option (List Char) × List Char
  | '.' :: c :: cs =>
    if c.isDigit then (some ((c :: cs).takeWhile Char.isDigit), (c :: cs).dropWhile Char.isDigit)
    else (none, '.' :: c :: cs)
  | cs => (none, cs)

def suffixes (cs : List Char) : Option (List Char × List Char) :=
  match cs with
  | [] => some ([], [])
  | '-' :: r =>
    let pre := r.takeWhile (· != '+')
    match r.dropWhile (· != '+') with
    | [] => if isLabels pre then some (pre, []) else none
    | _ :: build => if isLabels pre && isLabels build then some (pre, build) else none
  | '+' :: build => if isLabels build then some ([], build) else none
  | _ => none

def number (ds : List Char) : Except Error Nat :=
  let n := ds.foldl (fun acc c => acc * 10 + (c.toNat - 48)) 0
  if n < Word.size then .ok n else .error (.tooLarge (String.ofList ds))

def hasLeadingZero (l : String) : Bool :=
  l.toList.all Char.isDigit && 1 < l.length && l.toList.head? == some '0'

def parse (s : String) : Except Error Version := do
  let cs := match s.toList with
    | 'v' :: r => r
    | r => r
  let major := cs.takeWhile Char.isDigit
  let (minor, rest) := dotNumber (cs.dropWhile Char.isDigit)
  let (patch, rest) := if minor.isSome then dotNumber rest else (none, rest)
  match major.isEmpty, suffixes rest with
  | false, some (pre, build) =>
    let a ← number major
    let b ← number (minor.getD ['0'])
    let c ← number (patch.getD ['0'])
    if !pre.isEmpty && (Text.splitOn (String.ofList pre) ".").any hasLeadingZero then
      .error .leadingZero
    else .ok ⟨a, b, c, String.ofList pre, String.ofList build⟩
  | _, _ => .error .malformed

inductive Refusal where
  | unreadable (source : String) (e : Error)
  | tooNew (v : Version)
  deriving DecidableEq, Repr

def Refusal.message : Refusal → String
  | .unreadable source e => "ks-version " ++ Text.quoted source ++ ": " ++ e.message
  | .tooNew v =>
    "ks-version " ++ v.text ++ " is newer than " ++ supported.text ++ ": unsupported ks-version"

def check (s : String) : Except Refusal Unit :=
  if s = "" then .ok ()
  else match parse s with
    | .error e => .error (.unreadable s e)
    | .ok v => if v.newer supported then .error (.tooNew v) else .ok ()

end Version

structure BuildInfo where
  version : String
  commit : String
  date : String
  modified : Bool
  deriving DecidableEq, Repr

namespace BuildInfo

def unset : BuildInfo := ⟨"dev", "none", "unknown", false⟩

def text (b : BuildInfo) (toolchain : String) : String :=
  "ksfuzz version " ++ b.version ++ " (commit: " ++ b.commit
    ++ (if b.modified then "+dirty" else "") ++ ", built: " ++ b.date
    ++ ", go: " ++ toolchain ++ ")"

/-- A setting of the version control system. The commit is shortened to seven bytes. -/
def setting (b : BuildInfo) (key value : String) : BuildInfo :=
  if key = "vcs.revision" then
    if b.commit = unset.commit && 7 ≤ value.utf8ByteSize then
      { b with commit := Text.ofUtf8 ((Text.utf8 value).take 7) }
    else b
  else if key = "vcs.time" then
    if b.date = unset.date then { b with date := value } else b
  else if key = "vcs.modified" then { b with modified := value == "true" }
  else b

def ofSettings (version : String) (settings : List (String × String)) : BuildInfo :=
  let b := if version ≠ "" && version ≠ "(devel)" then { unset with version := version } else unset
  settings.foldl (fun b s => b.setting s.1 s.2) b

end BuildInfo

end FormatFuzz
