import FormatFuzz.Path

/-!
# File trees

Directories and files below one working directory, named by lists of segments. Looking up a path
walks it segment by segment: a file is no place to go on from, and nothing is known of what lies
above the working directory. Paths and names have a largest length, for reading as for writing.
-/

set_option autoImplicit false

namespace FormatFuzz

structure FileTree where
  dirs : List (List String)
  files : List (List String × String)
  deriving DecidableEq, Repr

namespace FileTree

inductive Entry where
  | dir
  | file (text : String)
  deriving DecidableEq, Repr

inductive Fault where
  | missing
  | notDirectory
  | isDirectory
  | invalid
  | tooLong
  deriving DecidableEq, Repr

def Fault.message : Fault → String
  | .missing => "no such file or directory"
  | .notDirectory => "not a directory"
  | .isDirectory => "is a directory"
  | .invalid => "invalid argument"
  | .tooLong => "file name too long"

def empty : FileTree := ⟨[], []⟩

def entry? (t : FileTree) (place : List String) : Option Entry :=
  if place = [] || place ∈ t.dirs then some .dir
  else (t.files.find? fun f => f.1 == place).map fun f => .file f.2

/-- Where a walk stands: below the working directory, or so many levels above it. -/
inductive Place where
  | below (segments : List String)
  | above (levels : Nat)
  deriving DecidableEq, Repr

def isTooLong (segment : String) : Bool :=
  255 < segment.utf8ByteSize

/-- What is wrong with a path whatever it leads to: it holds a NUL, or it takes too many bytes. -/
def pathFault? (path : String) : Option Fault :=
  if path.toList.contains '\x00' then some .invalid
  else if 4095 < path.utf8ByteSize then some .tooLong
  else none

def walk (t : FileTree) : Place → List String → Except Fault (List String)
  | .below at_, [] => if (t.entry? at_).isSome then .ok at_ else .error .missing
  | .above _, [] => .error .isDirectory
  | .above n, s :: rest =>
    if s = "" || s = "." then walk t (.above n) rest
    else if s = ".." then walk t (.above (n + 1)) rest
    else if isTooLong s then .error .tooLong
    else .error .missing
  | .below at_, s :: rest =>
    match t.entry? at_ with
    | none => .error .missing
    | some (.file _) => .error .notDirectory
    | some .dir =>
      if s = "" || s = "." then walk t (.below at_) rest
      else if s = ".." then
        if at_ = [] then walk t (.above 1) rest else walk t (.below at_.dropLast) rest
      else if isTooLong s then .error .tooLong
      else walk t (.below (at_ ++ [s])) rest

def locate (t : FileTree) (path : String) : Except Fault (List String) :=
  match pathFault? path with
  | some fault => .error fault
  | none =>
    if path = "" then .error .missing
    else walk t (if Path.isRooted path then .above 0 else .below []) (Text.splitOn path "/")

def stat (t : FileTree) (path : String) : Except Fault Entry :=
  match t.locate path with
  | .error .isDirectory => .ok .dir
  | .error e => .error e
  | .ok place =>
    match t.entry? place with
    | some e => .ok e
    | none => .error .missing

def read (t : FileTree) (path : String) : Except Fault String :=
  match t.stat path with
  | .ok (.file s) => .ok s
  | .ok .dir => .error .isDirectory
  | .error e => .error e

def obstacle? (t : FileTree) (path : String) : Option Fault :=
  match t.stat path with
  | .ok .dir => some .isDirectory
  | .ok (.file _) => none
  | .error .missing =>
    match t.stat (Path.dir path) with
    | .ok .dir => none
    | .ok (.file _) => some .notDirectory
    | .error e => some e
  | .error e => some e

def beginnings : List String → List (List String)
  | [] => []
  | s :: rest => [s] :: (beginnings rest).map (s :: ·)

def addDir (t : FileTree) (place : List String) : FileTree :=
  { t with dirs := t.dirs ++ (beginnings place).filter fun d => d ∉ t.dirs }

def put (t : FileTree) (place : List String) (text : String) : FileTree :=
  let t := t.addDir place.dropLast
  { t with files := t.files.filter (fun f => f.1 != place) ++ [(place, text)] }

def segments (path : String) : List String :=
  match Path.clean path with
  | "." => []
  | p => Text.splitOn p "/"

def isOutside (path : String) : Bool :=
  Path.isRooted path || (segments path).head? == some ".."

/-- What keeps a directory from being made at a place, if all it lies in is there. -/
def dirFault? (t : FileTree) (place : List String) : Option Fault :=
  match pathFault? (Text.join "/" place), t.entry? place with
  | some fault, _ => some fault
  | none, some (.file _) => some .notDirectory
  | none, some .dir => none
  | none, none => if place.getLast?.any isTooLong then some .tooLong else none

/-- Makes a directory with those it lies in, up to the first that cannot be made, which is named with
what is wrong with it. What lies outside is not kept. -/
def makeDir (t : FileTree) (path : String) : FileTree × Option (String × Fault) :=
  if isOutside path then (t, none)
  else
    let places := beginnings (segments path)
    let made := places.takeWhile fun place => (t.dirFault? place).isNone
    ({ t with dirs := t.dirs ++ made.filter fun d => d ∉ t.dirs },
      places.findSome? fun place =>
        (t.dirFault? place).map fun fault => (Text.join "/" place, fault))

def nameFault? (path : String) : Option Fault :=
  match pathFault? path with
  | some fault => some fault
  | none => if (Text.splitOn path "/").any isTooLong then some .tooLong else none

def set? (t : FileTree) (path text : String) : Option FileTree :=
  if isOutside path then some t
  else if t.entry? (segments path) = some .dir then none
  else some (t.put (segments path) text)

def write? (t : FileTree) (path text : String) : Option FileTree :=
  if (nameFault? path).isSome then none else t.set? path text

/-- The file beside another that a text is written to first: a number stands behind its name, which
has up to ten digits. -/
def temporary (path : String) : String :=
  Path.dir path ++ "/." ++ Path.base path ++ ".0000000000"

def replace (t : FileTree) (path text : String) : Except Fault FileTree :=
  match nameFault? (temporary path) with
  | some fault => .error fault
  | none =>
    match t.set? path text with
    | none => .error .isDirectory
    | some t => .ok t

def newSince (t old : FileTree) : List (String × String) :=
  (t.files.filter fun f => old.entry? f.1 ≠ some (.file f.2)).map fun f =>
    (Text.join "/" f.1, f.2)

end FileTree

end FormatFuzz
