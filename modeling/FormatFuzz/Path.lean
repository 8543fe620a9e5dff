import FormatFuzz.Text.Bytes

/-!
# Slash-separated paths

Paths are cleaned lexically: empty and dot segments go, and a double dot takes the segment before it
away. The clean form of the empty path is a dot.
-/

set_option autoImplicit false

namespace FormatFuzz.Path

def isRooted (p : String) : Bool :=
  p.toList.head? == some '/'

/-- The segments left after cleaning; `done` holds those kept so far, last first. -/
def cleanSegments (rooted : Bool) : List String → List String → List String
  | done, [] => done.reverse
  | done, s :: rest =>
    if s = "" || s = "." then cleanSegments rooted done rest
    else if s = ".." then
      match done with
      | d :: ds => if d = ".." then cleanSegments rooted (".." :: done) rest
        else cleanSegments rooted ds rest
      | [] => if rooted then cleanSegments rooted [] rest else cleanSegments rooted [".."] rest
    else cleanSegments rooted (s :: done) rest

def clean (p : String) : String :=
  let rooted := isRooted p
  let body := Text.join "/" (cleanSegments rooted [] (Text.splitOn p "/"))
  if rooted then "/" ++ body else if body = "" then "." else body

/-- The parts joined by slashes and cleaned; empty parts are left out. -/
def join (parts : List String) : String :=
  match parts.filter (· ≠ "") with
  | [] => ""
  | ps => clean (Text.join "/" ps)

def lastPart (p : String) : String :=
  String.ofList (p.toList.reverse.takeWhile (· != '/')).reverse

def dir (p : String) : String :=
  clean (String.ofList (p.toList.reverse.dropWhile (· != '/')).reverse)

def base (p : String) : String :=
  if p = "" then "."
  else
    let trimmed := (p.toList.reverse.dropWhile (· == '/')).reverse
    if trimmed.isEmpty then "/" else lastPart (String.ofList trimmed)

def ext (p : String) : String :=
  let name := (lastPart p).toList
  if name.contains '.' then
    String.ofList ('.' :: (name.reverse.takeWhile (· != '.')).reverse)
  else ""

def segments (p : String) : List String :=
  (Text.splitOn (clean p) "/").filter fun s => s ≠ "" && s ≠ "."

def dropShared : List String → List String → List String × List String
  | a :: as, b :: bs => if a = b then dropShared as bs else (a :: as, b :: bs)
  | as, bs => (as, bs)

def relative (dir p : String) : String :=
  let (up, down) := dropShared (segments dir) (segments p)
  clean (Text.join "/" (up.map (fun _ => "..") ++ down))

/-- A path as a file system takes it: not rooted, and already clean without double dots. -/
def isValid (p : String) : Bool :=
  p = "." || (Text.splitOn p "/").all fun s => s ≠ "" && s ≠ "." && s ≠ ".."

end FormatFuzz.Path
