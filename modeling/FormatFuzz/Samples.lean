import FormatFuzz.FileTree
import FormatFuzz.Flags
import FormatFuzz.Random.Draw

/-!
# Sample runs

A run draws samples one after the other from one source. They go back to back to a stream, or to
numbered files of a directory. The first failure ends the run; what was written before it stays.
-/

set_option autoImplicit false

namespace FormatFuzz.Samples

structure Options where
  seed : Nat
  count : Int
  outDir : String
  deriving DecidableEq, Repr

inductive OptionsError where
  | flags (e : Flags.Error)
  | negativeCount (n : Int)
  deriving DecidableEq, Repr

def OptionsError.message : OptionsError → String
  | .flags e => e.message
  | .negativeCount n => "count " ++ toString n ++ ": negative length"

def flags : List Flags.Flag :=
  [⟨"seed", none, .uint⟩, ⟨"count", some 'n', .int⟩, ⟨"output", some 'o', .text⟩]

/-- The options of a command line; one sample unless it says otherwise. -/
def options (seed : Nat) (args : List String) : Except OptionsError Options :=
  match Flags.parse flags args with
  | .error e => .error (.flags e)
  | .ok p =>
    let seed := match p.get? "seed" with
      | some (.uint n) => n
      | _ => seed
    let count := match p.get? "count" with
      | some (.int n) => n
      | _ => 1
    let outDir := match p.get? "output" with
      | some (.text s) => s
      | _ => ""
    if count < 0 then .error (.negativeCount count) else .ok ⟨seed, count, outDir⟩

inductive RunError (ε : Type) where
  | sample (number : Nat) (e : ε)
  | unwritten (path : String) (fault : FileTree.Fault)
  deriving Repr

def RunError.message {ε : Type} (text : ε → String) : RunError ε → String
  | .sample n e => "sample " ++ toString n ++ ": " ++ text e
  | .unwritten path fault => "failed to write sample: open " ++ path ++ ": " ++ fault.message

structure Written where
  stream : List UInt8
  files : List (String × List UInt8)
  deriving DecidableEq, Repr

def fourDigits (n : Nat) : String :=
  let ds := Nat.toDigits 10 n
  String.ofList (List.replicate (4 - ds.length) '0' ++ ds)

def fileName (name : String) (number : Nat) : String :=
  name ++ "-" ++ fourDigits number ++ ".bin"

def runFrom {σ ε : Type} (files : FileTree) (name outDir : String)
    (gen : ExceptT ε (StateM σ) (List UInt8)) :
    Nat → Nat → σ → Written → Written × Option (RunError ε)
  | 0, _, _, w => (w, none)
  | left + 1, number, s, w =>
    match gen s with
    | (.error e, _) => (w, some (.sample number e))
    | (.ok bs, s) =>
      if outDir = "" then
        runFrom files name outDir gen left (number + 1) s { w with stream := w.stream ++ bs }
      else
        let path := Path.join [outDir, fileName name number]
        match files.obstacle? path with
        | some fault => (w, some (.unwritten path fault))
        | none =>
          runFrom files name outDir gen left (number + 1) s
            { w with files := w.files ++ [(path, bs)] }

/-- Runs a generator as often as the options say, beside the files there are. -/
def run {σ ε : Type} (files : FileTree) (name : String) (o : Options) (start : UInt64 → σ)
    (gen : ExceptT ε (StateM σ) (List UInt8)) : Written × Option (RunError ε) :=
  runFrom files name o.outDir gen o.count.toNat 0 (start (UInt64.ofNat o.seed)) ⟨[], []⟩

end FormatFuzz.Samples
