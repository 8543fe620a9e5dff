import FormatFuzz.Command.Run

/-!
# The program

Reads the working directory, runs the command line, and writes what it says. Of files that are
neither schemas, the configuration nor named on the command line only the names are read.
-/

set_option autoImplicit false

namespace FormatFuzz.Command

/-- Puts the files of a directory into a tree, with the directories in it down to a depth. -/
def readFiles (wanted : String → Bool) :
    Nat → String → List String → FileTree → IO FileTree
  | 0, _, _, tree => return tree
  | depth + 1, path, place, tree => do
    let dir ← IO.FS.realPath path
    let mut tree := tree.addDir place
    for entry in ← dir.readDir do
      let name := entry.fileName
      if ← entry.path.isDir then
        tree ← readFiles wanted depth entry.path.toString (place ++ [name]) tree
      else if wanted name then
        tree := tree.put (place ++ [name]) (← IO.FS.readFile entry.path)
      else
        tree := tree.put (place ++ [name]) ""
    return tree

def needsText (args : List String) (name : String) : Bool :=
  Path.ext name == ".ksy" || name == Config.fileName || args.any fun a => Path.base a == name

def writeFiles (writes : List (String × String)) : IO Unit :=
  writes.forM fun w => do
    IO.FS.createDirAll (Path.dir w.1)
    IO.FS.writeFile w.1 w.2

end FormatFuzz.Command

open FormatFuzz in
def main (args : List String) : IO UInt32 := do
  let here ← IO.currentDir
  let tree ← Command.readFiles (Command.needsText args) 32 here.toString [] .empty
  let o := Command.run .unset "unknown" ⟨here.toString, tree⟩ args
  IO.print o.output
  IO.eprint o.errors
  Command.writeFiles o.writes
  match o.failure with
  | none => return 0
  | some e =>
    IO.eprintln ("error: " ++ e.message)
    return 1
