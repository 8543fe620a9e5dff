import FormatFuzz.Text.Characters

/-!
# Dependency graphs

A graph holds named nodes in the order of their insertion, each with the nodes it depends on.
`linearize` lists every node after all it depends on: it counts down what each node waits for, and
lists a node when its count is zero. Among nodes that are ready the earliest inserted comes first, so
nodes that do not depend on one another keep their order.
-/

set_option autoImplicit false

namespace FormatFuzz

namespace Graph

structure Vertex where
  id : String
  deps : List String
  deriving DecidableEq, Repr

end Graph

structure Graph where
  vertices : List Graph.Vertex
  deriving DecidableEq, Repr

namespace Graph

inductive Error where
  | unknown (id : String)
  | cycle (remaining : List String)
  deriving DecidableEq, Repr

def Error.message : Error → String
  | .unknown id => Text.quoted id ++ ": unknown node"
  | .cycle remaining => "circular reference between " ++ Text.join ", " remaining

def empty : Graph := ⟨[]⟩

def nodes (g : Graph) : List String :=
  g.vertices.map Vertex.id

def size (g : Graph) : Nat :=
  g.vertices.length

/-- What a node depends on directly; nothing for an unknown node. -/
def deps (g : Graph) (id : String) : List String :=
  ((g.vertices.find? fun v => v.id == id).map Vertex.deps).getD []

def addNode (g : Graph) (id : String) : Graph :=
  if id ∈ g.nodes then g else ⟨g.vertices ++ [⟨id, []⟩]⟩

def Vertex.depend (v : Vertex) (id on : String) : Vertex :=
  if v.id = id && !v.deps.contains on then { v with deps := v.deps ++ [on] } else v

def addDependency (g : Graph) (id on : String) : Except Error Graph :=
  if id ∉ g.nodes then .error (.unknown id)
  else if on ∉ g.nodes then .error (.unknown on)
  else .ok ⟨g.vertices.map (·.depend id on)⟩

/-- A listing on its way: for each node how many of those it depends on are not listed yet, the
positions of the nodes that are ready, and the nodes listed. -/
structure Listing where
  pending : List Int
  ready : List Nat
  order : List String
  deriving DecidableEq, Repr

/-- Halves the part of a sorted list from `lo` to `hi` up to `n` times, to find where a number
belongs. -/
def search (xs : List Nat) (x : Nat) : Nat → Nat → Nat → Nat
  | 0, lo, _ => lo
  | n + 1, lo, hi =>
    if lo < hi then
      let middle := (lo + hi) / 2
      if xs.getD middle 0 < x then search xs x n (middle + 1) hi else search xs x n lo middle
    else lo

def insertSorted (xs : List Nat) (x : Nat) : List Nat :=
  let place := search xs x xs.length 0 xs.length
  xs.take place ++ x :: xs.drop place

/-- One of the nodes that a node depends on was listed; after the last of them it is ready. -/
def Listing.release (l : Listing) (i : Nat) : Listing :=
  let pending := l.pending.modify i (· - 1)
  if pending[i]? = some 0 then { l with pending, ready := insertSorted l.ready i }
  else { l with pending }

def dependents (g : Graph) (id : String) : List Nat :=
  (List.range g.size).filter fun i => g.vertices[i]?.any fun v => v.deps.contains id

def listing (g : Graph) : Listing where
  pending := g.vertices.map fun v => v.deps.length
  ready := (List.range g.size).filter fun i => g.vertices[i]?.any fun v => v.deps.length == 0
  order := []

def listNext (g : Graph) (l : Listing) : Listing :=
  match l.ready with
  | [] => l
  | i :: ready =>
    let id := g.nodes.getD i ""
    (g.dependents id).foldl Listing.release { l with ready, order := l.order ++ [id] }

def list (g : Graph) : Nat → Listing → Listing
  | 0, l => l
  | n + 1, l => g.list n (g.listNext l)

/-- The nodes in an order in which each comes after all it depends on. -/
def linearize (g : Graph) : Except Error (List String) :=
  let l := g.list g.size g.listing
  if l.order.length = g.size then .ok l.order
  else .error (.cycle (((g.nodes.zip l.pending).filter fun e => 0 < e.2).map Prod.fst))

end Graph

end FormatFuzz
