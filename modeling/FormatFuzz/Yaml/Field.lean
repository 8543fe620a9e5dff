import FormatFuzz.Yaml.Node

/-!
# Fields of a mapping

The value of a merge key is a mapping, or a sequence of mappings, whose entries count as entries of
the mapping around it. Entries of the mapping itself come first, and of several entries with one key
only the first counts.
-/

set_option autoImplicit false

namespace FormatFuzz.Yaml

/-- What reading a mapping comes across, in order: an entry, a mapping with two keys that clash, or
a merge key whose value is no mapping. -/
inductive Field where
  | entry (key value : Node)
  | clash
  | noMerge
  deriving Repr

namespace Field

/-- What a key is told apart by: its text where keys are strings, its value elsewhere. Null is no
string key. -/
def keyOf? (strings : Bool) (k : Node) : Option Value :=
  match k with
  | .scalar _ style t =>
    if strings then (if k.isNull then none else some (.str t)) else some (Node.scalarValue style t)
  | _ => none

def unseen (strings : Bool) : List (Node × Node) → List Value → List Field × List Value
  | [], seen => ([], seen)
  | (k, v) :: es, seen =>
    if k.isMerge then unseen strings es seen
    else match keyOf? strings k with
      | none =>
        let (fs, seen) := unseen strings es seen
        (.entry k v :: fs, seen)
      | some key =>
        if seen.any key.sameKey then unseen strings es seen
        else
          let (fs, seen) := unseen strings es (key :: seen)
          (.entry k v :: fs, seen)

mutual

def merged (strings : Bool) : Node → List Value → List Field × List Value
  | .map _ es, seen =>
    if Node.hasClash es then ([.clash], seen)
    else
      let (fs, seen) := unseen strings es seen
      let (gs, seen) := mergedEntries strings es seen
      (fs ++ gs, seen)
  | .seq _ xs, seen => mergedItems strings xs seen
  | .scalar .., seen => ([.noMerge], seen)

def mergedItems (strings : Bool) : List Node → List Value → List Field × List Value
  | [], seen => ([], seen)
  | x :: xs, seen =>
    if x.isMap then
      let (fs, seen) := merged strings x seen
      let (gs, seen) := mergedItems strings xs seen
      (fs ++ gs, seen)
    else ([.noMerge], seen)

def mergedEntries (strings : Bool) : List (Node × Node) → List Value → List Field × List Value
  | [], seen => ([], seen)
  | (k, v) :: es, seen =>
    if k.isMerge then
      let (fs, seen) := merged strings v seen
      let (gs, seen) := mergedEntries strings es seen
      (fs ++ gs, seen)
    else mergedEntries strings es seen

end

def keys (es : List (Node × Node)) : List Value :=
  es.filterMap fun e => keyOf? false e.1

def ofEntries (strings : Bool) (es : List (Node × Node)) : List Field :=
  if Node.hasClash es then [.clash]
  else
    (es.filter fun e => !e.1.isMerge).map (fun e => .entry e.1 e.2)
      ++ (mergedEntries strings es (keys es)).1

end Field

end FormatFuzz.Yaml
