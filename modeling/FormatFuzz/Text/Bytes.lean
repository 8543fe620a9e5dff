/-!
# Bytes and their text

Octet strings are lists of `UInt8`. This module gives the encoded form of a text, the text of an
octet string, and hexadecimal notation of fixed width.
-/

set_option autoImplicit false

namespace FormatFuzz.Text

def utf8 (s : String) : List UInt8 :=
  s.toList.flatMap String.utf8EncodeChar

/-- The characters of a text. Those of an ASCII text are its octets. -/
def chars (s : String) : List Char :=
  let octets := s.toByteArray.data.toList
  if octets.all (· < 128) then octets.map fun b => Char.ofNat b.toNat else s.toList

def leading? (bs : List UInt8) : Option Char :=
  [1, 2, 3, 4].findSome? fun n =>
    match (bs.take n).toByteArray.utf8Decode? with
    | some cs => if cs.size = 1 then cs[0]? else none
    | none => none

/-- The characters of an octet string; an octet that begins none is a replacement character. -/
def decoded : List UInt8 → List Char
  | [] => []
  | b :: bs =>
    match leading? (b :: bs) with
    | some c => c :: decoded (bs.drop (c.utf8Size - 1))
    | none => '\ufffd' :: decoded bs
termination_by bs => bs.length
decreasing_by
  · simp only [List.length_drop, List.length_cons]; omega
  · simp

def ofUtf8 (bs : List UInt8) : String :=
  match bs.toByteArray.utf8Decode? with
  | some cs => String.ofList cs.toList
  | none => String.ofList (decoded bs)

def ofAscii (bs : List UInt8) : String :=
  String.ofList (bs.map fun b => Char.ofNat b.toNat)

def hexDigit (n : Nat) : Char :=
  if n % 16 < 10 then Char.ofNat (48 + n % 16) else Char.ofNat (87 + n % 16)

def hexFixed (width n : Nat) : List Char :=
  (List.range width).map fun i => hexDigit (n / Nat.pow 16 (width - 1 - i))

def hex (bs : List UInt8) : String :=
  String.ofList (bs.flatMap fun b => hexFixed 2 b.toNat)

def hexValue (c : Char) : Option Nat :=
  if '0' ≤ c && c ≤ '9' then some (c.toNat - 48)
  else if 'a' ≤ c && c ≤ 'f' then some (c.toNat - 87)
  else if 'A' ≤ c && c ≤ 'F' then some (c.toNat - 55)
  else none

def unhex : List Char → Option (List UInt8)
  | [] => some []
  | [_] => none
  | a :: b :: rest => do
    let hi ← hexValue a
    let lo ← hexValue b
    let bs ← unhex rest
    return UInt8.ofNat (16 * hi + lo) :: bs

def join (sep : String) : List String → String
  | [] => ""
  | [s] => s
  | s :: rest => s ++ sep ++ join sep rest

def startsWith (pre s : List Char) : Bool :=
  pre.isPrefixOf s

def endsWith (suf s : List Char) : Bool :=
  suf.isSuffixOf s

def splitAux (a : Char) (sep : List Char) : List Char → Nat → List Char → List (List Char)
  | acc, _, [] => [acc.reverse]
  | acc, skip + 1, _ :: cs => splitAux a sep acc skip cs
  | acc, 0, c :: cs =>
    if (a :: sep).isPrefixOf (c :: cs) then acc.reverse :: splitAux a sep [] sep.length cs
    else splitAux a sep (c :: acc) 0 cs

def splitOn (s : String) (sep : String) : List String :=
  match sep.toList with
  | [] => [s]
  | a :: rest => (splitAux a rest [] 0 s.toList).map String.ofList

def cutAux (sep : List Char) : List Char → List Char → Option (List Char × List Char)
  | acc, [] => if sep.isEmpty then some (acc.reverse, []) else none
  | acc, c :: cs =>
    if sep.isPrefixOf (c :: cs) then some (acc.reverse, (c :: cs).drop sep.length)
    else cutAux sep (c :: acc) cs

def cut (s sep : String) : Option (String × String) :=
  (cutAux sep.toList [] s.toList).map fun p => (String.ofList p.1, String.ofList p.2)

def replaceAll (s old new : String) : String :=
  join new (splitOn s old)

def dropPrefix? (s pre : String) : Option String :=
  if pre.toList.isPrefixOf s.toList then some (String.ofList (s.toList.drop pre.toList.length))
  else none

def dropSuffix? (s suf : String) : Option String :=
  if suf.toList.isSuffixOf s.toList then
    some (String.ofList (s.toList.take (s.toList.length - suf.toList.length)))
  else none

end FormatFuzz.Text
