import FormatFuzz.Digest.Blocks
import FormatFuzz.Digest.Sha3
import FormatFuzz.Text.Characters
import FormatFuzz.Text.Words

/-!
# Digests by name

The digests a checksum field can have. A name may be written in any case and with hyphens or
underscores anywhere.
-/

set_option autoImplicit false

namespace FormatFuzz

inductive Digest where
  | crc32
  | md5
  | sha1
  | sha224
  | sha256
  | sha384
  | sha512
  | sha3 (bits : Nat)
  deriving DecidableEq, Repr

namespace Digest

def all : List Digest :=
  [crc32, md5, sha1, sha224, sha256, sha384, sha512, sha3 224, sha3 256, sha3 384, sha3 512]

def name : Digest → String
  | .crc32 => "crc32"
  | .md5 => "md5"
  | .sha1 => "sha1"
  | .sha224 => "sha224"
  | .sha256 => "sha256"
  | .sha384 => "sha384"
  | .sha512 => "sha512"
  | .sha3 bits => "sha3-" ++ toString bits

def names : List String :=
  all.map name

def size : Digest → Nat
  | .crc32 => 4
  | .md5 => 16
  | .sha1 => 20
  | .sha224 => 28
  | .sha256 => 32
  | .sha384 => 48
  | .sha512 => 64
  | .sha3 bits => bits / 8

def ofName? (s : String) : Option Digest :=
  let n := Text.lowerText (String.ofList (s.toList.filter fun c => c != '-' && c != '_'))
  all.find? fun d => n == String.ofList (d.name.toList.filter (· != '-'))

def canonical (s : String) : String :=
  ((ofName? s).map name).getD ""

def compute (d : Digest) (data : List UInt8) : List UInt8 :=
  match d with
  | .crc32 => Crc32.digest data
  | .md5 => Md5.digest data
  | .sha1 => Sha1.digest data
  | .sha224 => Sha2.digest32 Sha2.initial224 28 data
  | .sha256 => Sha2.digest32 Sha2.initial256 32 data
  | .sha384 => Sha2.digest64 Sha2.initial384 48 data
  | .sha512 => Sha2.digest64 Sha2.initial512 64 data
  | .sha3 bits => Sha3.digest (bits / 8) data

end Digest

end FormatFuzz
