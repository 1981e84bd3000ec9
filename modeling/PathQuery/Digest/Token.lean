import PathQuery.Digest.Sha256

namespace PathQuery.Digest

/-! # Tokens

A token names a text: the first sixteen bytes of its digest, written with the
URL-safe alphabet of sixty-four characters and without padding, which makes
twenty-two characters.
-/

/-- Letters, digits, `-` and `_`, in the order of their values. -/
def alphabet : List Char :=
  "ABCDEFGHIJKLMNOPQRSTUVWXYZabcdefghijklmnopqrstuvwxyz0123456789-_".toList

def sextet (n : Nat) : Char := alphabet.getD (n % 64) 'A'

/-- Three bytes become four characters; one or two bytes at the end become two or
    three. -/
def sextets : List UInt8 → List Char
  | [] => []
  | [a] =>
    let n := a.toNat * 65536
    [sextet (n / 262144), sextet (n / 4096)]
  | [a, b] =>
    let n := a.toNat * 65536 + b.toNat * 256
    [sextet (n / 262144), sextet (n / 4096), sextet (n / 64)]
  | a :: b :: c :: rest =>
    let n := a.toNat * 65536 + b.toNat * 256 + c.toNat
    sextet (n / 262144) :: sextet (n / 4096) :: sextet (n / 64) :: sextet n :: sextets rest

def tokenBytes : Nat := 16

def token (text : String) : String :=
  let bytes := text.toList.flatMap String.utf8EncodeChar
  String.ofList (sextets ((sha256 bytes).take tokenBytes))

end PathQuery.Digest
