import CodeSplit.Digest.Xxh3

/-!
Digests of byte sequences and texts, and their spelling as sixteen hexadecimal digits.
-/
namespace CodeSplit.Digest

abbrev Bytes := List UInt8

def utf8 (text : String) : Bytes := text.toUTF8.toList

def hash64 (bytes : Bytes) : UInt64 := Xxh3.hash bytes.toArray

def hexDigit (n : Nat) : Char := "0123456789abcdef".toList.getD n '0'

/-- The hexadecimal digits of `n`, most significant first, in exactly `width` places. -/
def hexDigits : (width : Nat) → (n : Nat) → List Char
  | 0, _ => []
  | width + 1, n => hexDigits width (n / 16) ++ [hexDigit (n % 16)]

def spell (hash : UInt64) : String := String.ofList (hexDigits 16 hash.toNat)

def ofBytes (bytes : Bytes) : String := spell (hash64 bytes)

def ofText (text : String) : String := ofBytes (utf8 text)

/-- Little-endian bytes of a word. -/
def wordBytes (n : UInt64) : Bytes :=
  (List.range 8).map fun k => (n >>> UInt64.ofNat (8 * k)).toUInt8

end CodeSplit.Digest
