import CodeSplit.Digest

/-!
The byte sequences that identities are digests of. Each piece ends where its form says, so the
pieces of a sequence can be told apart: a text is closed by a byte that no UTF-8 text holds, and
choices are tagged by a word.
-/
namespace CodeSplit.Fingerprint

open Digest (Bytes utf8 wordBytes)

def text (s : String) : Bytes := utf8 s ++ [0xff]

def tag (n : Nat) : Bytes := wordBytes (UInt64.ofNat n)

def flag (b : Bool) : Bytes := [if b then 1 else 0]

def option {α : Type} (piece : α → Bytes) : Option α → Bytes
  | none => tag 0
  | some a => tag 1 ++ piece a

end CodeSplit.Fingerprint
