import CodeSplit.Diagnostic

/-!
The place of a quoted key in a text.
-/
namespace CodeSplit

open Digest (Bytes utf8)

/-- The bytes in front of the first occurrence of `needle`. -/
def beforeFirst? (needle : Bytes) : Bytes → Option Bytes
  | [] => if needle.isPrefixOf [] then some [] else none
  | b :: rest =>
    if needle.isPrefixOf (b :: rest) then some []
    else (beforeFirst? needle rest).map (b :: ·)

/-- Start and end of the first occurrence of the quoted key; columns count bytes and the end is the
closing quote. -/
def locateKey? (contents key : String) : Option (Location × Location) :=
  let needle := utf8 ("\"" ++ key ++ "\"")
  (beforeFirst? needle (utf8 contents)).map fun before =>
    let line := before.count 0x0a + 1
    let column := (before.reverse.takeWhile (· ≠ 0x0a)).length + 1
    (⟨line, column⟩, ⟨line, column + needle.length - 1⟩)

end CodeSplit
