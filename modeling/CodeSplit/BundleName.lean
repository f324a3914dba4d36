import CodeSplit.Fault
import CodeSplit.FileType
import CodeSplit.Path

/-!
Identity of bundles: their ids and file names. They depend only on what a bundle holds and where it
is written.
-/
namespace CodeSplit.BundleName

/-- Id of a root or shared bundle; the asset ids are in ascending order. -/
def bundleId (assetIds : List String) (fileType : FileType) (distDir : Path) : String :=
  Digest.ofText (String.join assetIds ++ fileType.extension ++ distDir.text)

/-- Id of a manual bundle, which does not depend on its contents. -/
def manualBundleId (name : String) (fileType : FileType) (distDir : Path) : String :=
  Digest.ofText (name ++ fileType.extension ++ distDir.text)

/-- The characters that make up exactly the first `n` bytes. -/
def takeBytes? (n : Nat) : List Char → Option (List Char)
  | [] => if n = 0 then some [] else none
  | c :: rest =>
    if n = 0 then some []
    else if c.utf8Size ≤ n then (takeBytes? (n - c.utf8Size) rest).map (c :: ·)
    else none

/-- The first eight bytes of an id, which stand in the names of bundles without a stable name. -/
def nameHash (bundleId : String) : Except Fault String :=
  match takeBytes? (min 8 bundleId.utf8ByteSize) bundleId.toList with
  | some characters => .ok (String.ofList characters)
  | none => .error (.misuse (.cutCharacter bundleId))

def stableName (stem : String) (fileType : FileType) : String :=
  stem ++ "." ++ fileType.extension

def hashedName (stem bundleId : String) (fileType : FileType) : Except Fault String := do
  return stem ++ "." ++ (← nameHash bundleId) ++ "." ++ fileType.extension

def sharedName (bundleId : String) (fileType : FileType) : Except Fault String := do
  return (← nameHash bundleId) ++ "." ++ fileType.extension

end CodeSplit.BundleName
