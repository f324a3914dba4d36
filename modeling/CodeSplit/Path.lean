import CodeSplit.Fingerprint

/-!
File paths with `/` as separator. A path keeps its spelling; its meaning is the list of its
components, in which repeated separators and inner `.` segments leave no trace.
-/
namespace CodeSplit

structure Path where
  text : String
  deriving DecidableEq, Repr, Inhabited

namespace Path

inductive Component where
  | root
  | current
  | parent
  | normal (name : String)
  deriving DecidableEq, Repr

def Component.text : Component → String
  | .root => "/"
  | .current => "."
  | .parent => ".."
  | .normal name => name

/-- The pieces between separators; there is always at least one. -/
def segments : List Char → List (List Char)
  | [] => [[]]
  | c :: rest =>
    match segments rest with
    | [] => [[c]]
    | piece :: pieces => if c = '/' then [] :: piece :: pieces else (c :: piece) :: pieces

def isAbsolute (p : Path) : Bool := p.text.toList.head? = some '/'

/-- The component of a segment that is not the first of a relative path. -/
def innerComponent? (segment : List Char) : Option Component :=
  if segment = [] ∨ segment = ['.'] then none
  else if segment = ['.', '.'] then some .parent
  else some (.normal (String.ofList segment))

def components (p : Path) : List Component :=
  match segments p.text.toList with
  | [] => []
  | first :: rest =>
    let inner := rest.filterMap innerComponent?
    if p.isAbsolute then .root :: inner
    else if first = ['.'] then .current :: inner
    else
      match innerComponent? first with
      | some c => c :: inner
      | none => inner

/-- Whether two spellings name the same sequence of components. -/
def same (p q : Path) : Bool := p.components = q.components

def fileName? (p : Path) : Option String :=
  match p.components.getLast? with
  | some (.normal name) => some name
  | _ => none

/-- The parts of a file name before and after its last dot. A name without a dot, or with none but a
leading one, is all stem. -/
def splitName (name : String) : String × Option String :=
  let characters := name.toList
  let extension := (characters.reverse.takeWhile (· ≠ '.')).reverse
  let stem := characters.take (characters.length - extension.length - 1)
  if extension.length = characters.length ∨ stem = [] then (name, none)
  else (String.ofList stem, some (String.ofList extension))

def fileStem? (p : Path) : Option String := p.fileName?.map fun name => (splitName name).1

def extension? (p : Path) : Option String := p.fileName?.bind fun name => (splitName name).2

def join (base p : Path) : Path :=
  if p.isAbsolute then p
  else if base.text = "" ∨ base.text.toList.getLast? = some '/' then ⟨base.text ++ p.text⟩
  else ⟨base.text ++ "/" ++ p.text⟩

/-- Joins components one by one. -/
def ofComponents (cs : List Component) : Path :=
  cs.foldl (fun p c => p.join ⟨c.text⟩) ⟨""⟩

/-- Appends a component to a list of components, last first: `.` is dropped, and `..` removes the
component before it, unless that is the root directory or there is none. -/
def follow (read : List Component) : Component → List Component
  | .current => read
  | .parent =>
    match read with
    | [] => []
    | .root :: rest => .root :: rest
    | _ :: rest => rest
  | c => c :: read

/-- The location of `p`, taken from `base` unless `p` is absolute. Only the components of `p` are
simplified. -/
def resolveFrom (base p : Path) : Path :=
  let start := if p.isAbsolute then [] else base.components
  ofComponents (p.components.foldl follow start.reverse).reverse

/-- The texts of the components, the root directory apart. -/
def chunks (p : Path) : List String :=
  p.components.filterMap fun
    | .root => none
    | c => some c.text

def rotateRight (x : UInt64) (n : UInt64) : UInt64 := (x >>> n) ||| (x <<< (64 - n))

/-- The chunks without separators, and a word that depends on their lengths. -/
def fingerprint (p : Path) : Digest.Bytes :=
  let lengths := p.chunks.foldl
    (fun bits chunk => rotateRight (bits + UInt64.ofNat chunk.utf8ByteSize) 2) 0
  p.chunks.flatMap Digest.utf8 ++ Digest.wordBytes lengths

end Path

end CodeSplit
