/-!
JSON values. Numbers that are natural and fit in 64 bits are kept by value, since no other number is
ever accepted by a decoder; the rest keep their spelling. Members of an object stand in the order
they were written, and the last member of a name counts.
-/
namespace CodeSplit

inductive Json where
  | null
  | bool (value : Bool)
  | natural (value : Nat)
  | number (literal : String)
  | string (text : String)
  | array (items : List Json)
  | object (members : List (String × Json))
  deriving Inhabited

namespace Json

/-- The value of the last member called `name`. -/
def lastMember? (name : String) : List (String × Json) → Option Json
  | [] => none
  | (name', value) :: rest =>
    match lastMember? name rest with
    | some later => some later
    | none => if name' = name then some value else none

/-- The member of an object; values that are not objects have none. -/
def member? (name : String) : Json → Option Json
  | .object members => lastMember? name members
  | _ => none

def ofOption {α : Type} (encode : α → Json) : Option α → Json
  | none => .null
  | some a => encode a

def strings (texts : List String) : Json := .array (texts.map .string)

end Json

end CodeSplit
