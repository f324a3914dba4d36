import CodeSplit.Json

/-!
Decoders for the parts of records. A record is written as an object, in which unknown members are
ignored, or as the array of its fields in order.
-/
namespace CodeSplit.Json

def text? : Json → Option String
  | .string s => some s
  | _ => none

def bool? : Json → Option Bool
  | .bool b => some b
  | _ => none

/-- A natural number of at most `bits` bits. -/
def natural? (bits : Nat) : Json → Option Nat
  | .natural n => if n < Nat.pow 2 bits then some n else none
  | _ => none

def list? {α : Type} (item? : Json → Option α) : Json → Option (List α)
  | .array items => items.mapM item?
  | _ => none

def nullable? {α : Type} (value? : Json → Option α) : Json → Option (Option α)
  | .null => some none
  | v => (value? v).map some

/-- A choice without contents: its name, or an object with that name only and the value null. -/
def choice? {α : Type} (choices : List (String × α)) : Json → Option α
  | .string name => (choices.find? (·.1 = name)).map (·.2)
  | .object ((name, value) :: rest) =>
    if rest.all (·.1 = name) then
      match lastMember? name ((name, value) :: rest) with
      | some .null => (choices.find? (·.1 = name)).map (·.2)
      | _ => none
    else none
  | _ => none

/-- The fields of a record, those that an object leaves out being none. -/
def fields? (names : List String) : Json → Option (List (Option Json))
  | .object members => some (names.map (lastMember? · members))
  | .array items => if items.length = names.length then some (items.map some) else none
  | _ => none

/-- As `fields?`, but the array form may also stop early. -/
def leadingFields? (names : List String) : Json → Option (List (Option Json))
  | .object members => some (names.map (lastMember? · members))
  | .array items =>
    if items.length ≤ names.length then
      some (items.map some ++ List.replicate (names.length - items.length) none)
    else none
  | _ => none

def required? {α : Type} (value? : Json → Option α) (field : Option Json) : Option α :=
  field.bind value?

def optional? {α : Type} (value? : Json → Option α) : Option Json → Option (Option α)
  | none => some none
  | some v => nullable? value? v

def defaulted? {α : Type} (value? : Json → Option α) (default : α) : Option Json → Option α
  | none => some default
  | some v => value? v

end CodeSplit.Json
