import CodeSplit.Json.Record
import CodeSplit.Text.LowerCase

/-!
Build modes.
-/
namespace CodeSplit

inductive BuildMode where
  | development
  | production
  | other (name : String)
  deriving DecidableEq, Repr, Inhabited

namespace BuildMode

def ofName (name : String) : BuildMode :=
  if name = "development" then .development
  else if name = "production" then .production
  else .other name

def ofJson? (v : Json) : Option BuildMode := v.text?.map ofName

def toJson : BuildMode → Json
  | .development => .string "development"
  | .production => .string "production"
  | .other name => .object [("other", .string name)]

def display : BuildMode → String
  | .development => "development"
  | .production => "production"
  | .other name => Text.lowerCase name

end BuildMode

end CodeSplit
