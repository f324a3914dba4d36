/-!
Log events: what the passes report while they run.
-/
namespace CodeSplit

inductive Event.Level where
  | info
  | debug
  | trace
  deriving DecidableEq, Repr

inductive Event.Value where
  | number (n : Nat)
  | text (s : String)
  | flag (b : Bool)
  deriving DecidableEq, Repr

structure Event where
  level : Event.Level
  message : String
  fields : List (String × Event.Value) := []
  deriving DecidableEq, Repr

namespace Event

def Level.name : Level → String
  | .info => "info"
  | .debug => "debug"
  | .trace => "trace"

/-- A debug event whose fields are numbers. -/
def counts (message : String) (fields : List (String × Nat)) : Event :=
  ⟨.debug, message, fields.map fun (name, n) => (name, .number n)⟩

end Event

end CodeSplit
