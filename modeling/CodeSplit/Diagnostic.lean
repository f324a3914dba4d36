import CodeSplit.Json.Record
import CodeSplit.Path

/-!
Messages for the user, with the places in source files that they are about.
-/
namespace CodeSplit

/-- A position counted from one. -/
structure Location where
  line : Nat
  column : Nat
  deriving DecidableEq, Repr

structure CodeHighlight where
  start : Location
  stop : Location
  message : Option String := none
  deriving DecidableEq, Repr

structure CodeFrame where
  code : Option String := none
  filePath : Option Path := none
  highlights : List CodeHighlight := []
  deriving DecidableEq, Repr

structure Diagnostic where
  message : String
  origin : Option String := none
  name : Option String := none
  codeFrames : Option (List CodeFrame) := none
  hints : Option (List String) := none
  documentationUrl : Option String := none
  deriving DecidableEq, Repr

abbrev Diagnostics := List Diagnostic

namespace Location

def toJson (l : Location) : Json :=
  .object [("line", .natural l.line), ("column", .natural l.column)]

def ofJson? (v : Json) : Option Location := do
  let [line, column] ← v.fields? ["line", "column"] | none
  return {
    line := ← Json.required? (Json.natural? 64) line
    column := ← Json.required? (Json.natural? 64) column }

end Location

namespace CodeHighlight

def toJson (h : CodeHighlight) : Json := .object [
  ("start", h.start.toJson), ("end", h.stop.toJson), ("message", .ofOption .string h.message)]

def ofJson? (v : Json) : Option CodeHighlight := do
  let [start, stop, message] ← v.fields? ["start", "end", "message"] | none
  return {
    start := ← Json.required? Location.ofJson? start
    stop := ← Json.required? Location.ofJson? stop
    message := ← Json.optional? Json.text? message }

end CodeHighlight

namespace CodeFrame

def toJson (f : CodeFrame) : Json := .object [
  ("code", .ofOption .string f.code),
  ("filePath", .ofOption (fun p => .string p.text) f.filePath),
  ("codeHighlights", .array (f.highlights.map CodeHighlight.toJson))]

def ofJson? (v : Json) : Option CodeFrame := do
  let [code, filePath, highlights] ← v.fields? ["code", "filePath", "codeHighlights"] | none
  return {
    code := ← Json.optional? Json.text? code
    filePath := (← Json.optional? Json.text? filePath).map Path.mk
    highlights := ← Json.required? (Json.list? CodeHighlight.ofJson?) highlights }

end CodeFrame

namespace Diagnostic

def toJson (d : Diagnostic) : Json := .object [
  ("message", .string d.message),
  ("origin", .ofOption .string d.origin),
  ("name", .ofOption .string d.name),
  ("codeFrames", .ofOption (fun fs => .array (fs.map CodeFrame.toJson)) d.codeFrames),
  ("hints", .ofOption Json.strings d.hints),
  ("documentationURL", .ofOption .string d.documentationUrl)]

def fieldNames : List String :=
  ["message", "origin", "name", "codeFrames", "hints", "documentationURL"]

def ofJson? (v : Json) : Option Diagnostic := do
  let [message, origin, name, codeFrames, hints, url] ← v.fields? fieldNames | none
  return {
    message := ← Json.required? Json.text? message
    origin := ← Json.optional? Json.text? origin
    name := ← Json.optional? Json.text? name
    codeFrames := ← Json.optional? (Json.list? CodeFrame.ofJson?) codeFrames
    hints := ← Json.optional? (Json.list? Json.text?) hints
    documentationUrl := ← Json.optional? Json.text? url }

def hasName (d : Diagnostic) (name : String) : Bool := d.name = some name

end Diagnostic

namespace Diagnostics

def toJson (ds : Diagnostics) : Json := .array (ds.map Diagnostic.toJson)

def ofJson? : Json → Option Diagnostics := Json.list? Diagnostic.ofJson?

/-- One message a line. -/
def display (ds : Diagnostics) : String := String.join (ds.map fun d => d.message ++ "\n")

end Diagnostics

end CodeSplit
