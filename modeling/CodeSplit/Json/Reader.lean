import CodeSplit.Json
import CodeSplit.Json.Numeral

/-!
Reading JSON text. The text is cut into tokens, which a stack machine assembles; the stack holds the
arrays and objects that are still open, so its height is the nesting depth and is bounded.
-/
namespace CodeSplit.Json

inductive Token where
  | openArray
  | closeArray
  | openObject
  | closeObject
  | comma
  | colon
  | scalar (value : Json)

namespace Token

def isBlank (c : Char) : Bool := c = ' ' || c = '\t' || c = '\n' || c = '\r'

def hexValue? (c : Char) : Option Nat :=
  if '0' ≤ c ∧ c ≤ '9' then some (c.toNat - '0'.toNat)
  else if 'a' ≤ c ∧ c ≤ 'f' then some (c.toNat - 'a'.toNat + 10)
  else if 'A' ≤ c ∧ c ≤ 'F' then some (c.toNat - 'A'.toNat + 10)
  else none

/-- Four hexadecimal digits and what follows them. -/
def hexUnit? : List Char → Option (Nat × List Char)
  | a :: b :: c :: d :: rest => do
    let a ← hexValue? a
    let b ← hexValue? b
    let c ← hexValue? c
    let d ← hexValue? d
    return (((a * 16 + b) * 16 + c) * 16 + d, rest)
  | _ => none

/-- The character of a `\u` escape. A high surrogate needs a low one in a second escape; a surrogate
alone is refused. -/
def unicodeEscape? (text : List Char) : Option (Char × List Char) := do
  let (unit, rest) ← hexUnit? text
  if 0xdc00 ≤ unit ∧ unit ≤ 0xdfff then none
  else if 0xd800 ≤ unit ∧ unit ≤ 0xdbff then
    match rest with
    | '\\' :: 'u' :: rest =>
      let (low, rest) ← hexUnit? rest
      if 0xdc00 ≤ low ∧ low ≤ 0xdfff then
        some (Char.ofNat (0x10000 + (unit - 0xd800) * 0x400 + (low - 0xdc00)), rest)
      else none
    | _ => none
  else some (Char.ofNat unit, rest)

def simpleEscape? : Char → Option Char
  | '"' => some '"'
  | '\\' => some '\\'
  | '/' => some '/'
  | 'b' => some '\x08'
  | 'f' => some '\x0c'
  | 'n' => some '\n'
  | 'r' => some '\r'
  | 't' => some '\t'
  | _ => none

/-- The rest of a string after its opening quote; `read` holds what was read, the last character
first. -/
def string? : (fuel : Nat) → (text read : List Char) → Option (String × List Char)
  | 0, _, _ => none
  | fuel + 1, text, read =>
    match text with
    | [] => none
    | '"' :: rest => some (String.ofList read.reverse, rest)
    | '\\' :: 'u' :: rest =>
      match unicodeEscape? rest with
      | some (c, rest) => string? fuel rest (c :: read)
      | none => none
    | '\\' :: c :: rest =>
      match simpleEscape? c with
      | some c => string? fuel rest (c :: read)
      | none => none
    | c :: rest => if c.toNat < 0x20 then none else string? fuel rest (c :: read)

def number? (literal : List Char) : Option Json := do
  let numeral ← Numeral.ofLiteral? literal
  match numeral.natural? with
  | some value => return .natural value
  | none => if numeral.magnitude.isFinite then some (.number (String.ofList literal)) else none

def isNumberCharacter (c : Char) : Bool :=
  c.isDigit || c = '-' || c = '+' || c = '.' || c = 'e' || c = 'E'

/-- The token at the head of a text that starts with no blank. -/
def next? (text : List Char) : Option (Token × List Char) :=
  match text with
  | '[' :: rest => some (.openArray, rest)
  | ']' :: rest => some (.closeArray, rest)
  | '\x7b' :: rest => some (.openObject, rest)
  | '\x7d' :: rest => some (.closeObject, rest)
  | ',' :: rest => some (.comma, rest)
  | ':' :: rest => some (.colon, rest)
  | '"' :: rest =>
    (string? (rest.length + 1) rest []).map fun (s, rest) => (.scalar (.string s), rest)
  | 'n' :: 'u' :: 'l' :: 'l' :: rest => some (.scalar .null, rest)
  | 't' :: 'r' :: 'u' :: 'e' :: rest => some (.scalar (.bool true), rest)
  | 'f' :: 'a' :: 'l' :: 's' :: 'e' :: rest => some (.scalar (.bool false), rest)
  | text =>
    let (literal, rest) := text.span isNumberCharacter
    (number? literal).map fun n => (.scalar n, rest)

def all? : (fuel : Nat) → (text : List Char) → (read : List Token) → Option (List Token)
  | 0, _, _ => none
  | fuel + 1, text, read =>
    match text with
    | [] => some read.reverse
    | c :: rest =>
      if isBlank c then all? fuel rest read
      else
        match next? (c :: rest) with
        | some (token, rest) => all? fuel rest (token :: read)
        | none => none

def ofText? (text : String) : Option (List Token) :=
  let characters := text.toList
  all? (characters.length + 1) characters []

end Token

/-- An array or object that is still open, with its contents so far, last first. -/
inductive Frame where
  | array (items : List Json)
  | object (members : List (String × Json)) (name : String)

inductive Awaiting where
  | value
  | firstItem
  | firstName
  | name
  | colon
  | separator

inductive Assembly where
  | reading (frames : List Frame) (awaiting : Awaiting)
  | finished (value : Json)

namespace Assembly

/-- Arrays and objects may be nested below this depth. -/
def depthLimit : Nat := 128

def deliver (value : Json) : List Frame → Assembly
  | [] => .finished value
  | .array items :: rest => .reading (.array (value :: items) :: rest) .separator
  | .object members name :: rest =>
    .reading (.object ((name, value) :: members) name :: rest) .separator

def openFrame (frame : Frame) (awaiting : Awaiting) (frames : List Frame) : Option Assembly :=
  if frames.length + 1 < depthLimit then some (.reading (frame :: frames) awaiting) else none

def startValue (frames : List Frame) : Token → Option Assembly
  | .scalar value => some (deliver value frames)
  | .openArray => openFrame (.array []) .firstItem frames
  | .openObject => openFrame (.object [] "") .firstName frames
  | _ => none

def step : Assembly → Token → Option Assembly
  | .finished _, _ => none
  | .reading frames .value, token => startValue frames token
  | .reading (.array items :: rest) .firstItem, .closeArray =>
    some (deliver (.array items.reverse) rest)
  | .reading frames .firstItem, token => startValue frames token
  | .reading (.object members _ :: rest) .firstName, .closeObject =>
    some (deliver (.object members.reverse) rest)
  | .reading (.object members _ :: rest) .firstName, .scalar (.string name) =>
    some (.reading (.object members name :: rest) .colon)
  | .reading (.object members _ :: rest) .name, .scalar (.string name) =>
    some (.reading (.object members name :: rest) .colon)
  | .reading frames .colon, .colon => some (.reading frames .value)
  | .reading (.array items :: rest) .separator, .comma =>
    some (.reading (.array items :: rest) .value)
  | .reading (.array items :: rest) .separator, .closeArray =>
    some (deliver (.array items.reverse) rest)
  | .reading (.object members name :: rest) .separator, .comma =>
    some (.reading (.object members name :: rest) .name)
  | .reading (.object members _ :: rest) .separator, .closeObject =>
    some (deliver (.object members.reverse) rest)
  | .reading _ _, _ => none

end Assembly

/-- The value a text spells, if it spells exactly one. -/
def parse? (text : String) : Option Json := do
  let tokens ← Token.ofText? text
  match ← tokens.foldlM Assembly.step (.reading [] .value) with
  | .finished value => some value
  | .reading _ _ => none

end CodeSplit.Json
