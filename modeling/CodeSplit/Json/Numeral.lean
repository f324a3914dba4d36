/-!
Spelled numbers. A number that is not a natural one is read as `significand · 10 ^ exponent`, where
the significand takes digits as long as it stays below `2 ^ 64`. Its magnitude is the product of two
doubles, the nearest to the significand and the nearest to the power of ten, and a number whose
magnitude is not finite is refused.
-/
namespace CodeSplit.Json

structure Decimal where
  significand : Nat
  exponent : Int
  deriving DecidableEq, Repr

namespace Decimal

def significandLimit : Nat := Nat.pow 2 64

def takes (d : Decimal) (digit : Nat) : Bool :=
  decide (d.significand * 10 + digit < significandLimit)

/-- Adds digits of a whole part. From the first one that the significand cannot take, each counts as
a zero. -/
def addWhole (d : Decimal) : List Nat → Decimal
  | [] => d
  | digit :: rest =>
    if d.takes digit then addWhole { d with significand := d.significand * 10 + digit } rest
    else { d with exponent := d.exponent + (rest.length + 1) }

/-- Adds digits of a fraction, up to the first one that the significand cannot take. -/
def addFraction (d : Decimal) : List Nat → Decimal
  | [] => d
  | digit :: rest =>
    if d.takes digit then addFraction ⟨d.significand * 10 + digit, d.exponent - 1⟩ rest
    else d

/-- The double nearest to a natural number, the one with an even last bit of two. The bound on
doubles is not taken into account. -/
def nearestDouble (n : Nat) : Nat :=
  let unit := Nat.pow 2 (n.log2 - 52)
  let below := n / unit
  let excess := n % unit
  if unit < 2 * excess ∨ (2 * excess = unit ∧ below % 2 = 1) then (below + 1) * unit
  else below * unit

/-- The least natural number that is too large to round to a double. -/
def doubleLimit : Nat := Nat.pow 2 1024 - Nat.pow 2 970

/-- The largest exponent whose power of ten is a double. -/
def maxExponent : Nat := 308

def isFinite (d : Decimal) : Bool :=
  d.significand = 0 || d.exponent < 0 ||
    (d.exponent ≤ maxExponent && decide
      (nearestDouble d.significand * nearestDouble (Nat.pow 10 d.exponent.toNat) < doubleLimit))

end Decimal

structure Numeral where
  negative : Bool
  whole : List Nat
  fraction : List Nat
  exponent : Int
  isInteger : Bool
  deriving DecidableEq, Repr

namespace Numeral

def digits (text : List Char) : List Nat := text.map fun c => c.toNat - '0'.toNat

def digitsValue (digits : List Nat) : Nat := digits.foldl (fun n digit => n * 10 + digit) 0

/-- Reads sign, whole part, fraction and exponent; a whole part has no superfluous leading zero. -/
def ofLiteral? (text : List Char) : Option Numeral := do
  let negative := text.head? = some '-'
  let text := if negative then text.drop 1 else text
  let (whole, text) := text.span Char.isDigit
  if whole = [] then none
  if whole.head? = some '0' ∧ whole.length > 1 then none
  let (fraction, text, hasFraction) ← match text with
    | '.' :: rest =>
      let (fraction, rest) := rest.span Char.isDigit
      if fraction = [] then none else some (fraction, rest, true)
    | rest => some ([], rest, false)
  match text with
  | [] => some ⟨negative, digits whole, digits fraction, 0, !hasFraction⟩
  | e :: rest =>
    if e = 'e' ∨ e = 'E' then
      let minus := rest.head? = some '-'
      let rest := if minus ∨ rest.head? = some '+' then rest.drop 1 else rest
      if rest = [] ∨ !rest.all Char.isDigit then none
      else
        let size : Int := digitsValue (digits rest)
        some ⟨negative, digits whole, digits fraction, if minus then -size else size, false⟩
    else none

/-- The value, if it is natural, spelled as an integer and fits in 64 bits. -/
def natural? (n : Numeral) : Option Nat :=
  let value := digitsValue n.whole
  if n.isInteger && !n.negative && decide (value < Nat.pow 2 64) then some value else none

/-- The magnitude, cut to the digits that the significand takes. -/
def magnitude (n : Numeral) : Decimal :=
  let d := (Decimal.addWhole ⟨0, 0⟩ n.whole).addFraction n.fraction
  { d with exponent := d.exponent + n.exponent }

end Numeral

end CodeSplit.Json
