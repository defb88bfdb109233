/-
Exact reading of JSON number text (libs/rust/agent-runtime/src/
exact_number.rs).

A number's text becomes a sign, digits without zeros at either end and an
exponent, and from there an `i64` or a `u64`; nothing passes through a
float. Texts are lists of characters. The `i64` arithmetic of the exponent
and the `u128` arithmetic of the magnitude are checked, as in the source.
-/
import Elitea.Lib.Digits
import Elitea.Lib.Fallible

namespace Elitea.Graph

open Lib
open Lib.Digits

/-- Why number text is not the exact integer a caller asked for. -/
inductive NumberFault
  | unsupported
  | notInteger
  | overflow
deriving DecidableEq, Repr

/-- `(-1)^negative * digits * 10^exponent`. -/
structure Decimal where
  negative : Bool
  digits : List Char
  exponent : Int
deriving DecidableEq, Repr

/-- An `i64` or `u64` magnitude has at most this many digits. -/
def maxIntegerDigits : Nat := 20

def InI64 (n : Int) : Prop := -2 ^ 63 ≤ n ∧ n < 2 ^ 63

instance (n : Int) : Decidable (InI64 n) := inferInstanceAs (Decidable (_ ∧ _))

/-- A result that `i64` holds. -/
def checkedI64 (n : Int) : Except NumberFault Int :=
  if InI64 n then .ok n else .error .unsupported

def isDigits (t : List Char) : Bool := t.all Char.isDigit

/-- `strip_prefix(['+', '-'])`, or the text itself. -/
def stripSign : List Char → List Char
  | [] => []
  | c :: rest => if c = '+' ∨ c = '-' then rest else c :: rest

/-- `str::parse::<i64>`. -/
def parseI64 (t : List Char) : Except NumberFault Int :=
  if (stripSign t).isEmpty || !isDigits (stripSign t) then
    .error .unsupported
  else
    let magnitude : Int := value (stripSign t)
    checkedI64 (if t.head? = some '-' then -magnitude else magnitude)

def isExponentMark (c : Char) : Bool := c == 'e' || c == 'E'

/-- The text before and after the first `e`; the exponent `0` without
one. -/
def splitExponent (unsigned : List Char) : List Char × List Char :=
  match unsigned.dropWhile (!isExponentMark ·) with
  | [] => (unsigned, ['0'])
  | _ :: exponent => (unsigned.takeWhile (!isExponentMark ·), exponent)

/-- The text before and after the first point. -/
def splitFraction (mantissa : List Char) : List Char × List Char :=
  match mantissa.dropWhile (· != '.') with
  | [] => (mantissa, [])
  | _ :: fraction => (mantissa.takeWhile (· != '.'), fraction)

/-- The zeros at either end move into the exponent; zero has one form. -/
def normalForm (negative : Bool) (integer fraction : List Char)
    (exponent : Int) : Except NumberFault Decimal :=
  let significant := trimFront (integer ++ fraction)
  let digits := trimBack significant
  if digits.isEmpty then .ok ⟨false, [], 0⟩
  else do
    let fractionLen ← checkedI64 fraction.length
    let trailing ← checkedI64 (significant.length - digits.length : Nat)
    let shifted ← checkedI64 (exponent - fractionLen)
    let exponent ← checkedI64 (shifted + trailing)
    return ⟨negative, digits, exponent⟩

/-- Number text without its sign. -/
def unsignedDecimal (negative : Bool) (unsigned : List Char) :
    Except NumberFault Decimal :=
  let parts := splitExponent unsigned
  let exponentDigits := stripSign parts.2
  let mantissa := splitFraction parts.1
  if mantissa.1.isEmpty || !isDigits mantissa.1 || !isDigits mantissa.2
      || exponentDigits.isEmpty || !isDigits exponentDigits then
    .error .unsupported
  else do
    let exponent ← parseI64 parts.2
    normalForm negative mantissa.1 mantissa.2 exponent

/-- Normalizes JSON number text. -/
def decimal : List Char → Except NumberFault Decimal
  | [] => unsignedDecimal false []
  | c :: rest =>
      if c = '-' then unsignedDecimal true rest
      else unsignedDecimal false (c :: rest)

-- ================================================================= integers

/-- A result that `u128` holds. -/
def checkedU128 (n : Nat) : Except NumberFault Nat :=
  if n < 2 ^ 128 then .ok n else .error .overflow

/-- The magnitude, one digit after another. -/
def readMagnitude (magnitude : Nat) : List Char → Except NumberFault Nat
  | [] => .ok magnitude
  | c :: rest => do
      let shifted ← checkedU128 (magnitude * 10)
      let magnitude ← checkedU128 (shifted + digit c)
      readMagnitude magnitude rest

/-- The magnitude times ten, as often as the exponent says. -/
def scaleMagnitude (magnitude : Nat) : Nat → Except NumberFault Nat
  | 0 => .ok magnitude
  | n + 1 => do
      let magnitude ← checkedU128 (magnitude * 10)
      scaleMagnitude magnitude n

/-- The sign and magnitude of a decimal. -/
def integerOf (d : Decimal) : Except NumberFault (Bool × Nat) :=
  if d.exponent < 0 then .error .notInteger
  else if d.digits.length + d.exponent.natAbs > maxIntegerDigits then
    .error .overflow
  else do
    let magnitude ← readMagnitude 0 d.digits
    let magnitude ← scaleMagnitude magnitude d.exponent.natAbs
    return (d.negative, magnitude)

def exactInteger (text : List Char) : Except NumberFault (Bool × Nat) := do
  let d ← decimal text
  integerOf d

/-- The exact `i64` of number text. -/
def exactI64 (text : List Char) : Except NumberFault Int := do
  let (negative, magnitude) ← exactInteger text
  if 2 ^ 127 ≤ magnitude then .error .overflow
  else
    let signed : Int := if negative then -magnitude else magnitude
    if InI64 signed then .ok signed else .error .overflow

/-- The exact `u64` of number text. -/
def exactU64 (text : List Char) : Except NumberFault Nat := do
  let (negative, magnitude) ← exactInteger text
  if negative then .error .notInteger
  else if magnitude < 2 ^ 64 then .ok magnitude
  else .error .overflow

end Elitea.Graph
