/-!
# Numerals

The text of a number is digits, or digits, a point and digits, after an optional minus sign. A
numeral without a point is an integer if it lies between the limits of 64 bits; any numeral has a
floating-point value. `toInteger?` asks less of its text than a numeral gives: it takes a plus sign.
-/

namespace ThriftSyntax

namespace Numeral

inductive Form where
  | integer
  | decimal
deriving DecidableEq, Repr

/-- A numeral in its parts: the sign, the digits before the point and, if there is a point, the
digits after it. -/
structure Parts where
  negative : Bool
  whole : List Char
  fraction : Option (List Char)
deriving DecidableEq, Repr

/-- The text without its minus sign, and whether it had one. -/
def unsigned : List Char → Bool × List Char
  | '-' :: text => (true, text)
  | text => (false, text)

/-- Cuts a text at its sign and its first point. -/
def Parts.ofText (text : List Char) : Parts :=
  let (negative, body) := unsigned text
  let whole := body.takeWhile (· != '.')
  match body.drop whole.length with
  | [] => ⟨negative, whole, none⟩
  | _ :: fraction => ⟨negative, whole, some fraction⟩

/-- One or more decimal digits. -/
def isDigits (text : List Char) : Bool :=
  !text.isEmpty && text.all Char.isDigit

/-- The form of a numeral; `none` for any other text. -/
def form? (text : String) : Option Form :=
  let parts := Parts.ofText text.toList
  match parts.fraction with
  | none => if isDigits parts.whole then some .integer else none
  | some fraction => if isDigits parts.whole && isDigits fraction then some .decimal else none

/-- The number that decimal digits stand for. -/
def ofDigits (digits : List Char) : Nat :=
  digits.foldl (fun n c => 10 * n + (c.toNat - '0'.toNat)) 0

def minInteger : Int := -9223372036854775808

def maxInteger : Int := 9223372036854775807

/-- The text without its sign, which may be a plus, and whether it had a minus sign. -/
def signed : List Char → Bool × List Char
  | '-' :: text => (true, text)
  | '+' :: text => (false, text)
  | text => (false, text)

/-- The integer that digits after an optional sign stand for, within the limits. -/
def toInteger? (text : String) : Option Int :=
  let (negative, digits) := signed text.toList
  if isDigits digits then
    let magnitude : Int := ofDigits digits
    let value := if negative then -magnitude else magnitude
    if minInteger ≤ value ∧ value ≤ maxInteger then some value else none
  else
    none

/-- The value of an integer numeral within the limits. -/
def integer? (text : String) : Option Int :=
  if form? text = some .integer then toInteger? text else none

/-- The floating-point number nearest to the value of a numeral. -/
def float? (text : String) : Option Float :=
  if (form? text).isSome then
    let parts := Parts.ofText text.toList
    let fraction := parts.fraction.getD []
    let magnitude := Float.ofScientific (ofDigits (parts.whole ++ fraction)) true fraction.length
    some (if parts.negative then -magnitude else magnitude)
  else
    none

end Numeral

end ThriftSyntax
