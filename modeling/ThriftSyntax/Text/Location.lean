/-!
# Locations in a text

A `Location` says where a character stands: its offset in bytes, its line and its column. A line
ends at a line feed, and at a carriage return that no line feed follows, so a carriage return and a
line feed together end one line.
-/

namespace ThriftSyntax

/-- The place of a character: `offset` counts the UTF-8 bytes before it from 0, `line` and `column`
count from 1, the column in characters. -/
structure Location where
  offset : Nat
  line : Nat
  column : Nat
deriving DecidableEq, Repr, Inhabited

namespace Location

/-- Where every text begins. -/
def start : Location := ⟨0, 1, 1⟩

/-- Whether `c`, with `next` after it, is the last character of its line. -/
def endsLine (c : Char) (next : Option Char) : Bool :=
  c == '\n' || (c == '\r' && next != some '\n')

/-- The place after `c`, which stands at `place` and is followed by `next`. -/
def step (place : Location) (c : Char) (next : Option Char) : Location :=
  if endsLine c next then ⟨place.offset + c.utf8Size, place.line + 1, 1⟩
  else ⟨place.offset + c.utf8Size, place.line, place.column + 1⟩

/-- The place after the first `n` characters of a text that begins at `place`. -/
def advance (place : Location) : Nat → List Char → Location
  | 0, _ => place
  | _, [] => place
  | n + 1, c :: text => (place.step c text.head?).advance n text

@[simp] theorem advance_zero (place : Location) (text : List Char) :
    place.advance 0 text = place := by
  cases text <;> rfl

@[simp] theorem advance_nil (place : Location) (n : Nat) : place.advance n [] = place := by
  cases n <;> rfl

@[simp] theorem advance_succ_cons (place : Location) (n : Nat) (c : Char) (text : List Char) :
    place.advance (n + 1) (c :: text) = (place.step c text.head?).advance n text := rfl

/-- How messages name a place. -/
def describe (place : Location) : String :=
  s!"line {place.line}, column {place.column}"

end Location

end ThriftSyntax
