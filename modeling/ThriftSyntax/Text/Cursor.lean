import ThriftSyntax.Text.Location

/-!
# Cursors

A `Cursor` is a text that has been read up to some point: what is unread, how long that is, and
where it begins. `Cursor.advance` is the only way forward.
-/

namespace ThriftSyntax

/-- The unread text, its length, and its location. -/
structure Cursor where
  rest : List Char
  left : Nat
  left_eq : left = rest.length
  location : Location

namespace Cursor

/-- The cursor before the first character. -/
def start (text : List Char) : Cursor where
  rest := text
  left := text.length
  left_eq := rfl
  location := .start

/-- Reads `n` characters, or all if there are fewer. -/
def advance (cursor : Cursor) (n : Nat) : Cursor where
  rest := cursor.rest.drop n
  left := cursor.left - n
  left_eq := by simp [cursor.left_eq]
  location := cursor.location.advance n cursor.rest

/-- The next character. -/
def peek? (cursor : Cursor) : Option Char :=
  cursor.rest.head?

@[simp] theorem rest_advance (cursor : Cursor) (n : Nat) :
    (cursor.advance n).rest = cursor.rest.drop n := rfl

@[simp] theorem location_advance (cursor : Cursor) (n : Nat) :
    (cursor.advance n).location = cursor.location.advance n cursor.rest := rfl

theorem left_advance (cursor : Cursor) (n : Nat) : (cursor.advance n).left = cursor.left - n := rfl

end Cursor

end ThriftSyntax
