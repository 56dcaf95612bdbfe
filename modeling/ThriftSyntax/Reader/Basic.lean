import ThriftSyntax.Error
import ThriftSyntax.Text.Cursor

/-!
# Readers

A `Reader` is a text being read: the cursor, the chain of the tokens read so far, and at most one
token that was put back. It also counts the rounds of repetitions and recursions, which is what
reading costs. `Parse` is an action on a reader; when it fails, the reader stays as the failure left
it, and reading may go on from there.
-/

namespace ThriftSyntax

structure Reader where
  cursor : Cursor
  chain : TokenChain
  /-- The token that was put back. -/
  held : Option Link
  /-- How many rounds have begun. -/
  rounds : Nat

namespace Reader

/-- The reader before the first character of a text. -/
def ofText (text : List Char) : Reader := ⟨.start text, .empty, none, 0⟩

/-- How many characters are still to be read: those of the held token and those after the cursor. -/
def unread (reader : Reader) : Nat :=
  reader.held.elim 0 (·.raw.length) + reader.cursor.left

/-- The reader once a further round has begun. -/
def round (reader : Reader) : Reader := { reader with rounds := reader.rounds + 1 }

@[simp] theorem cursor_round (reader : Reader) : reader.round.cursor = reader.cursor := rfl

@[simp] theorem chain_round (reader : Reader) : reader.round.chain = reader.chain := rfl

@[simp] theorem held_round (reader : Reader) : reader.round.held = reader.held := rfl

@[simp] theorem unread_round (reader : Reader) : reader.round.unread = reader.unread := rfl

end Reader

/-- An action on a reader. -/
abbrev Parse := EStateM Error Reader

end ThriftSyntax
