import ThriftSyntax.Text.Quoted
import ThriftSyntax.Token.Chain
import ThriftSyntax.Token.Lexeme

/-!
# Errors

The causes for which a text is refused, each with the place it stands at, and their wording in
`Error.message`.
-/

namespace ThriftSyntax

/-- What the grammar asked for where something else stands. -/
inductive Expectation where
  | definition
  | identifier
  | string
  | integer
  | number
  | fieldType
  | constValue
  | annotation
  | extendsOrBody
  | mark (mark : Punct)
deriving DecidableEq, Repr, Inhabited

namespace Expectation

def text : Expectation → String
  | definition =>
    "one of \x7bnamespace, enum, const, service, struct, include, typedef, union, exception\x7d"
  | identifier => "identifier"
  | string => "' or \""
  | integer => "integer"
  | number => "number"
  | fieldType => "field type"
  | constValue => "constant value"
  | annotation => "annotation"
  | extendsOrBody => "extends or \x7b"
  | mark symbol => symbol.char.toString

end Expectation

inductive Error where
  /-- No lexeme stands here. -/
  | lexical (fault : Fault) (location : Location)
  /-- The grammar does not go on with `found`. -/
  | unexpectedToken (found : String) (expected : Expectation) (location : Location)
  /-- A type definition gives a new name to a named type. -/
  | namedTypedef (name : String) (location : Location)
  /-- A number is no integer within the limits. -/
  | invalidInteger (found : String) (location : Location)
  /-- Bytes that are no UTF-8 text. -/
  | notUtf8
  /-- A token was to be put back while the token `id` still waited. -/
  | slotOccupied (id : Nat)
  /-- Reading cannot go on, for no reason in the text: a repetition did not read anything, a token that
  is looked up is not chained, one that is put back is not the last or another one is chained before it
  is read, or a span would end before it begins. -/
  | stalled
deriving DecidableEq, Repr, Inhabited

namespace Fault

def message : Fault → String
  | unexpectedCharacter c => s!"unexpected character '{c}'"
  | unterminatedComment => "unterminated block comment"
  | unterminatedString => "unterminated string literal"

end Fault

namespace Error

/-- The place of the text that an error is about. -/
def location? : Error → Option Location
  | lexical _ location | unexpectedToken _ _ location | namedTypedef _ location
  | invalidInteger _ location => some location
  | notUtf8 | slotOccupied _ | stalled => none

def message : Error → String
  | lexical fault location => s!"Lexer error at {location.describe}: {fault.message}"
  | unexpectedToken found expected location =>
    s!"Parse error at {location.describe}: found {quoted found} but expected {expected.text}"
  | namedTypedef name location =>
    s!"Parse error at {location.describe}: typedef of named type '{name}', " ++
      "expected a base type or map or list or set"
  | invalidInteger found location =>
    s!"Parse error at {location.describe}: '{found}' is not a valid integer"
  | notUtf8 => "Failed to read input: stream did not contain valid UTF-8"
  | slotOccupied id => s!"pushback slot already holds token Some({id})"
  | stalled => "reading cannot go on"

/-- The grammar asked for something else than this token. -/
def unexpected (link : Link) (expected : Expectation) : Error :=
  .unexpectedToken link.token.describe expected link.location

end Error

end ThriftSyntax
