import ThriftSyntax.Text.Location
import ThriftSyntax.Token.Kind

/-!
# Tokens

A token is a kind, its text in the source and the place where that begins.
-/

namespace ThriftSyntax

structure Token where
  kind : Kind
  raw : String
  location : Location
deriving DecidableEq, Repr, Inhabited

namespace Token

/-- The text inside a comment: without the number sign, the two slashes, or the slash and asterisk
at each end. -/
def commentBody : List Char → List Char
  | '#' :: text => text
  | '/' :: '*' :: text => text.dropLast.dropLast
  | _ :: _ :: text => text
  | _ => []

/-- What a token means: the text between the quotes of a string, the text inside a comment, and the
source text of any other token. -/
def value (token : Token) : String :=
  match token.kind with
  | .string => String.ofList token.raw.toList.tail.dropLast
  | .comment => String.ofList (commentBody token.raw.toList)
  | _ => token.raw

/-- How messages name a token. -/
def describe (token : Token) : String :=
  match token.kind with
  | .endOfInput => "end of file"
  | _ => token.raw

/-- What identifies a token of one text: its place and its text. -/
structure Key where
  location : Location
  lexeme : String
deriving DecidableEq, Repr, Inhabited

def key (token : Token) : Key :=
  ⟨token.location, token.raw⟩

end Token

end ThriftSyntax
