import ThriftSyntax.Text.Alphabetic
import ThriftSyntax.Text.Numeric
import ThriftSyntax.Token.Kind

/-!
# Lexemes

How long the lexeme at the front of a text is, and of which kind: `Lexeme.first` for a token that
may stand anywhere, `Lexeme.string` and `Lexeme.signed?` for a string and a signed number, which
are read only where one is asked for.
-/

namespace ThriftSyntax

/-- Why the front of a text is no lexeme. -/
inductive Fault where
  | unexpectedCharacter (c : Char)
  | unterminatedComment
  | unterminatedString
deriving DecidableEq, Repr, Inhabited

namespace Lexeme

def isLineBreak (c : Char) : Bool := c == '\n' || c == '\r'

/-- A letter or an underscore. -/
def startsWord (c : Char) : Bool := isAlphabetic c || c == '_'

/-- A letter, a digit or an underscore. -/
def continuesWord (c : Char) : Bool := isAlphabetic c || isNumeric c || c == '_'

/-- How many characters at the front of a text satisfy `p`. -/
def run (p : Char → Bool) (text : List Char) : Nat :=
  (text.takeWhile p).length

/-- Digits, with a point and further digits where a digit follows the point. -/
def numberLength (text : List Char) : Nat :=
  let whole := run Char.isDigit text
  match text.drop whole with
  | '.' :: fraction =>
    let digits := run Char.isDigit fraction
    if digits = 0 then whole else whole + 1 + digits
  | _ => whole

/-- The length of a text up to the end of its first asterisk and slash, `passed` characters after
the opening of the comment. -/
def commentEnd? (passed : Nat) : List Char → Option Nat
  | [] => none
  | '*' :: '/' :: _ => some (passed + 2)
  | _ :: text => commentEnd? (passed + 1) text

/-- Whether a comment begins here. -/
def startsComment : List Char → Bool
  | '#' :: _ | '/' :: '/' :: _ | '/' :: '*' :: _ => true
  | _ => false

/-- The length of the comment that begins here. One that begins with a slash and an asterisk has to
be closed, the others end with the line. -/
def comment (text : List Char) : Except Fault Nat :=
  match text with
  | '/' :: '*' :: body =>
    match commentEnd? 2 body with
    | some length => .ok length
    | none => .error .unterminatedComment
  | _ => .ok (run (!isLineBreak ·) text)

/-- Whether a blank or a comment begins here. -/
def startsTrivia : List Char → Bool
  | [] => false
  | c :: text => (Blank.ofChar? c).isSome || startsComment (c :: text)

/-- The kind and the length of the lexeme at the front of a text. -/
def first : List Char → Except Fault (Kind × Nat)
  | [] => .ok (.endOfInput, 0)
  | c :: text =>
    if let some blank := Blank.ofChar? c then
      .ok (.blank blank, 1)
    else if startsComment (c :: text) then
      (comment (c :: text)).map (Kind.comment, ·)
    else if let some mark := Punct.ofChar? c then
      .ok (.punct mark, 1)
    else if c.isDigit then
      .ok (.number, numberLength (c :: text))
    else if startsWord c then
      let length := run continuesWord (c :: text)
      .ok (.ofWord (String.ofList ((c :: text).take length)), length)
    else
      .error (.unexpectedCharacter c)

/-- The length of the string that `quote` opens, up to the next `quote`, and whether it is closed
before its line ends; if not, the length is that of the text through the line break. -/
def string (quote : Char) (body : List Char) : Nat × Bool :=
  let length := run (fun c => c != quote && !isLineBreak c) body
  (length + 2, body[length]? == some quote)

/-- The length of the number that begins with a minus sign; `none` if no digit follows the sign. -/
def signed? : List Char → Option Nat
  | '-' :: c :: text => if c.isDigit then some (1 + numberLength (c :: text)) else none
  | _ => none

end Lexeme

end ThriftSyntax
