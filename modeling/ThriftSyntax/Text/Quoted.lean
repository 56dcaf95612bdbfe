import ThriftSyntax.Text.DefaultIgnorable
import ThriftSyntax.Text.GraphemeExtend

/-!
# Quoted text

How the text of a token stands inside a message: between double quotes, with the characters that
would not be readable there written as escapes. These are the quotation mark and the backslash, four
control characters, invisible characters, and marks that would attach to what stands before them.
-/

namespace ThriftSyntax

namespace Quoted

/-- The number in lower-case hexadecimal, without leading zeros. -/
def hex (n : Nat) : String :=
  String.ofList (Nat.toDigits 16 n)

/-- A backslash, the letter `u` and the code point in braces. -/
def codePointEscape (c : Char) : String :=
  "\\u\x7b" ++ hex c.toNat ++ "\x7d"

/-- The two halfwidth sound marks of katakana. They extend a grapheme, but are letters of a width of
their own and stay readable. -/
def isHalfwidthSoundMark (c : Char) : Bool :=
  c == '\uff9e' || c == '\uff9f'

/-- Whether a character is invisible or attaches to the one before it. -/
def isUnreadable (c : Char) : Bool :=
  isDefaultIgnorable c || (isGraphemeExtend c && !isHalfwidthSoundMark c)

/-- The form of one character between the quotes. -/
def escape (c : Char) : String :=
  match c with
  | '"' => "\\\""
  | '\\' => "\\\\"
  | '\n' => "\\n"
  | '\r' => "\\r"
  | '\t' => "\\t"
  | '\x00' => "\\0"
  | _ => if isUnreadable c then codePointEscape c else c.toString

end Quoted

/-- The text between double quotes, with unreadable characters escaped. -/
def quoted (text : String) : String :=
  "\"" ++ String.join (text.toList.map Quoted.escape) ++ "\""

end ThriftSyntax
