import ThriftSyntax.Reader.Token

/-!
# Strings and signed numbers

Two lexemes that are read only where one is asked for: elsewhere a quotation mark and a minus sign
are punctuation marks of their own.
-/

namespace ThriftSyntax.Parse

/-- Reads a string if a quotation mark comes next. A held mark begins no string. -/
def takeString? : Parse (Option Link) := do
  skipTrivia
  let reader ← get
  match reader.held, reader.cursor.rest with
  | none, quote :: body =>
    if quote = '"' ∨ quote = '\'' then
      match Lexeme.string quote body with
      | (length, true) => some <$> chainLexeme .string length
      | (length, false) => fail .unterminatedString length
    else
      return none
  | _, _ => return none

/-- Reads the next significant token, and a minus sign together with the number that follows it. A
held sign stays a mark. -/
def takeNumber : Parse Link := do
  skipTrivia
  let reader ← get
  match reader.held, Lexeme.signed? reader.cursor.rest with
  | none, some length => chainLexeme .number length
  | _, _ => take

end ThriftSyntax.Parse
