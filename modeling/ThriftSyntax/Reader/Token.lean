import ThriftSyntax.Reader.Repetition

/-!
# Reading tokens

The actions that read, put back and look ahead one token at a time, with or without the blanks and
comments before it.
-/

namespace ThriftSyntax.Parse

variable {α : Type}

/-- Looks a token of the chain up. -/
def token (id : Nat) : Parse Link := do
  match (← get).chain.link? id with
  | some link => return link
  | none => throw .stalled

/-- Chains the lexeme of `length` characters at the cursor. No token may be held then. -/
def chainLexeme (kind : Kind) (length : Nat) : Parse Link := do
  if (← get).held = none then
    let id := (← get).chain.size
    modify fun reader => { reader with
      cursor := reader.cursor.advance length
      chain := reader.chain.push
        ⟨kind, String.ofList (reader.cursor.rest.take length), reader.cursor.location⟩ }
    token id
  else
    throw .stalled

/-- Reads past `length` characters that make no lexeme, for the reason `fault`. -/
def fail (fault : Fault) (length : Nat) : Parse α := fun reader =>
  .error (.lexical fault reader.cursor.location)
    { reader with cursor := reader.cursor.advance length }

/-- Chains the lexeme at the cursor. The end of input is chained once and then read again and again;
an unterminated comment extends to the end of the text. -/
def scan : Parse Link := do
  let reader ← get
  if let some ending := reader.chain.ending? then
    return ending
  match Lexeme.first reader.cursor.rest with
  | .ok (kind, length) => chainLexeme kind length
  | .error .unterminatedComment => fail .unterminatedComment reader.cursor.left
  | .error fault => fail fault 0

/-- The held token, as it stands in the chain. -/
def held? : Parse (Option Link) := do
  match (← get).held with
  | some link => some <$> token link.id
  | none => return none

/-- Reads the held token, or else the next one. -/
def take : Parse Link := do
  match ← held? with
  | some link =>
    modify ({ · with held := none })
    return link
  | none => scan

/-- Puts a token back, to be read next. -/
def putBack (link : Link) : Parse Unit := do
  match (← get).held with
  | some waiting => throw (.slotOccupied waiting.id)
  | none => modify ({ · with held := some link })

/-- Puts a token back that has to be the last of the chain. -/
def putBackLast (link : Link) : Parse Unit := do
  if (← get).chain.last? = some link then
    putBack link
  else
    throw .stalled

/-- The character that would be read next. -/
def peek : Parse (Option Char) := do
  match ← held? with
  | some link => return link.raw.toList.head?
  | none => return (← get).cursor.peek?

/-- Reads up to the end of the input, or up to the first error. -/
def takeAll : Parse (List Link × Except Error Link) :=
  repeatUntil fun reader =>
    match take reader with
    | .error error reader => .ok (.inr (.error error)) reader
    | .ok link reader =>
      if link.kind = .endOfInput then .ok (.inr (.ok link)) reader else .ok (.inl link) reader

/-! ## Significant tokens -/

/-- Chains the blanks and comments at the cursor. -/
def chainTrivia : Parse Unit :=
  discard <| repeatUntil do
    if Lexeme.startsTrivia (← get).cursor.rest then .inl <$> scan else return .inr ()

/-- Passes over blanks and comments. One that is held is dropped; any other held token stays, and
then there is nothing to pass over. -/
def skipTrivia : Parse Unit := do
  match ← held? with
  | none => chainTrivia
  | some link =>
    if link.kind.isTrivia then
      modify ({ · with held := none })
      chainTrivia

/-- The character that the next significant token begins with. -/
def peekSignificant : Parse (Option Char) := do
  skipTrivia
  peek

/-- Reads the next token that is neither a blank nor a comment. -/
def takeSignificant : Parse Link := do
  skipTrivia
  take

end ThriftSyntax.Parse
