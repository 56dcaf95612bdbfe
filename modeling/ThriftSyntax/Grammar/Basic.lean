import ThriftSyntax.Options
import ThriftSyntax.Reader.Literal
import ThriftSyntax.Reader.Name

/-!
# The smallest rules of the grammar

Marks, words, names, strings and integers, and repetition up to a closing mark. A rule whose name
ends in a question mark reads nothing if what it looks for does not come next.
-/

namespace ThriftSyntax.Grammar

open Parse

variable {α : Type}

/-- The tokens from `first` to `last`, which may not come before it. -/
def span (first last : Nat) : Parse Span :=
  if first ≤ last then return ⟨first, last⟩ else throw .stalled

/-- Items with their index, for which the first token of each is looked up. -/
def index (span : α → Span) (name : α → String) (items : List α) : Parse (Children α) := do
  items.forM fun item => discard <| token (span item).first
  return .ofItems (← get).chain span name items

/-- Refuses the next significant token. -/
def unexpected (expected : Expectation) : Parse α := do
  throw (.unexpected (← takeSignificant) expected)

def mark? (mark : Punct) : Parse (Option Link) := do
  if (← peekSignificant) = some mark.char then
    some <$> take
  else
    return none

def mark (mark : Punct) : Parse Link := do
  let link ← takeSignificant
  if link.kind = .punct mark then
    return link
  else
    throw (.unexpected link (.mark mark))

/-- A name; with `reserved`, its words may be reserved words. -/
def name (reserved : Bool) : Parse DottedName := do
  match ← takeName? reserved with
  | some name => return name
  | none => unexpected .identifier

def string : Parse Link := do
  match ← takeString? with
  | some link => return link
  | none => unexpected .string

def integer : Parse (Link × Int) := do
  let link ← takeNumber
  if link.kind = .number then
    match Numeral.integer? link.raw with
    | some value => return (link, value)
    | none => throw (.invalidInteger link.raw link.location)
  else
    throw (.unexpected link .integer)

/-- A comma or a semicolon. -/
def separator? : Parse (Option Link) := do
  match ← peekSignificant with
  | some ',' | some ';' => some <$> take
  | _ => return none

/-- A word, reserved or not. -/
def word? : Parse (Option Link) := do
  match ← peekSignificant with
  | some c => if Lexeme.startsWord c then some <$> take else return none
  | none => return none

/-- Items up to a closing mark. -/
def itemsUntil (close : Punct) (item : Parse α) : Parse (List α × Link) :=
  repeatUntil do
    match ← mark? close with
    | some link => return .inr link
    | none => .inl <$> item

end ThriftSyntax.Grammar
