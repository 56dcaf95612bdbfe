import ThriftSyntax.Reader.Token

/-!
# Dotted names

A name is words joined by single dots, with nothing between them; a dot may also stand before the
first word and after the last. A dot alone is read as a name too.
-/

namespace ThriftSyntax

/-- The tokens of a name, of which there is at least one. -/
structure DottedName where
  head : Link
  tail : List Link
deriving DecidableEq, Repr

namespace DottedName

def links (name : DottedName) : List Link := name.head :: name.tail

def text (name : DottedName) : String :=
  TokenChain.spell (name.links.map Link.token)

def last (name : DottedName) : Link := name.tail.getLastD name.head

def span (name : DottedName) : Span := ⟨name.head.id, name.last.id⟩

end DottedName

namespace Parse

/-- Reads the word after a dot; any other token is put back. -/
def wordAfterDot? (reserved : Bool) : Parse (Option Link) := do
  let link ← take
  if link.kind.isWord reserved then
    return some link
  else
    putBackLast link
    return none

/-- Reads a dot with the word after it, or else what a name ends with after a word. -/
def nameSegment (reserved : Bool) : Parse (List Link ⊕ List Link) := do
  if (← get).cursor.peek? = some '.' then
    let dot ← take
    match ← wordAfterDot? reserved with
    | some word => return .inl [dot, word]
    | none => return .inr [dot]
  else
    return .inr []

/-- Reads the rest of a name after a word: dots, each with the word after it. -/
def nameTail (reserved : Bool) : Parse (List Link) := do
  let (segments, last) ← repeatUntil (nameSegment reserved)
  return segments.flatten ++ last

/-- Puts back the token that was read next. It is the last of the chain, unless it has been `waiting`
before: a session may put back any token. -/
def restore (waiting : Option Link) (link : Link) : Parse Unit :=
  if waiting = some link then putBack link else putBackLast link

/-- Reads a name, or puts back the token that begins none. With `reserved`, its words may be
reserved words. -/
def takeName? (reserved : Bool) : Parse (Option DottedName) := do
  let waiting := (← get).held
  let first ← takeSignificant
  if first.kind.isWord reserved then
    return some ⟨first, ← nameTail reserved⟩
  else if first.kind = .punct .dot then
    match ← wordAfterDot? reserved with
    | some word => return some ⟨first, word :: (← nameTail reserved)⟩
    | none => return some ⟨first, []⟩
  else
    restore waiting first
    return none

end Parse

end ThriftSyntax
