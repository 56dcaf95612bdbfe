import ThriftSyntax.Grammar.Field

/-!
# Services

```text
service  ::= "service" name [ "extends" name ] "{" { function } "}" [ annotations ]
function ::= [ "oneway" ] ( "void" | fieldType ) name "(" { field } ")"
             [ annotations ] [ "throws" "(" { field } ")" ] [ annotations ] [ "," | ";" ]
```

A function has annotations before or after its exceptions, but not both.
-/

namespace ThriftSyntax.Grammar

open Parse

/-- The type of a result, of which `head` is the first token; `none` for `void`. -/
def resultType (head : Link) : Parse (Option FieldType) := do
  if head.kind = .keyword .void then
    return none
  else
    putBackLast head
    some <$> fieldType

/-- Whether a function is one-way, and its result; `first` is its first token. -/
def functionHead (first : Link) : Parse (Bool × Option FieldType) := do
  if first.kind = .keyword .oneway then
    return (true, ← resultType (← takeSignificant))
  else
    return (false, ← resultType first)

/-- The exceptions after the word `throws`, and the token that a function then ends with: `last` if
it has none. Any other word is put back. -/
def throws (last : Nat) : Parse (Option (Children Field) × Nat) := do
  match ← word? with
  | some word =>
    if word.kind = .keyword .throws then
      let _ ← mark .leftParen
      let (fields, closing) ← fieldsUntil .rightParen
      return (some fields, closing.id)
    else
      putBackLast word
      return (none, last)
  | none => return (none, last)

/-- The annotations and the exceptions of a function, and the token it ends with: `last` if it has
neither. -/
def functionTail (last : Nat) : Parse (List Annotation × Option (Children Field) × Nat) := do
  match ← annotations? .allow with
  | some (annotations, closing) =>
    let (throws, last) ← throws closing.id
    return (annotations, throws, last)
  | none =>
    let (throws, last) ← throws last
    let (annotations, last) ← trailingAnnotations last .allow
    return (annotations, throws, last)

def function : Parse Function := do
  let first ← takeSignificant
  let (oneway, result) ← functionHead first
  let name ← name false
  let _ ← mark .leftParen
  let (args, closing) ← fieldsUntil .rightParen
  let (annotations, throws, last) ← functionTail closing.id
  let separator ← separator?
  return {
    span := ← span first.id (lastToken last separator)
    oneway, result
    name := name.text
    args, throws, annotations
    separator := separator.map Link.id }

/-- Functions up to a closing mark. -/
def functionsUntil (close : Punct) : Parse (Children Function × Link) := do
  let (functions, closing) ← itemsUntil close function
  return (← index Function.span Function.name functions, closing)

/-- The service after the word `extends`; any other word is refused. -/
def base? : Parse (Option DottedName) := do
  match ← word? with
  | some word =>
    if word.raw = "extends" then
      some <$> name false
    else
      throw (.unexpected word .extendsOrBody)
  | none => return none

def service (keyword : Link) : Parse Service := do
  let name ← name false
  let base ← base?
  let _ ← mark .leftBrace
  let (functions, closing) ← functionsUntil .rightBrace
  let (annotations, last) ← trailingAnnotations closing.id .allow
  return {
    span := ← span keyword.id last
    name := name.text
    base := base.map DottedName.text
    functions, annotations }

end ThriftSyntax.Grammar
