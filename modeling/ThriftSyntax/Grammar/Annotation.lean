import ThriftSyntax.Grammar.Basic

/-!
# Annotations

```text
annotations ::= "(" [ annotation { ( "," | ";" ) annotation } [ "," | ";" ] ] ")"
annotation  ::= name "=" string
```
-/

namespace ThriftSyntax.Grammar

open Parse

def annotation : Parse Annotation := do
  let name ← name false
  let _ ← mark .equals
  let literal ← string
  return {
    span := ← span name.head.id literal.id
    name := name.text
    value := literal.token.value
    raw := literal.raw }

/-- Refuses a closing parenthesis after a separator where the list must not end with one. -/
def checkTrailing (trailing : TrailingSeparator) (separator : Option Link) : Parse Unit := do
  if trailing = .reject ∧ separator.isSome then
    if (← peekSignificant) = some Punct.rightParen.char then
      unexpected Expectation.annotation

/-- An annotation with the separator after it. -/
def annotationItem (trailing : TrailingSeparator) : Parse Annotation := do
  let annotation ← annotation
  checkTrailing trailing (← separator?)
  return annotation

/-- Annotations after their opening parenthesis, with the closing one. -/
def annotationList (trailing : TrailingSeparator) : Parse (List Annotation × Link) :=
  itemsUntil .rightParen (annotationItem trailing)

/-- Annotations in parentheses. -/
def annotations : Parse (List Annotation) := do
  let _ ← mark .leftParen
  let (annotations, _) ← annotationList .allow
  return annotations

/-- Annotations in parentheses, if there are any, with the closing parenthesis. -/
def annotations? (trailing : TrailingSeparator) : Parse (Option (List Annotation × Link)) := do
  match ← mark? .leftParen with
  | some _ => some <$> annotationList trailing
  | none => return none

/-- The annotations of a node, and the token it ends with: `last` if it has none. -/
def trailingAnnotations (last : Nat) (trailing : TrailingSeparator) :
    Parse (List Annotation × Nat) := do
  match ← annotations? trailing with
  | some (annotations, close) => return (annotations, close.id)
  | none => return ([], last)

end ThriftSyntax.Grammar
