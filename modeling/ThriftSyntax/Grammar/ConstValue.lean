import ThriftSyntax.Grammar.Basic
import ThriftSyntax.Syntax.ConstValue

/-!
# Constant values

```text
constValue ::= number | string | name | list | map
list       ::= "[" { constValue [ "," | ";" ] } "]"
map        ::= "{" { constValue ":" constValue [ "," | ";" ] } "}"
```
-/

namespace ThriftSyntax.Grammar

open Parse

def numberValue : Parse ConstValue := do
  let link ← takeNumber
  match link.kind, Numeral.form? link.raw with
  | .number, some .integer => return .scalar .integer link.raw (.single link.id)
  | .number, some .decimal => return .scalar .decimal link.raw (.single link.id)
  | _, _ => throw (.unexpected link .number)

def stringValue : Parse ConstValue := do
  let literal ← string
  return .scalar .string literal.token.value (.single literal.id)

/-- A name that neither begins nor ends with a dot. -/
def nameValue : Parse ConstValue := do
  let name ← name false
  if name.head.kind = .ident ∧ name.last.kind = .ident then
    return .scalar .name name.text (← span name.head.id name.last.id)
  else
    throw (.unexpectedToken name.text .constValue name.head.location)

def listValue (value : Parse ConstValue) : Parse ConstValue := do
  let opening ← take
  let (items, closing) ← itemsUntil .rightBracket do
    let item ← value
    let _ ← separator?
    return item
  return .list items (← span opening.id closing.id)

def mapValue (value : Parse ConstValue) : Parse ConstValue := do
  let opening ← take
  let (entries, closing) ← itemsUntil .rightBrace do
    let key ← value
    let _ ← mark .colon
    let entry := (key, ← value)
    let _ ← separator?
    return entry
  return .map entries (← span opening.id closing.id)

/-- The first character decides the form of the value. -/
def constValue : Parse ConstValue :=
  nested fun value => do
    match ← peekSignificant with
    | some c =>
      if c = '-' ∨ c.isDigit then numberValue
      else if c = '"' ∨ c = '\'' then stringValue
      else if c = '[' then listValue value
      else if c = '{' then mapValue value
      else nameValue
    | none => nameValue

end ThriftSyntax.Grammar
