import ThriftSyntax.Grammar.ConstValue
import ThriftSyntax.Grammar.FieldType

/-!
# Fields

```text
field ::= integer ":" [ "required" | "optional" ] fieldType name [ "=" constValue ]
          [ annotations ] [ "," | ";" ]
```
-/

namespace ThriftSyntax.Grammar

open Parse

/-- The word `required` or `optional`; any other word is put back. -/
def requiredness? : Parse (Option Requiredness) := do
  match ← word? with
  | some word =>
    match word.kind with
    | .keyword .required => return some .required
    | .keyword .optional => return some .optional
    | _ =>
      putBackLast word
      return none
  | none => return none

/-- The value after an equals sign. -/
def default? : Parse (Option ConstValue) := do
  match ← mark? .equals with
  | some _ => some <$> constValue
  | none => return none

/-- The last token of a node that ends with its separator, if it has one. -/
def lastToken (last : Nat) (separator : Option Link) : Nat :=
  (separator.map Link.id).getD last

def field : Parse Field := do
  let (number, id) ← integer
  let _ ← mark .colon
  let requiredness ← requiredness?
  let type ← fieldType
  let name ← name false
  let default ← default?
  let last := (default.map (·.span.last)).getD name.last.id
  let (annotations, last) ← trailingAnnotations last .allow
  let separator ← separator?
  return {
    span := ← span number.id (lastToken last separator)
    id, requiredness, type
    name := name.text
    default, annotations
    separator := separator.map Link.id }

/-- Fields up to a closing mark. -/
def fieldsUntil (close : Punct) : Parse (Children Field × Link) := do
  let (fields, closing) ← itemsUntil close field
  return (← index Field.span Field.name fields, closing)

end ThriftSyntax.Grammar
