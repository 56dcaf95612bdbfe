import ThriftSyntax.Grammar.Annotation

/-!
# Field types

```text
fieldType ::= ( baseType | map | set | list | name ) [ annotations ]
map       ::= "map" [ cppType ] "<" fieldType "," fieldType ">"
set       ::= "set" [ cppType ] "<" fieldType ">"
list      ::= "list" "<" fieldType ">" [ cppType ]
cppType   ::= "cpp_type" string
```
-/

namespace ThriftSyntax.Grammar

open Parse

/-- A type but for its span and its annotations, with the last of its tokens so far. -/
abbrev OpenType := (Span → List Annotation → FieldType) × Nat

/-- The string after the word `cpp_type`; any other word is put back. -/
def cppType? : Parse (Option Link) := do
  match ← word? with
  | some word =>
    if word.raw = "cpp_type" then
      some <$> string
    else
      putBackLast word
      return none
  | none => return none

/-! The containers, after the word that begins them. -/

def mapType (type : Parse FieldType) : Parse OpenType := do
  let cppType ← cppType?
  let _ ← mark .less
  let key ← type
  let _ ← mark .comma
  let value ← type
  let close ← mark .greater
  return (.map key value (cppType.map (·.token.value)), close.id)

def setType (type : Parse FieldType) : Parse OpenType := do
  let cppType ← cppType?
  let _ ← mark .less
  let element ← type
  let close ← mark .greater
  return (.set element (cppType.map (·.token.value)), close.id)

def listType (type : Parse FieldType) : Parse OpenType := do
  let _ ← mark .less
  let element ← type
  let close ← mark .greater
  let cppType ← cppType?
  return (.list element (cppType.map (·.token.value)), (cppType.getD close).id)

/-- A type that is a name. A reserved word alone names no type. -/
def typeOfName (name : DottedName) : Parse OpenType :=
  match BaseType.ofText? name.text with
  | some base => return (.base base, name.last.id)
  | none =>
    if name.tail.isEmpty ∧ name.head.kind.isKeyword then
      throw (.unexpected name.head .fieldType)
    else
      return (.named name.text, name.last.id)

/-- The type that a name begins; `type` reads the types that a container is made of. -/
def openType (type : Parse FieldType) (name : DottedName) : Parse OpenType :=
  match name.text with
  | "map" => mapType type
  | "set" => setType type
  | "list" => listType type
  | _ => typeOfName name

def fieldType : Parse FieldType :=
  nested fun type => do
    let name ← name true
    let (build, last) ← openType type name
    let (annotations, last) ← trailingAnnotations last .allow
    return build (← span name.head.id last) annotations

end ThriftSyntax.Grammar
