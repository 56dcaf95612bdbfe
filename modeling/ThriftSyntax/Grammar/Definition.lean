import ThriftSyntax.Grammar.Service

/-!
# Definitions

```text
namespace ::= "namespace" ( "*" | name ) name [ annotations ]
include   ::= ( "include" | "cpp_include" ) string
const     ::= "const" fieldType name "=" constValue [ "," | ";" ]
typedef   ::= "typedef" fieldType name [ annotations ] [ "," | ";" ]
enum      ::= "enum" name "{" { element } "}" [ annotations ]
element   ::= name [ "=" integer ] [ annotations ] [ "," | ";" ]
struct    ::= ( "struct" | "union" | "exception" ) name "{" { field } "}" [ annotations ]
```

Each rule gets the reserved word that begins the definition, which is read already.
-/

namespace ThriftSyntax.Grammar

open Parse

def scope : Parse String := do
  match ← mark? .star with
  | some star => return star.raw
  | none => return (← name true).text

def namespaced (trailing : TrailingSeparator) (keyword : Link) : Parse Namespace := do
  let scope ← scope
  let target ← name true
  let (annotations, last) ← trailingAnnotations target.last.id trailing
  return { span := ← span keyword.id last, scope, target := target.text, annotations }

def included (form : IncludeForm) (keyword : Link) : Parse Include := do
  let path ← string
  return { span := ← span keyword.id path.id, form, path := path.token.value }

def const (keyword : Link) : Parse Const := do
  let type ← fieldType
  let name ← name false
  let _ ← mark .equals
  let value ← constValue
  let separator ← separator?
  return {
    span := ← span keyword.id (lastToken value.span.last separator)
    type
    name := name.text
    value
    separator := separator.map Link.id }

/-- The type that a type definition names, which is not a named one. -/
def aliasedType : Parse FieldType := do
  let type ← fieldType
  match type with
  | .named name span _ =>
    let first ← token span.first
    throw (.namedTypedef name first.location)
  | _ => return type

def typedef (keyword : Link) : Parse TypeDef := do
  let type ← aliasedType
  let name ← name true
  let (annotations, last) ← trailingAnnotations name.last.id .allow
  let separator ← separator?
  return {
    span := ← span keyword.id (lastToken last separator)
    type
    name := name.text
    annotations
    separator := separator.map Link.id }

/-- The number after an equals sign, with its token. -/
def assigned? : Parse (Option (Link × Int)) := do
  match ← mark? .equals with
  | some _ => some <$> integer
  | none => return none

/-- An element that has no number of its own yet if none is written. -/
def enumElement : Parse EnumElement := do
  let name ← name false
  let assigned ← assigned?
  let last := (assigned.map (·.1.id)).getD name.last.id
  let (annotations, last) ← trailingAnnotations last .allow
  let separator ← separator?
  let value := assigned.map (·.2)
  return {
    span := ← span name.head.id (lastToken last separator)
    name := name.text
    value
    id := value.getD 0
    annotations
    separator := separator.map Link.id }

def enum (numbering : Numbering) (keyword : Link) : Parse Enum := do
  let name ← name false
  let _ ← mark .leftBrace
  let (elements, closing) ← itemsUntil .rightBrace enumElement
  let (annotations, last) ← trailingAnnotations closing.id .allow
  return {
    span := ← span keyword.id last
    name := name.text
    elements := numbering.assign elements
    annotations }

def struct (form : StructForm) (keyword : Link) : Parse Struct := do
  let name ← name false
  let _ ← mark .leftBrace
  let (fields, closing) ← fieldsUntil .rightBrace
  let (annotations, last) ← trailingAnnotations closing.id .allow
  return { span := ← span keyword.id last, form, name := name.text, fields, annotations }

def definition (options : Options) (head : Link) : Parse Definition :=
  match head.kind with
  | .keyword .namespace => .namespaced <$> namespaced options.namespaceTrailing head
  | .keyword .include => .included <$> included .thrift head
  | .keyword .cppInclude => .included <$> included .cpp head
  | .keyword .const => .const <$> const head
  | .keyword .typedef => .typedef <$> typedef head
  | .keyword .enum => .enum <$> enum options.numbering head
  | .keyword .struct => .struct <$> struct .struct head
  | .keyword .union => .struct <$> struct .union head
  | .keyword .exception => .struct <$> struct .exception head
  | .keyword .service => .service <$> service head
  | _ => throw (.unexpected head .definition)

/-- Definitions up to the end of the input. -/
def document (options : Options) : Parse Document := do
  let (definitions, ending) ← repeatUntil do
    let head ← takeSignificant
    if head.kind = .endOfInput then
      return .inr head
    else
      .inl <$> definition options head
  return { span := ← span 0 ending.id, definitions }

end ThriftSyntax.Grammar
