import ThriftSyntax.Token.Chain

/-!
# Field types and annotations

Every node of a syntax tree has the span of tokens that it was read from. What else it holds repeats
what those tokens say.
-/

namespace ThriftSyntax

/-- A name with a string, in the parentheses after a declaration or a type. `raw` is the string with
its quotes. -/
structure Annotation where
  span : Span
  name : String
  value : String
  raw : String
deriving DecidableEq, Repr, Inhabited

inductive BaseType where
  | bool | byte | i8 | i16 | i32 | i64 | double | string | binary | slist
deriving DecidableEq, Repr, Inhabited

namespace BaseType

def all : List BaseType := [bool, byte, i8, i16, i32, i64, double, string, binary, slist]

def text : BaseType → String
  | bool => "bool"
  | byte => "byte"
  | i8 => "i8"
  | i16 => "i16"
  | i32 => "i32"
  | i64 => "i64"
  | double => "double"
  | string => "string"
  | binary => "binary"
  | slist => "slist"

/-- The base type with this name. -/
def ofText? (name : String) : Option BaseType :=
  all.find? (·.text == name)

theorem ofText?_eq_some_iff {name : String} {type : BaseType} :
    ofText? name = some type ↔ type.text = name := by
  constructor
  · intro h
    simpa using List.find?_some h
  · rintro rfl
    cases type <;> decide

end BaseType

/-- The type of a field, a constant or a result. A container may name the type that represents it in
C++. -/
inductive FieldType where
  | base (type : BaseType) (span : Span) (annotations : List Annotation)
  | named (name : String) (span : Span) (annotations : List Annotation)
  | map (key value : FieldType) (cppType : Option String) (span : Span)
    (annotations : List Annotation)
  | set (element : FieldType) (cppType : Option String) (span : Span)
    (annotations : List Annotation)
  | list (element : FieldType) (cppType : Option String) (span : Span)
    (annotations : List Annotation)
deriving DecidableEq, Repr, Inhabited

namespace FieldType

def span : FieldType → Span
  | base _ span _ | named _ span _ | map _ _ _ span _ | set _ _ span _ | list _ _ span _ => span

def annotations : FieldType → List Annotation
  | base _ _ annotations | named _ _ annotations | map _ _ _ _ annotations
  | set _ _ _ annotations | list _ _ _ annotations => annotations

def isNamed : FieldType → Bool
  | named .. => true
  | _ => false

def cppType : FieldType → Option String
  | map _ _ cppType _ _ | set _ cppType _ _ | list _ cppType _ _ => cppType
  | base .. | named .. => none

/-- The name of a base or named type. -/
def name? : FieldType → Option String
  | base type .. => some type.text
  | named name .. => some name
  | map .. | set .. | list .. => none

/-- The types that a container is made of. -/
def arguments : FieldType → List FieldType
  | map key value .. => [key, value]
  | set element .. | list element .. => [element]
  | base .. | named .. => []

end FieldType

end ThriftSyntax
