import ThriftSyntax.Syntax.ChildIndex
import ThriftSyntax.Syntax.ConstValue
import ThriftSyntax.Syntax.FieldType

/-!
# Definitions and documents

What a document may declare. A separator is the comma or semicolon that ends a declaration; it
belongs to the declaration's span.
-/

namespace ThriftSyntax

inductive Requiredness where
  | required
  | optional
deriving DecidableEq, Repr, Inhabited

/-- A field of a structure, an argument of a function, or an exception that it throws. -/
structure Field where
  span : Span
  id : Int
  requiredness : Option Requiredness
  type : FieldType
  name : String
  default : Option ConstValue
  annotations : List Annotation
  separator : Option Nat
deriving DecidableEq, Inhabited

/-- A name for the generated code: `scope` is the language, or an asterisk for all. -/
structure Namespace where
  span : Span
  scope : String
  target : String
  annotations : List Annotation
deriving DecidableEq, Inhabited

inductive IncludeForm where
  | thrift
  | cpp
deriving DecidableEq, Repr, Inhabited

structure Include where
  span : Span
  form : IncludeForm
  path : String
deriving DecidableEq, Inhabited

structure Const where
  span : Span
  type : FieldType
  name : String
  value : ConstValue
  separator : Option Nat
deriving DecidableEq, Inhabited

structure TypeDef where
  span : Span
  type : FieldType
  name : String
  annotations : List Annotation
  separator : Option Nat
deriving DecidableEq, Inhabited

/-- `value` is the number that is written for the element, `id` the number it has. -/
structure EnumElement where
  span : Span
  name : String
  value : Option Int
  id : Int
  annotations : List Annotation
  separator : Option Nat
deriving DecidableEq, Inhabited

structure Enum where
  span : Span
  name : String
  elements : List EnumElement
  annotations : List Annotation
deriving DecidableEq, Inhabited

inductive StructForm where
  | struct
  | union
  | exception
deriving DecidableEq, Repr, Inhabited

structure Struct where
  span : Span
  form : StructForm
  name : String
  fields : Children Field
  annotations : List Annotation
deriving DecidableEq, Inhabited

namespace Struct

def field? (struct : Struct) (name : String) : Option Field := struct.fields.byName? name

def fieldByToken? (struct : Struct) (key : Token.Key) : Option Field := struct.fields.byToken? key

end Struct

/-- A function of a service. It returns nothing if `result` is absent, and has no clause of
exceptions if `throws` is. -/
structure Function where
  span : Span
  oneway : Bool
  result : Option FieldType
  name : String
  args : Children Field
  throws : Option (Children Field)
  annotations : List Annotation
  separator : Option Nat
deriving DecidableEq, Inhabited

namespace Function

def arg? (function : Function) (name : String) : Option Field := function.args.byName? name

def argByToken? (function : Function) (key : Token.Key) : Option Field := function.args.byToken? key

def throw? (function : Function) (name : String) : Option Field :=
  function.throws.bind (·.byName? name)

def throwByToken? (function : Function) (key : Token.Key) : Option Field :=
  function.throws.bind (·.byToken? key)

end Function

/-- `base` is the service that this one extends. -/
structure Service where
  span : Span
  name : String
  base : Option String
  functions : Children Function
  annotations : List Annotation
deriving DecidableEq, Inhabited

namespace Service

def function? (service : Service) (name : String) : Option Function :=
  service.functions.byName? name

def functionByToken? (service : Service) (key : Token.Key) : Option Function :=
  service.functions.byToken? key

end Service

inductive Definition where
  | namespaced (definition : Namespace)
  | included (definition : Include)
  | const (definition : Const)
  | typedef (definition : TypeDef)
  | enum (definition : Enum)
  | struct (definition : Struct)
  | service (definition : Service)
deriving DecidableEq, Inhabited

/-- The span of a document is the whole chain. -/
structure Document where
  span : Span
  definitions : List Definition
deriving DecidableEq, Inhabited

/-- A document with the tokens that it was read from. -/
structure SyntaxTree where
  tokens : TokenChain
  document : Document
deriving DecidableEq, Inhabited

namespace SyntaxTree

/-- The text of the document. -/
def text (tree : SyntaxTree) : String := tree.tokens.text tree.document.span

end SyntaxTree

end ThriftSyntax
