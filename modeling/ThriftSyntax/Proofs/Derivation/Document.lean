import ThriftSyntax.Options
import ThriftSyntax.Proofs.Derivation.Phrase

/-!
# Phrases of definitions

Fields, functions and the definitions of a document as phrases. The rules take the words `required`,
`optional`, `void`, `oneway`, `throws` and `cpp_type` for the beginning of the clause that they can
begin, whatever follows. So conditions leave out the phrases in which such a word begins a name there,
though the grammar of the notation derives them.
-/

namespace ThriftSyntax.Phrase

/-! ## Fields -/

def requirednessWord : Requiredness → Keyword
  | .required => .required
  | .optional => .optional

structure Demand where
  form : Requiredness
  word : Word (requirednessWord form)

structure Default where
  equals : Mark .equals
  value : ConstValue

structure Field where
  id : Integer
  colon : Mark .colon
  demand : Option Demand
  type : FieldType
  name : Name false
  default : Option Default
  annotations : Option Annotations
  separator : Option Separator
  /-- The words `required` and `optional` begin no type here. -/
  demanded : demand = none →
    type.head.kind ≠ .keyword .required ∧ type.head.kind ≠ .keyword .optional
  stops : type.StopsBefore name.words.head

def Demand.terminals (phrase : Demand) : List Terminal := phrase.word.terminals

def Default.terminals (phrase : Default) : List Terminal :=
  phrase.equals.terminals ++ phrase.value.terminals

namespace Field

def terminals (phrase : Field) : List Terminal :=
  phrase.id.terminals ++ (phrase.colon.terminals ++ (optional Demand.terminals phrase.demand ++
    (phrase.type.terminals ++ (phrase.name.terminals ++ (optional Default.terminals phrase.default ++
      (optional Annotations.terminals phrase.annotations ++
        optional Leaf.terminals phrase.separator))))))

/-- The last token before the annotations. -/
def last (phrase : Field) : Nat :=
  phrase.default.elim phrase.name.words.last.id (·.value.node.span.last)

def node (phrase : Field) : ThriftSyntax.Field where
  span := ⟨phrase.id.link.id,
    phrase.separator.elim (Annotations.last phrase.annotations phrase.last) (·.link.id)⟩
  id := phrase.id.value
  requiredness := phrase.demand.map (·.form)
  type := phrase.type.node
  name := phrase.name.words.text
  default := phrase.default.map (·.value.node)
  annotations := Annotations.nodes phrase.annotations
  separator := phrase.separator.map (·.link.id)

/-- What finds the field in an index. -/
def entry (phrase : Field) : Token.Key × String :=
  (phrase.id.link.token.key, phrase.name.words.text)

def children (phrases : List Field) : Children ThriftSyntax.Field :=
  ⟨phrases.map node, ⟨phrases.map entry⟩⟩

end Field

/-! ## Functions -/

inductive Result where
  | void (word : Word .void)
  | type (type : FieldType) (returned : type.head.kind ≠ .keyword .void)

namespace Result

def head : Result → Link
  | void word => word.link
  | type result _ => result.head

def terminals : Result → List Terminal
  | void word => word.terminals
  | type result _ => result.terminals

def node : Result → Option ThriftSyntax.FieldType
  | void _ => none
  | type result _ => some result.node

def StopsBefore (result : Result) (next : Link) : Prop :=
  match result with
  | void _ => True
  | type result _ => result.StopsBefore next

end Result

structure Throws where
  word : Word .throws
  opening : Mark .leftParen
  fields : List Field
  closing : Mark .rightParen

def Throws.terminals (phrase : Throws) : List Terminal :=
  phrase.word.terminals ++ (phrase.opening.terminals ++
    (phrase.fields.flatMap Field.terminals ++ phrase.closing.terminals))

/-- What follows the arguments of a function: annotations and exceptions in either order, but not
annotations on both sides. -/
inductive FunctionTail where
  | none
  | annotated (annotations : Annotations) (throws : Option Throws)
  | throwing (throws : Throws) (annotations : Option Annotations)

namespace FunctionTail

def terminals : FunctionTail → List Terminal
  | none => []
  | annotated annotations throws => annotations.terminals ++ optional Throws.terminals throws
  | throwing throws annotations => throws.terminals ++ optional Annotations.terminals annotations

def annotations : FunctionTail → Option Annotations
  | none => .none
  | annotated annotations _ => some annotations
  | throwing _ annotations => annotations

def throws : FunctionTail → Option Throws
  | none => .none
  | annotated _ throws => throws
  | throwing throws _ => some throws

/-- The token that a function ends with, which is `last` if nothing follows the arguments. -/
def last : FunctionTail → Nat → Nat
  | none, last => last
  | annotated annotations throws, _ => throws.elim annotations.closing.link.id (·.closing.link.id)
  | throwing throws annotations, _ => Annotations.last annotations throws.closing.link.id

end FunctionTail

structure Function where
  oneway : Option (Word .oneway)
  result : Result
  name : Name false
  opening : Mark .leftParen
  args : List Field
  closing : Mark .rightParen
  tail : FunctionTail
  separator : Option Separator
  /-- The word `oneway` begins no type here. -/
  onewayed : oneway = none → result.head.kind ≠ .keyword .oneway
  stops : result.StopsBefore name.words.head

namespace Function

def head (phrase : Function) : Link :=
  phrase.oneway.elim phrase.result.head (·.link)

def terminals (phrase : Function) : List Terminal :=
  optional Leaf.terminals phrase.oneway ++ (phrase.result.terminals ++ (phrase.name.terminals ++
    (phrase.opening.terminals ++ (phrase.args.flatMap Field.terminals ++
      (phrase.closing.terminals ++ (phrase.tail.terminals ++
        optional Leaf.terminals phrase.separator))))))

theorem exists_terminals (phrase : Function) :
    ∃ x xs, phrase.terminals = x :: xs ∧ x.head = phrase.head := by
  obtain ⟨oneway, result, name, opening, args, closing, tail, separator, onewayed, stops⟩ := phrase
  cases oneway with
  | some word => exact ⟨_, _, rfl, rfl⟩
  | none =>
    cases result with
    | void word => exact ⟨_, _, rfl, rfl⟩
    | type type returned =>
      obtain ⟨x, xs, hx, hhead⟩ := type.exists_terminals
      rw [terminals, Result.terminals, hx]
      exact ⟨x, _, rfl, hhead⟩

def node (phrase : Function) : ThriftSyntax.Function where
  span := ⟨phrase.head.id,
    phrase.separator.elim (phrase.tail.last phrase.closing.link.id) (·.link.id)⟩
  oneway := phrase.oneway.isSome
  result := phrase.result.node
  name := phrase.name.words.text
  args := Field.children phrase.args
  throws := phrase.tail.throws.map (Field.children ·.fields)
  annotations := Annotations.nodes phrase.tail.annotations
  separator := phrase.separator.map (·.link.id)

def entry (phrase : Function) : Token.Key × String :=
  (phrase.head.token.key, phrase.name.words.text)

def children (phrases : List Function) : Children ThriftSyntax.Function :=
  ⟨phrases.map node, ⟨phrases.map entry⟩⟩

/-- A function without exceptions and separator does not stop before the word that would begin
the former. -/
def StopsBefore (phrase : Function) (next : Link) : Prop :=
  phrase.tail.throws = none → phrase.separator = none → next.kind ≠ .keyword .throws

end Function

/-! ## Definitions -/

structure Base where
  particle : Particle "extends"
  name : Name false

def Base.terminals (phrase : Base) : List Terminal :=
  phrase.particle.terminals ++ phrase.name.terminals

structure Service where
  word : Word .service
  name : Name false
  base : Option Base
  opening : Mark .leftBrace
  functions : List Function
  closing : Mark .rightBrace
  annotations : Option Annotations
  stops : functions.IsChain fun function next => function.StopsBefore next.head

namespace Service

def terminals (phrase : Service) : List Terminal :=
  phrase.word.terminals ++ (phrase.name.terminals ++ (optional Base.terminals phrase.base ++
    (phrase.opening.terminals ++ (phrase.functions.flatMap Function.terminals ++
      (phrase.closing.terminals ++ optional Annotations.terminals phrase.annotations)))))

def node (phrase : Service) : ThriftSyntax.Service where
  span := ⟨phrase.word.link.id, Annotations.last phrase.annotations phrase.closing.link.id⟩
  name := phrase.name.words.text
  base := phrase.base.map (·.name.words.text)
  functions := Function.children phrase.functions
  annotations := Annotations.nodes phrase.annotations

end Service

inductive Scope where
  | all (star : Mark .star)
  | name (name : Name true)

namespace Scope

def terminals : Scope → List Terminal
  | all star => star.terminals
  | .name scope => scope.terminals

def text : Scope → String
  | all star => star.link.raw
  | .name scope => scope.words.text

end Scope

structure Namespace where
  word : Word .namespace
  scope : Scope
  target : Name true
  annotations : Option Annotations

namespace Namespace

def terminals (phrase : Namespace) : List Terminal :=
  phrase.word.terminals ++ (phrase.scope.terminals ++ (phrase.target.terminals ++
    optional Annotations.terminals phrase.annotations))

def node (phrase : Namespace) : ThriftSyntax.Namespace where
  span := ⟨phrase.word.link.id, Annotations.last phrase.annotations phrase.target.words.last.id⟩
  scope := phrase.scope.text
  target := phrase.target.words.text
  annotations := Annotations.nodes phrase.annotations

end Namespace

def includeWord : IncludeForm → Keyword
  | .thrift => .include
  | .cpp => .cppInclude

structure Include where
  form : IncludeForm
  word : Word (includeWord form)
  path : Literal

namespace Include

def terminals (phrase : Include) : List Terminal := phrase.word.terminals ++ phrase.path.terminals

def node (phrase : Include) : ThriftSyntax.Include where
  span := ⟨phrase.word.link.id, phrase.path.link.id⟩
  form := phrase.form
  path := phrase.path.link.token.value

end Include

structure Const where
  word : Word .const
  type : FieldType
  name : Name false
  equals : Mark .equals
  value : ConstValue
  separator : Option Separator
  stops : type.StopsBefore name.words.head

namespace Const

def terminals (phrase : Const) : List Terminal :=
  phrase.word.terminals ++ (phrase.type.terminals ++ (phrase.name.terminals ++
    (phrase.equals.terminals ++ (phrase.value.terminals ++
      optional Leaf.terminals phrase.separator))))

def node (phrase : Const) : ThriftSyntax.Const where
  span := ⟨phrase.word.link.id, phrase.separator.elim phrase.value.node.span.last (·.link.id)⟩
  type := phrase.type.node
  name := phrase.name.words.text
  value := phrase.value.node
  separator := phrase.separator.map (·.link.id)

end Const

structure TypeDef where
  word : Word .typedef
  type : FieldType
  name : Name true
  annotations : Option Annotations
  separator : Option Separator
  /-- Only a type that has no name of its own gets one. -/
  unnamed : type.node.isNamed = false
  stops : type.StopsBefore name.words.head

namespace TypeDef

def terminals (phrase : TypeDef) : List Terminal :=
  phrase.word.terminals ++ (phrase.type.terminals ++ (phrase.name.terminals ++
    (optional Annotations.terminals phrase.annotations ++
      optional Leaf.terminals phrase.separator)))

def node (phrase : TypeDef) : ThriftSyntax.TypeDef where
  span := ⟨phrase.word.link.id, phrase.separator.elim
    (Annotations.last phrase.annotations phrase.name.words.last.id) (·.link.id)⟩
  type := phrase.type.node
  name := phrase.name.words.text
  annotations := Annotations.nodes phrase.annotations
  separator := phrase.separator.map (·.link.id)

end TypeDef

structure Assigned where
  equals : Mark .equals
  number : Integer

def Assigned.terminals (phrase : Assigned) : List Terminal :=
  phrase.equals.terminals ++ phrase.number.terminals

structure EnumElement where
  name : Name false
  assigned : Option Assigned
  annotations : Option Annotations
  separator : Option Separator

namespace EnumElement

def terminals (phrase : EnumElement) : List Terminal :=
  phrase.name.terminals ++ (optional Assigned.terminals phrase.assigned ++
    (optional Annotations.terminals phrase.annotations ++ optional Leaf.terminals phrase.separator))

/-- The last token before the annotations. -/
def last (phrase : EnumElement) : Nat :=
  phrase.assigned.elim phrase.name.words.last.id (·.number.link.id)

/-- The element before it is numbered. -/
def node (phrase : EnumElement) : ThriftSyntax.EnumElement where
  span := ⟨phrase.name.words.head.id,
    phrase.separator.elim (Annotations.last phrase.annotations phrase.last) (·.link.id)⟩
  name := phrase.name.words.text
  value := phrase.assigned.map (·.number.value)
  id := (phrase.assigned.map (·.number.value)).getD 0
  annotations := Annotations.nodes phrase.annotations
  separator := phrase.separator.map (·.link.id)

end EnumElement

structure Enum where
  word : Word .enum
  name : Name false
  opening : Mark .leftBrace
  elements : List EnumElement
  closing : Mark .rightBrace
  annotations : Option Annotations

namespace Enum

def terminals (phrase : Enum) : List Terminal :=
  phrase.word.terminals ++ (phrase.name.terminals ++ (phrase.opening.terminals ++
    (phrase.elements.flatMap EnumElement.terminals ++ (phrase.closing.terminals ++
      optional Annotations.terminals phrase.annotations))))

def node (numbering : Numbering) (phrase : Enum) : ThriftSyntax.Enum where
  span := ⟨phrase.word.link.id, Annotations.last phrase.annotations phrase.closing.link.id⟩
  name := phrase.name.words.text
  elements := numbering.assign (phrase.elements.map EnumElement.node)
  annotations := Annotations.nodes phrase.annotations

end Enum

def structWord : StructForm → Keyword
  | .struct => .struct
  | .union => .union
  | .exception => .exception

structure Struct where
  form : StructForm
  word : Word (structWord form)
  name : Name false
  opening : Mark .leftBrace
  fields : List Field
  closing : Mark .rightBrace
  annotations : Option Annotations

namespace Struct

def terminals (phrase : Struct) : List Terminal :=
  phrase.word.terminals ++ (phrase.name.terminals ++ (phrase.opening.terminals ++
    (phrase.fields.flatMap Field.terminals ++ (phrase.closing.terminals ++
      optional Annotations.terminals phrase.annotations))))

def node (phrase : Struct) : ThriftSyntax.Struct where
  span := ⟨phrase.word.link.id, Annotations.last phrase.annotations phrase.closing.link.id⟩
  form := phrase.form
  name := phrase.name.words.text
  fields := Field.children phrase.fields
  annotations := Annotations.nodes phrase.annotations

end Struct

inductive Definition where
  | namespaced (definition : Namespace)
  | included (definition : Include)
  | const (definition : Const)
  | typedef (definition : TypeDef)
  | enum (definition : Enum)
  | struct (definition : Struct)
  | service (definition : Service)

namespace Definition

def terminals : Definition → List Terminal
  | namespaced definition => definition.terminals
  | included definition => definition.terminals
  | const definition => definition.terminals
  | typedef definition => definition.terminals
  | enum definition => definition.terminals
  | struct definition => definition.terminals
  | service definition => definition.terminals

def node (numbering : Numbering) : Definition → ThriftSyntax.Definition
  | namespaced definition => .namespaced definition.node
  | included definition => .included definition.node
  | const definition => .const definition.node
  | typedef definition => .typedef definition.node
  | enum definition => .enum (definition.node numbering)
  | struct definition => .struct definition.node
  | service definition => .service definition.node

/-- The word that begins a definition. -/
def head : Definition → Link
  | namespaced definition => definition.word.link
  | included definition => definition.word.link
  | const definition => definition.word.link
  | typedef definition => definition.word.link
  | enum definition => definition.word.link
  | struct definition => definition.word.link
  | service definition => definition.word.link

theorem terminals_eq (phrase : Definition) :
    phrase.terminals = .token phrase.head :: phrase.terminals.tail := by
  cases phrase <;> rfl

theorem head_isWord (phrase : Definition) : phrase.head.kind.isWord true = true := by
  cases phrase with
  | namespaced phrase | included phrase | const phrase | typedef phrase | enum phrase
  | struct phrase | service phrase =>
    rw [head, phrase.word.fits]
    rfl

/-- The annotations of a namespace may be refused a separator at their end. -/
def Allowed (trailing : TrailingSeparator) : Definition → Prop
  | namespaced definition => trailing = .reject → ∀ phrase ∈ definition.annotations, phrase.Untrailed
  | _ => True

end Definition

structure Document where
  definitions : List Definition
  ending : Ending

namespace Document

def terminals (phrase : Document) : List Terminal :=
  phrase.definitions.flatMap Definition.terminals ++ phrase.ending.terminals

def node (numbering : Numbering) (phrase : Document) : ThriftSyntax.Document where
  span := ⟨0, phrase.ending.link.id⟩
  definitions := phrase.definitions.map (Definition.node numbering)

def Allowed (trailing : TrailingSeparator) (phrase : Document) : Prop :=
  ∀ definition ∈ phrase.definitions, definition.Allowed trailing

end Document

end ThriftSyntax.Phrase
