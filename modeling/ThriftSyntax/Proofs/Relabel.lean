import ThriftSyntax.Syntax.Node
import ThriftSyntax.Syntax.Numbering

/-!
# Trees under another numbering of tokens

`relabel ids` gives the token `id` the number `ids id` wherever a tree mentions it, and drops the
keys of its indexes, which say where a token stands. What is left of a tree under the constant
numbering `forget` is what it says apart from where its tokens are.
-/

namespace ThriftSyntax

variable (ids : Nat → Nat)

def Span.relabel (span : Span) : Span := ⟨ids span.first, ids span.last⟩

def Annotation.relabel (node : Annotation) : Annotation :=
  { node with span := node.span.relabel ids }

def relabelAnnotations (nodes : List Annotation) : List Annotation :=
  nodes.map fun node => node.relabel ids

namespace FieldType

def relabel : FieldType → FieldType
  | base type span annotations =>
    base type (span.relabel ids) (relabelAnnotations ids annotations)
  | named name span annotations =>
    named name (span.relabel ids) (relabelAnnotations ids annotations)
  | map key value cppType span annotations =>
    map (relabel key) (relabel value) cppType (span.relabel ids)
      (relabelAnnotations ids annotations)
  | set element cppType span annotations =>
    set (relabel element) cppType (span.relabel ids) (relabelAnnotations ids annotations)
  | list element cppType span annotations =>
    list (relabel element) cppType (span.relabel ids) (relabelAnnotations ids annotations)

theorem span_relabel (type : FieldType) : (relabel ids type).span = type.span.relabel ids := by
  cases type <;> rfl

end FieldType

namespace ConstValue

mutual

def relabel : ConstValue → ConstValue
  | scalar form text span => scalar form text (span.relabel ids)
  | list items span => list (relabelItems items) (span.relabel ids)
  | map entries span => map (relabelEntries entries) (span.relabel ids)

def relabelItems : List ConstValue → List ConstValue
  | [] => []
  | item :: items => relabel item :: relabelItems items

def relabelEntries : List (ConstValue × ConstValue) → List (ConstValue × ConstValue)
  | [] => []
  | (key, value) :: entries => (relabel key, relabel value) :: relabelEntries entries

end

theorem relabelItems_eq (items : List ConstValue) :
    relabelItems ids items = items.map (relabel ids) := by
  induction items with
  | nil => rfl
  | cons item items ih => rw [relabelItems, ih, List.map_cons]

theorem relabelEntries_eq (entries : List (ConstValue × ConstValue)) :
    relabelEntries ids entries =
      entries.map fun entry => (relabel ids entry.1, relabel ids entry.2) := by
  induction entries with
  | nil => rfl
  | cons entry entries ih => rw [relabelEntries, ih, List.map_cons]

theorem span_relabel (value : ConstValue) : (relabel ids value).span = value.span.relabel ids := by
  cases value <;> rw [relabel] <;> rfl

end ConstValue

/-- An index keeps the names of its children, and their order. -/
def ChildIndex.relabel (index : ChildIndex) : ChildIndex :=
  ⟨index.entries.map fun entry => (default, entry.2)⟩

def Children.relabel {α : Type} (item : α → α) (children : Children α) : Children α :=
  ⟨children.items.map item, children.index.relabel⟩

def Field.relabel (node : Field) : Field :=
  { node with
    span := node.span.relabel ids
    type := node.type.relabel ids
    default := node.default.map (ConstValue.relabel ids)
    annotations := relabelAnnotations ids node.annotations
    separator := node.separator.map ids }

def Function.relabel (node : Function) : Function :=
  { node with
    span := node.span.relabel ids
    result := node.result.map (FieldType.relabel ids)
    args := node.args.relabel (Field.relabel ids)
    throws := node.throws.map (Children.relabel (Field.relabel ids))
    annotations := relabelAnnotations ids node.annotations
    separator := node.separator.map ids }

def Service.relabel (node : Service) : Service :=
  { node with
    span := node.span.relabel ids
    functions := node.functions.relabel (Function.relabel ids)
    annotations := relabelAnnotations ids node.annotations }

def Namespace.relabel (node : Namespace) : Namespace :=
  { node with
    span := node.span.relabel ids
    annotations := relabelAnnotations ids node.annotations }

def Include.relabel (node : Include) : Include :=
  { node with span := node.span.relabel ids }

def Const.relabel (node : Const) : Const :=
  { node with
    span := node.span.relabel ids
    type := node.type.relabel ids
    value := node.value.relabel ids
    separator := node.separator.map ids }

def TypeDef.relabel (node : TypeDef) : TypeDef :=
  { node with
    span := node.span.relabel ids
    type := node.type.relabel ids
    annotations := relabelAnnotations ids node.annotations
    separator := node.separator.map ids }

def EnumElement.relabel (node : EnumElement) : EnumElement :=
  { node with
    span := node.span.relabel ids
    annotations := relabelAnnotations ids node.annotations
    separator := node.separator.map ids }

def Enum.relabel (node : Enum) : Enum :=
  { node with
    span := node.span.relabel ids
    elements := node.elements.map (EnumElement.relabel ids)
    annotations := relabelAnnotations ids node.annotations }

def Struct.relabel (node : Struct) : Struct :=
  { node with
    span := node.span.relabel ids
    fields := node.fields.relabel (Field.relabel ids)
    annotations := relabelAnnotations ids node.annotations }

def Definition.relabel : Definition → Definition
  | namespaced node => namespaced (node.relabel ids)
  | included node => included (node.relabel ids)
  | const node => const (node.relabel ids)
  | typedef node => typedef (node.relabel ids)
  | enum node => enum (node.relabel ids)
  | struct node => struct (node.relabel ids)
  | service node => service (node.relabel ids)

/-- The span of a document begins with the chain, so that its first number is no token's. -/
def Document.relabel (node : Document) : Document where
  span := ⟨node.span.first, ids node.span.last⟩
  definitions := node.definitions.map (Definition.relabel ids)

def Node.relabel : Node → Node
  | document node => document (node.relabel ids)
  | namespaced node => namespaced (node.relabel ids)
  | included node => included (node.relabel ids)
  | const node => const (node.relabel ids)
  | constValue node => constValue (node.relabel ids)
  | typedef node => typedef (node.relabel ids)
  | enum node => enum (node.relabel ids)
  | enumElement node => enumElement (node.relabel ids)
  | struct node => struct (node.relabel ids)
  | field node => field (node.relabel ids)
  | fieldType node => fieldType (node.relabel ids)
  | service node => service (node.relabel ids)
  | function node => function (node.relabel ids)
  | annotation node => annotation (node.relabel ids)

/-- What a document says, apart from where its tokens stand. -/
def Document.forget (node : Document) : Document := node.relabel fun _ => 0

/-- The ids of elements are counted in the same way under another numbering of tokens. -/
theorem Numbering.assign_relabel (numbering : Numbering) (elements : List EnumElement) :
    numbering.assign (elements.map (EnumElement.relabel ids)) =
      (numbering.assign elements).map (EnumElement.relabel ids) := by
  cases numbering with
  | explicit =>
    rw [assign, assign, List.map_map, List.map_map]
    rfl
  | sequential =>
    rw [assign, assign]
    suffices ∀ id, count id (elements.map (EnumElement.relabel ids)) =
        (count id elements).map (EnumElement.relabel ids) from this 0
    induction elements with
    | nil => exact fun id => rfl
    | cons element elements ih =>
      intro id
      rw [List.map_cons, count, count, List.map_cons, ih]
      rfl

/-! ## The same numbers

A tree that keeps its numbers loses only the keys of its indexes. -/

@[simp] theorem Span.relabel_id (span : Span) : span.relabel id = span := rfl

@[simp] theorem relabelAnnotations_id (nodes : List Annotation) :
    relabelAnnotations id nodes = nodes := List.map_id nodes

@[simp] theorem FieldType.relabel_id (type : FieldType) : type.relabel id = type := by
  induction type with
  | base | named => simp [relabel]
  | map _ _ _ _ _ hkey hvalue => simp [relabel, hkey, hvalue]
  | set _ _ _ _ ih | list _ _ _ _ ih => simp [relabel, ih]

namespace ConstValue

mutual

@[simp] theorem relabel_id : ∀ value : ConstValue, value.relabel id = value
  | scalar .. => rfl
  | list items span => by rw [relabel, relabelItems_id items, Span.relabel_id]
  | map entries span => by rw [relabel, relabelEntries_id entries, Span.relabel_id]

theorem relabelItems_id : ∀ items : List ConstValue, relabelItems id items = items
  | [] => rfl
  | item :: items => by rw [relabelItems, relabel_id item, relabelItems_id items]

theorem relabelEntries_id :
    ∀ entries : List (ConstValue × ConstValue), relabelEntries id entries = entries
  | [] => rfl
  | (key, value) :: entries => by
    rw [relabelEntries, relabel_id key, relabel_id value, relabelEntries_id entries]

end

end ConstValue

@[simp] theorem relabelField_id (node : Field) : node.relabel id = node := by
  have hvalue : ConstValue.relabel id = id := funext ConstValue.relabel_id
  simp [Field.relabel, hvalue]

@[simp] theorem relabelElement_id (node : EnumElement) : node.relabel id = node := by
  simp [EnumElement.relabel]

end ThriftSyntax
