import ThriftSyntax.Syntax.Definition

/-!
# Nodes

Every part of a document as a `Node`, so that a tree can be walked without regard to what its parts
are. `Node.walk` lists a node and all below it, each before its own children.
-/

namespace ThriftSyntax

inductive Node where
  | document (node : Document)
  | namespaced (node : Namespace)
  | included (node : Include)
  | const (node : Const)
  | constValue (node : ConstValue)
  | typedef (node : TypeDef)
  | enum (node : Enum)
  | enumElement (node : EnumElement)
  | struct (node : Struct)
  | field (node : Field)
  | fieldType (node : FieldType)
  | service (node : Service)
  | function (node : Function)
  | annotation (node : Annotation)
deriving DecidableEq, Inhabited

namespace Node

def ofDefinition : Definition → Node
  | .namespaced node => namespaced node
  | .included node => included node
  | .const node => const node
  | .typedef node => typedef node
  | .enum node => enum node
  | .struct node => struct node
  | .service node => service node

def span : Node → Span
  | document node => node.span
  | namespaced node => node.span
  | included node => node.span
  | const node => node.span
  | constValue node => node.span
  | typedef node => node.span
  | enum node => node.span
  | enumElement node => node.span
  | struct node => node.span
  | field node => node.span
  | fieldType node => node.span
  | service node => node.span
  | function node => node.span
  | annotation node => node.span

/-- What sort of node this is. -/
def label : Node → String
  | document _ => "Document"
  | namespaced _ => "Namespace"
  | included _ => "Include"
  | const _ => "Const"
  | constValue _ => "ConstValue"
  | typedef _ => "TypeDef"
  | enum _ => "Enum"
  | enumElement _ => "EnumElement"
  | struct node =>
    match node.form with
    | .struct => "Struct"
    | .union => "Union"
    | .exception => "Exception"
  | field _ => "Field"
  | fieldType _ => "FieldType"
  | service _ => "Service"
  | function _ => "Function"
  | annotation _ => "Annotation"

/-- The parts of a function, its annotations before its exceptions. -/
def functionParts (node : Function) : List Node :=
  (node.result.map fieldType).toList ++ node.args.items.map field ++
    node.annotations.map annotation ++ ((node.throws.map (·.items)).getD []).map field

/-- The nodes directly within a node, in the order of the text. The annotations of a function may
stand on either side of its exceptions, so its parts are put in order. -/
def children : Node → List Node
  | document node => node.definitions.map ofDefinition
  | namespaced node => node.annotations.map annotation
  | included _ => []
  | const node => [fieldType node.type, constValue node.value]
  | constValue node => node.parts.map constValue
  | typedef node => fieldType node.type :: node.annotations.map annotation
  | enum node => node.elements.map enumElement ++ node.annotations.map annotation
  | enumElement node => node.annotations.map annotation
  | struct node => node.fields.items.map field ++ node.annotations.map annotation
  | field node =>
    fieldType node.type :: (node.default.map constValue).toList ++ node.annotations.map annotation
  | fieldType node => node.arguments.map fieldType ++ node.annotations.map annotation
  | service node => node.functions.items.map function ++ node.annotations.map annotation
  | function node => (functionParts node).mergeSort fun a b => a.span.first ≤ b.span.first
  | annotation _ => []

/-! ## Walking -/

theorem sizeOf_annotation_lt {items : List Annotation} {child : Node}
    (h : child ∈ items.map annotation) : sizeOf child < 1 + sizeOf items := by
  obtain ⟨item, hitem, rfl⟩ := List.mem_map.1 h
  have := List.sizeOf_lt_of_mem hitem
  simp only [Node.annotation.sizeOf_spec]
  omega

theorem sizeOf_field_lt {items : List Field} {child : Node} (h : child ∈ items.map field) :
    sizeOf child < 1 + sizeOf items := by
  obtain ⟨item, hitem, rfl⟩ := List.mem_map.1 h
  have := List.sizeOf_lt_of_mem hitem
  simp only [field.sizeOf_spec]
  omega

theorem sizeOf_lt_of_mem_parts {value part : ConstValue} (h : part ∈ value.parts) :
    sizeOf part < sizeOf value := by
  cases value with
  | scalar => simp [ConstValue.parts] at h
  | list items span =>
    have : sizeOf part < sizeOf items := List.sizeOf_lt_of_mem h
    simp only [ConstValue.list.sizeOf_spec]
    omega
  | map entries span =>
    simp only [ConstValue.parts, List.mem_flatMap, List.mem_cons, List.not_mem_nil, or_false,
      Prod.exists] at h
    obtain ⟨key, value, hentry, rfl | rfl⟩ := h
    all_goals
      have := List.sizeOf_lt_of_mem hentry
      simp only [ConstValue.map.sizeOf_spec, Prod.mk.sizeOf_spec] at this ⊢
      omega

theorem sizeOf_lt_of_mem_arguments {type argument : FieldType} (h : argument ∈ type.arguments) :
    sizeOf argument < sizeOf type := by
  cases type <;> simp [FieldType.arguments] at h
  · obtain rfl | rfl := h <;> simp <;> omega
  all_goals subst h; simp; omega

theorem sizeOf_lt_of_mem_functionParts {function : Function} {child : Node}
    (h : child ∈ functionParts function) : sizeOf child < 1 + sizeOf function := by
  obtain ⟨span, oneway, result, name, ⟨args, index⟩, throws, annotations, separator⟩ := function
  simp only [functionParts, List.mem_append] at h
  simp only [Function.mk.sizeOf_spec, Children.mk.sizeOf_spec]
  obtain ((h | h) | h) | h := h
  · cases result with
    | none => simp at h
    | some type =>
      simp only [Option.map_some, Option.toList_some, List.mem_singleton] at h
      subst h
      simp only [fieldType.sizeOf_spec, Option.some.sizeOf_spec]
      omega
  · have := sizeOf_field_lt h
    omega
  · have := sizeOf_annotation_lt h
    omega
  · cases throws with
    | none => simp at h
    | some throws =>
      obtain ⟨items, index⟩ := throws
      have : sizeOf child < 1 + sizeOf items := sizeOf_field_lt h
      simp only [Option.some.sizeOf_spec, Children.mk.sizeOf_spec]
      omega

/-- What lies within a node is smaller than it. -/
theorem sizeOf_lt_of_mem_children {node child : Node} (h : child ∈ node.children) :
    sizeOf child < sizeOf node := by
  cases node with
  | document node =>
    obtain ⟨span, definitions⟩ := node
    obtain ⟨definition, hdefinition, rfl⟩ := List.mem_map.1 h
    have := List.sizeOf_lt_of_mem hdefinition
    cases definition <;> simp [ofDefinition] at this ⊢ <;> omega
  | namespaced node =>
    obtain ⟨span, scope, target, annotations⟩ := node
    have := sizeOf_annotation_lt h
    simp at this ⊢
    omega
  | included node => simp [children] at h
  | const node =>
    obtain ⟨span, type, name, value, separator⟩ := node
    simp only [children, List.mem_cons, List.not_mem_nil, or_false] at h
    obtain rfl | rfl := h <;> simp <;> omega
  | constValue node =>
    obtain ⟨part, hpart, rfl⟩ := List.mem_map.1 h
    have := sizeOf_lt_of_mem_parts hpart
    simp only [constValue.sizeOf_spec]
    omega
  | typedef node =>
    obtain ⟨span, type, name, annotations, separator⟩ := node
    obtain rfl | h := List.mem_cons.1 h
    · simp
      omega
    · have := sizeOf_annotation_lt h
      simp at this ⊢
      omega
  | enum node =>
    obtain ⟨span, name, elements, annotations⟩ := node
    obtain h | h := List.mem_append.1 h
    · obtain ⟨element, helement, rfl⟩ := List.mem_map.1 h
      have := List.sizeOf_lt_of_mem helement
      simp at this ⊢
      omega
    · have := sizeOf_annotation_lt h
      simp at this ⊢
      omega
  | enumElement node =>
    obtain ⟨span, name, value, id, annotations, separator⟩ := node
    have := sizeOf_annotation_lt h
    simp at this ⊢
    omega
  | struct node =>
    obtain ⟨span, form, name, ⟨items, index⟩, annotations⟩ := node
    obtain h | h := List.mem_append.1 h
    · have := sizeOf_field_lt h
      simp at this ⊢
      omega
    · have := sizeOf_annotation_lt h
      simp at this ⊢
      omega
  | field node =>
    obtain ⟨span, id, requiredness, type, name, default, annotations, separator⟩ := node
    simp only [children, List.cons_append, List.mem_cons, List.mem_append] at h
    obtain rfl | h | h := h
    · simp
      omega
    · cases default with
      | none => simp at h
      | some value =>
        simp only [Option.map_some, Option.toList_some, List.mem_singleton] at h
        subst h
        simp
        omega
    · have := sizeOf_annotation_lt h
      simp at this ⊢
      omega
  | fieldType node =>
    obtain h | h := List.mem_append.1 h
    · obtain ⟨argument, hargument, rfl⟩ := List.mem_map.1 h
      have := sizeOf_lt_of_mem_arguments hargument
      simp only [fieldType.sizeOf_spec]
      omega
    · have := sizeOf_annotation_lt h
      cases node <;> simp [FieldType.annotations] at this ⊢ <;> omega
  | service node =>
    obtain ⟨span, name, base, ⟨items, index⟩, annotations⟩ := node
    obtain h | h := List.mem_append.1 h
    · obtain ⟨item, hitem, rfl⟩ := List.mem_map.1 h
      have := List.sizeOf_lt_of_mem hitem
      simp at this ⊢
      omega
    · have := sizeOf_annotation_lt h
      simp at this ⊢
      omega
  | function node =>
    have := sizeOf_lt_of_mem_functionParts (List.mem_mergeSort.1 h)
    simpa using this
  | annotation node => simp [children] at h

/-- A node of a walk with the position of its parent in it; a root has none. -/
structure Visit where
  node : Node
  parent : Option Nat
deriving DecidableEq, Inhabited

/-- Adds a node and all below it to a walk. -/
def walkOnto (visits : Array Visit) (parent : Option Nat) (node : Node) : Array Visit :=
  node.children.attach.foldl
    (fun visits' child => walkOnto visits' (some visits.size) child.1)
    (visits.push ⟨node, parent⟩)
termination_by sizeOf node
decreasing_by exact sizeOf_lt_of_mem_children child.2

/-- The node and all below it, each before its own children. -/
def walk (node : Node) : List Visit := (walkOnto #[] none node).toList

end Node

end ThriftSyntax
