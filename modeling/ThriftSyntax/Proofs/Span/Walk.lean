import Mathlib.Data.List.Pairwise
import Mathlib.Logic.Relation
import ThriftSyntax.Syntax.Node

/-!
# Walks over placed trees

A node is `Placed` if its children lie strictly within its span, one after the other. In a tree of
placed nodes any two nodes lie apart or one within the other, so a walk comes to every node once, in
the order in which they begin, and the parent of a node is the smallest that encloses it.
-/

namespace ThriftSyntax

/-- The inner span lies within the outer one, and is smaller. -/
def Span.Encloses (outer inner : Span) : Prop :=
  outer.first ≤ inner.first ∧ inner.last ≤ outer.last ∧ outer ≠ inner

namespace Span

variable {a b c : Span}

theorem Encloses.irrefl : ¬ a.Encloses a := fun h => h.2.2 rfl

theorem Encloses.trans (h : a.Encloses b) (h' : b.Encloses c) : a.Encloses c := by
  obtain ⟨hfirst, hlast, hne⟩ := h
  obtain ⟨hfirst', hlast', -⟩ := h'
  refine ⟨Nat.le_trans hfirst hfirst', Nat.le_trans hlast' hlast, ?_⟩
  rintro rfl
  apply hne
  cases a
  cases b
  simp only [Span.mk.injEq] at *
  omega

theorem Encloses.asymm (h : a.Encloses b) : ¬ b.Encloses a := fun h' => (h.trans h').irrefl

end Span

namespace Node

/-- The node has a first and a last token in this order, and its children lie strictly within it, one
after the other. -/
structure Placed (node : Node) : Prop where
  ordered : node.span.first ≤ node.span.last
  encloses : ∀ child ∈ node.children, node.span.Encloses child.span
  apart : node.children.Pairwise (·.span.last < ·.span.first)

/-- The node is `root`, or lies below it. -/
abbrev Below (root node : Node) : Prop :=
  Relation.ReflTransGen (fun parent child => child ∈ parent.children) root node

/-! ## Parts -/

/-- What each kind of node is made of: every node that it holds, wherever it holds it. -/
inductive HasPart : Node → Node → Prop
  | namespaced {node : Document} {part : Namespace} (h : .namespaced part ∈ node.definitions) :
      HasPart (document node) (namespaced part)
  | included {node : Document} {part : Include} (h : .included part ∈ node.definitions) :
      HasPart (document node) (included part)
  | const {node : Document} {part : Const} (h : .const part ∈ node.definitions) :
      HasPart (document node) (const part)
  | typedef {node : Document} {part : TypeDef} (h : .typedef part ∈ node.definitions) :
      HasPart (document node) (typedef part)
  | enum {node : Document} {part : Enum} (h : .enum part ∈ node.definitions) :
      HasPart (document node) (enum part)
  | struct {node : Document} {part : Struct} (h : .struct part ∈ node.definitions) :
      HasPart (document node) (struct part)
  | service {node : Document} {part : Service} (h : .service part ∈ node.definitions) :
      HasPart (document node) (service part)
  | namespaceAnnotated {node : Namespace} {part : Annotation} (h : part ∈ node.annotations) :
      HasPart (namespaced node) <| annotation part
  | constType {node : Const} : HasPart (const node) (fieldType node.type)
  | constValue {node : Const} : HasPart (const node) (constValue node.value)
  | item {items : List ConstValue} {part : ConstValue} {span : Span} (h : part ∈ items) :
      HasPart (constValue (.list items span)) (constValue part)
  | key {entries : List (ConstValue × ConstValue)} {key value : ConstValue} {span : Span}
      (h : (key, value) ∈ entries) : HasPart (constValue (.map entries span)) (constValue key)
  | value {entries : List (ConstValue × ConstValue)} {key value : ConstValue} {span : Span}
      (h : (key, value) ∈ entries) : HasPart (constValue (.map entries span)) (constValue value)
  | typedefType {node : TypeDef} : HasPart (typedef node) (fieldType node.type)
  | typedefAnnotated {node : TypeDef} {part : Annotation} (h : part ∈ node.annotations) :
      HasPart (typedef node) <| annotation part
  | element {node : Enum} {part : EnumElement} (h : part ∈ node.elements) :
      HasPart (enum node) (enumElement part)
  | enumAnnotated {node : Enum} {part : Annotation} (h : part ∈ node.annotations) :
      HasPart (enum node) <| annotation part
  | elementAnnotated {node : EnumElement} {part : Annotation} (h : part ∈ node.annotations) :
      HasPart (enumElement node) <| annotation part
  | structField {node : Struct} {part : Field} (h : part ∈ node.fields.items) :
      HasPart (struct node) (field part)
  | structAnnotated {node : Struct} {part : Annotation} (h : part ∈ node.annotations) :
      HasPart (struct node) <| annotation part
  | fieldType {node : Field} : HasPart (field node) (fieldType node.type)
  | default {node : Field} {part : ConstValue} (h : node.default = some part) :
      HasPart (field node) (constValue part)
  | fieldAnnotated {node : Field} {part : Annotation} (h : part ∈ node.annotations) :
      HasPart (field node) <| annotation part
  | mapKey {key value : FieldType} {cppType : Option String} {span : Span}
      {annotations : List Annotation} :
      HasPart (fieldType (.map key value cppType span annotations)) (fieldType key)
  | mapValue {key value : FieldType} {cppType : Option String} {span : Span}
      {annotations : List Annotation} :
      HasPart (fieldType (.map key value cppType span annotations)) (fieldType value)
  | setElement {element : FieldType} {cppType : Option String} {span : Span}
      {annotations : List Annotation} :
      HasPart (fieldType (.set element cppType span annotations)) (fieldType element)
  | listElement {element : FieldType} {cppType : Option String} {span : Span}
      {annotations : List Annotation} :
      HasPart (fieldType (.list element cppType span annotations)) (fieldType element)
  | typeAnnotated {node : FieldType} {part : Annotation} (h : part ∈ node.annotations) :
      HasPart (fieldType node) <| annotation part
  | function {node : Service} {part : Function} (h : part ∈ node.functions.items) :
      HasPart (service node) (function part)
  | serviceAnnotated {node : Service} {part : Annotation} (h : part ∈ node.annotations) :
      HasPart (service node) <| annotation part
  | result {node : Function} {part : FieldType} (h : node.result = some part) :
      HasPart (function node) (fieldType part)
  | argument {node : Function} {part : Field} (h : part ∈ node.args.items) :
      HasPart (function node) (field part)
  | exception {node : Function} {fields : Children Field} {part : Field}
      (ht : node.throws = some fields) (h : part ∈ fields.items) : HasPart (function node) (field part)
  | functionAnnotated {node : Function} {part : Annotation} (h : part ∈ node.annotations) :
      HasPart (function node) <| annotation part

theorem mem_functionParts_iff {node : Function} {child : Node} :
    child ∈ functionParts node ↔ (function node).HasPart child := by
  simp only [functionParts, List.mem_append, List.mem_map, Option.mem_toList, Option.map_eq_some_iff]
  constructor
  · rintro (((⟨type, h, rfl⟩ | ⟨arg, h, rfl⟩) | ⟨part, h, rfl⟩) | ⟨part, h, rfl⟩)
    · exact .result h
    · exact .argument h
    · exact .functionAnnotated h
    · cases ht : node.throws with
      | none => simp [ht] at h
      | some fields => exact .exception ht (by simpa [ht] using h)
  · rintro (_ | _)
    case result h => exact .inl (.inl (.inl ⟨_, h, rfl⟩))
    case argument h => exact .inl (.inl (.inr ⟨_, h, rfl⟩))
    case functionAnnotated h => exact .inl (.inr ⟨_, h, rfl⟩)
    case exception fields part h ht => exact .inr ⟨part, by simpa [ht] using h, rfl⟩

theorem HasPart.of_mem_definitions {node : Document} {definition : Definition}
    (h : definition ∈ node.definitions) : (document node).HasPart (ofDefinition definition) := by
  cases definition with
  | namespaced => exact .namespaced h
  | included => exact .included h
  | const => exact .const h
  | typedef => exact .typedef h
  | enum => exact .enum h
  | struct => exact .struct h
  | service => exact .service h

theorem HasPart.of_mem_parts {value part : ConstValue} (h : part ∈ value.parts) :
    (Node.constValue value).HasPart (Node.constValue part) := by
  cases value with
  | scalar => cases h
  | list => exact .item h
  | map =>
    obtain ⟨⟨key, value⟩, hentry, h⟩ := List.mem_flatMap.1 h
    obtain rfl | rfl := (List.mem_cons.1 h).imp_right List.mem_singleton.1
    · exact .key hentry
    · exact .value hentry

theorem HasPart.of_mem_arguments {type argument : FieldType} (h : argument ∈ type.arguments) :
    (Node.fieldType type).HasPart (Node.fieldType argument) := by
  cases type with
  | base | named => cases h
  | map =>
    obtain rfl | rfl := (List.mem_cons.1 h).imp_right List.mem_singleton.1
    · exact .mapKey
    · exact .mapValue
  | set =>
    obtain rfl := List.mem_singleton.1 h
    exact .setElement
  | list =>
    obtain rfl := List.mem_singleton.1 h
    exact .listElement

theorem HasPart.of_mem_children {node child : Node} (h : child ∈ node.children) :
    node.HasPart child := by
  cases node with
  | document node =>
    obtain ⟨definition, hmem, rfl⟩ := List.mem_map.1 h
    exact .of_mem_definitions hmem
  | namespaced node =>
    obtain ⟨part, hmem, rfl⟩ := List.mem_map.1 h
    exact .namespaceAnnotated hmem
  | included node => cases h
  | const node =>
    obtain rfl | rfl := (List.mem_cons.1 h).imp_right List.mem_singleton.1
    · exact .constType
    · exact .constValue
  | constValue node =>
    obtain ⟨part, hmem, rfl⟩ := List.mem_map.1 h
    exact .of_mem_parts hmem
  | typedef node =>
    obtain rfl | h := List.mem_cons.1 h
    · exact .typedefType
    · obtain ⟨part, hmem, rfl⟩ := List.mem_map.1 h
      exact .typedefAnnotated hmem
  | enum node =>
    obtain h | h := List.mem_append.1 h
    all_goals obtain ⟨part, hmem, rfl⟩ := List.mem_map.1 h
    · exact .element hmem
    · exact .enumAnnotated hmem
  | enumElement node =>
    obtain ⟨part, hmem, rfl⟩ := List.mem_map.1 h
    exact .elementAnnotated hmem
  | struct node =>
    obtain h | h := List.mem_append.1 h
    all_goals obtain ⟨part, hmem, rfl⟩ := List.mem_map.1 h
    · exact .structField hmem
    · exact .structAnnotated hmem
  | field node =>
    rw [children, List.cons_append, List.mem_cons, List.mem_append] at h
    obtain rfl | h | h := h
    · exact .fieldType
    · obtain ⟨part, hpart, rfl⟩ := Option.map_eq_some_iff.1 (Option.mem_toList.1 h)
      exact .default hpart
    · obtain ⟨part, hmem, rfl⟩ := List.mem_map.1 h
      exact .fieldAnnotated hmem
  | fieldType node =>
    obtain h | h := List.mem_append.1 h
    all_goals obtain ⟨part, hmem, rfl⟩ := List.mem_map.1 h
    · exact .of_mem_arguments hmem
    · exact .typeAnnotated hmem
  | service node =>
    obtain h | h := List.mem_append.1 h
    all_goals obtain ⟨part, hmem, rfl⟩ := List.mem_map.1 h
    · exact .function hmem
    · exact .serviceAnnotated hmem
  | function node => exact mem_functionParts_iff.1 (List.mem_mergeSort.1 h)
  | annotation node => cases h

theorem HasPart.mem_children {node child : Node} (h : node.HasPart child) : child ∈ node.children := by
  cases h with
  | result h => exact List.mem_mergeSort.2 (mem_functionParts_iff.2 (.result h))
  | argument h => exact List.mem_mergeSort.2 (mem_functionParts_iff.2 (.argument h))
  | exception ht h => exact List.mem_mergeSort.2 (mem_functionParts_iff.2 (.exception ht h))
  | functionAnnotated h => exact List.mem_mergeSort.2 (mem_functionParts_iff.2 (.functionAnnotated h))
  | key h => exact List.mem_map_of_mem (List.mem_flatMap.2 ⟨_, h, List.mem_cons_self⟩)
  | value h =>
    exact List.mem_map_of_mem (List.mem_flatMap.2 ⟨_, h, List.mem_cons_of_mem _ List.mem_cons_self⟩)
  | namespaced h | included h | const h | typedef h | enum h | struct h | service h =>
    exact List.mem_map.2 ⟨_, h, rfl⟩
  | default h => simp [children, h]
  | _ => simp_all [children, ConstValue.parts, FieldType.arguments]

/-- The parts of a node are its children. -/
theorem mem_children_iff {node child : Node} : child ∈ node.children ↔ node.HasPart child :=
  ⟨.of_mem_children, HasPart.mem_children⟩

/-- To lie below a node is to be a part of a part, and so on, of it. -/
theorem below_iff {root node : Node} : root.Below node ↔ Relation.ReflTransGen HasPart root node := by
  rw [Below, show (fun parent child : Node => child ∈ parent.children) = HasPart from
    funext₂ fun _ _ => propext mem_children_iff]

/-! ## Preorder -/

theorem induction {motive : Node → Prop}
    (step : ∀ node, (∀ child ∈ node.children, motive child) → motive node) (node : Node) :
    motive node :=
  step node fun child _ => induction step child
termination_by sizeOf node
decreasing_by exact sizeOf_lt_of_mem_children ‹_›

/-- The node and all below it, each before its own children. -/
def preorder (node : Node) : List Node :=
  node :: node.children.attach.flatMap fun child => preorder child.1
termination_by sizeOf node
decreasing_by exact sizeOf_lt_of_mem_children child.2

theorem preorder_eq (node : Node) : node.preorder = node :: node.children.flatMap preorder := by
  rw [preorder, List.flatMap_subtype (g := preorder) fun _ _ => rfl, List.unattach_attach]

theorem mem_preorder {root node : Node} : node ∈ root.preorder ↔ root.Below node := by
  induction root using induction with
  | step root ih =>
    rw [preorder_eq, List.mem_cons, List.mem_flatMap]
    constructor
    · rintro (rfl | ⟨child, hchild, hn⟩)
      · exact .refl
      · exact .head hchild ((ih child hchild).1 hn)
    · intro h
      obtain rfl | ⟨child, hchild, hn⟩ := h.cases_head
      · exact .inl rfl
      · exact .inr ⟨child, hchild, (ih child hchild).2 hn⟩

/-! ## The tree of a placed root -/

section Placed

variable {root node other child : Node} (placed : ∀ node, root.Below node → node.Placed)

include placed

theorem below_encloses (h : root.Below node) : root = node ∨ root.span.Encloses node.span := by
  induction h with
  | refl => exact .inl rfl
  | tail h hchild ih =>
    have hc := (placed _ h).encloses _ hchild
    obtain rfl | ih := ih
    · exact .inr hc
    · exact .inr (ih.trans hc)

theorem placed_child (hchild : child ∈ root.children) : ∀ node, child.Below node → node.Placed :=
  fun node h => placed node (.head hchild h)

/-- Two children that have a token in common are one. -/
theorem eq_of_overlap {a b : Node} {id : Nat} (ha : a ∈ root.children) (hb : b ∈ root.children)
    (hida : a.span.first ≤ id ∧ id ≤ a.span.last) (hidb : b.span.first ≤ id ∧ id ≤ b.span.last) :
    a = b := by
  have hapart := (placed root .refl).apart
  by_contra hne
  have hsym : root.children.Pairwise fun a b =>
      a.span.last < b.span.first ∨ b.span.last < a.span.first := hapart.imp .inl
  have := @List.Pairwise.forall _ _ _ ⟨fun _ _ h => h.symm⟩ hsym a ha b hb hne
  omega

/-- A node lies within the node and apart from whatever does not. -/
theorem span_of_below (h : root.Below node) : root.span.first ≤ node.span.first ∧
    node.span.first ≤ node.span.last ∧ node.span.last ≤ root.span.last := by
  have hn := (placed node h).ordered
  obtain rfl | henc := below_encloses placed h
  · omega
  · exact ⟨henc.1, hn, henc.2.1⟩

/-- Of two nodes in the order of a walk, the first encloses the second or ends before it begins. -/
theorem preorder_pairwise :
    root.preorder.Pairwise fun a b =>
      a.span.Encloses b.span ∨ a.span.last < b.span.first := by
  induction root using induction with
  | step root ih =>
    rw [preorder_eq, List.pairwise_cons]
    have hroot := placed root .refl
    constructor
    · intro node hn
      obtain ⟨child, hchild, hn⟩ := List.mem_flatMap.1 hn
      have hc := hroot.encloses child hchild
      obtain rfl | henc := below_encloses (placed_child placed hchild) (mem_preorder.1 hn)
      · exact .inl hc
      · exact .inl (hc.trans henc)
    · refine List.pairwise_flatMap.2 ⟨fun child hc => ih child hc (placed_child placed hc), ?_⟩
      refine hroot.apart.imp_of_mem fun {a b} ha hb hab x hx y hy => .inr ?_
      have hx := span_of_below (placed_child placed ha) (mem_preorder.1 hx)
      have hy := span_of_below (placed_child placed hb) (mem_preorder.1 hy)
      omega

theorem nodup_preorder : root.preorder.Nodup := by
  refine (preorder_pairwise placed).imp_of_mem fun {a b} ha _ hab => ?_
  have ha := (placed a (mem_preorder.1 ha)).ordered
  rintro rfl
  obtain henc | hlt := hab
  · exact henc.irrefl
  · omega

theorem sorted_preorder : root.preorder.Pairwise (·.span.first ≤ ·.span.first) := by
  refine (preorder_pairwise placed).imp_of_mem fun {a b} ha _ hab => ?_
  have ha := (placed a (mem_preorder.1 ha)).ordered
  obtain henc | hlt := hab
  · exact henc.1
  · omega

/-- Whatever else encloses a child encloses its parent. -/
theorem parent_smallest (h : root.Below node) (hchild : child ∈ node.children)
    (ho : root.Below other) (henc : other.span.Encloses child.span) :
    other = node ∨ other.span.Encloses node.span := by
  induction h using Relation.ReflTransGen.head_induction_on with
  | refl =>
    obtain rfl | ⟨next, hnext, hn⟩ := ho.cases_head
    · exact .inl rfl
    · have hc := span_of_below placed (.single hchild)
      have hspan := span_of_below (placed_child placed hnext) hn
      have := henc.1
      have := henc.2.1
      have hwithin : next.span.first ≤ child.span.first ∧ child.span.first ≤ next.span.last := by omega
      obtain rfl := eq_of_overlap placed hnext hchild hwithin (by omega)
      obtain rfl | henc' := below_encloses (placed_child placed hnext) hn
      · exact absurd henc Span.Encloses.irrefl
      · exact absurd henc henc'.asymm
  | @head root next hnext h ih =>
    have hdown := placed_child placed hnext
    obtain rfl | ⟨next', hnext', hn⟩ := ho.cases_head
    · refine .inr ?_
      have hc := (placed root .refl).encloses next hnext
      obtain rfl | henc' := below_encloses hdown h
      · exact hc
      · exact hc.trans henc'
    · refine ih hdown ?_
      have hc := span_of_below hdown (h.tail hchild)
      have hspan := span_of_below (placed_child placed hnext') hn
      have := henc.1
      have := henc.2.1
      have hwithin : next.span.first ≤ child.span.first ∧ child.span.first ≤ next.span.last := by omega
      obtain rfl := eq_of_overlap placed hnext hnext' hwithin (by omega)
      exact hn

theorem ne_of_child (h : root.Below node) (hchild : child ∈ node.children) : child ≠ root := by
  rintro rfl
  obtain rfl | henc := below_encloses placed h
  · exact ((placed _ h).encloses _ hchild).irrefl
  · exact henc.asymm ((placed _ h).encloses _ hchild)

/-- No two nodes have a child in common. -/
theorem parent_unique (h : root.Below node) (hchild : child ∈ node.children)
    (ho : root.Below other) (hchild' : child ∈ other.children) : node = other := by
  have henc := (placed node h).encloses child hchild
  have henc' := (placed other ho).encloses child hchild'
  obtain heq | hout := parent_smallest placed h hchild ho henc'
  · exact heq.symm
  · obtain heq | hin := parent_smallest placed ho hchild' h henc
    · exact heq
    · exact absurd hin hout.asymm

/-- Of two nodes that have a token in common, one lies below the other. -/
theorem below_of_overlap {id : Nat} (hn : root.Below node) (ho : root.Below other)
    (hidn : node.span.first ≤ id ∧ id ≤ node.span.last)
    (hido : other.span.first ≤ id ∧ id ≤ other.span.last) :
    node.Below other ∨ other.Below node := by
  induction hn using Relation.ReflTransGen.head_induction_on with
  | refl => exact .inl ho
  | @head root next hnext hn ih =>
    obtain rfl | ⟨next', hnext', ho'⟩ := ho.cases_head
    · exact .inr (.head hnext hn)
    · have hspan := span_of_below (placed_child placed hnext) hn
      have hspan' := span_of_below (placed_child placed hnext') ho'
      have hid : next.span.first ≤ id ∧ id ≤ next.span.last := by omega
      obtain rfl := eq_of_overlap placed hnext hnext' hid (by omega)
      exact ih (placed_child placed hnext) ho'

/-- No two children begin with the same token. -/
theorem nodup_first : (root.children.map (·.span.first)).Nodup := by
  refine List.pairwise_map.2 ((placed root .refl).apart.imp_of_mem fun {a b} ha _ hab => ?_)
  have := (placed a (.single ha)).ordered
  omega

end Placed

/-! ## Walks -/

theorem walkOnto_eq (visits : Array Visit) (parent : Option Nat) (node : Node) :
    walkOnto visits parent node =
      node.children.foldl (fun visits' child => walkOnto visits' (some visits.size) child)
        (visits.push ⟨node, parent⟩) := by
  rw [walkOnto, List.foldl_subtype fun _ _ _ => rfl, List.unattach_attach]

/-- From the position `start` on, the parent of each node of a walk stands before it, and has it as a
child. -/
def Linked (start : Nat) (visits : List Visit) : Prop :=
  ∀ i visit, start ≤ i → visits[i]? = some visit →
    ∃ p up, visit.parent = some p ∧ p < i ∧ visits[p]? = some up ∧ visit.node ∈ up.node.children

theorem linked_length (visits : List Visit) : Linked visits.length visits := by
  intro i visit hi hv
  rw [List.getElem?_eq_none hi] at hv
  cases hv

theorem Linked.append {start : Nat} {front back : List Visit} (h : Linked start front)
    (h' : Linked front.length (front ++ back)) : Linked start (front ++ back) := by
  intro i visit hi hv
  rcases Nat.lt_or_ge i front.length with hlt | hge
  · rw [List.getElem?_append_left hlt] at hv
    obtain ⟨p, up, hp, hpi, hup, hmem⟩ := h i visit hi hv
    exact ⟨p, up, hp, hpi, by rw [List.getElem?_append_left (by omega), hup], hmem⟩
  · exact h' i visit hge hv

theorem Linked.cons {visits more : List Visit} {node : Node} {p : Nat} {up : Visit}
    (hup : visits[p]? = some up) (hmem : node ∈ up.node.children)
    (h : Linked (visits.length + 1) (visits ++ ⟨node, some p⟩ :: more)) :
    Linked visits.length (visits ++ ⟨node, some p⟩ :: more) := by
  intro i visit hi hv
  rcases Nat.lt_or_ge visits.length i with hlt | hge
  · exact h i visit hlt hv
  · obtain rfl : i = visits.length := Nat.le_antisymm hge hi
    obtain rfl : ⟨node, some p⟩ = visit := by simpa using hv
    have hp := (List.getElem?_eq_some_iff.1 hup).1
    exact ⟨p, up, rfl, hp, by rw [List.getElem?_append_left hp, hup], hmem⟩

/-- `more` is what a walk adds to `visits` for a node: the node itself and all below it, each with
its parent. -/
structure Adds (visits : List Visit) (parent : Option Nat) (node : Node) (more : List Visit) :
    Prop where
  nodes : (⟨node, parent⟩ :: more).map Visit.node = node.preorder
  linked : Linked (visits.length + 1) (visits ++ ⟨node, parent⟩ :: more)

/-- What is added for the children of one node. -/
theorem foldl_walkOnto {p : Nat} {up : Visit} {nodes : List Node}
    (ih : ∀ node ∈ nodes, ∀ visits parent, ∃ more,
      (walkOnto visits parent node).toList = visits.toList ++ ⟨node, parent⟩ :: more ∧
        Adds visits.toList parent node more)
    {visits : Array Visit} (hup : visits.toList[p]? = some up)
    (hnodes : ∀ node ∈ nodes, node ∈ up.node.children) :
    ∃ more, (nodes.foldl (fun visits' node => walkOnto visits' (some p) node) visits).toList =
        visits.toList ++ more ∧ more.map Visit.node = nodes.flatMap preorder ∧
      Linked visits.toList.length (visits.toList ++ more) := by
  induction nodes generalizing visits with
  | nil => exact ⟨[], by simp, rfl, by simpa using linked_length visits.toList⟩
  | cons node nodes ihn =>
    obtain ⟨hnode, hnodes⟩ := List.forall_mem_cons.1 hnodes
    obtain ⟨ihnode, ih⟩ := List.forall_mem_cons.1 ih
    obtain ⟨front, hfront, hadds⟩ := ihnode visits (some p)
    have hlinked := hadds.linked.cons hup hnode
    rw [← hfront] at hlinked
    have hp := (List.getElem?_eq_some_iff.1 hup).1
    have hup' : (walkOnto visits (some p) node).toList[p]? = some up := by
      rw [hfront, List.getElem?_append_left hp, hup]
    obtain ⟨back, hback, hmap, hlinked'⟩ := ihn ih hup' hnodes
    refine ⟨⟨node, some p⟩ :: (front ++ back), ?_, ?_, ?_⟩
    · rw [List.foldl_cons, hback, hfront, List.append_assoc, List.cons_append]
    · rw [← List.cons_append, List.map_append, hadds.nodes, hmap, List.flatMap_cons]
    · rw [← List.cons_append, ← List.append_assoc, ← hfront]
      exact hlinked.append hlinked'

theorem walkOnto_adds (node : Node) : ∀ visits parent, ∃ more,
    (walkOnto visits parent node).toList = visits.toList ++ ⟨node, parent⟩ :: more ∧
      Adds visits.toList parent node more := by
  induction node using induction with
  | step node ih =>
    intro visits parent
    have hup : (visits.push ⟨node, parent⟩).toList[visits.size]? = some ⟨node, parent⟩ := by simp
    obtain ⟨more, heq, hmap, hlinked⟩ := foldl_walkOnto ih hup fun _ h => h
    have hpush : (visits.push ⟨node, parent⟩).toList ++ more =
        visits.toList ++ ⟨node, parent⟩ :: more := by simp
    rw [hpush] at heq hlinked
    refine ⟨more, by rw [walkOnto_eq, heq], ?_, ?_⟩
    · rw [List.map_cons, hmap, preorder_eq]
    · simpa using hlinked

/-- The nodes of a walk in order. -/
theorem map_walk (root : Node) : root.walk.map Visit.node = root.preorder := by
  obtain ⟨more, heq, hadds⟩ := walkOnto_adds root #[] none
  rw [walk, heq, List.nil_append, hadds.nodes]

/-- The root comes first and has no parent. -/
theorem head?_walk (root : Node) : root.walk.head? = some ⟨root, none⟩ := by
  obtain ⟨more, heq, -⟩ := walkOnto_adds root #[] none
  rw [walk, heq]
  rfl

/-- The parent of every other node of a walk comes before it, and has it as a child. -/
theorem linked_walk (root : Node) : Linked 1 root.walk := by
  obtain ⟨more, heq, hadds⟩ := walkOnto_adds root #[] none
  rw [walk, heq]
  exact hadds.linked

theorem mem_walk {root node : Node} : node ∈ root.walk.map Visit.node ↔ root.Below node := by
  rw [map_walk, mem_preorder]

theorem below_of_getElem? {root : Node} {i : Nat} {visit : Visit}
    (h : root.walk[i]? = some visit) : root.Below visit.node :=
  mem_walk.1 (List.mem_map_of_mem (List.mem_of_getElem? h))

/-- The root alone has no parent. The parent of any other node comes before it, has it as a child,
and is the smallest node that encloses it. -/
theorem parent_walk {root : Node} (placed : ∀ node, root.Below node → node.Placed) {i : Nat}
    {visit : Visit} (h : root.walk[i]? = some visit) :
    (visit.parent = none ↔ visit.node = root) ∧
    ∀ p, visit.parent = some p → p < i ∧ ∃ up : Visit, root.walk[p]? = some up ∧
      visit.node ∈ up.node.children ∧ up.node.span.Encloses visit.node.span ∧
      ∀ other, root.Below other → other.span.Encloses visit.node.span →
        other = up.node ∨ other.span.Encloses up.node.span := by
  cases i with
  | zero =>
    rw [← List.head?_eq_getElem?, head?_walk] at h
    cases h
    simp
  | succ i =>
    obtain ⟨p, up, hp, hpi, hup, hmem⟩ := linked_walk root (i + 1) visit (by omega) h
    have hbelow := below_of_getElem? hup
    have henc := (placed _ hbelow).encloses _ hmem
    rw [hp]
    refine ⟨⟨fun hnone => absurd hnone (by simp), fun hroot => ?_⟩, fun q hq => ?_⟩
    · rw [hroot] at henc
      obtain heq | henc' := below_encloses placed hbelow
      · rw [← heq] at henc
        exact absurd henc Span.Encloses.irrefl
      · exact absurd henc henc'.asymm
    · cases hq
      exact ⟨hpi, up, hup, hmem, henc, fun other ho => parent_smallest placed hbelow hmem ho⟩

end Node

end ThriftSyntax
