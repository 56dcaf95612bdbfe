import ThriftSyntax.Proofs.Relabel
import ThriftSyntax.Proofs.Soundness.Text
import ThriftSyntax.Proofs.Span.Tree

/-!
# Indexes made anew

`reindex chain` makes every index of a tree anew, with the keys that the first tokens of its parts
have in a chain. The indexes of a tree that is read are those of its own chain, so `reindex` gives
back whatever `relabel` leaves out of such a tree.
-/

namespace ThriftSyntax

section

variable (chain : TokenChain)

def Struct.reindex (node : Struct) : Struct :=
  { node with fields := .ofItems chain Field.span Field.name node.fields.items }

def Function.reindex (node : Function) : Function :=
  { node with
    args := .ofItems chain Field.span Field.name node.args.items
    throws := node.throws.map fun throws => .ofItems chain Field.span Field.name throws.items }

def Service.reindex (node : Service) : Service :=
  { node with
    functions := .ofItems chain Function.span Function.name
      (node.functions.items.map (Function.reindex chain)) }

def Definition.reindex : Definition → Definition
  | struct node => struct (node.reindex chain)
  | service node => service (node.reindex chain)
  | node => node

def Document.reindex (node : Document) : Document :=
  { node with definitions := node.definitions.map (Definition.reindex chain) }

def Node.reindex : Node → Node
  | struct node => struct (node.reindex chain)
  | service node => service (node.reindex chain)
  | function node => function (node.reindex chain)
  | node => node

/-! ## After a renumbering that keeps every number -/

theorem Function.reindex_relabel_id (node : Function) :
    (node.relabel id).reindex chain = node.reindex chain := by
  have hfield : Field.relabel id = id := funext relabelField_id
  have htype : FieldType.relabel id = id := funext FieldType.relabel_id
  obtain ⟨span, oneway, result, name, args, throws, annotations, separator⟩ := node
  cases throws <;> simp [relabel, reindex, Children.relabel, hfield, htype]

theorem Service.reindex_relabel_id (node : Service) :
    (node.relabel id).reindex chain = node.reindex chain := by
  have hfunction : Function.reindex chain ∘ Function.relabel id = Function.reindex chain :=
    funext (Function.reindex_relabel_id chain)
  simp [relabel, reindex, Children.relabel, hfunction]

theorem Definition.reindex_relabel_id (node : Definition) :
    (node.relabel id).reindex chain = node.reindex chain := by
  have hfield : Field.relabel id = id := funext relabelField_id
  have helement : EnumElement.relabel id = id := funext relabelElement_id
  cases node with
  | service node => exact congrArg service (node.reindex_relabel_id chain)
  | struct node =>
    simp [relabel, reindex, Struct.relabel, Struct.reindex, Children.relabel, hfield]
  | enum node => simp [relabel, reindex, Enum.relabel, helement]
  | namespaced node => simp [relabel, reindex, Namespace.relabel]
  | included node => rfl
  | const node => simp [relabel, reindex, Const.relabel]
  | typedef node => simp [relabel, reindex, TypeDef.relabel]

theorem Document.reindex_relabel_id (node : Document) :
    (node.relabel id).reindex chain = node.reindex chain := by
  have hdefinition : Definition.reindex chain ∘ Definition.relabel id =
      Definition.reindex chain := funext (Definition.reindex_relabel_id chain)
  simp [relabel, reindex, hdefinition]

end

/-! ## The indexes of phrases -/

namespace Phrase

variable {chain : TokenChain}

theorem Field.ofItems_children {phrases : List Field}
    (h : ∀ link ∈ tokens (phrases.flatMap terminals), link ∈ chain.links) :
    Children.ofItems chain ThriftSyntax.Field.span ThriftSyntax.Field.name (phrases.map node) =
      children phrases :=
  Grammar.ofItems_eq (·.id.link) (fun phrase hp => h _ (List.mem_flatMap.2
    ⟨.token phrase.id.link, List.mem_flatMap.2 ⟨phrase, hp, List.mem_cons_self⟩,
      List.mem_cons_self⟩)) (fun _ => rfl) fun _ => rfl

theorem Struct.reindex_node (phrase : Struct)
    (h : ∀ link ∈ tokens phrase.terminals, link ∈ chain.links) :
    phrase.node.reindex chain = phrase.node := by
  have hfields : Children.ofItems chain ThriftSyntax.Field.span ThriftSyntax.Field.name
      (phrase.fields.map Field.node) = Field.children phrase.fields :=
    Field.ofItems_children fun link hl => h link (by simp [terminals, hl])
  simp only [ThriftSyntax.Struct.reindex, node, Field.children] at hfields ⊢
  rw [hfields]

theorem Throws.ofItems_children (phrase : Option Throws)
    (h : ∀ link ∈ tokens (optional Throws.terminals phrase), link ∈ chain.links) :
    ((phrase.map (Field.children ·.fields)).map fun throws =>
      Children.ofItems chain ThriftSyntax.Field.span ThriftSyntax.Field.name throws.items) =
      phrase.map (Field.children ·.fields) := by
  cases phrase with
  | none => rfl
  | some phrase =>
    refine congrArg some (Field.ofItems_children fun link hl => h link ?_)
    simp [optional, terminals, hl]

theorem FunctionTail.mem_throws {phrase : FunctionTail} {link : Link}
    (hl : link ∈ tokens (optional Throws.terminals phrase.throws)) :
    link ∈ tokens phrase.terminals := by
  cases phrase with
  | none => exact hl
  | annotated annotations throws =>
    rw [terminals, tokens_append]
    exact List.mem_append_right _ hl
  | throwing throws annotations =>
    rw [terminals, tokens_append]
    exact List.mem_append_left _ hl

theorem Function.reindex_node (phrase : Function)
    (h : ∀ link ∈ tokens phrase.terminals, link ∈ chain.links) :
    phrase.node.reindex chain = phrase.node := by
  have hargs : Children.ofItems chain ThriftSyntax.Field.span ThriftSyntax.Field.name
      (phrase.args.map Field.node) = Field.children phrase.args :=
    Field.ofItems_children fun link hl => h link (by simp [terminals, hl])
  have hthrows := Throws.ofItems_children phrase.tail.throws fun link hl =>
    h link (by simp [terminals, FunctionTail.mem_throws hl])
  simp only [ThriftSyntax.Function.reindex, node, Field.children] at hargs hthrows ⊢
  rw [hargs, hthrows]

theorem Function.mem_head (phrase : Function) : phrase.head ∈ tokens phrase.terminals := by
  obtain ⟨x, xs, hx, hhead⟩ := phrase.exists_terminals
  rw [hx, ← hhead]
  exact List.mem_cons_self

theorem Service.reindex_node (phrase : Service)
    (h : ∀ link ∈ tokens phrase.terminals, link ∈ chain.links) :
    phrase.node.reindex chain = phrase.node := by
  have hfunction : ∀ function ∈ phrase.functions,
      ∀ link ∈ tokens function.terminals, link ∈ chain.links := by
    intro function hf link hl
    refine h link ?_
    have hmem : link ∈ tokens (phrase.functions.flatMap Function.terminals) := by
      rw [tokens_flatMap]
      exact List.mem_flatMap.2 ⟨function, hf, hl⟩
    simp [terminals, hmem]
  have hitems : (phrase.functions.map Function.node).map (ThriftSyntax.Function.reindex chain) =
      phrase.functions.map Function.node := by
    rw [List.map_map]
    exact List.map_congr_left fun function hf => function.reindex_node (hfunction function hf)
  have hfunctions : Children.ofItems chain ThriftSyntax.Function.span ThriftSyntax.Function.name
      (phrase.functions.map Function.node) = Function.children phrase.functions :=
    Grammar.ofItems_eq Function.head (fun function hf => hfunction function hf _ function.mem_head)
      (fun _ => rfl) fun _ => rfl
  simp only [ThriftSyntax.Service.reindex, node, Function.children] at hfunctions ⊢
  rw [hitems, hfunctions]

theorem Definition.reindex_node (phrase : Definition) (numbering : Numbering)
    (h : ∀ link ∈ tokens phrase.terminals, link ∈ chain.links) :
    (phrase.node numbering).reindex chain = phrase.node numbering := by
  cases phrase with
  | struct phrase => exact congrArg ThriftSyntax.Definition.struct (phrase.reindex_node h)
  | service phrase => exact congrArg ThriftSyntax.Definition.service (phrase.reindex_node h)
  | _ => rfl

end Phrase

/-! ## Trees that are read -/

namespace SyntaxTree

variable {text : String} {options : Options} {tree : SyntaxTree}

/-- The indexes of a tree are those of its chain. -/
theorem reindex_document (h : ofText text options = .ok tree) :
    tree.document.reindex tree.tokens = tree.document := by
  obtain ⟨document, hnode, -, hderives⟩ := exists_derives h
  rw [← hnode, Document.reindex, Phrase.Document.node]
  congr 1
  rw [List.map_map]
  refine List.map_congr_left fun phrase hp => phrase.reindex_node _ fun link hl => ?_
  refine (hderives.mem_inner ?_).1
  rw [Derives.inner, Phrase.tokens_flatMap]
  exact List.mem_flatMap.2 ⟨phrase, hp, hl⟩

/-- A tree is known from its document without keys, and its chain. -/
theorem document_eq_reindex {document : Document} (h : ofText text options = .ok tree)
    (hdocument : tree.document.relabel id = document) :
    tree.document = document.reindex tree.tokens := by
  rw [← hdocument, Document.reindex_relabel_id, reindex_document h]

end SyntaxTree

end ThriftSyntax
