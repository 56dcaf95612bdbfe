import ThriftSyntax.Proofs.Derivation.Document
import ThriftSyntax.Proofs.Span.Cover

/-!
# Tokens of phrases

Every node that a phrase stands for covers the tokens of the phrase: whichever of its clauses are
there, it begins with the first and ends with the last of them.
-/

namespace ThriftSyntax

open Link (lastId)
open Node (Covers)

namespace Phrase

/-! ## Tokens of terminals -/

/-- The tokens of terminals in order. -/
def tokens (xs : List Terminal) : List Link := xs.flatMap Terminal.links

@[simp] theorem tokens_nil : tokens [] = [] := rfl

@[simp] theorem tokens_append (xs ys : List Terminal) :
    tokens (xs ++ ys) = tokens xs ++ tokens ys := List.flatMap_append

@[simp] theorem tokens_leaf {Fits : Kind → String → Prop} (leaf : Leaf Fits) :
    tokens leaf.terminals = [leaf.link] := rfl

@[simp] theorem tokens_name {reserved : Bool} (name : Name reserved) :
    tokens name.terminals = name.words.head :: name.words.tail := by
  simp [tokens, Name.terminals, DottedName.links]

theorem tokens_flatMap {α : Type} (terminals : α → List Terminal) (items : List α) :
    tokens (items.flatMap terminals) = items.flatMap fun item => tokens (terminals item) :=
  List.flatMap_assoc

@[simp] theorem lastId_words (words : DottedName) :
    lastId words.head.id words.tail = words.last.id := Link.lastId_getLastD _ _

@[simp] theorem lastId_separator (last : Nat) (separator : Option Separator) :
    lastId last (tokens (optional Leaf.terminals separator)) = separator.elim last (·.link.id) := by
  cases separator <;> rfl

@[simp] theorem lastId_annotations (last : Nat) (annotations : Option Annotations) :
    lastId last (tokens (optional Annotations.terminals annotations)) =
      Annotations.last annotations last := by
  cases annotations <;> simp [optional, Annotations.last, Annotations.terminals]

@[simp] theorem lastId_cppType (last : Nat) (cppType : Option CppType) :
    lastId last (tokens (optional CppType.terminals cppType)) =
      cppType.elim last (·.literal.link.id) := by
  cases cppType <;> simp [optional, CppType.terminals]

/-! ## Nodes that begin with a token of their own -/

theorem isSeparator_of_suffix {separator : Option Separator} {links : List Link}
    (h : tokens (optional Leaf.terminals separator) <:+ links) {id : Nat}
    (hid : separator.map (·.link.id) = some id) :
    ∀ link ∈ links.getLast?, link.id = id ∧ Node.IsSeparator link.kind := by
  obtain ⟨leaf, rfl, rfl⟩ := Option.map_eq_some_iff.1 hid
  obtain ⟨front, rfl⟩ := h
  intro link hl
  obtain rfl : leaf.link = link := by simpa [optional] using hl
  exact ⟨rfl, leaf.fits⟩

theorem covers_separated {node : Node} {first : Link} {rest : List Link}
    (separator : Option Separator) (hspan : node.span = ⟨first.id, lastId first.id rest⟩)
    (hseparator : node.separator? = separator.map (·.link.id))
    (hsuffix : tokens (optional Leaf.terminals separator) <:+ rest)
    (parts : Cuts Covers node.children rest) : Covers node (first :: rest) := by
  refine @Covers.intro node [] node.children [] rest first ?_ rfl .nil parts fun id hid => ?_
  · rw [hspan]
    exact Link.bounds_of_head? rfl first.id
  · exact isSeparator_of_suffix (hsuffix.trans (List.suffix_cons first rest)) (hseparator ▸ hid)

theorem covers_plain {node : Node} {first : Link} {rest : List Link}
    (hspan : node.span = ⟨first.id, lastId first.id rest⟩) (hseparator : node.separator? = none)
    (parts : Cuts Covers node.children rest) : Covers node (first :: rest) :=
  covers_separated none hspan hseparator (List.nil_suffix) parts

theorem lastId_of_covers {node : Node} {links : List Link} (h : Covers node links) (last : Nat) :
    lastId last links = node.span.last := by
  obtain ⟨first, last', -, hlast, hspan⟩ := h.bounds
  obtain ⟨front, hfront⟩ := List.getLast?_eq_some_iff.1 hlast
  rw [hspan, hfront]
  simp

theorem Separated.cuts {α : Type} {node : Node} {terminals : α → List Terminal}
    (item : Separated α) (h : Covers node (tokens (terminals item.phrase))) :
    Cuts Covers [node] (tokens (item.terminals terminals)) := by
  rw [Separated.terminals, tokens_append]
  exact (Cuts.single h).skip_end _

/-! ## Annotations -/

theorem Annotation.covers (phrase : Annotation) :
    Covers ( Node.annotation phrase.node) (tokens phrase.terminals) := by
  rw [terminals, tokens_append, tokens_name]
  exact covers_plain (by simp [Node.span, node]) rfl (.of_own _)

theorem Annotations.cuts (phrase : Option Annotations) :
    Cuts Covers ((Annotations.nodes phrase).map Node.annotation)
      (tokens (optional Annotations.terminals phrase)) := by
  cases phrase with
  | none => exact .nil
  | some phrase =>
    simp only [nodes, optional, Option.elim_some, terminals, tokens_append, tokens_leaf,
      tokens_flatMap, List.map_map]
    exact .own _ (.skip_end (.of_map fun item _ => item.cuts item.phrase.covers) _)

/-! ## Types -/

theorem FieldType.span_ofName (name : DottedName) (span : Span)
    (annotations : List ThriftSyntax.Annotation) :
    (ofName name span annotations).span = span := by
  unfold ofName
  cases BaseType.ofText? name.text <;> rfl

theorem FieldType.children_ofName (name : DottedName) (span : Span)
    (annotations : List ThriftSyntax.Annotation) :
    Node.children (.fieldType (ofName name span annotations)) =
      annotations.map Node.annotation := by
  unfold ofName
  cases BaseType.ofText? name.text <;> rfl

theorem FieldType.covers (phrase : FieldType) :
    Covers (.fieldType phrase.node) (tokens phrase.terminals) := by
  induction phrase with
  | simple name names annotations =>
    simp only [terminals, tokens_append, tokens_name, List.cons_append]
    refine covers_plain ?_ rfl ?_
    · rw [Node.span, node, span_ofName]
      simp
    · rw [node, children_ofName]
      exact .skip _ (Annotations.cuts annotations)
  | map word isMap cppType less key comma value greater annotations hkey hvalue =>
    simp only [terminals, tokens_append, tokens_name, tokens_leaf, List.cons_append, List.nil_append]
    refine covers_plain (by simp [Node.span, node, ThriftSyntax.FieldType.span]) rfl ?_
    exact .skip _ (.skip _ (.own _ (.part hkey (.own _ (.part hvalue (.own _
      (Annotations.cuts annotations)))))))
  | set word isSet cppType less element greater annotations helement =>
    simp only [terminals, tokens_append, tokens_name, tokens_leaf, List.cons_append, List.nil_append]
    refine covers_plain (by simp [Node.span, node, ThriftSyntax.FieldType.span]) rfl ?_
    exact .skip _ (.skip _ (.own _ (.part helement (.own _ (Annotations.cuts annotations)))))
  | list word isList less element greater cppType annotations helement =>
    simp only [terminals, tokens_append, tokens_name, tokens_leaf, List.cons_append, List.nil_append]
    refine covers_plain (by simp [Node.span, node, ThriftSyntax.FieldType.span]) rfl ?_
    exact .skip _ (.own _ (.part helement (.own _ (.skip _ (Annotations.cuts annotations)))))

/-! ## Constant values -/

theorem ConstValue.covers (phrase : ConstValue) :
    Covers (.constValue phrase.node) (tokens phrase.terminals) := by
  induction phrase using ConstValue.induction with
  | number numeral => exact covers_plain rfl rfl .nil
  | string literal => exact covers_plain rfl rfl .nil
  | name reference proper =>
    rw [terminals, tokens_name]
    refine covers_plain ?_ rfl (.of_own _)
    simp [Node.span, node, ThriftSyntax.ConstValue.span, DottedName.span]
  | list opening items closing hitems =>
    simp only [terminals, tokens_append, tokens_leaf, List.cons_append, List.nil_append,
      itemsTerminals_eq, tokens_flatMap, node, itemNodes_eq]
    refine covers_plain (by simp [Node.span, ThriftSyntax.ConstValue.span]) rfl ?_
    rw [Node.children, ThriftSyntax.ConstValue.parts, List.map_map]
    exact .skip_end (.of_map fun item hi => item.cuts (hitems item hi)) _
  | map opening entries closing hentries =>
    simp only [terminals, tokens_append, tokens_leaf, List.cons_append, List.nil_append,
      entriesTerminals_eq, tokens_flatMap, node, entryNodes_eq]
    refine covers_plain (by simp [Node.span, ThriftSyntax.ConstValue.span]) rfl ?_
    rw [Node.children, ThriftSyntax.ConstValue.parts, List.flatMap_map, List.map_flatMap]
    refine .skip_end (.of_flatMap fun entry he => ?_) _
    obtain ⟨hkey, hvalue⟩ := hentries entry he
    rw [Entry.terminals, tokens_append, tokens_append, tokens_leaf]
    exact .part hkey (.own _ (entry.2.2.cuts hvalue))

/-! ## Fields -/

theorem Default.cuts (phrase : Option Default) :
    Cuts Covers ((phrase.map (·.value.node)).map .constValue).toList
      (tokens (optional Default.terminals phrase)) := by
  cases phrase with
  | none => exact .nil
  | some phrase =>
    simp only [optional, Option.elim_some, terminals, tokens_append, tokens_leaf]
    exact .own _ (.single phrase.value.covers)

@[simp] theorem lastId_default (last : Nat) (phrase : Option Default) :
    lastId last (tokens (optional Default.terminals phrase)) =
      phrase.elim last (·.value.node.span.last) := by
  cases phrase with
  | none => rfl
  | some phrase =>
    simp only [optional, Option.elim_some, Default.terminals, tokens_append, tokens_leaf,
      Link.lastId_append]
    exact lastId_of_covers phrase.value.covers _

theorem Field.covers (phrase : Field) :
    Covers (.field phrase.node) (tokens phrase.terminals) := by
  simp only [terminals, tokens_append, tokens_leaf, tokens_name, List.cons_append, List.nil_append]
  refine covers_separated phrase.separator (by simp [Node.span, node, last]) rfl ?_ ?_
  · simp only [← List.cons_append, ← List.append_assoc]
    exact List.suffix_append _ _
  · exact .own _ (.skip _ (.part phrase.type.covers (.own _ (.skip _
      (.append (Default.cuts phrase.default)
        (.skip_end (Annotations.cuts phrase.annotations) _))))))

/-! ## Functions -/

theorem Field.cuts (phrases : List Field) :
    Cuts Covers ((children phrases).items.map .field) (tokens (phrases.flatMap terminals)) := by
  rw [tokens_flatMap, children, List.map_map]
  exact .of_map fun phrase _ => .single phrase.covers

theorem Result.cuts (phrase : Result) :
    Cuts Covers (phrase.node.map .fieldType).toList (tokens phrase.terminals) := by
  cases phrase with
  | void word => exact .own _ .nil
  | type type returned => exact .single type.covers

theorem Throws.cuts (phrase : Option Throws) :
    Cuts Covers ((((phrase.map (Field.children ·.fields)).map (·.items)).getD []).map .field)
      (tokens (optional Throws.terminals phrase)) := by
  cases phrase with
  | none => exact .nil
  | some phrase =>
    simp only [optional, Option.elim_some, terminals, tokens_append, tokens_leaf,
      List.cons_append, List.nil_append]
    exact .own _ (.own _ ((Field.cuts phrase.fields).skip_end _))

@[simp] theorem lastId_throws (last : Nat) (phrase : Option Throws) :
    lastId last (tokens (optional Throws.terminals phrase)) =
      phrase.elim last (·.closing.link.id) := by
  cases phrase <;> simp [optional, Throws.terminals]

namespace FunctionTail

/-- The nodes of a tail in the order of the text. -/
def parts (phrase : FunctionTail) : List Node :=
  let annotations := (Annotations.nodes phrase.annotations).map Node.annotation
  let throws := (((phrase.throws.map (Field.children ·.fields)).map (·.items)).getD []).map .field
  match phrase with
  | throwing .. => throws ++ annotations
  | _ => annotations ++ throws

theorem cuts (phrase : FunctionTail) : Cuts Covers phrase.parts (tokens phrase.terminals) := by
  cases phrase with
  | none => exact .nil
  | annotated annotations throws =>
    rw [terminals, tokens_append]
    exact (Annotations.cuts (some annotations)).append (Throws.cuts throws)
  | throwing throws annotations =>
    rw [terminals, tokens_append]
    exact (Throws.cuts (some throws)).append (Annotations.cuts annotations)

@[simp] theorem lastId_terminals (last : Nat) (phrase : FunctionTail) :
    lastId last (tokens phrase.terminals) = phrase.last last := by
  cases phrase with
  | none => rfl
  | annotated annotations throws =>
    rw [terminals, tokens_append, Link.lastId_append, lastId_throws]
    exact congrArg (throws.elim · _) (lastId_annotations last (some annotations))
  | throwing throws annotations =>
    rw [terminals, tokens_append, Link.lastId_append, lastId_annotations]
    exact congrArg (Annotations.last annotations) (lastId_throws last (some throws))

end FunctionTail

namespace Function

/-- The nodes of a function in the order of the text. -/
def parts (phrase : Function) : List Node :=
  (phrase.result.node.map .fieldType).toList ++
    ((Field.children phrase.args).items.map .field ++ phrase.tail.parts)

theorem perm_parts (phrase : Function) : (Node.functionParts phrase.node).Perm phrase.parts := by
  simp only [Node.functionParts, parts, node, List.append_assoc]
  refine List.Perm.append_left _ (List.Perm.append_left _ ?_)
  cases phrase.tail with
  | none | annotated => exact List.Perm.refl _
  | throwing => exact List.perm_append_comm

theorem cuts (phrase : Function) : Cuts Covers phrase.parts (tokens phrase.terminals) := by
  simp only [terminals, tokens_append, tokens_leaf, tokens_name, List.cons_append, List.nil_append]
  exact .skip _ (.append phrase.result.cuts (.own _ (.skip _ (.own _ (.append (Field.cuts phrase.args)
    (.own _ (phrase.tail.cuts.skip_end _)))))))

theorem children_eq (phrase : Function) (hinc : Link.Increasing (tokens phrase.terminals)) :
    Node.children (.function phrase.node) = phrase.parts :=
  Node.mergeSort_eq phrase.perm_parts (phrase.cuts.pairwise_first Covers.bounds hinc)

theorem covers (phrase : Function) (hinc : Link.Increasing (tokens phrase.terminals)) :
    Covers (.function phrase.node) (tokens phrase.terminals) := by
  have hbounds : Link.Bounds (tokens phrase.terminals) phrase.node.span := by
    obtain ⟨x, xs, hx, hhead⟩ := phrase.exists_terminals
    have hfirst : (tokens phrase.terminals).head? = some phrase.head := by
      rw [hx, ← hhead]
      rfl
    simpa [terminals, node] using Link.bounds_of_head? hfirst 0
  have hsuffix : tokens (optional Leaf.terminals phrase.separator) <:+ tokens phrase.terminals := by
    simp only [terminals, tokens_append, ← List.append_assoc]
    exact List.suffix_append _ _
  simp only [terminals, tokens_append, tokens_leaf, tokens_name, List.cons_append, List.nil_append]
    at hbounds hsuffix ⊢
  rw [← List.append_assoc] at hbounds hsuffix ⊢
  refine .intro hbounds (phrase.children_eq hinc) (phrase.result.cuts.skip _) ?_
    fun id hid => isSeparator_of_suffix hsuffix hid
  exact .skip _ (.own _ (.append (Field.cuts phrase.args) (.own _ (phrase.tail.cuts.skip_end _))))

end Function

/-! ## Definitions -/

theorem Namespace.covers (phrase : Namespace) :
    Covers (.namespaced phrase.node) (tokens phrase.terminals) := by
  simp only [terminals, tokens_append, tokens_leaf, tokens_name, List.cons_append, List.nil_append]
  refine covers_plain (by simp [Node.span, node]) rfl ?_
  exact .skip _ (.own _ (.skip _ (Annotations.cuts phrase.annotations)))

theorem Include.covers (phrase : Include) :
    Covers (.included phrase.node) (tokens phrase.terminals) :=
  covers_plain rfl rfl (.own _ .nil)

theorem Const.covers (phrase : Const) :
    Covers (.const phrase.node) (tokens phrase.terminals) := by
  simp only [terminals, tokens_append, tokens_leaf, tokens_name, List.cons_append, List.nil_append]
  refine covers_separated phrase.separator ?_ rfl ?_ ?_
  · simp [Node.span, node, lastId_of_covers phrase.value.covers]
  · simp only [← List.cons_append, ← List.append_assoc]
    exact List.suffix_append _ _
  · exact .part phrase.type.covers (.own _ (.skip _ (.own _ (.part phrase.value.covers
      (.of_own _)))))

theorem TypeDef.covers (phrase : TypeDef) :
    Covers (.typedef phrase.node) (tokens phrase.terminals) := by
  simp only [terminals, tokens_append, tokens_leaf, tokens_name, List.cons_append, List.nil_append]
  refine covers_separated phrase.separator (by simp [Node.span, node]) rfl ?_ ?_
  · simp only [← List.cons_append, ← List.append_assoc]
    exact List.suffix_append _ _
  · exact .part phrase.type.covers (.own _ (.skip _
      (.skip_end (Annotations.cuts phrase.annotations) _)))

@[simp] theorem lastId_assigned (last : Nat) (phrase : Option Assigned) :
    lastId last (tokens (optional Assigned.terminals phrase)) =
      phrase.elim last (·.number.link.id) := by
  cases phrase <;> simp [optional, Assigned.terminals]

/-- Whatever number it is given, an element covers its tokens. -/
theorem EnumElement.covers (phrase : EnumElement) (id : Int) :
    Covers (.enumElement { phrase.node with id }) (tokens phrase.terminals) := by
  simp only [terminals, tokens_append, tokens_name, List.cons_append]
  refine covers_separated phrase.separator (by simp [Node.span, node, last]) rfl ?_ ?_
  · simp only [← List.append_assoc]
    exact List.suffix_append _ _
  · exact .skip _ (.skip _ (.skip_end (Annotations.cuts phrase.annotations) _))

theorem EnumElement.cuts_count (phrases : List EnumElement) (id : Int) :
    Cuts Covers ((Numbering.count id (phrases.map node)).map .enumElement)
      (phrases.flatMap fun phrase => tokens phrase.terminals) := by
  induction phrases generalizing id with
  | nil => exact .nil
  | cons phrase phrases ih => exact .part (phrase.covers _) (ih _)

theorem EnumElement.cuts (phrases : List EnumElement) (numbering : Numbering) :
    Cuts Covers ((numbering.assign (phrases.map node)).map .enumElement)
      (tokens (phrases.flatMap terminals)) := by
  rw [tokens_flatMap]
  cases numbering with
  | explicit =>
    rw [Numbering.assign, List.map_map, List.map_map]
    exact .of_map fun phrase _ => .single (phrase.covers _)
  | sequential => exact cuts_count phrases 0

theorem Enum.covers (phrase : Enum) (numbering : Numbering) :
    Covers (.enum (phrase.node numbering)) (tokens phrase.terminals) := by
  simp only [terminals, tokens_append, tokens_leaf, tokens_name, List.cons_append, List.nil_append]
  refine covers_plain (by simp [Node.span, node]) rfl ?_
  exact .own _ (.skip _ (.own _ (.append (EnumElement.cuts phrase.elements numbering)
    (.own _ (Annotations.cuts phrase.annotations)))))

theorem Struct.covers (phrase : Struct) :
    Covers (.struct phrase.node) (tokens phrase.terminals) := by
  simp only [terminals, tokens_append, tokens_leaf, tokens_name, List.cons_append, List.nil_append]
  refine covers_plain (by simp [Node.span, node]) rfl ?_
  exact .own _ (.skip _ (.own _ (.append (Field.cuts phrase.fields)
    (.own _ (Annotations.cuts phrase.annotations)))))

theorem Function.cuts_children (phrases : List Function)
    (hinc : Link.Increasing (tokens (phrases.flatMap terminals))) :
    Cuts Covers ((children phrases).items.map .function) (tokens (phrases.flatMap terminals)) := by
  rw [tokens_flatMap] at hinc ⊢
  rw [children, List.map_map]
  exact .of_map fun phrase hp => .single (phrase.covers ((List.pairwise_flatMap.1 hinc).1 phrase hp))

theorem Service.covers (phrase : Service) (hinc : Link.Increasing (tokens phrase.terminals)) :
    Covers (.service phrase.node) (tokens phrase.terminals) := by
  have hfunctions : Link.Increasing (tokens (phrase.functions.flatMap Function.terminals)) := by
    simp only [Link.Increasing, terminals, tokens_append, List.pairwise_append] at hinc
    exact hinc.2.1.2.1.2.1.2.1.1
  simp only [terminals, tokens_append, tokens_leaf, tokens_name, List.cons_append, List.nil_append]
  refine covers_plain (by simp [Node.span, node]) rfl ?_
  exact .own _ (.skip _ (.skip _ (.own _ (.append (Function.cuts_children phrase.functions hfunctions)
    (.own _ (Annotations.cuts phrase.annotations))))))

theorem Definition.covers (phrase : Definition) (numbering : Numbering)
    (hinc : Link.Increasing (tokens phrase.terminals)) :
    Covers (.ofDefinition (phrase.node numbering)) (tokens phrase.terminals) := by
  cases phrase with
  | namespaced phrase => exact phrase.covers
  | included phrase => exact phrase.covers
  | const phrase => exact phrase.covers
  | typedef phrase => exact phrase.covers
  | enum phrase => exact phrase.covers numbering
  | struct phrase => exact phrase.covers
  | service phrase => exact phrase.covers hinc

/-- The definitions of a document cover its tokens but the end of the input. -/
theorem Document.cuts (phrase : Document) (numbering : Numbering)
    (hinc : Link.Increasing (tokens (phrase.definitions.flatMap Definition.terminals))) :
    Cuts Covers (Node.children (.document (phrase.node numbering)))
      (tokens (phrase.definitions.flatMap Definition.terminals)) := by
  rw [tokens_flatMap] at hinc ⊢
  rw [Node.children, node, List.map_map]
  exact .of_map fun definition hd =>
    .single (definition.covers numbering ((List.pairwise_flatMap.1 hinc).1 definition hd))

end Phrase

end ThriftSyntax
