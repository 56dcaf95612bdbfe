import ThriftSyntax.Proofs.Span.Tree

/-!
# Phrases of nodes

`StandsFor numbering node xs`: some phrase with the terminals `xs` stands for the node. The terminals
of a child are a run of those of its parent, so every node of a tree that is read has a phrase, and
the terminals of that phrase are a run of those of the document. The tokens in the span of the node that
are neither blanks nor comments are those of its phrase.
-/

namespace ThriftSyntax

/-- A phrase with these terminals stands for the node. Its numbering is that of the elements of
enumerations, each of which has a number that depends on those before it. -/
inductive Phrase.StandsFor (numbering : Numbering) : Node → List Terminal → Prop
  | annotation (phrase : Annotation) :
      StandsFor numbering ( Node.annotation phrase.node) phrase.terminals
  | fieldType (phrase : FieldType) : StandsFor numbering (.fieldType phrase.node) phrase.terminals
  | constValue (phrase : ConstValue) :
      StandsFor numbering (.constValue phrase.node) phrase.terminals
  | field (phrase : Field) : StandsFor numbering (.field phrase.node) phrase.terminals
  | function (phrase : Function) : StandsFor numbering (.function phrase.node) phrase.terminals
  | enumElement (phrase : EnumElement) (id : Int) :
      StandsFor numbering (.enumElement { phrase.node with id }) phrase.terminals
  | definition (phrase : Definition) :
      StandsFor numbering (.ofDefinition (phrase.node numbering)) phrase.terminals

namespace Phrase

variable {numbering : Numbering}

theorem tokens_infix {xs ys : List Terminal} (h : xs <:+: ys) : tokens xs <:+: tokens ys := by
  obtain ⟨front, back, rfl⟩ := h
  exact ⟨tokens front, tokens back, by simp⟩

/-! ## The children of each sort of node -/

theorem Separated.parts {α : Type} {node : Node} {terminals : α → List Terminal}
    (item : Separated α) (h : StandsFor numbering node (terminals item.phrase)) :
    Cuts (StandsFor numbering) [node] (item.terminals terminals) :=
  (Cuts.single h).skip_end _

theorem Annotations.parts (phrase : Option Annotations) :
    Cuts (StandsFor numbering) ((Annotations.nodes phrase).map Node.annotation)
      (optional Annotations.terminals phrase) := by
  cases phrase with
  | none => exact .nil
  | some phrase =>
    simp only [nodes, optional, Option.elim_some, terminals, List.map_map]
    exact .skip _ (.skip_end (.of_map fun item _ => item.parts <| StandsFor.annotation item.phrase) _)

theorem FieldType.parts (phrase : FieldType) :
    Cuts (StandsFor numbering) (Node.children (.fieldType phrase.node)) phrase.terminals := by
  cases phrase with
  | simple name names annotations =>
    rw [node, children_ofName]
    exact .skip _ (Annotations.parts annotations)
  | map word isMap cppType less key comma value greater annotations =>
    exact .skip _ (.skip _ (.skip _ (.part (.fieldType key) (.skip _ (.part (.fieldType value)
      (.skip _ (Annotations.parts annotations)))))))
  | set word isSet cppType less element greater annotations =>
    exact .skip _ (.skip _ (.skip _ (.part (.fieldType element)
      (.skip _ (Annotations.parts annotations)))))
  | list word isList less element greater cppType annotations =>
    exact .skip _ (.skip _ (.part (.fieldType element)
      (.skip _ (.skip _ (Annotations.parts annotations)))))

theorem ConstValue.parts (phrase : ConstValue) :
    Cuts (StandsFor numbering) (Node.children (.constValue phrase.node)) phrase.terminals := by
  cases phrase with
  | number | string | name => exact .of_own _
  | list opening items closing =>
    simp only [Node.children, terminals, node, itemsTerminals_eq, itemNodes_eq,
      ThriftSyntax.ConstValue.parts, List.map_map]
    exact .skip _ (.skip_end (.of_map fun item _ => item.parts (.constValue item.phrase)) _)
  | map opening entries closing =>
    simp only [Node.children, terminals, node, entriesTerminals_eq, entryNodes_eq,
      ThriftSyntax.ConstValue.parts, List.flatMap_map, List.map_flatMap]
    exact .skip _ (.skip_end (.of_flatMap fun entry _ => .part (.constValue entry.1)
      (.skip _ (entry.2.2.parts (.constValue entry.2.2.phrase)))) _)

theorem Default.parts (phrase : Option Default) :
    Cuts (StandsFor numbering) ((phrase.map (·.value.node)).map .constValue).toList
      (optional Default.terminals phrase) := by
  cases phrase with
  | none => exact .nil
  | some phrase => exact .skip _ (.single (.constValue phrase.value))

theorem Field.parts (phrase : Field) :
    Cuts (StandsFor numbering) (Node.children (.field phrase.node)) phrase.terminals :=
  .skip _ (.skip _ (.skip _ (.part (.fieldType phrase.type) (.skip _
    (.append (Default.parts phrase.default) (.skip_end (Annotations.parts phrase.annotations) _))))))

theorem Field.parts_children (phrases : List Field) :
    Cuts (StandsFor numbering) ((children phrases).items.map .field)
      (phrases.flatMap terminals) := by
  rw [children, List.map_map]
  exact .of_map fun phrase _ => .single (.field phrase)

theorem Throws.parts (phrase : Option Throws) :
    Cuts (StandsFor numbering)
      ((((phrase.map (Field.children ·.fields)).map (·.items)).getD []).map .field)
      (optional Throws.terminals phrase) := by
  cases phrase with
  | none => exact .nil
  | some phrase => exact .skip _ (.skip _ ((Field.parts_children phrase.fields).skip_end _))

theorem Result.parts (phrase : Result) :
    Cuts (StandsFor numbering) (phrase.node.map .fieldType).toList phrase.terminals := by
  cases phrase with
  | void word => exact .of_own _
  | type type returned => exact .single (.fieldType type)

theorem FunctionTail.cuts_parts (phrase : FunctionTail) :
    Cuts (StandsFor numbering) phrase.parts phrase.terminals := by
  cases phrase with
  | none => exact .nil
  | annotated annotations throws =>
    exact (Annotations.parts (some annotations)).append (Throws.parts throws)
  | throwing throws annotations =>
    exact (Throws.parts (some throws)).append (Annotations.parts annotations)

theorem Function.cuts_parts (phrase : Function) :
    Cuts (StandsFor numbering) phrase.parts phrase.terminals :=
  .skip _ (.append phrase.result.parts (.skip _ (.skip _ (.append (Field.parts_children phrase.args)
    (.skip _ (phrase.tail.cuts_parts.skip_end _))))))

theorem EnumElement.parts (phrase : EnumElement) (id : Int) :
    Cuts (StandsFor numbering) (Node.children (.enumElement { phrase.node with id }))
      phrase.terminals :=
  .skip _ (.skip _ (.skip_end (Annotations.parts phrase.annotations) _))

theorem EnumElement.parts_count (phrases : List EnumElement) (id : Int) :
    Cuts (StandsFor numbering) ((Numbering.count id (phrases.map node)).map .enumElement)
      (phrases.flatMap terminals) := by
  induction phrases generalizing id with
  | nil => exact .nil
  | cons phrase phrases ih => exact .part (.enumElement phrase _) (ih _)

theorem EnumElement.parts_assign (phrases : List EnumElement) :
    Cuts (StandsFor numbering) ((numbering.assign (phrases.map node)).map .enumElement)
      (phrases.flatMap terminals) := by
  cases numbering with
  | explicit =>
    rw [Numbering.assign, List.map_map, List.map_map]
    exact .of_map fun phrase _ => .single (.enumElement phrase _)
  | sequential => exact parts_count phrases 0

theorem Function.parts_children (phrases : List Function) :
    Cuts (StandsFor numbering) ((children phrases).items.map .function)
      (phrases.flatMap terminals) := by
  rw [children, List.map_map]
  exact .of_map fun phrase _ => .single (.function phrase)

theorem Definition.parts (phrase : Definition) :
    Cuts (StandsFor numbering) (Node.children (.ofDefinition (phrase.node numbering)))
      phrase.terminals := by
  cases phrase with
  | namespaced phrase =>
    exact .skip _ (.skip _ (.skip _ (Annotations.parts phrase.annotations)))
  | included phrase => exact .of_own _
  | const phrase =>
    exact .skip _ (.part (.fieldType phrase.type) (.skip _ (.skip _
      (.part (.constValue phrase.value) (.of_own _)))))
  | typedef phrase =>
    exact .skip _ (.part (.fieldType phrase.type) (.skip _
      (.skip_end (Annotations.parts phrase.annotations) _)))
  | enum phrase =>
    exact .skip _ (.skip _ (.skip _ (.append (EnumElement.parts_assign phrase.elements)
      (.skip _ (Annotations.parts phrase.annotations)))))
  | struct phrase =>
    exact .skip _ (.skip _ (.skip _ (.append (Field.parts_children phrase.fields)
      (.skip _ (Annotations.parts phrase.annotations)))))
  | service phrase =>
    exact .skip _ (.skip _ (.skip _ (.skip _ (.append (Function.parts_children phrase.functions)
      (.skip _ (Annotations.parts phrase.annotations))))))

/-! ## What lies below -/

variable {node child : Node} {xs : List Terminal}

/-- The terminals of a child are a run of those of its parent. -/
theorem StandsFor.exists_child (h : StandsFor numbering node xs) (hchild : child ∈ node.children) :
    ∃ part, part <:+: xs ∧ StandsFor numbering child part := by
  obtain ⟨nodes, hcuts, hmem⟩ : ∃ nodes, Cuts (StandsFor numbering) nodes xs ∧ child ∈ nodes := by
    cases h with
    | annotation => cases hchild
    | fieldType phrase => exact ⟨_, phrase.parts, hchild⟩
    | constValue phrase => exact ⟨_, phrase.parts, hchild⟩
    | field phrase => exact ⟨_, phrase.parts, hchild⟩
    | enumElement phrase id => exact ⟨_, phrase.parts id, hchild⟩
    | definition phrase => exact ⟨_, phrase.parts, hchild⟩
    -- The children of a function are in the order of their spans, which is not known here.
    | function phrase =>
      exact ⟨_, phrase.cuts_parts, phrase.perm_parts.mem_iff.1 (List.mem_mergeSort.1 hchild)⟩
  obtain ⟨front, part, back, rfl, hpart⟩ := hcuts.exists_part hmem
  exact ⟨part, ⟨front, back, List.append_assoc ..⟩, hpart⟩

theorem StandsFor.exists_below (h : StandsFor numbering node xs) (hb : node.Below child) :
    ∃ part, part <:+: xs ∧ StandsFor numbering child part := by
  induction hb with
  | refl => exact ⟨xs, List.infix_rfl, h⟩
  | tail _ hchild ih =>
    obtain ⟨part, hpart, hstands⟩ := ih
    obtain ⟨inner, hinner, hchild⟩ := hstands.exists_child hchild
    exact ⟨inner, hinner.trans hpart, hchild⟩

/-- A node covers the tokens of its phrase. -/
theorem StandsFor.covers (h : StandsFor numbering node xs) (hinc : Link.Increasing (tokens xs)) :
    node.Covers (tokens xs) := by
  cases h with
  | annotation phrase => exact phrase.covers
  | fieldType phrase => exact phrase.covers
  | constValue phrase => exact phrase.covers
  | field phrase => exact phrase.covers
  | function phrase => exact phrase.covers hinc
  | enumElement phrase id => exact phrase.covers id
  | definition phrase => exact phrase.covers numbering hinc

theorem Document.infix_terminals (document : Document) {phrase : Definition}
    (h : phrase ∈ document.definitions) :
    phrase.terminals <:+: document.definitions.flatMap Definition.terminals := by
  rw [List.flatMap_def]
  exact List.infix_of_mem_flatten (List.mem_map_of_mem h)

/-- Every node below the document has a phrase of its own. -/
theorem Document.exists_standsFor (document : Document)
    (hb : Node.Below (.document (document.node numbering)) node)
    (hne : node ≠ .document (document.node numbering)) :
    ∃ part, part <:+: document.definitions.flatMap Definition.terminals ∧
      StandsFor numbering node part := by
  obtain rfl | ⟨child, hchild, hb⟩ := hb.cases_head
  · exact absurd rfl hne
  · rw [Node.children, Document.node, List.map_map] at hchild
    obtain ⟨phrase, hphrase, rfl⟩ := List.mem_map.1 hchild
    obtain ⟨part, hpart, hstands⟩ := (StandsFor.definition phrase).exists_below hb
    exact ⟨part, hpart.trans (document.infix_terminals hphrase), hstands⟩

end Phrase

/-- In a text that is read, every node below the document covers the tokens of its phrase. -/
theorem Derives.exists_standsFor {text : List Char} {links : List Link}
    {document : Phrase.Document} {numbering : Numbering} {node : Node}
    (h : Derives text links document)
    (hb : Node.Below (.document (document.node numbering)) node)
    (hne : node ≠ .document (document.node numbering)) :
    ∃ part, part <:+: document.definitions.flatMap Phrase.Definition.terminals ∧
      Phrase.StandsFor numbering node part ∧ node.Covers (Phrase.tokens part) := by
  obtain ⟨part, hpart, hstands⟩ := document.exists_standsFor hb hne
  have hinc := (List.pairwise_append.1 h.increasing).1
  exact ⟨part, hpart, hstands, hstands.covers (hinc.sublist (Phrase.tokens_infix hpart).sublist)⟩

/-! ## Tokens of a span -/

namespace Link

/-- The token lies in the span. -/
def liesIn (span : Span) (link : Link) : Bool :=
  span.first ≤ link.id && link.id ≤ span.last

variable {front part back : List Link} {span : Span}

theorem filter_liesIn_eq_nil {links : List Link}
    (h : ∀ link ∈ links, link.id < span.first ∨ span.last < link.id) :
    links.filter (liesIn span) = [] := by
  rw [List.filter_eq_nil_iff]
  intro link hl
  simp only [liesIn, Bool.and_eq_true, decide_eq_true_eq]
  have := h link hl
  omega

/-- Of tokens in order, those that lie in the bounds of a run are the run. -/
theorem Bounds.filter_liesIn (h : Bounds part span) (hinc : Increasing (front ++ (part ++ back))) :
    (front ++ (part ++ back)).filter (liesIn span) = part := by
  obtain ⟨-, hrest, hacross⟩ := List.pairwise_append.1 hinc
  obtain ⟨hpart, -, hacross'⟩ := List.pairwise_append.1 hrest
  obtain ⟨first, hfirst, last, hlast, hf, hl⟩ := h.exists_mem
  have hfront : front.filter (liesIn span) = [] := filter_liesIn_eq_nil fun link hlink =>
    .inl (hf ▸ hacross link hlink first (List.mem_append_left _ hfirst))
  have hback : back.filter (liesIn span) = [] := filter_liesIn_eq_nil fun link hlink =>
    .inr (hl ▸ hacross' last hlast link hlink)
  have hself : part.filter (liesIn span) = part := by
    rw [List.filter_eq_self]
    intro link hlink
    simpa [liesIn] using h.mem hpart hlink
  rw [List.filter_append, List.filter_append, hfront, hself, hback, List.nil_append,
    List.append_nil]

end Link

/-- The tokens of a span that are neither blanks nor comments. -/
def TokenChain.significant (tokens : TokenChain) (span : Span) : List Link :=
  (tokens.links.filter fun link => !link.kind.isTrivia).filter (Link.liesIn span)

/-- The significant tokens of a node are those of its phrase. -/
theorem Derives.significant_eq {text : List Char} {tokens : TokenChain}
    {document : Phrase.Document} {node : Node} {part : List Terminal}
    (h : Derives text tokens.links document)
    (hpart : part <:+: document.definitions.flatMap Phrase.Definition.terminals)
    (hcovers : node.Covers (Phrase.tokens part)) :
    tokens.significant node.span = Phrase.tokens part := by
  obtain ⟨front, back, hinner⟩ := Phrase.tokens_infix hpart
  have hall : inner document ++ [document.ending.link] =
      front ++ (Phrase.tokens part ++ (back ++ [document.ending.link])) := by
    rw [inner, ← hinner]
    simp
  have hinc := h.increasing
  rw [hall] at hinc
  rw [TokenChain.significant, h.significant, hall]
  exact Link.Bounds.filter_liesIn hcovers.bounds hinc

end ThriftSyntax
