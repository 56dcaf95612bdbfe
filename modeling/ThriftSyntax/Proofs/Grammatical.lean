import ThriftSyntax.Proofs.Soundness.Text

/-!
# The tokens of a tree

The significant tokens of a text that was read are a derivation of its tree: a document as a phrase,
each of whose tokens has one place in the grammar, and whose node is the tree.
-/

namespace ThriftSyntax

namespace Phrase

/-! ## Declared names

The names of what a document declares, its types and namespaces apart, whose words may be
reserved. -/

def Annotations.names (phrase : Option Annotations) : List (Name false) :=
  phrase.elim [] (·.items.map (·.phrase.name))

def FieldType.names : FieldType → List (Name false)
  | simple _ _ annotations => Annotations.names annotations
  | map _ _ _ _ key _ value _ annotations =>
    key.names ++ value.names ++ Annotations.names annotations
  | set _ _ _ _ element _ annotations | list _ _ _ element _ _ annotations =>
    element.names ++ Annotations.names annotations

def Field.names (phrase : Field) : List (Name false) :=
  phrase.name :: (phrase.type.names ++ Annotations.names phrase.annotations)

def Result.names : Result → List (Name false)
  | void _ => []
  | type result _ => result.names

def Function.names (phrase : Function) : List (Name false) :=
  phrase.name :: (phrase.result.names ++ phrase.args.flatMap Field.names ++
    phrase.tail.throws.elim [] (·.fields.flatMap Field.names) ++
    Annotations.names phrase.tail.annotations)

def EnumElement.names (phrase : EnumElement) : List (Name false) :=
  phrase.name :: Annotations.names phrase.annotations

def Definition.names : Definition → List (Name false)
  | namespaced definition => Annotations.names definition.annotations
  | included _ => []
  | const definition => definition.name :: definition.type.names
  | typedef definition => definition.type.names ++ Annotations.names definition.annotations
  | enum definition => definition.name :: (definition.elements.flatMap EnumElement.names ++
      Annotations.names definition.annotations)
  | struct definition => definition.name :: (definition.fields.flatMap Field.names ++
      Annotations.names definition.annotations)
  | service definition => definition.name :: (definition.functions.flatMap Function.names ++
      Annotations.names definition.annotations)

def Document.names (phrase : Document) : List (Name false) :=
  phrase.definitions.flatMap Definition.names

end Phrase

theorem DottedName.Tail.not_keyword {tail : List Link} (h : Tail false tail) :
    ∀ link ∈ tail, link.kind.isKeyword = false := by
  induction h with
  | nil => simp
  | dot hd =>
    rintro link (_ | ⟨_, ⟨⟩⟩)
    rw [hd]
    rfl
  | word hd hw h ih =>
    rintro link (_ | ⟨_, _ | ⟨_, hl⟩⟩)
    · rw [hd]
      rfl
    · exact Kind.not_keyword_of_isWord hw
    · exact ih link hl

theorem DottedName.Shaped.not_keyword {name : DottedName} (h : name.Shaped false) :
    ∀ link ∈ name.links, link.kind.isKeyword = false := by
  rcases h.shape with h | ⟨hw, h⟩
  · exact h.not_keyword
  · rintro link (_ | ⟨_, hl⟩)
    · exact Kind.not_keyword_of_isWord hw
    · exact h.not_keyword link hl

/-- For every text that is read there is a document as a phrase of which the tree is the node and of
which the tokens that are neither blanks nor comments are the terminals, each in its place. A type
definition never names a named type, and no declared name has a reserved word in it. -/
theorem SyntaxTree.ofText_grammatical {text : String} {options : Options} {tree : SyntaxTree}
    (h : ofText text options = .ok tree) :
    ∃ document : Phrase.Document, document.node options.numbering = tree.document ∧
      document.Allowed options.namespaceTrailing ∧
      tree.tokens.links.filter (fun link => !link.kind.isTrivia) =
        document.terminals.flatMap Terminal.links ∧
      (∀ definition, .typedef definition ∈ tree.document.definitions →
        definition.type.isNamed = false) ∧
      ∀ name ∈ document.names, ∀ link ∈ name.words.links, link.kind.isKeyword = false := by
  obtain ⟨document, hnode, hallowed, hderives⟩ := exists_derives h
  refine ⟨document, hnode, hallowed, hderives.laid.significant, fun definition hmem => ?_,
    fun name _ => name.shaped.not_keyword⟩
  rw [← hnode] at hmem
  obtain ⟨phrase, -, heq⟩ := List.mem_map.1 hmem
  cases phrase with
  | typedef phrase =>
    cases heq
    exact phrase.unnamed
  | _ => cases heq

theorem SyntaxTree.grammatical_sampleText :
    ∃ tree, ofText sampleText {} = .ok tree ∧
      ∃ document : Phrase.Document, document.node .explicit = tree.document ∧
        tree.tokens.links.filter (fun link => !link.kind.isTrivia) =
          document.terminals.flatMap Terminal.links := by
  obtain ⟨tree, h⟩ := exists_sampleTree
  obtain ⟨document, hnode, -, htokens, -⟩ := ofText_grammatical h
  exact ⟨tree, h, document, hnode, htokens⟩

end ThriftSyntax
