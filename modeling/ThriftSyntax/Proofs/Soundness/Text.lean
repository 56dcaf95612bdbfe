import ThriftSyntax.Parse
import ThriftSyntax.Proofs.Soundness.Definition

/-!
# Derivations of texts

`Derivation text tokens` is a document as a phrase whose terminals, with blanks and comments between
them, are the tokens of the text. Every text that is read as a document has one.
-/

namespace ThriftSyntax

/-- The tokens of a text are those of a document. -/
structure Derives (text : List Char) (tokens : List Link) (document : Phrase.Document) : Prop where
  order : Link.InOrder 0 .start tokens []
  spelled : Link.spelled tokens = text
  laid : Laid [] document.terminals tokens
  last : tokens.getLast? = some document.ending.link
  ended : ∀ link ∈ tokens, link.kind = .endOfInput → link = document.ending.link

/-- Every document that is read is the node of a phrase that derives its text. -/
theorem SyntaxTree.exists_derives {text : String} {options : Options} {tree : SyntaxTree}
    (h : ofText text options = .ok tree) :
    ∃ document : Phrase.Document, document.node options.numbering = tree.document ∧
      document.Allowed options.namespaceTrailing ∧
      Derives text.toList tree.tokens.links document := by
  unfold ofText at h
  cases hrun : Grammar.document options (.ofText text.toList) with
  | error error after =>
    rw [hrun] at h
    cases h
  | ok node after =>
    rw [hrun] at h
    cases h
    obtain ⟨document, last, rfl, hallowed, hreads, htook⟩ :=
      Grammar.document_sound (Reader.valid_ofText _) hrun
    have hk : document.ending.link.kind.isTrivia = false := by
      rw [document.ending.fits]
      rfl
    obtain ⟨htext, horder, hlaid⟩ := hreads.laid_chain htook hk
    have hrest : after.cursor.rest = [] := by
      obtain ⟨front, hfront⟩ := List.getLast?_eq_some_iff.1 htook.last
      rw [hfront] at horder
      obtain ⟨_, -, -, hl, -⟩ := horder.of_append
      have hends := hl.ends
      rw [document.ending.fits] at hends
      exact hends
    rw [hrest] at horder htext hlaid
    exact ⟨document, rfl, hallowed, horder, by simpa using htext.symm, hlaid, htook.last, htook.ended⟩

/-- A text is read where something is known of its tree. -/
theorem SyntaxTree.exists_of_map {α : Type} {text : String} {options : Options}
    {f : SyntaxTree → α} {a : α} (h : (ofText text options).toOption.map f = some a) :
    ∃ tree, ofText text options = .ok tree ∧ f tree = a := by
  cases hrun : ofText text options with
  | error error =>
    rw [hrun] at h
    cases h
  | ok tree =>
    rw [hrun] at h
    exact ⟨tree, rfl, Option.some.inj h⟩

/-- A text with a comment, a constant, a structure and a service. -/
def sampleText : String :=
  "// units\nconst i32 most = -1;\nstruct Point \x7b 1: required i32 x = 0 (axis = \"x\"), " ++
    "2: list<geo.Unit> units \x7d\nservice Plot \x7b oneway void draw(1: Point at) \x7d\n"

theorem exists_sampleTree : ∃ tree, SyntaxTree.ofText sampleText {} = .ok tree := by
  have hok : (SyntaxTree.ofText sampleText {}).isOk = true := by decide +kernel
  cases h : SyntaxTree.ofText sampleText {} with
  | error error =>
    rw [h] at hok
    cases hok
  | ok tree => exact ⟨tree, rfl⟩

end ThriftSyntax
