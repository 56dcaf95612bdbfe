import ThriftSyntax.Proofs.Completeness.Text
import ThriftSyntax.Proofs.Layout.Laying
import ThriftSyntax.Proofs.Soundness.Text

/-!
# Every layout of a document is read

A document as a phrase may be written with any blanks and comments between its tokens, and is read
again from any such text.
-/

namespace ThriftSyntax

/-- The text with one space after each terminal. -/
def Terminal.spaced (xs : List Terminal) : List Char :=
  xs.flatMap fun x => Link.spelled x.links ++ [' ']

theorem Layout.spaced (xs : List Terminal) (ending : Phrase.Ending) :
    Layout (xs ++ ending.terminals) (Terminal.spaced xs) := by
  have hspace : IsTrivia [' '] := .blank .space .nil
  induction xs with
  | nil => exact .ending ending
  | cons x xs ih =>
    rw [Terminal.spaced, List.flatMap_cons, List.append_assoc]
    cases xs with
    | nil => exact .next hspace (by simp) ih
    | cons y xs => exact .next hspace (by simp) ih

namespace SyntaxTree

/-- Whatever document is laid out, with whatever blanks and comments before and between its tokens:
the text is read, and its tree is that of the document, apart from where the tokens stand. -/
theorem ofText_layout {document : Phrase.Document} {options : Options} {lead text : List Char}
    (hallowed : document.Allowed options.namespaceTrailing) (hlead : IsTrivia lead)
    (hlayout : Layout document.terminals text) :
    ∃ tree, ofText (String.ofList (lead ++ text)) options = .ok tree ∧
      tree.document.forget = (document.node options.numbering).forget := by
  have htidy := Phrase.tidy_definitions document.definitions
  obtain ⟨links, rfl, hlexed, hlaid⟩ := hlayout.exists_links_ending htidy.proper htidy.chain
  obtain ⟨gap, rfl, hgap, hlexed'⟩ := hlead.exists_gap
  obtain ⟨tree, htree, -, hforget⟩ := ofText_of_lexed (fun _ => 0) (fun _ => 0) hallowed
    (Link.lexed_append.2 ⟨hlexed' _, hlexed⟩) (hlaid.of_gap hgap)
    (by rw [String.toList_ofList, Link.spelled_append]) fun _ _ => rfl
  exact ⟨tree, htree, hforget⟩

/-- The document of a text, laid out anew with a space after every token. -/
theorem layout_sampleText :
    ∃ (document : Phrase.Document) (sample tree : SyntaxTree) (text : List Char),
      ofText sampleText {} = .ok sample ∧ sample.document = document.node .explicit ∧
      document.Allowed .reject ∧ Layout document.terminals text ∧
      ofText (String.ofList text) {} = .ok tree ∧
      tree.document.forget = (document.node .explicit).forget := by
  obtain ⟨sample, h⟩ := exists_sampleTree
  obtain ⟨document, hnode, hallowed, -⟩ := exists_derives h
  have hlayout := Layout.spaced (document.definitions.flatMap Phrase.Definition.terminals)
    document.ending
  obtain ⟨tree, htree, hforget⟩ := ofText_layout hallowed .nil hlayout
  exact ⟨document, sample, tree, _, h, hnode.symm, hallowed, hlayout, htree, hforget⟩

end SyntaxTree

/-! ## What the grammar alone allows

The grammar derives more than the phrases of `Phrase.Document`. A word that can begin a clause is taken
for the beginning of one, though it be the first word of a longer name or a whole name, and then the text
is refused or read as another document. On purpose are refused a constant with a dot at an end of its
name and, where the options say so, a separator behind the annotations of a namespace. -/

/-- The terminals, and the end of the input behind them, make up a text. -/
def LaidOut (xs : List Terminal) (text : String) : Prop :=
  ∃ ending : Phrase.Ending, Layout (xs ++ ending.terminals) text.toList

namespace Phrase

def Leaf.ofMark (mark : Punct) : Mark mark where
  link := ⟨0, .punct mark, String.singleton mark.char, .start⟩
  spells := by
    rw [Link.raw, String.toList_singleton]
    exact .punct mark
  fits := rfl

def Leaf.ofKeyword (word : Keyword) : Word word where
  link := ⟨0, .keyword word, word.text, .start⟩
  spells := .keyword word
  fits := rfl

def Leaf.ofEnd : Ending where
  link := ⟨0, .endOfInput, "", .start⟩
  spells := .endOfInput
  fits := rfl

def Leaf.ofOne : Integer where
  link := ⟨0, .number, "1", .start⟩
  spells := by
    have h : Lexeme.Spells .number ([] ++ ['1']) := .integer (.inl rfl) rfl
    exact h
  fits := ⟨rfl, by decide⟩

def Leaf.ofQuoted : Literal where
  link := ⟨0, .string, "'b'", .start⟩
  spells := by
    have h : Lexeme.Spells .string ('\'' :: (['b'] ++ ['\''])) := .string (.inr rfl)
      (List.forall_mem_singleton.2 ⟨by decide, rfl⟩)
    exact h
  fits := rfl

/-- A single word as a name. -/
def Name.ofWord {reserved : Bool} (kind : Kind) (raw : String) (hk : kind.isWord reserved = true)
    (h : Lexeme.Spells kind raw.toList) : Name reserved where
  words := ⟨⟨0, kind, raw, .start⟩, []⟩
  shaped := ⟨.inr ⟨hk, .nil⟩, List.forall_mem_singleton.2 h⟩

/-- A letter as a name. -/
def Name.ofLetter {reserved : Bool} (c : Char)
    (h : Lexeme.startsWord c = true ∧ Keyword.ofText? (String.ofList [c]) = none) : Name reserved :=
  .ofWord .ident (String.ofList [c]) rfl (by
    rw [String.toList_ofList]
    exact .ident h.1 (by simp) h.2)

/-- A reserved word, a dot and a letter as a name. -/
def Name.ofPair (word : Keyword) : Name true where
  words := ⟨⟨0, .keyword word, word.text, .start⟩,
    [⟨0, .punct .dot, ".", .start⟩, ⟨0, .ident, "x", .start⟩]⟩
  shaped := ⟨.inr ⟨rfl, .word rfl rfl .nil⟩, by
    simp only [DottedName.links, List.forall_mem_cons, List.not_mem_nil, false_implies, implies_true,
      and_true]
    exact ⟨.keyword word, .punct .dot, .ident (by decide) (by simp) (by decide)⟩⟩

/-- A dot and a letter as a name. -/
def Name.ofDot : Name false where
  words := ⟨⟨0, .punct .dot, ".", .start⟩, [⟨0, .ident, "b", .start⟩]⟩
  shaped := ⟨.inl (.word rfl rfl .nil), by
    simp only [DottedName.links, List.forall_mem_cons, List.not_mem_nil, false_implies, implies_true,
      and_true]
    exact ⟨.punct .dot, .ident (by decide) (by simp) (by decide)⟩⟩

/-- The word that begins the clause for a type of C++, as a name. -/
def Name.ofCppType : Name false :=
  .ofWord .ident "cpp_type" rfl
    (.ident (by decide) (List.all_eq_true.1 (by decide)) (by decide))

/-- A reserved word, a dot and a letter as a type. -/
def FieldType.ofPair (word : Keyword) : FieldType :=
  .simple (.ofPair word) ⟨by cases word <;> decide, .inr (by simp [Name.ofPair])⟩ none

/-- A letter as a type. -/
def FieldType.ofLetter : FieldType :=
  .simple (.ofLetter 'x' (by decide)) ⟨by decide, .inr (by decide)⟩ none

def ConstValue.ofOne : ConstValue :=
  .number ⟨Leaf.ofOne.link, Leaf.ofOne.spells, rfl⟩

/-- A base type. -/
def FieldType.sample : FieldType :=
  .simple (.ofWord .ident "i32" rfl (.ident (by decide) (List.all_eq_true.1 (by decide)) (by decide)))
    ⟨by decide, .inl rfl⟩ none

/-- A list of a base type. -/
def FieldType.ofList : FieldType :=
  .list (.ofWord (.keyword .list) "list" rfl (.keyword .list)) (by decide) (.ofMark .less) .sample
    (.ofMark .greater) none none

/-- An annotation with a comma behind it. -/
def Annotations.ofTrailed : Annotations where
  opening := .ofMark .leftParen
  items := [⟨⟨.ofLetter 'a' (by decide), .ofMark .equals, .ofQuoted⟩,
    some ⟨⟨0, .punct .comma, ",", .start⟩, .punct .comma, .inl rfl⟩⟩]
  closing := .ofMark .rightParen

/-! What the documented grammar derives, whatever names and types it is made of. -/

def constTerminals (type : FieldType) (name : Name false) (value : List Terminal) : List Terminal :=
  (Leaf.ofKeyword .const).terminals ++ (type.terminals ++ (name.terminals ++
    ((Leaf.ofMark .equals).terminals ++ value)))

def structTerminals (owner : Name false) (type : FieldType) (name : Name false) : List Terminal :=
  (Leaf.ofKeyword .struct).terminals ++ (owner.terminals ++ ((Leaf.ofMark .leftBrace).terminals ++
    (Leaf.ofOne.terminals ++ ((Leaf.ofMark .colon).terminals ++ (type.terminals ++ (name.terminals ++
      (Leaf.ofMark .rightBrace).terminals))))))

def functionTerminals (result : List Terminal) (name : Name false) : List Terminal :=
  result ++ (name.terminals ++ ((Leaf.ofMark .leftParen).terminals ++
    (Leaf.ofMark .rightParen).terminals))

def serviceTerminals (owner : Name false) (functions : List (List Terminal)) : List Terminal :=
  (Leaf.ofKeyword .service).terminals ++ (owner.terminals ++ ((Leaf.ofMark .leftBrace).terminals ++
    (functions.flatten ++ (Leaf.ofMark .rightBrace).terminals)))

end Phrase

theorem laidOut_spaced {xs : List Terminal} {text : String} (h : text.toList = Terminal.spaced xs) :
    LaidOut xs text :=
  ⟨.ofEnd, h ▸ Layout.spaced xs .ofEnd⟩

namespace SyntaxTree

open Phrase (constTerminals structTerminals functionTerminals serviceTerminals)

/-- A structure with a required field, whose type is a name that begins with a dot. -/
def dottedRequired : Document where
  span := ⟨0, 0⟩
  definitions := [.struct
    { span := ⟨0, 0⟩
      form := .struct
      name := "S"
      fields := ⟨[{ span := ⟨0, 0⟩
                    id := 1
                    requiredness := some .required
                    type := .named ".x" ⟨0, 0⟩ []
                    name := "y"
                    default := none
                    annotations := []
                    separator := none }], ⟨[(default, "y")]⟩⟩
      annotations := [] }]

/-- A service with a oneway function, whose result is a name that begins with a dot. -/
def dottedOneway : Document where
  span := ⟨0, 0⟩
  definitions := [.service
    { span := ⟨0, 0⟩
      name := "S"
      base := none
      functions := ⟨[{ span := ⟨0, 0⟩
                       oneway := true
                       result := some (.named ".x" ⟨0, 0⟩ [])
                       name := "f"
                       args := .empty
                       throws := none
                       annotations := []
                       separator := none }], ⟨[(default, "f")]⟩⟩
      annotations := [] }]

/-- Texts that the grammar derives. The first five have a word of a clause where a name begins: they are
refused, or read as if the clause began there. The last two are refused on purpose. -/
theorem layout_misread :
    ((∃ (type : Phrase.FieldType) (name : Phrase.Name false) (value : Phrase.ConstValue),
        name.words.text = "cpp_type" ∧
        LaidOut (constTerminals type name value.terminals) "const list < i32 > cpp_type = 1 ") ∧
      (ofText "const list < i32 > cpp_type = 1 " {}).isOk = false) ∧
    ((∃ (type : Phrase.FieldType) (owner name : Phrase.Name false),
        type.node.name? = some "required.x" ∧
        LaidOut (structTerminals owner type name) "struct S { 1 : required.x y } ") ∧
      (ofText "struct S { 1 : required.x y } " {}).map (·.document.forget) = .ok dottedRequired) ∧
    ((∃ (type : Phrase.FieldType) (owner name : Phrase.Name false),
        type.node.name? = some "oneway.x" ∧
        LaidOut (serviceTerminals owner [functionTerminals type.terminals name])
          "service S { oneway.x f ( ) } ") ∧
      (ofText "service S { oneway.x f ( ) } " {}).map (·.document.forget) = .ok dottedOneway) ∧
    ((∃ (type : Phrase.FieldType) (owner name : Phrase.Name false),
        type.node.name? = some "void.x" ∧
        LaidOut (serviceTerminals owner [functionTerminals type.terminals name])
          "service S { void.x f ( ) } ") ∧
      (ofText "service S { void.x f ( ) } " {}).isOk = false) ∧
    ((∃ (void : Phrase.Word .void) (type : Phrase.FieldType) (owner name name' : Phrase.Name false),
        type.node.name? = some "throws.x" ∧
        LaidOut (serviceTerminals owner [functionTerminals void.terminals name,
          functionTerminals type.terminals name']) "service S { void f ( ) throws.x g ( ) } ") ∧
      (ofText "service S { void f ( ) throws.x g ( ) } " {}).isOk = false) ∧
    ((∃ (type : Phrase.FieldType) (name value : Phrase.Name false), value.words.text = ".b" ∧
        LaidOut (constTerminals type name value.terminals) "const x a = .b ") ∧
      (ofText "const x a = .b " {}).isOk = false) ∧
    ((∃ definition : Phrase.Namespace, LaidOut definition.terminals "namespace x y ( a = 'b' , ) ") ∧
      (ofText "namespace x y ( a = 'b' , ) " {}).isOk = false) := by
  refine ⟨⟨⟨.ofList, .ofCppType, .ofOne, rfl, laidOut_spaced (by decide)⟩, by decide +kernel⟩, ?_⟩
  refine ⟨⟨⟨.ofPair .required, .ofLetter 'S' (by decide), .ofLetter 'y' (by decide), by decide,
    laidOut_spaced (by decide)⟩, by decide +kernel⟩, ?_⟩
  refine ⟨⟨⟨.ofPair .oneway, .ofLetter 'S' (by decide), .ofLetter 'f' (by decide), by decide,
    laidOut_spaced (by decide)⟩, by decide +kernel⟩, ?_⟩
  refine ⟨⟨⟨.ofPair .void, .ofLetter 'S' (by decide), .ofLetter 'f' (by decide), by decide,
    laidOut_spaced (by decide)⟩, by decide +kernel⟩, ?_⟩
  refine ⟨⟨⟨.ofKeyword .void, .ofPair .throws, .ofLetter 'S' (by decide),
    .ofLetter 'f' (by decide), .ofLetter 'g' (by decide), by decide, laidOut_spaced (by decide)⟩,
    by decide +kernel⟩, ?_⟩
  refine ⟨⟨⟨.ofLetter, .ofLetter 'a' (by decide), .ofDot, by decide, laidOut_spaced (by decide)⟩,
    by decide +kernel⟩, ?_⟩
  exact ⟨⟨⟨.ofKeyword .namespace, .name (.ofLetter 'x' (by decide)), .ofLetter 'y' (by decide),
    some .ofTrailed⟩, laidOut_spaced (by decide)⟩, by decide +kernel⟩

end SyntaxTree

end ThriftSyntax
