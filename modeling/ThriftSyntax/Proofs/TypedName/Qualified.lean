import ThriftSyntax.Proofs.TypedName.Unread

/-!
# Qualified names as types

A type may be named by words that are joined by dots, each of them reserved or not. By itself such a name
is read as what it says. In a field and in a function the first word is looked at before the type is read:
where it is `required` or `optional`, or else `oneway` or `void`, it is taken off the name.
-/

namespace ThriftSyntax

open Lexeme Phrase

/-- An identifier or a reserved word. -/
def Lexeme.IsSegment (text : String) : Prop := Spells .ident text.toList ∨ ∃ word : Keyword, text = word.text

namespace Kind

@[simp] theorem ofWord_text (word : Keyword) : ofWord word.text = .keyword word := by
  rw [ofWord, Keyword.ofText?_eq_some_iff.2 rfl]

theorem ofWord_eq_keyword_iff {text : String} {word : Keyword} :
    ofWord text = .keyword word ↔ text = word.text := by
  refine ⟨fun h => ?_, fun h => h ▸ ofWord_text word⟩
  unfold ofWord at h
  split at h
  · next hword =>
    cases h
    exact (Keyword.ofText?_eq_some_iff.1 hword).symm
  · cases h

@[simp] theorem isWord_ofWord (text : String) : (ofWord text).isWord true = true := by
  unfold ofWord
  split <;> rfl

end Kind

theorem Lexeme.IsSegment.spells {text : String} (h : IsSegment text) : Spells (.ofWord text) text.toList := by
  rcases h with h | ⟨word, rfl⟩
  · generalize hraw : text.toList = raw at h
    cases h with
    | ident hc ht hn =>
      rw [← hraw, String.ofList_toList] at hn
      rw [Kind.ofWord, hn]
      exact .ident hc ht (by rw [← hraw, String.ofList_toList, hn])
  · rw [Kind.ofWord_text]
    exact .keyword word

/-- The type is a name alone. -/
def FieldType.Names (type : FieldType) (name : String) : Prop := ∃ span, type = .named name span []

theorem FieldType.Names.relabel {type : FieldType} {name : String} (h : type.Names name) (place : Nat → Nat) :
    (type.relabel place).Names name := by
  obtain ⟨span, rfl⟩ := h
  exact ⟨_, rfl⟩

/-- Words joined by dots. -/
def qualified (first : String) (words : List String) : String := ".".intercalate (first :: words)

theorem qualified_cons (first second : String) (words : List String) :
    qualified first (second :: words) = first ++ ("." ++ qualified second words) := by
  rw [qualified, String.intercalate_cons_cons, String.append_assoc]
  rfl

namespace Link

/-- The tokens of more words, each behind a dot. -/
def dotted : Nat → List String → List Link
  | _, [] => []
  | id, word :: words =>
    ⟨id, .punct .dot, ".", .start⟩ :: ⟨id + 1, .ofWord word, word, .start⟩ :: dotted (id + 2) words

variable {words : List String}

theorem tail_dotted (id : Nat) (words : List String) : DottedName.Tail true (dotted id words) := by
  induction words generalizing id with
  | nil => exact .nil
  | cons word words ih => exact .word rfl (Kind.isWord_ofWord word) (ih (id + 2))

theorem numbered_dotted (id : Nat) (words : List String) : Numbered id (dotted id words) := by
  induction words generalizing id with
  | nil => trivial
  | cons word words ih => exact ⟨rfl, rfl, ih (id + 2)⟩

theorem spells_dotted (h : ∀ word ∈ words, IsSegment word) (id : Nat) :
    ∀ link ∈ dotted id words, Spells link.kind link.raw.toList := by
  induction words generalizing id with
  | nil => simp [dotted]
  | cons word words ih =>
    obtain ⟨hword, hwords⟩ := List.forall_mem_cons.1 h
    have hdot : Spells (.punct .dot) ".".toList := .punct .dot
    exact List.forall_mem_cons.2 ⟨hdot, List.forall_mem_cons.2 ⟨hword.spells, ih hwords (id + 2)⟩⟩

/-- A name of words ends with one. -/
theorem last_dotted {head : Link} (h : head.kind ≠ .punct .dot) (id : Nat) (words : List String) :
    (DottedName.mk head (dotted id words)).last.kind ≠ .punct .dot := by
  induction words generalizing head id with
  | nil => exact h
  | cons word words ih =>
    rw [dotted, DottedName.last_cons, DottedName.last_cons]
    exact ih (Kind.ne_dot_of_isWord (Kind.isWord_ofWord word)) (id + 2)

theorem spelled_dotted (first : String) (id : Nat) (words : List String) :
    first.toList ++ spelled (dotted id words) = (qualified first words).toList := by
  induction words generalizing first id with
  | nil => simp [dotted, qualified]
  | cons second words ih =>
    rw [qualified_cons, String.toList_append, String.toList_append, ← ih second (id + 2)]
    simp [dotted, Link.raw]

end Link

namespace Phrase

variable {first second : String} {words : List String}

/-- The words as a name. -/
def Name.ofWords (first : String) (words : List String) (h : ∀ word ∈ first :: words, IsSegment word) :
    Name true where
  words := ⟨⟨0, .ofWord first, first, .start⟩, Link.dotted 1 words⟩
  shaped :=
    { shape := .inr ⟨Kind.isWord_ofWord first, Link.tail_dotted 1 words⟩
      spells := by
        obtain ⟨hfirst, hwords⟩ := List.forall_mem_cons.1 h
        exact List.forall_mem_cons.2 ⟨hfirst.spells, Link.spells_dotted hwords 1⟩ }

section

variable (h : ∀ word ∈ first :: words, IsSegment word)

theorem Name.spelled_ofWords :
    Link.spelled (Name.ofWords first words h).words.links = (qualified first words).toList := by
  rw [← Link.spelled_dotted first 1 words]
  exact Link.spelled_cons ..

theorem Name.text_ofWords : (Name.ofWords first words h).words.text = qualified first words := by
  rw [← String.toList_inj, DottedName.toList_text, spelled_ofWords]

theorem Name.cut_ofWords {rest : List Char} (hrest : ∀ c ∈ rest.head?, Halts c) :
    Link.Cut (Name.ofWords first words h).terminals (qualified first words).toList rest
      (Name.ofWords first words h).words.links := by
  rw [← spelled_ofWords h]
  exact .name _ (Link.last_dotted (Kind.ne_dot_of_isWord (Kind.isWord_ofWord first)) 1 words) hrest

end

theorem dot_mem_qualified (first second : String) (words : List String) :
    '.' ∈ (qualified first (second :: words)).toList := by
  simp [qualified_cons]

variable (h : ∀ word ∈ first :: second :: words, IsSegment word)

theorem namesType_ofWords : NamesType (Name.ofWords first (second :: words) h).words := by
  have hdot := dot_mem_qualified first second words
  refine ⟨?_, .inr fun hkeyword => by cases hkeyword.1⟩
  rw [Name.text_ofWords]
  refine ⟨?_, ?_, ?_⟩ <;> (intro heq; rw [heq] at hdot; revert hdot; decide)

/-- The words as a type. -/
def FieldType.ofWords : FieldType :=
  .simple (Name.ofWords first (second :: words) h) (namesType_ofWords h) none

theorem FieldType.names_ofWords : (FieldType.ofWords h).node.Names (qualified first (second :: words)) := by
  have hnode : (ofWords h).node = ofName (Name.ofWords first (second :: words) h).words _ [] := rfl
  exact ⟨_, by rw [hnode, ofName, Name.text_ofWords,
    BaseType.ofText?_of_dot (dot_mem_qualified first second words)]⟩

theorem FieldType.numbered_ofWords : Link.Numbered 0 (Name.ofWords first (second :: words) h).words.links :=
  ⟨rfl, Link.numbered_dotted 1 (second :: words)⟩

theorem FieldType.exists_piece_ofWords : ∃ own, Link.Piece (FieldType.ofWords h).terminals
    ((qualified first (second :: words)).toList ++ [' ']) own := by
  let own := (Name.ofWords first (second :: words) h).words.links
  refine ⟨own ++ [.space own.length], (FieldType.numbered_ofWords h).append ⟨(Nat.zero_add _).symm, trivial⟩,
    fun rest => ?_⟩
  have hcut := (Name.cut_ofWords h halts_space).append (Link.Cut.space own.length rest) rfl
  simpa [FieldType.terminals, ofWords, Phrase.optional] using hcut

include h in
/-- By itself, the text is read as the type. -/
theorem wholeType?_qualified : ∃ type chain,
    Grammar.wholeType? (qualified first (second :: words)).toList = some (type, chain) ∧
      type.Names (qualified first (second :: words)) := by
  let own := (Name.ofWords first (second :: words) h).words.links
  have hcut : Link.Cut ((FieldType.ofWords h).terminals ++ (endAt own.length).terminals)
      (qualified first (second :: words)).toList [] (own ++ [(endAt own.length).link]) := by
    have hcut := (Name.cut_ofWords h (by simp)).append (Link.Cut.ending (endAt own.length)) rfl
    simpa [FieldType.terminals, FieldType.ofWords, Phrase.optional] using hcut
  obtain ⟨chain, hchain⟩ := Grammar.wholeType?_of_cut hcut
    ((FieldType.numbered_ofWords h).append ⟨(Nat.zero_add _).symm, trivial⟩)
  exact ⟨_, chain, hchain, FieldType.names_ofWords h⟩

end Phrase

namespace SyntaxTree

/-- The field of a document that is a structure of one field. -/
def onlyField? (tree : SyntaxTree) : Option Field :=
  match tree.document.definitions with
  | [.struct node] =>
    match node.fields.items with
    | [field] => some field
    | _ => none
  | _ => none

/-- The function of a document that is a service of one function. -/
def onlyFunction? (tree : SyntaxTree) : Option Function :=
  match tree.document.definitions with
  | [.service node] =>
    match node.functions.items with
    | [function] => some function
    | _ => none
  | _ => none

variable {options : Options} {tree : SyntaxTree} {before after : String} {Fits : String → Prop}

theorem ReadsNames.exists_field {span : Span} {struct : Struct} {field : Field}
    (h : ReadsNames options before after Fits ⟨span, [.struct { struct with fields := ⟨[field], .empty⟩ }]⟩)
    {x : String} (hx : Spells .ident x.toList) (hfits : Fits x) :
    ∃ tree, ofText (before ++ x ++ after) options = .ok tree ∧
      tree.onlyField? = some { field with name := x } := by
  obtain ⟨front, back, h⟩ := h
  obtain ⟨tree, htree, -, hdocument⟩ := h x hx hfits
  exact ⟨tree, htree, by rw [onlyField?, hdocument]; rfl⟩

theorem ReadsNames.exists_function {span : Span} {service : Service} {function : Function}
    (h : ReadsNames options before after Fits
      ⟨span, [.service { service with functions := ⟨[function], .empty⟩ }]⟩)
    {x : String} (hx : Spells .ident x.toList) (hfits : Fits x) :
    ∃ tree, ofText (before ++ x ++ after) options = .ok tree ∧
      tree.onlyFunction? = some (Function.reindex tree.tokens { function with name := x }) := by
  obtain ⟨front, back, h⟩ := h
  obtain ⟨tree, htree, -, hdocument⟩ := h x hx hfits
  exact ⟨tree, htree, by rw [onlyFunction?, hdocument]; rfl⟩

/-! ## Qualified names in a field and in a function -/

variable (options) {first second q : String} {words : List String}

/-- Without its first word, the name says the rest of what it says, from the dot on. -/
theorem names_rest {type rest : FieldType} {word : Keyword} (h : type.Without word rest)
    (htype : type.Names (qualified first (second :: words))) (hfirst : first = word.text) :
    rest.Names ("." ++ qualified second words) := by
  obtain ⟨text, span, start, annotations, hnamed, hrest⟩ := h
  obtain ⟨span', htype⟩ := htype
  rw [htype, hfirst, qualified_cons] at hnamed
  obtain ⟨htext, rfl, rfl⟩ := FieldType.named.inj hnamed
  rw [String.append_right_inj] at htext
  exact ⟨_, by rw [hrest, htext]⟩

theorem qualified_field (h : ∀ word ∈ first :: second :: words, IsSegment word)
    (hq : q = qualified first (second :: words)) {number x : String} {id : Int}
    (hnumber : Spells .number number.toList) (hid : Numeral.integer? number = some id)
    (hx : Spells .ident x.toList) : ∃ tree field,
      ofText ("struct S \x7b " ++ number ++ ": " ++ q ++ " " ++ x ++ " \x7d") options = .ok tree ∧
      tree.onlyField? = some field ∧ field.id = id ∧ field.name = x ∧
      (first ≠ "required" → first ≠ "optional" → field.requiredness = none ∧ field.type.Names q) ∧
      ∀ form, first = (requirednessWord form).text →
        field.requiredness = some form ∧ field.type.Names ("." ++ qualified second words) := by
  subst hq
  obtain ⟨own, hpiece⟩ := FieldType.exists_piece_ofWords h
  have hnames := FieldType.names_ofWords h
  obtain ⟨span, struct, field, hfield, hnone, hsome, hreads⟩ :=
    readsNames_demanded options hpiece hnumber hid
  obtain ⟨tree, htree, hfound⟩ := hreads.exists_field hx fun hbare => hbare.elim
  refine ⟨tree, _, htree, hfound, hfield, rfl, fun hrequired hoptional => ?_, fun form hform => ?_⟩
  · obtain ⟨hread, htype⟩ := hnone fun form =>
      Kind.ofWord_eq_keyword_iff.not.2 (by cases form <;> assumption)
    exact ⟨hread, htype ▸ hnames.relabel _⟩
  · obtain ⟨hread, rest, hwithout, htype⟩ := hsome form (Kind.ofWord_eq_keyword_iff.2 hform)
    exact ⟨hread, htype ▸ (names_rest hwithout hnames hform).relabel _⟩

theorem qualified_function (h : ∀ word ∈ first :: second :: words, IsSegment word)
    (hq : q = qualified first (second :: words)) {f : String} (hf : Spells .ident f.toList) :
    (first ≠ "void" → ∃ tree function,
      ofText ("service S \x7b " ++ q ++ " " ++ f ++ "() \x7d") options = .ok tree ∧
      tree.onlyFunction? = some function ∧ function.name = f ∧
      (first ≠ "oneway" → function.oneway = false ∧ ∃ type ∈ function.result, type.Names q) ∧
      (first = "oneway" → function.oneway = true ∧
        ∃ type ∈ function.result, type.Names ("." ++ qualified second words))) ∧
    (first = "void" →
      ∃ error, ofText ("service S \x7b " ++ q ++ " " ++ f ++ "() \x7d") options = .error error) := by
  subst hq
  obtain ⟨own, hpiece⟩ := FieldType.exists_piece_ofWords h
  have hnames := FieldType.names_ofWords h
  refine ⟨fun hvoid => ?_, fun hvoid =>
    error_of_named_void options hpiece (Kind.ofWord_eq_keyword_iff.2 hvoid) hf⟩
  obtain ⟨span, service, function, hnone, hsome, hreads⟩ :=
    readsNames_onewayed options hpiece (Kind.ofWord_eq_keyword_iff.not.2 hvoid)
  obtain ⟨tree, htree, hfound⟩ := hreads.exists_function hf fun hbare => hbare.elim
  refine ⟨tree, _, htree, hfound, rfl, fun honeway => ?_, fun honeway => ?_⟩
  · obtain ⟨hread, htype⟩ := hnone (Kind.ofWord_eq_keyword_iff.not.2 honeway)
    exact ⟨hread, _, htype, hnames.relabel _⟩
  · obtain ⟨hread, rest, hwithout, htype⟩ := hsome (Kind.ofWord_eq_keyword_iff.2 honeway)
    exact ⟨hread, _, htype, (names_rest hwithout hnames honeway).relabel _⟩

/-- A name of at least two words is read as a type by itself. So it is in a field, unless its first word is
`required` or `optional`, and in a function, unless its first word is `oneway` or `void`: such a word is
taken off the name, and after `void` nothing is read. -/
theorem ofText_qualified (h : ∀ word ∈ first :: second :: words, IsSegment word)
    (hq : q = qualified first (second :: words)) {number x f : String} {id : Int}
    (hnumber : Spells .number number.toList) (hid : Numeral.integer? number = some id)
    (hx : Spells .ident x.toList) (hf : Spells .ident f.toList) :
    (∃ type chain, Grammar.wholeType? q.toList = some (type, chain) ∧ type.Names q) ∧
    (∃ tree field,
      ofText ("struct S \x7b " ++ number ++ ": " ++ q ++ " " ++ x ++ " \x7d") options = .ok tree ∧
      tree.onlyField? = some field ∧ field.id = id ∧ field.name = x ∧
      (first ≠ "required" → first ≠ "optional" → field.requiredness = none ∧ field.type.Names q) ∧
      ∀ form, first = (requirednessWord form).text →
        field.requiredness = some form ∧ field.type.Names ("." ++ qualified second words)) ∧
    (first ≠ "void" → ∃ tree function,
      ofText ("service S \x7b " ++ q ++ " " ++ f ++ "() \x7d") options = .ok tree ∧
      tree.onlyFunction? = some function ∧ function.name = f ∧
      (first ≠ "oneway" → function.oneway = false ∧ ∃ type ∈ function.result, type.Names q) ∧
      (first = "oneway" → function.oneway = true ∧
        ∃ type ∈ function.result, type.Names ("." ++ qualified second words))) ∧
    (first = "void" →
      ∃ error, ofText ("service S \x7b " ++ q ++ " " ++ f ++ "() \x7d") options = .error error) := by
  refine ⟨?_, qualified_field options h hq hnumber hid hx, qualified_function options h hq hf⟩
  rw [hq]
  exact wholeType?_qualified h

/-- Reserved words that begin no clause may begin a type. -/
theorem ofText_qualified_struct :
    (∃ tree field, ofText "struct S \x7b -1: struct.set.x y \x7d" {} = .ok tree ∧
      tree.onlyField? = some field ∧ field.requiredness = none ∧ field.type.Names "struct.set.x") ∧
    ∃ tree function, ofText "service S \x7b struct.set.x f() \x7d" {} = .ok tree ∧
      tree.onlyFunction? = some function ∧ function.oneway = false ∧
      ∃ type ∈ function.result, type.Names "struct.set.x" := by
  have hx : Spells .ident "x".toList := .ident (by decide) (by simp) (by decide)
  have hy : Spells .ident "y".toList := .ident (by decide) (by simp) (by decide)
  have hf : Spells .ident "f".toList := .ident (by decide) (by simp) (by decide)
  have hnumber : Spells .number (['-'] ++ ['1']) := .integer (.inr rfl) (by decide)
  have hwords : ∀ word ∈ "struct" :: "set" :: ["x"], IsSegment word := by
    simpa using ⟨.inr ⟨.struct, rfl⟩, .inr ⟨.set, rfl⟩, .inl hx⟩
  have hq : "struct.set.x" = qualified "struct" ("set" :: ["x"]) := by decide
  obtain ⟨-, ⟨tree, field, htree, hfield, -, -, hread, -⟩, hfunction, -⟩ :=
    ofText_qualified {} hwords hq (show Spells .number "-1".toList from hnumber)
      (show Numeral.integer? "-1" = some (-1) by decide) hy hf
  obtain ⟨tree', function, htree', hfunction, -, hread', -⟩ := hfunction (by decide)
  exact ⟨⟨tree, field, htree, hfield, hread (by decide) (by decide)⟩, tree', function, htree', hfunction,
    hread' (by decide)⟩

/-- Those that begin a clause are read as it, though the text that they begin is a type too. -/
theorem ofText_qualified_clause :
    (∀ q ∈ ["required.x", "oneway.x", "void.x"], ((Grammar.wholeType? q.toList).map (·.1)) =
      some (.named q ⟨0, 2⟩ [])) ∧
    (¬ ∃ tree field, ofText "struct S \x7b 1: required.x y \x7d" {} = .ok tree ∧
      tree.onlyField? = some field ∧ field.requiredness = none ∧ field.type.Names "required.x") ∧
    (¬ ∃ tree function, ofText "service S \x7b oneway.x f() \x7d" {} = .ok tree ∧
      tree.onlyFunction? = some function ∧ function.oneway = false) ∧
    ¬ ∃ tree, ofText "service S \x7b void.x f() \x7d" {} = .ok tree := by
  have hfield : ((ofText "struct S \x7b 1: required.x y \x7d" {}).toOption.bind onlyField?).map
      (·.requiredness) = some (some .required) := by decide +kernel
  have hfunction : ((ofText "service S \x7b oneway.x f() \x7d" {}).toOption.bind onlyFunction?).map
      (·.oneway) = some true := by decide +kernel
  have hvoid : (ofText "service S \x7b void.x f() \x7d" {}).toOption = none := by decide +kernel
  refine ⟨by decide +kernel, ?_, ?_, ?_⟩
  · rintro ⟨tree, field, htree, honly, hnone, -⟩
    simp [htree, Except.toOption, honly, hnone] at hfield
  · rintro ⟨tree, function, htree, honly, hfalse⟩
    simp [htree, Except.toOption, honly, hfalse] at hfunction
  · rintro ⟨tree, htree⟩
    simp [htree, Except.toOption] at hvoid

end SyntaxTree

end ThriftSyntax
