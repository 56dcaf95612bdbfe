import ThriftSyntax.Proofs.Reader.Name
import ThriftSyntax.Syntax.Definition

/-!
# Phrases

The grammar as data. A phrase of a rule holds the tokens and the phrases that the rule is made of, in
the order of the text; `terminals` lists its tokens and names, and `node` is the part of a syntax
tree that it stands for. No phrase mentions the actions that read it.
-/

namespace ThriftSyntax.Phrase

/-- A token that fits a place of the grammar. -/
structure Leaf (Fits : Kind → String → Prop) where
  link : Link
  spells : Lexeme.Spells link.kind link.raw.toList
  fits : Fits link.kind link.raw

def Leaf.terminals {Fits : Kind → String → Prop} (leaf : Leaf Fits) : List Terminal :=
  [.token leaf.link]

abbrev Mark (mark : Punct) := Leaf fun kind _ => kind = .punct mark

abbrev Word (word : Keyword) := Leaf fun kind _ => kind = .keyword word

/-- A word that is not reserved, but has a meaning of its own in some place. -/
abbrev Particle (text : String) := Leaf fun kind raw => kind = .ident ∧ raw = text

abbrev Separator := Leaf fun kind _ => kind = .punct .comma ∨ kind = .punct .semicolon

abbrev Literal := Leaf fun kind _ => kind = .string

abbrev Number := Leaf fun kind _ => kind = .number

abbrev Integer := Leaf fun kind raw => kind = .number ∧ (Numeral.integer? raw).isSome

abbrev Ending := Leaf fun kind _ => kind = .endOfInput

def Integer.value (integer : Integer) : Int := (Numeral.integer? integer.link.raw).getD 0

/-- A name; with `reserved`, its words may be reserved words. -/
structure Name (reserved : Bool) where
  words : DottedName
  shaped : words.Shaped reserved

def Name.terminals {reserved : Bool} (name : Name reserved) : List Terminal :=
  [.name reserved name.words]

/-- The terminals of a phrase that may be missing. -/
def optional {α : Type} (terminals : α → List Terminal) (phrase : Option α) : List Terminal :=
  phrase.elim [] terminals

/-- A phrase and the separator that may follow it. -/
structure Separated (α : Type) where
  phrase : α
  separator : Option Separator

def Separated.terminals {α : Type} (terminals : α → List Terminal) (item : Separated α) :
    List Terminal :=
  terminals item.phrase ++ optional Leaf.terminals item.separator

/-! ## Annotations -/

structure Annotation where
  name : Name false
  equals : Mark .equals
  literal : Literal

namespace Annotation

def terminals (phrase : Annotation) : List Terminal :=
  phrase.name.terminals ++ (phrase.equals.terminals ++ phrase.literal.terminals)

def node (phrase : Annotation) : ThriftSyntax.Annotation where
  span := ⟨phrase.name.words.head.id, phrase.literal.link.id⟩
  name := phrase.name.words.text
  value := phrase.literal.link.token.value
  raw := phrase.literal.link.raw

end Annotation

structure Annotations where
  opening : Mark .leftParen
  items : List (Separated Annotation)
  closing : Mark .rightParen

namespace Annotations

def terminals (phrase : Annotations) : List Terminal :=
  phrase.opening.terminals ++
    (phrase.items.flatMap (·.terminals Annotation.terminals) ++ phrase.closing.terminals)

def nodes (phrase : Option Annotations) : List ThriftSyntax.Annotation :=
  phrase.elim [] (·.items.map (·.phrase.node))

/-- The token that a phrase ends with, which is `last` without annotations. -/
def last (phrase : Option Annotations) (last : Nat) : Nat :=
  phrase.elim last (·.closing.link.id)

/-- No separator stands before the closing parenthesis. -/
def Untrailed (phrase : Annotations) : Prop :=
  ∀ item ∈ phrase.items.getLast?, item.separator = none

end Annotations

/-! ## Types -/

structure CppType where
  particle : Particle "cpp_type"
  literal : Literal

namespace CppType

def terminals (phrase : CppType) : List Terminal :=
  phrase.particle.terminals ++ phrase.literal.terminals

def node (phrase : Option CppType) : Option String :=
  phrase.map (·.literal.link.token.value)

end CppType

/-- The name begins no container, and is no reserved word alone. -/
def NamesType (name : DottedName) : Prop :=
  (name.text ≠ "map" ∧ name.text ≠ "set" ∧ name.text ≠ "list") ∧
    ((BaseType.ofText? name.text).isSome ∨ ¬ (name.tail.isEmpty ∧ name.head.kind.isKeyword))

inductive FieldType where
  | simple (name : Name true) (names : NamesType name.words) (annotations : Option Annotations)
  | map (word : Name true) (isMap : word.words.text = "map") (cppType : Option CppType)
      (less : Mark .less) (key : FieldType) (comma : Mark .comma) (value : FieldType)
      (greater : Mark .greater) (annotations : Option Annotations)
  | set (word : Name true) (isSet : word.words.text = "set") (cppType : Option CppType)
      (less : Mark .less) (element : FieldType) (greater : Mark .greater)
      (annotations : Option Annotations)
  | list (word : Name true) (isList : word.words.text = "list") (less : Mark .less)
      (element : FieldType) (greater : Mark .greater) (cppType : Option CppType)
      (annotations : Option Annotations)

namespace FieldType

def head : FieldType → Link
  | simple name _ _ => name.words.head
  | map word .. | set word .. | list word .. => word.words.head

def terminals : FieldType → List Terminal
  | simple name _ annotations => name.terminals ++ optional Annotations.terminals annotations
  | map word _ cppType less key comma value greater annotations =>
    word.terminals ++ (optional CppType.terminals cppType ++ (less.terminals ++ (key.terminals ++
      (comma.terminals ++ (value.terminals ++ (greater.terminals ++
        optional Annotations.terminals annotations))))))
  | set word _ cppType less element greater annotations =>
    word.terminals ++ (optional CppType.terminals cppType ++ (less.terminals ++
      (element.terminals ++ (greater.terminals ++ optional Annotations.terminals annotations))))
  | list word _ less element greater cppType annotations =>
    word.terminals ++ (less.terminals ++ (element.terminals ++ (greater.terminals ++
      (optional CppType.terminals cppType ++ optional Annotations.terminals annotations))))

theorem exists_terminals (type : FieldType) :
    ∃ x xs, type.terminals = x :: xs ∧ x.head = type.head := by
  cases type <;> exact ⟨_, _, rfl, rfl⟩

/-- A base type, or else a named one. -/
def ofName (name : DottedName) (span : Span) (annotations : List ThriftSyntax.Annotation) :
    ThriftSyntax.FieldType :=
  match BaseType.ofText? name.text with
  | some base => .base base span annotations
  | none => .named name.text span annotations

def node : FieldType → ThriftSyntax.FieldType
  | simple name _ annotations =>
    ofName name.words ⟨name.words.head.id, Annotations.last annotations name.words.last.id⟩
      (Annotations.nodes annotations)
  | map word _ cppType _ key _ value greater annotations =>
    .map key.node value.node (CppType.node cppType)
      ⟨word.words.head.id, Annotations.last annotations greater.link.id⟩
      (Annotations.nodes annotations)
  | set word _ cppType _ element greater annotations =>
    .set element.node (CppType.node cppType)
      ⟨word.words.head.id, Annotations.last annotations greater.link.id⟩
      (Annotations.nodes annotations)
  | list word _ _ element greater cppType annotations =>
    .list element.node (CppType.node cppType)
      ⟨word.words.head.id, Annotations.last annotations
        (cppType.elim greater.link.id (·.literal.link.id))⟩
      (Annotations.nodes annotations)

/-- A list that has neither a string for C++ nor annotations does not stop before the word that would
begin the former. -/
def StopsBefore (type : FieldType) (next : Link) : Prop :=
  match type with
  | list _ _ _ _ _ none none => next.raw ≠ "cpp_type"
  | _ => True

end FieldType

/-! ## Constant values -/

inductive ConstValue where
  | number (numeral : Number)
  | string (literal : Literal)
  | name (reference : Name false)
      (proper : reference.words.head.kind = .ident ∧ reference.words.last.kind = .ident)
  | list (opening : Mark .leftBracket) (items : List (Separated ConstValue))
      (closing : Mark .rightBracket)
  | map (opening : Mark .leftBrace)
      (entries : List (ConstValue × Mark .colon × Separated ConstValue))
      (closing : Mark .rightBrace)

namespace ConstValue

mutual

def terminals : ConstValue → List Terminal
  | number numeral => numeral.terminals
  | string literal => literal.terminals
  | name reference _ => reference.terminals
  | list opening items closing =>
    opening.terminals ++ (itemsTerminals items ++ closing.terminals)
  | map opening entries closing =>
    opening.terminals ++ (entriesTerminals entries ++ closing.terminals)

def itemsTerminals : List (Separated ConstValue) → List Terminal
  | [] => []
  | ⟨value, separator⟩ :: items =>
    value.terminals ++ optional Leaf.terminals separator ++ itemsTerminals items

def entriesTerminals : List (ConstValue × Mark .colon × Separated ConstValue) → List Terminal
  | [] => []
  | (key, colon, ⟨value, separator⟩) :: entries =>
    key.terminals ++ (colon.terminals ++ (value.terminals ++ optional Leaf.terminals separator)) ++
      entriesTerminals entries

end

mutual

def node : ConstValue → ThriftSyntax.ConstValue
  | number numeral =>
    .scalar (if Numeral.form? numeral.link.raw = some .integer then .integer else .decimal)
      numeral.link.raw (.single numeral.link.id)
  | string literal => .scalar .string literal.link.token.value (.single literal.link.id)
  | name reference _ => .scalar .name reference.words.text reference.words.span
  | list opening items closing => .list (itemNodes items) ⟨opening.link.id, closing.link.id⟩
  | map opening entries closing => .map (entryNodes entries) ⟨opening.link.id, closing.link.id⟩

def itemNodes : List (Separated ConstValue) → List ThriftSyntax.ConstValue
  | [] => []
  | ⟨value, _⟩ :: items => value.node :: itemNodes items

def entryNodes : List (ConstValue × Mark .colon × Separated ConstValue) →
    List (ThriftSyntax.ConstValue × ThriftSyntax.ConstValue)
  | [] => []
  | (key, _, ⟨value, _⟩) :: entries => (key.node, value.node) :: entryNodes entries

end

/-- An entry of a map. -/
abbrev Entry := ConstValue × Mark .colon × Separated ConstValue

namespace Entry

def terminals (entry : Entry) : List Terminal :=
  entry.1.terminals ++ (entry.2.1.terminals ++ entry.2.2.terminals ConstValue.terminals)

def node (entry : Entry) : ThriftSyntax.ConstValue × ThriftSyntax.ConstValue :=
  (entry.1.node, entry.2.2.phrase.node)

end Entry

theorem itemsTerminals_eq (items : List (Separated ConstValue)) :
    itemsTerminals items = items.flatMap (·.terminals terminals) := by
  induction items with
  | nil => rfl
  | cons item items ih =>
    obtain ⟨value, separator⟩ := item
    rw [List.flatMap_cons, ← ih]
    rfl

theorem entriesTerminals_eq (entries : List Entry) :
    entriesTerminals entries = entries.flatMap Entry.terminals := by
  induction entries with
  | nil => rfl
  | cons entry entries ih =>
    obtain ⟨key, colon, ⟨value, separator⟩⟩ := entry
    rw [List.flatMap_cons, ← ih]
    rfl

theorem itemNodes_eq (items : List (Separated ConstValue)) :
    itemNodes items = items.map (·.phrase.node) := by
  induction items with
  | nil => rfl
  | cons item items ih =>
    obtain ⟨value, separator⟩ := item
    rw [List.map_cons, ← ih]
    rfl

theorem entryNodes_eq (entries : List Entry) : entryNodes entries = entries.map Entry.node := by
  induction entries with
  | nil => rfl
  | cons entry entries ih =>
    obtain ⟨key, colon, ⟨value, separator⟩⟩ := entry
    rw [List.map_cons, ← ih]
    rfl

/-- Induction on the values that a value is made of. -/
theorem induction {motive : ConstValue → Prop}
    (number : ∀ numeral, motive (number numeral)) (string : ∀ literal, motive (string literal))
    (name : ∀ reference proper, motive (name reference proper))
    (list : ∀ opening items closing, (∀ item ∈ items, motive item.phrase) →
      motive (list opening items closing))
    (map : ∀ opening (entries : List Entry) closing,
      (∀ entry ∈ entries, motive entry.1 ∧ motive entry.2.2.phrase) →
      motive (map opening entries closing)) :
    ∀ value, motive value
  | .number numeral => number numeral
  | .string literal => string literal
  | .name reference proper => name reference proper
  | .list opening items closing =>
    list opening items closing fun item _ => induction number string name list map item.phrase
  | .map opening entries closing =>
    map opening entries closing fun entry _ =>
      ⟨induction number string name list map entry.1,
        induction number string name list map entry.2.2.phrase⟩
termination_by value => sizeOf value
decreasing_by
  · have := List.sizeOf_lt_of_mem ‹item ∈ items›
    obtain ⟨phrase, separator⟩ := item
    simp only [Separated.mk.sizeOf_spec, ConstValue.list.sizeOf_spec] at this ⊢
    omega
  all_goals
    have := List.sizeOf_lt_of_mem ‹entry ∈ entries›
    obtain ⟨key, colon, ⟨phrase, separator⟩⟩ := entry
    simp only [Prod.mk.sizeOf_spec, Separated.mk.sizeOf_spec, ConstValue.map.sizeOf_spec] at this ⊢
    omega

end ConstValue

end ThriftSyntax.Phrase
