import ThriftSyntax.Proofs.Layout.Cut

/-!
# Names after types

The smallest documents in which a name stands after a type: a structure with one field, a service with
one function, a constant and a type definition. Whatever the tokens of the type are, such a document is
read with any name, and what the tree says besides the name does not depend on it.
-/

namespace ThriftSyntax

open Lexeme

namespace Link

/-- The tokens are numbered one after the other, the first of them `id`. -/
def Numbered : Nat → List Link → Prop
  | _, [] => True
  | id, link :: links => link.id = id ∧ Numbered (id + 1) links

theorem Numbered.id_eq {id i : Nat} {links : List Link} {link : Link} (h : Numbered id links)
    (hi : links[i]? = some link) : link.id = id + i := by
  induction links generalizing id i with
  | nil => cases hi
  | cons other links ih =>
    cases i with
    | zero =>
      cases hi
      exact h.1
    | succ i =>
      have := ih h.2 hi
      omega

/-- The tokens `own`, numbered from 0, are those of a text wherever it stands, and of the terminals
`xs`. -/
structure Piece (xs : List Terminal) (raw : List Char) (own : List Link) : Prop where
  numbered : Numbered 0 own
  cut : ∀ rest, Cut xs raw rest own

/-- Where tokens stand that are numbered from 0 to `count`, if `before` others come before them and the
others are numbered after them. -/
def moved (before count id : Nat) : Nat :=
  if id < count then before + id else if id < count + before then id - count else id

variable {front own tail : List Link}

theorem eq_moved (hown : Numbered 0 own) (hfront : Numbered own.length front)
    (htail : Numbered (own.length + front.length) tail) {i : Nat} {link : Link}
    (h : (front ++ (own ++ tail))[i]? = some link) :
    i = moved front.length own.length link.id := by
  rcases Nat.lt_or_ge i front.length with hi | hi
  · rw [List.getElem?_append_left hi] at h
    rw [hfront.id_eq h, moved, if_neg (by omega), if_pos (by omega)]
    omega
  rw [List.getElem?_append_right hi] at h
  rcases Nat.lt_or_ge (i - front.length) own.length with hj | hj
  · rw [List.getElem?_append_left hj] at h
    rw [hown.id_eq h, moved, if_pos (by omega)]
    omega
  · rw [List.getElem?_append_right hj] at h
    rw [htail.id_eq h, moved, if_neg (by omega), if_neg (by omega)]
    omega

end Link

/-- A document around a piece of text is read. -/
theorem SyntaxTree.ofText_of_numbered {text : String} {options : Options}
    {document : Phrase.Document} {front own tail : List Link}
    (hallowed : document.Allowed options.namespaceTrailing)
    (hcut : Link.Cut document.terminals text.toList [] (front ++ (own ++ tail)))
    (hown : Link.Numbered 0 own) (hfront : Link.Numbered own.length front)
    (htail : Link.Numbered (own.length + front.length) tail) :
    ∃ tree, ofText text options = .ok tree ∧
      tree.tokens.links.map Link.lexeme = (front ++ (own ++ tail)).map Link.lexeme ∧
      tree.document = Document.reindex tree.tokens
        ((document.node options.numbering).relabel (Link.moved front.length own.length)) :=
  ofText_of_cut hallowed hcut _ fun h _ => Link.eq_moved hown hfront htail h

/-! ## Another name -/

/-- The definition with another name for what a type is given to: the constant, the type itself, or every
field or function in it. -/
def Definition.withName (name : String) : Definition → Definition
  | const node => const { node with name }
  | typedef node => typedef { node with name }
  | struct node =>
    struct { node with fields := ⟨node.fields.items.map fun field => { field with name }, .empty⟩ }
  | service node =>
    service { node with
      functions := ⟨node.functions.items.map fun function => { function with name }, .empty⟩ }
  | node => node

def Document.withName (name : String) (node : Document) : Document :=
  { node with definitions := node.definitions.map (Definition.withName name) }

/-- The names that are given to a type there. -/
def Definition.givenNames : Definition → List String
  | const node => [node.name]
  | typedef node => [node.name]
  | struct node => node.fields.items.map Field.name
  | service node => node.functions.items.map Function.name
  | _ => []

def Document.givenNames (node : Document) : List String :=
  node.definitions.flatMap Definition.givenNames

section

variable (x y : String) (chain chain' : TokenChain)

theorem Definition.withName_reindex (node : Definition) :
    (((node.withName x).reindex chain).withName y).reindex chain' = (node.withName y).reindex chain' := by
  cases node with
  | struct node => simp [withName, reindex, Struct.reindex, Children.ofItems]
  | service node =>
    have hthrows : ∀ function : Function,
        ({ Function.reindex chain { function with name := x } with name := y } : Function).reindex chain' =
          Function.reindex chain' { function with name := y } := by
      rintro ⟨span, oneway, result, name, args, throws, annotations, separator⟩
      cases throws <;> rfl
    simp [withName, reindex, Service.reindex, Children.ofItems, hthrows]
  | _ => rfl

/-- Another name takes the place of the one before, whatever the indexes are. -/
theorem Document.withName_reindex (node : Document) :
    (((node.withName x).reindex chain).withName y).reindex chain' = (node.withName y).reindex chain' := by
  simp [withName, reindex, Definition.withName_reindex]

theorem Definition.givenNames_withName (node : Definition) :
    ((node.withName x).reindex chain).givenNames = node.givenNames.map fun _ => x := by
  cases node with
  | struct node => simp [withName, reindex, givenNames, Struct.reindex, Children.ofItems]
  | service node => simp [withName, reindex, givenNames, Service.reindex, Function.reindex, Children.ofItems]
  | _ => rfl

theorem Document.givenNames_withName (node : Document) :
    ((node.withName x).reindex chain).givenNames = node.givenNames.map fun _ => x := by
  simp [withName, reindex, givenNames, List.flatMap_map, List.map_flatMap, Definition.givenNames_withName]

end

/-- The text is read with any such name between its parts. Its tokens are the same but for that name, and
the tree is the same but for that name and the keys of indexes. -/
def SyntaxTree.ReadsNames (options : Options) (before after : String) (Fits : String → Prop)
    (document : Document) : Prop :=
  ∃ front back, ∀ x : String, Spells .ident x.toList → Fits x →
    ∃ tree, ofText (before ++ x ++ after) options = .ok tree ∧
      tree.tokens.links.map Link.lexeme = front ++ (.ident, x) :: back ∧
      tree.document = (document.withName x).reindex tree.tokens

namespace Phrase

/-! ## The tokens around a type -/

theorem halts_space {text : List Char} : ∀ c ∈ (' ' :: text).head?, Halts c := by
  rintro _ ⟨⟩
  exact halts_blank .space

/-- A single word as a name. -/
def Name.ofText {reserved : Bool} (id : Nat) (text : String) (h : Spells .ident text.toList) :
    Name reserved :=
  .ofLink ⟨id, .ident, text, .start⟩ rfl h

@[simp] theorem Name.kind_ofText {reserved : Bool} (id : Nat) (text : String)
    (h : Spells .ident text.toList) : (Name.ofText id text h : Name reserved).words.head.kind = .ident :=
  rfl

theorem Name.text_ofText {reserved : Bool} (id : Nat) (text : String) (h : Spells .ident text.toList) :
    (Name.ofText id text h : Name reserved).words.text = text := by
  simp [ofText, ofLink, DottedName.text, DottedName.links, TokenChain.spell]

theorem Name.cut_ofText {reserved : Bool} {text : String} {rest : List Char} (id : Nat)
    (h : Spells .ident text.toList) (hrest : ∀ c ∈ rest.head?, Halts c) :
    Link.Cut (Name.ofText id text h : Name reserved).terminals text.toList rest
      [⟨id, .ident, text, .start⟩] := by
  have hname := Link.Cut.name (Name.ofText id text h : Name reserved)
    (by simp [ofText, ofLink, DottedName.last, Link.kind]) hrest
  simpa [ofText, ofLink, DottedName.links, Link.raw] using hname

/-- The type is a list that ends with its angle bracket. -/
def FieldType.EndsBare : FieldType → Prop
  | list _ _ _ _ _ none none => True
  | _ => False

theorem FieldType.stopsBefore_of_ne {type : FieldType} {link : Link}
    (h : type.EndsBare → link.raw ≠ "cpp_type") : type.StopsBefore link := by
  unfold StopsBefore
  split
  · exact h trivial
  · trivial

end Phrase

end ThriftSyntax
