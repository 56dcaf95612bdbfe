import ThriftSyntax.Proofs.TypedName.Text

/-!
# Four places of a name after a type

A name stands after a type in a field, a constant, a type definition and a function. Around each of them
is the smallest document, and whatever the tokens of the type are, it is read with any name but one.
-/

namespace ThriftSyntax

open Lexeme

theorem Lexeme.spells_S : Spells .ident "S".toList :=
  .ident (by decide) (List.all_eq_true.1 (by decide)) (by decide)

theorem Lexeme.spells_one : Spells .number "1".toList := by
  have hspells : Spells .number ([] ++ ['1']) := .integer (.inl rfl) (by decide)
  exact hspells

namespace Phrase

variable {n : Nat}

/-! ## Frames -/

def wordAt (word : Keyword) (id : Nat) : Word word := (Leaf.ofKeyword word).numbered id

def markAt (mark : Punct) (id : Nat) : Mark mark := (Leaf.ofMark mark).numbered id

def oneAt (id : Nat) : Number := ⟨⟨id, .number, "1", .start⟩, spells_one, rfl⟩

def endAt (id : Nat) : Ending := Leaf.ofEnd.numbered id

/-- The name of the structure or the service. -/
def ownerAt (id : Nat) : Name false := .ofText id "S" spells_S

theorem cons_owner {xs : List Terminal} {raw rest : List Char} {own : List Link}
    (hcut : Link.Cut xs (' ' :: raw) rest own) (id : Nat) :
    Link.Cut ((ownerAt id).terminals ++ xs) ('S' :: ' ' :: raw) rest
      (⟨id, .ident, "S", .start⟩ :: own) :=
  (Name.cut_ofText id spells_S halts_space).append hcut rfl

/-- What stands before a type and after the name that it is given to. The tokens are numbered from `n` on,
and the name is numbered between them. -/
structure Frame (n : Nat) where
  before : String
  after : String
  opening : List Terminal
  reserved : Bool
  closing : List Terminal
  front : List Link
  back : List Link
  ending : Ending
  cut_before : ∀ rest, Link.Cut opening before.toList rest front
  cut_after : Link.Cut (closing ++ ending.terminals) after.toList [] back
  halts : ∀ c ∈ after.toList.head?, Halts c
  numbered_front : Link.Numbered n front
  numbered_back : Link.Numbered (n + front.length + 1) back

namespace Frame

variable {typed : List Terminal} {raw x : String} {own : List Link}

/-- The text within a frame. -/
theorem cut_within (frame : Frame n) (hpiece : Link.Piece typed (raw.toList ++ [' ']) own)
    {named : List Terminal} {tokens : List Link}
    (hnamed : Link.Cut named x.toList frame.after.toList tokens) :
    Link.Cut (typed ++ (named ++ (frame.closing ++ frame.ending.terminals)))
      (raw ++ " " ++ x ++ frame.after).toList [] (own ++ (tokens ++ frame.back)) := by
  have hcut := hnamed.append frame.cut_after (List.append_nil _).symm
  simpa using (hpiece.cut _).append hcut (List.append_nil _).symm

theorem cut_named (frame : Frame n) (reserved : Bool) (id : Nat)
    (hpiece : Link.Piece typed (raw.toList ++ [' ']) own) (hx : Spells .ident x.toList) :
    Link.Cut (typed ++ ((Name.ofText id x hx : Name reserved).terminals ++
        (frame.closing ++ frame.ending.terminals)))
      (raw ++ " " ++ x ++ frame.after).toList [] (own ++ ⟨id, .ident, x, .start⟩ :: frame.back) :=
  frame.cut_within hpiece (Name.cut_ofText id hx frame.halts)

/-- The number of the name. -/
def nameId (frame : Frame n) : Nat := n + frame.front.length

/-- Where the tokens stand that are numbered so. -/
def place (frame : Frame n) : Nat → Nat := Link.moved frame.front.length n

/-- Around the type and the name of a field. -/
def field (n : Nat) (integer : Integer) (hid : integer.link.id = n + 6) : Frame n where
  before := "struct S \x7b " ++ integer.link.raw ++ ": "
  after := " \x7d"
  opening := (wordAt .struct n).terminals ++ ((ownerAt (n + 2)).terminals ++
    ((markAt .leftBrace (n + 4)).terminals ++ (integer.terminals ++ (markAt .colon (n + 7)).terminals)))
  reserved := false
  closing := (markAt .rightBrace (n + 11)).terminals
  front := [(wordAt .struct n).link, .space (n + 1), ⟨n + 2, .ident, "S", .start⟩, .space (n + 3),
    (markAt .leftBrace (n + 4)).link, .space (n + 5), integer.link, (markAt .colon (n + 7)).link,
    .space (n + 8)]
  back := [.space (n + 10), (markAt .rightBrace (n + 11)).link, (endAt (n + 12)).link]
  ending := endAt (n + 12)
  cut_before rest := by
    have hcolon : ∀ {text : List Char}, ∀ c ∈ (Punct.colon.char :: text).head?, Halts c := by
      rintro _ _ ⟨⟩
      exact ⟨by decide, by decide⟩
    have hnumber := ((Link.Cut.space (n + 8) rest).cons_mark (markAt .colon (n + 7))).cons_leaf integer
      (.of_halts hcolon (by simp [integer.fits.1]) (by simp [integer.fits.1]))
      (by rw [integer.fits.1]; rfl)
    have hbody := ((hnumber.cons_space (n + 5)).cons_mark (markAt .leftBrace (n + 4))).cons_space (n + 3)
    have hcut := ((cons_owner hbody (n + 2)).cons_space (n + 1)).cons_word
      (wordAt .struct n) fun c hc => (halts_space c hc).word
    simpa [Keyword.text, Punct.char] using hcut
  cut_after :=
    ((Link.Cut.ending (endAt (n + 12))).cons_mark (markAt .rightBrace (n + 11))).cons_space (n + 10)
  halts := halts_space
  numbered_front := ⟨rfl, rfl, rfl, rfl, rfl, rfl, hid, rfl, rfl, trivial⟩
  numbered_back := ⟨rfl, rfl, rfl, trivial⟩

/-- Around the type and the name of a constant. -/
def const (n : Nat) : Frame n where
  before := "const "
  after := " = 1"
  opening := (wordAt .const n).terminals
  reserved := false
  closing := (markAt .equals (n + 4)).terminals ++ (oneAt (n + 6)).terminals
  front := [(wordAt .const n).link, .space (n + 1)]
  back := [.space (n + 3), (markAt .equals (n + 4)).link, .space (n + 5), (oneAt (n + 6)).link,
    (endAt (n + 7)).link]
  ending := endAt (n + 7)
  cut_before rest :=
    (Link.Cut.space (n + 1) rest).cons_word (wordAt .const n) fun c hc => (halts_space c hc).word
  cut_after := by
    have hvalue := (Link.Cut.ending (endAt (n + 7))).cons_leaf (oneAt (n + 6))
      (.of_halts (by simp) (by rintro ⟨⟩) (by rintro ⟨⟩)) rfl
    have hcut := ((hvalue.cons_space (n + 5)).cons_mark (markAt .equals (n + 4))).cons_space (n + 3)
    simpa [Punct.char, oneAt, Link.raw] using hcut
  halts := halts_space
  numbered_front := ⟨rfl, rfl, trivial⟩
  numbered_back := ⟨rfl, rfl, rfl, rfl, rfl, trivial⟩

/-- Around the type and the name of a type definition. -/
def typedef (n : Nat) : Frame n where
  before := "typedef "
  after := ""
  opening := (wordAt .typedef n).terminals
  reserved := true
  closing := []
  front := [(wordAt .typedef n).link, .space (n + 1)]
  back := [(endAt (n + 3)).link]
  ending := endAt (n + 3)
  cut_before rest :=
    (Link.Cut.space (n + 1) rest).cons_word (wordAt .typedef n) fun c hc => (halts_space c hc).word
  cut_after := Link.Cut.ending (endAt (n + 3))
  halts := by simp
  numbered_front := ⟨rfl, rfl, trivial⟩
  numbered_back := ⟨rfl, trivial⟩

/-- Around the type and the name of a function. -/
def function (n : Nat) : Frame n where
  before := "service S \x7b "
  after := "() \x7d"
  opening := (wordAt .service n).terminals ++ ((ownerAt (n + 2)).terminals ++
    (markAt .leftBrace (n + 4)).terminals)
  reserved := false
  closing := (markAt .leftParen (n + 7)).terminals ++ ((markAt .rightParen (n + 8)).terminals ++
    (markAt .rightBrace (n + 10)).terminals)
  front := [(wordAt .service n).link, .space (n + 1), ⟨n + 2, .ident, "S", .start⟩, .space (n + 3),
    (markAt .leftBrace (n + 4)).link, .space (n + 5)]
  back := [(markAt .leftParen (n + 7)).link, (markAt .rightParen (n + 8)).link, .space (n + 9),
    (markAt .rightBrace (n + 10)).link, (endAt (n + 11)).link]
  ending := endAt (n + 11)
  cut_before rest := by
    have hbody := ((Link.Cut.space (n + 5) rest).cons_mark (markAt .leftBrace (n + 4))).cons_space (n + 3)
    exact ((cons_owner hbody (n + 2)).cons_space (n + 1)).cons_word
      (wordAt .service n) fun c hc => (halts_space c hc).word
  cut_after := by
    have hbody := ((Link.Cut.ending (endAt (n + 11))).cons_mark
      (markAt .rightBrace (n + 10))).cons_space (n + 9)
    exact (hbody.cons_mark (markAt .rightParen (n + 8))).cons_mark (markAt .leftParen (n + 7))
  halts := by
    rintro _ ⟨⟩
    exact ⟨by decide, by decide⟩
  numbered_front := ⟨rfl, rfl, rfl, rfl, rfl, rfl, trivial⟩
  numbered_back := ⟨rfl, rfl, rfl, rfl, rfl, trivial⟩

end Frame

/-! ## The phrases in them -/

/-- The structure of one field. -/
def Struct.single (n : Nat) (field : Field) : Struct where
  form := .struct
  word := wordAt .struct n
  name := ownerAt (n + 2)
  opening := markAt .leftBrace (n + 4)
  fields := [field]
  closing := markAt .rightBrace (n + 11)
  annotations := none

/-- The service of one function. -/
def Service.single (n : Nat) (function : Function) : Service where
  word := wordAt .service n
  name := ownerAt (n + 2)
  base := none
  opening := markAt .leftBrace (n + 4)
  functions := [function]
  closing := markAt .rightBrace (n + 10)
  annotations := none
  stops := .singleton _

variable (type : FieldType) (x : String) (hx : Spells .ident x.toList)
  (hbare : type.EndsBare → x ≠ "cpp_type")

def Field.plain (n : Nat) (integer : Integer) (demand : Option Demand)
    (demanded : demand = none →
      type.head.kind ≠ .keyword .required ∧ type.head.kind ≠ .keyword .optional) : Field where
  id := integer
  colon := markAt .colon (n + 7)
  demand := demand
  type := type
  name := .ofText (n + 9) x hx
  default := none
  annotations := none
  separator := none
  demanded := demanded
  stops := FieldType.stopsBefore_of_ne hbare

def Const.plain (n : Nat) : Const where
  word := wordAt .const n
  type := type
  name := .ofText (n + 2) x hx
  equals := markAt .equals (n + 4)
  value := .number (oneAt (n + 6))
  separator := none
  stops := FieldType.stopsBefore_of_ne hbare

def TypeDef.plain (n : Nat) (unnamed : type.node.isNamed = false) : TypeDef where
  word := wordAt .typedef n
  type := type
  name := .ofText (n + 2) x hx
  annotations := none
  separator := none
  unnamed := unnamed
  stops := FieldType.stopsBefore_of_ne hbare

def Function.plain (n : Nat) (oneway : Option (Word .oneway)) (returned : type.head.kind ≠ .keyword .void)
    (onewayed : oneway = none → type.head.kind ≠ .keyword .oneway) : Function where
  oneway := oneway
  result := .type type returned
  name := .ofText (n + 6) x hx
  opening := markAt .leftParen (n + 7)
  args := []
  closing := markAt .rightParen (n + 8)
  tail := .none
  separator := none
  onewayed := onewayed
  stops := FieldType.stopsBefore_of_ne hbare

/-! What these phrases stand for, wherever their tokens are. -/

@[simp] theorem text_ownerAt (id : Nat) : (ownerAt id).words.text = "S" := Name.text_ofText id "S" spells_S

variable {type x hx hbare} {place : Nat → Nat}

theorem Struct.reindex_single (field : Field) (chain : TokenChain) :
    ((ThriftSyntax.Definition.struct (single n field).node).relabel place).reindex chain =
      .struct ⟨⟨place n, place (n + 11)⟩, .struct, "S",
        .ofItems chain ThriftSyntax.Field.span ThriftSyntax.Field.name [field.node.relabel place], []⟩ := by
  rw [node, single, text_ownerAt]
  rfl

theorem Field.relabel_plain {integer : Integer} {demand : Option Demand}
    {demanded : demand = none →
      type.head.kind ≠ .keyword .required ∧ type.head.kind ≠ .keyword .optional} :
    (plain type x hx hbare n integer demand demanded).node.relabel place =
      ⟨⟨place integer.link.id, place (n + 9)⟩, integer.value, demand.map (·.form), type.node.relabel place, x,
        none, [], none⟩ := by
  rw [node, plain, Name.text_ofText]
  rfl

theorem node_oneAt (id : Nat) :
    (ConstValue.number (oneAt id)).node = .scalar .integer "1" (.single id) := by
  have hform : Numeral.form? (oneAt id).link.raw = some .integer :=
    show Numeral.form? "1" = some .integer by decide
  rw [ConstValue.node, if_pos hform]
  rfl

theorem Const.relabel_plain :
    (plain type x hx hbare n).node.relabel place =
      ⟨⟨place n, place (n + 6)⟩, type.node.relabel place, x, .scalar .integer "1" (.single (place (n + 6))),
        none⟩ := by
  simp only [node, plain, Name.text_ofText, node_oneAt]
  rfl

theorem TypeDef.relabel_plain {unnamed : type.node.isNamed = false} :
    (plain type x hx hbare n unnamed).node.relabel place =
      ⟨⟨place n, place (n + 2)⟩, type.node.relabel place, x, [], none⟩ := by
  rw [node, plain, Name.text_ofText]
  rfl

theorem Service.reindex_single (function : Function) (chain : TokenChain) :
    ((ThriftSyntax.Definition.service (single n function).node).relabel place).reindex chain =
      .service ⟨⟨place n, place (n + 10)⟩, "S", none,
        .ofItems chain ThriftSyntax.Function.span ThriftSyntax.Function.name
          [(function.node.relabel place).reindex chain], []⟩ := by
  rw [node, single, text_ownerAt]
  rfl

theorem Function.reindex_plain {oneway : Option (Word .oneway)} {returned : type.head.kind ≠ .keyword .void}
    {onewayed : oneway = none → type.head.kind ≠ .keyword .oneway} (chain : TokenChain) :
    ((plain type x hx hbare n oneway returned onewayed).node.relabel place).reindex chain =
      ⟨⟨place (oneway.elim type.head (·.link)).id, place (n + 8)⟩, oneway.isSome,
        some (type.node.relabel place), x, .empty, none, [], none⟩ := by
  rw [node, plain, Name.text_ofText]
  rfl

end Phrase

/-! ## Every name is read in them -/

namespace SyntaxTree

open Phrase

variable {options : Options} {type : Phrase.FieldType} {raw : String} {own : List Link}

/-- A definition is read with every name if there is a phrase for each of them in the frame. -/
theorem ReadsNames.of_frame {Fits : String → Prop} {typed : List Terminal} {definition : Definition}
    (frame : Frame own.length) (hpiece : Link.Piece typed (raw.toList ++ [' ']) own)
    (hphrase : ∀ (x : String) (hx : Spells .ident x.toList), Fits x → ∃ phrase : Phrase.Definition,
      phrase.Allowed options.namespaceTrailing ∧
      phrase.terminals = frame.opening ++
        (typed ++ ((Name.ofText frame.nameId x hx : Name frame.reserved).terminals ++ frame.closing)) ∧
      ∀ chain, ((phrase.node options.numbering).relabel frame.place).reindex chain =
        (definition.withName x).reindex chain) :
    ReadsNames options (frame.before ++ raw ++ " ") frame.after Fits
      ⟨⟨0, frame.place frame.ending.link.id⟩, [definition]⟩ := by
  refine ⟨(frame.front ++ own).map Link.lexeme, frame.back.map Link.lexeme, fun x hx hfits => ?_⟩
  obtain ⟨phrase, hallowed, hterminals, hnode⟩ := hphrase x hx hfits
  have hnamed := frame.cut_named frame.reserved frame.nameId hpiece hx
  have hcut := (frame.cut_before _).append hnamed (List.append_nil _).symm
  have hwhole : Link.Cut (Phrase.Document.terminals ⟨[phrase], frame.ending⟩)
      (frame.before ++ raw ++ " " ++ x ++ frame.after).toList []
      (frame.front ++ (own ++ ⟨frame.nameId, .ident, x, .start⟩ :: frame.back)) := by
    simpa [Phrase.Document.terminals, hterminals] using hcut
  obtain ⟨tree, htree, hlinks, hdocument⟩ := ofText_of_numbered
    (by simpa [Phrase.Document.Allowed] using hallowed) hwhole hpiece.numbered frame.numbered_front
    ⟨rfl, frame.numbered_back⟩
  refine ⟨tree, htree, ?_, ?_⟩
  · rw [hlinks, ← List.append_assoc, List.map_append]
    rfl
  · have hdefinition := hnode tree.tokens
    simp only [hdocument, Phrase.Document.node, Document.relabel, Document.reindex, Document.withName,
      List.map_cons, List.map_nil, ← hdefinition]
    rfl

variable (options)

/-- The name of a field. -/
theorem readsNames_field {demand : Option Demand} {number : String} {id : Int}
    (hpiece : Link.Piece (optional Demand.terminals demand ++ type.terminals) (raw.toList ++ [' ']) own)
    (hdemanded : demand = none →
      type.head.kind ≠ .keyword .required ∧ type.head.kind ≠ .keyword .optional)
    (hnumber : Spells .number number.toList) (hid : Numeral.integer? number = some id) :
    ∃ (span : Span) (struct : ThriftSyntax.Struct) (field : ThriftSyntax.Field),
      field.id = id ∧ field.requiredness = demand.map (·.form) ∧
      field.type = type.node.relabel (Link.moved 9 own.length) ∧
      ReadsNames options ("struct S \x7b " ++ number ++ ": " ++ raw ++ " ") " \x7d"
        (fun x => type.EndsBare → x ≠ "cpp_type")
        ⟨span, [.struct { struct with fields := ⟨[field], .empty⟩ }]⟩ := by
  let integer : Integer :=
    ⟨⟨own.length + 6, .number, number, .start⟩, hnumber, rfl, by simp [Link.raw, hid]⟩
  have hvalue : integer.value = id := by simp [integer, Integer.value, Link.raw, hid]
  let frame := Frame.field own.length integer rfl
  refine ⟨_, ⟨⟨frame.place own.length, frame.place (own.length + 11)⟩, .struct, "S", .empty, []⟩,
    ⟨⟨frame.place (own.length + 6), frame.place (own.length + 9)⟩, id, demand.map (·.form),
      type.node.relabel frame.place, "", none, [], none⟩,
    rfl, rfl, rfl, .of_frame frame hpiece fun x hx hbare =>
      ⟨.struct (.single own.length (.plain type x hx hbare own.length integer demand hdemanded)), trivial,
        ?_, fun chain => ?_⟩⟩
  · simp [Phrase.Definition.terminals, Phrase.Struct.terminals, Struct.single, Phrase.Field.terminals,
      Field.plain, frame, Frame.field, Frame.nameId, Phrase.optional]
    rfl
  · rw [Phrase.Definition.node, Struct.reindex_single, Field.relabel_plain, hvalue]
    rfl

/-- The name of a constant. -/
theorem readsNames_const (hpiece : Link.Piece type.terminals (raw.toList ++ [' ']) own) :
    ∃ (span : Span) (const : ThriftSyntax.Const), ReadsNames options ("const " ++ raw ++ " ") " = 1"
      (fun x => type.EndsBare → x ≠ "cpp_type") ⟨span, [.const const]⟩ := by
  let frame := Frame.const own.length
  refine ⟨_, ⟨⟨frame.place own.length, frame.place (own.length + 6)⟩, type.node.relabel frame.place, "",
      .scalar .integer "1" (.single (frame.place (own.length + 6))), none⟩,
    .of_frame frame hpiece fun x hx hbare =>
      ⟨.const (.plain type x hx hbare own.length), trivial, ?_, fun chain => ?_⟩⟩
  · simp [Phrase.Definition.terminals, Phrase.Const.terminals, Phrase.ConstValue.terminals, Const.plain,
      frame, Frame.const, Frame.nameId, Phrase.optional]
  · rw [Phrase.Definition.node, Definition.relabel, Const.relabel_plain]
    rfl

/-- The name of a type definition. -/
theorem readsNames_typedef (hpiece : Link.Piece type.terminals (raw.toList ++ [' ']) own)
    (hnamed : type.node.isNamed = false) :
    ∃ (span : Span) (typedef : ThriftSyntax.TypeDef), ReadsNames options ("typedef " ++ raw ++ " ") ""
      (fun x => type.EndsBare → x ≠ "cpp_type") ⟨span, [.typedef typedef]⟩ := by
  let frame := Frame.typedef own.length
  refine ⟨_, ⟨⟨frame.place own.length, frame.place (own.length + 2)⟩, type.node.relabel frame.place, "",
      [], none⟩,
    .of_frame frame hpiece fun x hx hbare =>
      ⟨.typedef (.plain type x hx hbare own.length hnamed), trivial, ?_, fun chain => ?_⟩⟩
  · simp [Phrase.Definition.terminals, Phrase.TypeDef.terminals, TypeDef.plain, frame, Frame.typedef,
      Frame.nameId, Phrase.optional]
  · rw [Phrase.Definition.node, Definition.relabel, TypeDef.relabel_plain]
    rfl

/-- The name of a function. -/
theorem readsNames_function {oneway : Option (Word .oneway)}
    (hpiece : Link.Piece (optional Leaf.terminals oneway ++ type.terminals) (raw.toList ++ [' ']) own)
    (hreturned : type.head.kind ≠ .keyword .void)
    (honewayed : oneway = none → type.head.kind ≠ .keyword .oneway) :
    ∃ (span : Span) (service : ThriftSyntax.Service) (function : ThriftSyntax.Function),
      function.oneway = oneway.isSome ∧
      function.result = some (type.node.relabel (Link.moved 6 own.length)) ∧
      ReadsNames options ("service S \x7b " ++ raw ++ " ") "() \x7d"
        (fun x => type.EndsBare → x ≠ "cpp_type")
        ⟨span, [.service { service with functions := ⟨[function], .empty⟩ }]⟩ := by
  let frame := Frame.function own.length
  refine ⟨_, ⟨⟨frame.place own.length, frame.place (own.length + 10)⟩, "S", none, .empty, []⟩,
    ⟨⟨frame.place (oneway.elim type.head (·.link)).id, frame.place (own.length + 8)⟩, oneway.isSome,
      some (type.node.relabel frame.place), "", .empty, none, [], none⟩,
    rfl, rfl, .of_frame frame hpiece fun x hx hbare =>
      ⟨.service (.single own.length (.plain type x hx hbare own.length oneway hreturned honewayed)), trivial,
        ?_, fun chain => ?_⟩⟩
  · simp [Phrase.Definition.terminals, Phrase.Service.terminals, Service.single, Phrase.Function.terminals,
      Function.plain, Result.terminals, FunctionTail.terminals, frame, Frame.function, Frame.nameId,
      Phrase.optional]
  · rw [Phrase.Definition.node, Service.reindex_single, Function.reindex_plain]
    rfl

end SyntaxTree

end ThriftSyntax
