import ThriftSyntax.Proofs.TypedName.Refused

/-!
# Texts in which no name is read after a type

The smallest texts with a name after a type, in a field, a constant, a type definition and a function: when
they are refused, whatever the name is or for one name only.
-/

namespace ThriftSyntax

open Lexeme Parse Phrase

/-- Where a name stands after a type. -/
inductive NamePlace where
  | field | const | typedef | function
deriving DecidableEq, Repr

namespace NamePlace

def before : NamePlace → String
  | field => "struct S \x7b 1: "
  | const => "const "
  | typedef => "typedef "
  | function => "service S \x7b "

def after : NamePlace → String
  | field => " \x7d"
  | const => " = 1"
  | typedef => ""
  | function => "() \x7d"

/-- The smallest document with a name after a type there. -/
def text (place : NamePlace) (type name : String) : String :=
  place.before ++ type ++ " " ++ name ++ place.after

theorem text_eq (place : NamePlace) (type name : String) :
    place.text type name = place.before ++ (type ++ " " ++ name ++ place.after) := by
  simp only [text, String.append_assoc]

theorem after_line (place : NamePlace) : ∀ c ∈ place.after.toList, isLineBreak c = false := by
  cases place <;> simp [after, isLineBreak]

end NamePlace

/-- A name has no line break. -/
theorem Lexeme.Spells.line_of_ident {raw : List Char} (h : Spells .ident raw) :
    ∀ c ∈ raw, isLineBreak c = false := by
  have hword : ∀ c, startsWord c = true ∨ continuesWord c = true → isLineBreak c = false := fun c hc => by
    rw [Bool.eq_false_iff]
    intro hbreak
    have hchar : c = '\n' ∨ c = '\r' := by simpa [isLineBreak] using hbreak
    rcases hchar with rfl | rfl <;> exact absurd hc (by decide)
  cases h with
  | ident hc ht hn => exact List.forall_mem_cons.2 ⟨hword _ (.inl hc), fun d hd => hword d (.inr (ht d hd))⟩

theorem Lexeme.Spells.ne_keyword {x : String} (h : Spells .ident x.toList) (word : Keyword) :
    x ≠ word.text := by
  generalize hraw : x.toList = raw at h
  cases h with
  | ident hc ht hn =>
    rintro rfl
    rw [← hraw, String.ofList_toList, Keyword.ofText?_eq_some_iff.2 rfl] at hn
    cases hn

/-- Any name is a type too. -/
theorem Phrase.namesType_ofText {x : String} (id : Nat) (hx : Spells .ident x.toList) :
    NamesType (Name.ofText id x hx : Name true).words := by
  refine ⟨?_, .inr fun hkeyword => ?_⟩
  · rw [Name.text_ofText]
    exact ⟨hx.ne_keyword .map, hx.ne_keyword .set, hx.ne_keyword .list⟩
  · exact absurd hkeyword.2 (by simp [Kind.isKeyword])

namespace SyntaxTree

variable (options : Options) {type : Phrase.FieldType} {raw more : String} {own : List Link}

/-- The first number of a field. -/
def oneInteger (id : Nat) : Integer :=
  ⟨⟨id, .number, "1", .start⟩, spells_one, rfl, show (Numeral.integer? "1").isSome by decide⟩

theorem error_of_field {xs : List Terminal} (hcut : Link.Cut xs more.toList [] own)
    (h : ∀ s, Refuses s Grammar.field
      ((oneInteger 6).terminals ++ ((markAt .colon 7).terminals ++ xs))) :
    ∃ error, ofText (NamePlace.field.before ++ more) options = .error error := by
  refine error_of_cut options (.field 0 (oneInteger 6) rfl) hcut fun s => ?_
  simp only [Frame.field, List.append_assoc]
  refine Grammar.document_refuses_definition (wordAt .struct 0) fun head hhead => ?_
  rw [Grammar.definition, hhead]
  have hone : (Terminal.token (oneInteger 6).link).head.kind ≠ .punct .rightBrace := by
    rw [Terminal.head_token, (oneInteger 6).fits.1]
    decide
  exact (Grammar.struct_refuses (ownerAt 2) (markAt .leftBrace 4) ⟨_, _, rfl, hone⟩ (h s)).map

theorem error_of_functions {xs : List Terminal} (hcut : Link.Cut xs more.toList [] own)
    (h : ∀ s, Refuses s (Grammar.itemsUntil .rightBrace Grammar.function) xs) :
    ∃ error, ofText (NamePlace.function.before ++ more) options = .error error := by
  refine error_of_cut options (.function 0) hcut fun s => ?_
  simp only [Frame.function, List.append_assoc]
  refine Grammar.document_refuses_definition (wordAt .service 0) fun head hhead => ?_
  rw [Grammar.definition, hhead]
  exact (Grammar.service_refuses (ownerAt 2) (markAt .leftBrace 4) (h s)).map

theorem error_of_const {xs : List Terminal} (hcut : Link.Cut xs more.toList [] own)
    (h : ∀ s keyword, Refuses s (Grammar.const keyword) xs) :
    ∃ error, ofText (NamePlace.const.before ++ more) options = .error error := by
  refine error_of_cut options (.const 0) hcut fun s =>
    Grammar.document_refuses_definition (wordAt .const 0) fun head hhead => ?_
  rw [Grammar.definition, hhead]
  exact (h s head).map

theorem error_of_typedef {xs : List Terminal} (hcut : Link.Cut xs more.toList [] own)
    (h : ∀ s keyword, Refuses s (Grammar.typedef keyword) xs) :
    ∃ error, ofText (NamePlace.typedef.before ++ more) options = .error error := by
  refine error_of_cut options (.typedef 0) hcut fun s =>
    Grammar.document_refuses_definition (wordAt .typedef 0) fun head hhead => ?_
  rw [Grammar.definition, hhead]
  exact (h s head).map

/-- The result `void` of a function takes up the first word of a name that begins so. -/
theorem error_of_void {ys : List Terminal} (hvoid : type.head.kind = .keyword .void)
    (hcut : Link.Cut (type.terminals ++ ys) more.toList [] own)
    (hys : Next (fun kind => kind.Fresh ∧ kind ≠ .keyword .throws) ys)
    (h : ∀ s, Refuses s (Grammar.itemsUntil .rightBrace Grammar.function) ys) :
    ∃ error, ofText (NamePlace.function.before ++ more) options = .error error := by
  obtain ⟨leaf, dot, tail, shaped, names, annotations, rfl⟩ :=
    FieldType.eq_simple_of_head (.inr (.inr (.inr rfl))) hvoid
  obtain ⟨name, rest, hrest, hlaid⟩ := exists_unreserved leaf.link (shaped.tail (by simp [leaf.fits]))
    (List.forall_mem_cons.1 shaped.spells).2
  have hcut' : Link.Cut ([.name true ⟨leaf.link, dot :: tail⟩] ++
      (optional Annotations.terminals annotations ++ ys)) more.toList [] own := by
    simpa [FieldType.terminals, Name.terminals] using hcut
  have hrelaid : Link.Cut (leaf.terminals ++ (name.terminals ++ rest.map .token) ++
      (optional Annotations.terminals annotations ++ ys)) more.toList [] own :=
    hcut'.relaid fun hback => by simpa [Leaf.terminals] using hlaid hback
  rw [List.append_assoc, List.append_assoc] at hrelaid
  exact error_of_functions options hrelaid fun s =>
    Grammar.functions_refuse_void leaf name annotations hrest hys (h s)

/-- Where a comment takes in the name, nothing is read. -/
theorem error_of_comment (place : NamePlace) {ending : Ending}
    (hcut : Link.Cut (type.terminals ++ ending.terminals) more.toList [] own) :
    ∃ error, ofText (place.before ++ more) options = .error error := by
  cases place with
  | const => exact error_of_const options hcut fun _ _ => Grammar.const_refuses ending
  | typedef => exact error_of_typedef options hcut fun _ _ => Grammar.typedef_refuses_ending ending
  | field =>
    obtain ⟨demand, rest, hdemand, hsplits, -⟩ := type.exists_demand
    have hrelaid := hcut.relaid hsplits.laid
    rw [List.append_assoc] at hrelaid
    exact error_of_field options hrelaid fun s =>
      Grammar.field_refuses (oneInteger 6) (markAt .colon 7) demand hdemand ending
  | function =>
    by_cases hvoid : type.head.kind = .keyword .void
    · have hnext : ∀ {P : Kind → Prop}, P .endOfInput → Next P ending.terminals := next_ending ending
      refine error_of_void options hvoid hcut (hnext ⟨by constructor <;> simp, by simp⟩) fun s => ?_
      exact Grammar.itemsUntil_refuses (by decide) (hnext (by simp))
        (Grammar.function_refuses (startsName_ending ending))
    · obtain ⟨oneway, rest, honeway, hresult, hsplits, -⟩ := type.exists_oneway
      have hrelaid := hcut.relaid hsplits.laid
      rw [List.append_assoc] at hrelaid
      have hend : ¬ ending.link.kind.StartsName := by
        rw [ending.fits]
        exact Kind.not_startsName_endOfInput
      exact error_of_functions options hrelaid fun s =>
        Grammar.functions_refuse_result oneway (.type rest (hresult hvoid)) honeway
          (rest.stopsBefore_ending ending) (by simp [ending.fits]) hend

/-- A type that has a name is given no other. -/
theorem error_of_named {x : String} (hpiece : Link.Piece type.terminals (raw.toList ++ [' ']) own)
    (hnamed : type.node.isNamed = true) (hx : Spells .ident x.toList) :
    ∃ error, ofText (NamePlace.typedef.text raw x) options = .error error := by
  have hs : type.StopsBefore (Terminal.name true (Name.ofText 0 x hx : Name true).words).head := by
    refine FieldType.stopsBefore_of_ne fun hbare => ?_
    cases type <;> first | exact hbare.elim | cases hnamed
  rw [NamePlace.text_eq]
  exact error_of_typedef options ((Frame.typedef 0).cut_named true 0 hpiece hx) fun _ _ =>
    Grammar.typedef_refuses_named hnamed (by simp) hs

/-- A name with its parentheses, as a type. -/
def typeOfName (x : String) (hx : Spells .ident x.toList) : Phrase.FieldType :=
  .simple (Name.ofText 0 x hx) (namesType_ofText 0 hx) (some ⟨markAt .leftParen 7, [], markAt .rightParen 8⟩)

/-- A name that begins with `void` is followed by no other. -/
theorem error_of_named_void {x : String} (hpiece : Link.Piece type.terminals (raw.toList ++ [' ']) own)
    (hvoid : type.head.kind = .keyword .void) (hx : Spells .ident x.toList) :
    ∃ error, ofText (NamePlace.function.text raw x) options = .error error := by
  -- What follows the function that is read before the name is that name with its parentheses.
  have hhead : (typeOfName x hx).head.kind = .ident := rfl
  have hrefuses : ∀ s, Refuses s (Grammar.itemsUntil .rightBrace Grammar.function)
      ((typeOfName x hx).terminals ++ ((markAt .rightBrace 10).terminals ++ (endAt 11).terminals)) := fun s =>
    Grammar.functions_refuse_type (typeOfName x hx) (by simp [hhead]) (markAt .rightBrace 10)
  have hfresh : Kind.Fresh .ident := by constructor <;> simp
  rw [NamePlace.text_eq]
  refine error_of_void options hvoid ((Frame.function 0).cut_named true 0 hpiece hx)
    ⟨_, _, rfl, by simpa using hfresh⟩ fun s => ?_
  simpa [typeOfName, Frame.function, FieldType.terminals, Annotations.terminals, Phrase.optional]
    using hrefuses s

theorem spells_cppType : Spells .ident "cpp_type".toList :=
  .ident (by decide) (List.all_eq_true.1 (by decide)) (by decide)

/-- The word that is read before a string. -/
def cppTypeAt (id : Nat) : Particle "cpp_type" := ⟨⟨id, .ident, "cpp_type", .start⟩, spells_cppType, rfl, rfl⟩

/-- A list that ends with its angle bracket takes in the name `cpp_type`. -/
theorem error_of_bare (place : NamePlace) (hpiece : Link.Piece type.terminals (raw.toList ++ [' ']) own)
    (hbare : type.EndsBare) : ∃ error, ofText (place.text raw "cpp_type") options = .error error := by
  have hcut : ∀ frame : Frame 0, ∃ own, Link.Cut (type.terminals ++ ((cppTypeAt 0).terminals ++
      (frame.closing ++ frame.ending.terminals))) (raw ++ " " ++ "cpp_type" ++ frame.after).toList [] own :=
    fun frame => ⟨_, frame.cut_within hpiece
      (.leaf (cppTypeAt 0) (.of_halts frame.halts (by rintro ⟨⟩) (by rintro ⟨⟩)) rfl)⟩
  have hhead : ∀ {word : Keyword}, word.Precedes → type.head.kind ≠ .keyword word :=
    FieldType.head_ne_of_endsBare hbare
  obtain ⟨x, xs, hx, hxhead⟩ := type.exists_terminals
  rw [← hxhead] at hhead
  rw [NamePlace.text_eq]
  cases place with
  | field =>
    obtain ⟨own, hcut⟩ := hcut (.field 0 (oneInteger 6) rfl)
    exact error_of_field options hcut fun s =>
      Grammar.field_refuses_type (oneInteger 6) (markAt .colon 7)
        ⟨x, _, by rw [hx]; rfl, hhead (.inl rfl), hhead (.inr (.inl rfl))⟩
        (Grammar.fieldType_refuses_mark hbare (cppTypeAt 0) (markAt .rightBrace 11) (by simp) (by simp))
  | const =>
    obtain ⟨own, hcut⟩ := hcut (.const 0)
    exact error_of_const options hcut fun s keyword =>
      (Grammar.fieldType_refuses_mark hbare (cppTypeAt 0) (markAt .equals 4) (by simp) (by simp)).bind
  | typedef =>
    obtain ⟨own, hcut⟩ := hcut (.typedef 0)
    exact error_of_typedef options hcut fun s keyword =>
      (Grammar.fieldType_refuses hbare (cppTypeAt 0) (next_ending (endAt 3) (by simp))).bind.bind
  | function =>
    obtain ⟨own, hcut⟩ := hcut (.function 0)
    exact error_of_functions options hcut fun s =>
      Grammar.functions_refuse_result_type ⟨x, _, by rw [hx]; rfl, hxhead ▸ Grammar.startsName_type type,
        hhead (.inr (.inr (.inr rfl))), hhead (.inr (.inr (.inl rfl)))⟩
        (Grammar.fieldType_refuses_mark hbare (cppTypeAt 0) (markAt .leftParen 7) (by simp) (by simp))

end SyntaxTree

end ThriftSyntax
