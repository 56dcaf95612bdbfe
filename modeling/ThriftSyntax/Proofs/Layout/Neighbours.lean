import Mathlib.Data.List.Chain
import ThriftSyntax.Proofs.Completeness.ConstValue
import ThriftSyntax.Proofs.Derivation.Document

/-!
# Neighbours in the grammar

Which terminals may stand beside each other. A name that ends with a dot is read with the token after
it in view, and a string that stood there would be taken for a quotation mark; the grammar has no
such name before a string.
-/

namespace ThriftSyntax

namespace Terminal

/-- The tokens of a terminal are spelled as they should be and are neither trivia nor the end of the
input. -/
def Proper : Terminal → Prop
  | token link => Lexeme.Spells link.kind link.raw.toList ∧ link.kind.isTrivia = false ∧
      link.kind ≠ .endOfInput
  | name reserved words => words.Shaped reserved

theorem Proper.ne_endOfInput {x : Terminal} (h : x.Proper) :
    ∀ link ∈ x.links, link.kind ≠ .endOfInput := by
  cases x with
  | token link => simpa using h.2.2
  | name reserved words =>
    intro link hl
    rcases DottedName.Shaped.dot_or_word h link hl with hk | hk
    · simp [hk]
    · exact Kind.ne_endOfInput_of_isWord hk

def EndsWithDot : Terminal → Prop
  | token _ => False
  | name _ words => words.last.kind = .punct .dot

/-- What may come right after a terminal. -/
def Fits (x y : Terminal) : Prop := x.EndsWithDot → y.head.kind ≠ .string

end Terminal

/-- Terminals that may be written one after the other, and after any name. -/
structure Tidy (xs : List Terminal) : Prop where
  proper : ∀ x ∈ xs, x.Proper
  chain : xs.IsChain Terminal.Fits
  head : ∀ x ∈ xs.head?, x.head.kind ≠ .string

/-- Terminals that may stand before a string, and after what is no name. -/
structure Closed (xs : List Terminal) : Prop where
  proper : ∀ x ∈ xs, x.Proper
  ends : ∀ x ∈ xs, ¬ x.EndsWithDot

variable {xs ys : List Terminal}

namespace Tidy

theorem nil : Tidy [] := ⟨by simp, .nil, by simp⟩

theorem append (h : Tidy xs) (h' : Tidy ys) : Tidy (xs ++ ys) where
  proper x hx := (List.mem_append.1 hx).elim (h.proper x) (h'.proper x)
  chain := List.isChain_append.2 ⟨h.chain, h'.chain, fun _ _ y hy _ => h'.head y hy⟩
  head x hx := by
    cases xs with
    | nil => exact h'.head x hx
    | cons y xs => exact h.head x hx

theorem flatMap {α : Type} {items : List α} {terminals : α → List Terminal}
    (h : ∀ item ∈ items, Tidy (terminals item)) : Tidy (items.flatMap terminals) := by
  induction items with
  | nil => exact nil
  | cons item items ih =>
    obtain ⟨hitem, h⟩ := List.forall_mem_cons.1 h
    exact hitem.append (ih h)

theorem optional {α : Type} {terminals : α → List Terminal} {phrase : Option α}
    (h : ∀ item ∈ phrase, Tidy (terminals item)) : Tidy (Phrase.optional terminals phrase) := by
  cases phrase with
  | none => exact nil
  | some item => exact h item rfl

end Tidy

namespace Closed

theorem nil : Closed [] := ⟨by simp, by simp⟩

theorem append (h : Closed xs) (h' : Closed ys) : Closed (xs ++ ys) where
  proper x hx := (List.mem_append.1 hx).elim (h.proper x) (h'.proper x)
  ends x hx := (List.mem_append.1 hx).elim (h.ends x) (h'.ends x)

theorem flatMap {α : Type} {items : List α} {terminals : α → List Terminal}
    (h : ∀ item ∈ items, Closed (terminals item)) : Closed (items.flatMap terminals) := by
  induction items with
  | nil => exact nil
  | cons item items ih =>
    obtain ⟨hitem, h⟩ := List.forall_mem_cons.1 h
    exact hitem.append (ih h)

theorem tidy (h : Closed xs) (hhead : ∀ x ∈ xs.head?, x.head.kind ≠ .string) : Tidy xs where
  proper := h.proper
  chain := by
    refine (List.pairwise_of_forall_mem_list fun x hx y _ => ?_).isChain
    exact fun hdot => absurd hdot (h.ends x hx)
  head := hhead

end Closed

namespace Phrase

/-! ## Small phrases -/

theorem Leaf.closed {Fits : Kind → String → Prop} (leaf : Leaf Fits)
    (ht : leaf.link.kind.isTrivia = false) (he : leaf.link.kind ≠ .endOfInput) :
    Closed leaf.terminals where
  proper x hx := by
    obtain rfl := List.mem_singleton.1 hx
    exact ⟨leaf.spells, ht, he⟩
  ends x hx := by
    obtain rfl := List.mem_singleton.1 hx
    exact id

theorem closed_mark {mark : Punct} (leaf : Mark mark) : Closed leaf.terminals :=
  leaf.closed (by rw [leaf.fits]; rfl) (by simp [leaf.fits])

theorem tidy_mark {mark : Punct} (leaf : Mark mark) : Tidy leaf.terminals :=
  (closed_mark leaf).tidy (by rintro _ ⟨⟩; simp [leaf.fits])

theorem closed_word {word : Keyword} (leaf : Word word) : Closed leaf.terminals :=
  leaf.closed (by rw [leaf.fits]; rfl) (by simp [leaf.fits])

theorem tidy_word {word : Keyword} (leaf : Word word) : Tidy leaf.terminals :=
  (closed_word leaf).tidy (by rintro _ ⟨⟩; simp [leaf.fits])

theorem closed_particle {text : String} (leaf : Particle text) : Closed leaf.terminals :=
  leaf.closed (by rw [leaf.fits.1]; rfl) (by simp [leaf.fits.1])

theorem closed_literal (leaf : Literal) : Closed leaf.terminals :=
  leaf.closed (by rw [leaf.fits]; rfl) (by simp [leaf.fits])

theorem tidy_integer (leaf : Integer) : Tidy leaf.terminals :=
  (leaf.closed (by rw [leaf.fits.1]; rfl) (by simp [leaf.fits.1])).tidy
    (by rintro _ ⟨⟩; simp [leaf.fits.1])

theorem tidy_name {reserved : Bool} (name : Name reserved) : Tidy name.terminals where
  proper x hx := by
    obtain rfl := List.mem_singleton.1 hx
    exact name.shaped
  chain := .singleton _
  head := by
    rintro _ ⟨⟩ hk
    rw [Terminal.head_name] at hk
    rcases name.starts with h | h <;> rw [hk] at h <;> cases h

/-- A string, or a value that may begin with one, stands after a token. -/
theorem tidy_before {Fits : Kind → String → Prop} {leaf : Leaf Fits} (hleaf : Tidy leaf.terminals)
    (hleaf' : Closed leaf.terminals) (h : Closed xs) : Tidy (leaf.terminals ++ xs) :=
  (hleaf'.append h).tidy (by rintro x ⟨⟩; exact hleaf.head _ rfl)

theorem closed_separator (separator : Option Separator) :
    Closed (optional Leaf.terminals separator) := by
  cases separator with
  | none => exact .nil
  | some separator =>
    refine separator.closed ?_ ?_ <;> rcases separator.fits with h | h <;> simp [h, Kind.isTrivia]

theorem tidy_separator (separator : Option Separator) :
    Tidy (optional Leaf.terminals separator) := by
  refine (closed_separator separator).tidy ?_
  cases separator with
  | none => simp [Phrase.optional]
  | some separator =>
    rintro _ ⟨⟩
    rcases separator.fits with h | h <;> simp [h]

/-! ## Annotations, types and values -/

theorem Annotation.tidy (phrase : Annotation) : Tidy phrase.terminals :=
  (tidy_name phrase.name).append
    (tidy_before (tidy_mark phrase.equals) (closed_mark phrase.equals) (closed_literal phrase.literal))

theorem tidy_annotations (phrase : Annotations) : Tidy phrase.terminals :=
  (tidy_mark phrase.opening).append ((Tidy.flatMap fun item _ =>
    item.phrase.tidy.append (tidy_separator item.separator)).append
      (tidy_mark phrase.closing))

theorem tidy_annotations? (phrase : Option Annotations) :
    Tidy (optional Annotations.terminals phrase) :=
  .optional fun item _ => tidy_annotations item

theorem tidy_cppType? (phrase : Option CppType) : Tidy (optional CppType.terminals phrase) := by
  refine .optional fun item _ => ?_
  have hparticle := closed_particle item.particle
  refine tidy_before (hparticle.tidy ?_) hparticle (closed_literal item.literal)
  rintro _ ⟨⟩
  simp [item.particle.fits.1]

theorem tidy_fieldType (type : FieldType) : Tidy type.terminals := by
  induction type with
  | simple name names annotations => exact (tidy_name name).append (tidy_annotations? annotations)
  | map word isMap cppType less key comma value greater annotations ihkey ihvalue =>
    exact (tidy_name word).append ((tidy_cppType? cppType).append ((tidy_mark less).append
      (ihkey.append ((tidy_mark comma).append (ihvalue.append ((tidy_mark greater).append
        (tidy_annotations? annotations)))))))
  | set word isSet cppType less element greater annotations ih =>
    exact (tidy_name word).append ((tidy_cppType? cppType).append ((tidy_mark less).append
      (ih.append ((tidy_mark greater).append (tidy_annotations? annotations)))))
  | list word isList less element greater cppType annotations ih =>
    exact (tidy_name word).append ((tidy_mark less).append (ih.append ((tidy_mark greater).append
      ((tidy_cppType? cppType).append (tidy_annotations? annotations)))))

theorem closed_constValue (value : ConstValue) : Closed value.terminals := by
  induction value using ConstValue.induction with
  | number numeral =>
    exact numeral.closed (by rw [numeral.fits]; rfl) (by simp [numeral.fits])
  | string literal => exact closed_literal literal
  | name reference proper =>
    refine ⟨(tidy_name reference).proper, fun x hx hdot => ?_⟩
    obtain rfl := List.mem_singleton.1 hx
    have hkind := proper.2.symm.trans hdot
    cases hkind
  | list opening items closing ih =>
    rw [ConstValue.terminals, ConstValue.itemsTerminals_eq]
    exact (closed_mark opening).append ((Closed.flatMap fun item hitem =>
      (ih item hitem).append (closed_separator item.separator)).append (closed_mark closing))
  | map opening entries closing ih =>
    rw [ConstValue.terminals, ConstValue.entriesTerminals_eq]
    exact (closed_mark opening).append ((Closed.flatMap fun entry hentry =>
      (ih entry hentry).1.append ((closed_mark entry.2.1).append
        ((ih entry hentry).2.append (closed_separator entry.2.2.separator)))).append
          (closed_mark closing))

/-- A value stands after an equals sign. -/
theorem tidy_assigned (equals : Mark .equals) (value : ConstValue) :
    Tidy (equals.terminals ++ value.terminals) :=
  tidy_before (tidy_mark equals) (closed_mark equals) (closed_constValue value)

/-! ## Definitions -/

theorem tidy_field (phrase : Field) : Tidy phrase.terminals :=
  (tidy_integer phrase.id).append ((tidy_mark phrase.colon).append
    ((Tidy.optional fun demand _ => tidy_word demand.word).append
      ((tidy_fieldType phrase.type).append ((tidy_name phrase.name).append
        ((Tidy.optional fun item _ => tidy_assigned item.equals item.value).append
          ((tidy_annotations? phrase.annotations).append (tidy_separator phrase.separator)))))))

theorem tidy_fields (phrases : List Field) : Tidy (phrases.flatMap Field.terminals) :=
  .flatMap fun phrase _ => tidy_field phrase

theorem tidy_throws (phrase : Throws) : Tidy phrase.terminals :=
  (tidy_word phrase.word).append ((tidy_mark phrase.opening).append
    ((tidy_fields phrase.fields).append (tidy_mark phrase.closing)))

theorem tidy_functionTail (tail : FunctionTail) : Tidy tail.terminals := by
  cases tail with
  | none => exact .nil
  | annotated annotations throws =>
    exact (tidy_annotations annotations).append (.optional fun item _ => tidy_throws item)
  | throwing throws annotations =>
    exact (tidy_throws throws).append (tidy_annotations? annotations)

theorem tidy_result (result : Result) : Tidy result.terminals := by
  cases result with
  | void word => exact tidy_word word
  | type type => exact tidy_fieldType type

theorem tidy_function (phrase : Function) : Tidy phrase.terminals :=
  (Tidy.optional fun word _ => tidy_word word).append ((tidy_result phrase.result).append
    ((tidy_name phrase.name).append ((tidy_mark phrase.opening).append
      ((tidy_fields phrase.args).append ((tidy_mark phrase.closing).append
        ((tidy_functionTail phrase.tail).append (tidy_separator phrase.separator)))))))

theorem tidy_service (phrase : Service) : Tidy phrase.terminals := by
  refine (tidy_word phrase.word).append ((tidy_name phrase.name).append
    ((Tidy.optional fun base _ => ?_).append ((tidy_mark phrase.opening).append
      ((Tidy.flatMap fun item _ => tidy_function item).append
        ((tidy_mark phrase.closing).append (tidy_annotations? phrase.annotations))))))
  refine ((closed_particle base.particle).tidy ?_).append (tidy_name base.name)
  rintro _ ⟨⟩
  simp [base.particle.fits.1]

theorem tidy_scope (scope : Scope) : Tidy scope.terminals := by
  cases scope with
  | all star => exact tidy_mark star
  | name scope => exact tidy_name scope

theorem tidy_enumElement (phrase : EnumElement) : Tidy phrase.terminals :=
  (tidy_name phrase.name).append ((Tidy.optional fun assigned _ =>
    (tidy_mark assigned.equals).append (tidy_integer assigned.number)).append
      ((tidy_annotations? phrase.annotations).append (tidy_separator phrase.separator)))

theorem tidy_definition (phrase : Definition) : Tidy phrase.terminals := by
  cases phrase with
  | namespaced phrase =>
    exact (tidy_word phrase.word).append ((tidy_scope phrase.scope).append
      ((tidy_name phrase.target).append (tidy_annotations? phrase.annotations)))
  | included phrase =>
    exact tidy_before (tidy_word phrase.word) (closed_word phrase.word) (closed_literal phrase.path)
  | const phrase =>
    have hvalue := (tidy_assigned phrase.equals phrase.value).append
      (tidy_separator phrase.separator)
    rw [List.append_assoc] at hvalue
    exact (tidy_word phrase.word).append ((tidy_fieldType phrase.type).append
      ((tidy_name phrase.name).append hvalue))
  | typedef phrase =>
    exact (tidy_word phrase.word).append ((tidy_fieldType phrase.type).append
      ((tidy_name phrase.name).append ((tidy_annotations? phrase.annotations).append
        (tidy_separator phrase.separator))))
  | enum phrase =>
    exact (tidy_word phrase.word).append ((tidy_name phrase.name).append
      ((tidy_mark phrase.opening).append ((Tidy.flatMap fun item _ => tidy_enumElement item).append
        ((tidy_mark phrase.closing).append (tidy_annotations? phrase.annotations)))))
  | struct phrase =>
    exact (tidy_word phrase.word).append ((tidy_name phrase.name).append
      ((tidy_mark phrase.opening).append ((tidy_fields phrase.fields).append
        ((tidy_mark phrase.closing).append (tidy_annotations? phrase.annotations)))))
  | service phrase => exact tidy_service phrase

theorem tidy_definitions (phrases : List Definition) :
    Tidy (phrases.flatMap Definition.terminals) :=
  .flatMap fun phrase _ => tidy_definition phrase

end Phrase

end ThriftSyntax
