import ThriftSyntax.Proofs.Soundness.Definition
import ThriftSyntax.Proofs.Viability.Service

/-!
# Beginnings of definitions and documents

What is read before a refused token is the beginning of a document, but for one case: a type definition may
have begun the annotations of a named type. The type is refused only once its annotations are read.
-/

namespace ThriftSyntax

namespace Phrase

/-- A type definition that goes as far as into the annotations of a named type. -/
structure NamedAlias where
  word : Word .typedef
  name : Name true
  names : NamesType name.words
  named : BaseType.ofText? name.words.text = none
  annotations : Annotations
  inside : List Terminal
  begun : inside <+: annotations.items.flatMap (·.terminals Annotation.terminals)

namespace NamedAlias

/-- The terminals up to where the annotations end for now. -/
def terminals (phrase : NamedAlias) : List Terminal :=
  phrase.word.terminals ++
    (phrase.name.terminals ++ (phrase.annotations.opening.terminals ++ phrase.inside))

/-- The type with all its annotations. -/
def type (phrase : NamedAlias) : FieldType :=
  .simple phrase.name phrase.names (some phrase.annotations)

theorem terminals_prefix (phrase : NamedAlias) :
    phrase.terminals <+: phrase.word.terminals ++ phrase.type.terminals := by
  refine (List.prefix_append_right_inj _).2 ((List.prefix_append_right_inj _).2 ?_)
  exact (List.prefix_append_right_inj _).2 (phrase.begun.trans (List.prefix_append _ _))

theorem node_type (phrase : NamedAlias) :
    ∃ span annotations, phrase.type.node = .named phrase.name.words.text span annotations := by
  rw [type, FieldType.node, FieldType.ofName, phrase.named]
  exact ⟨_, _, rfl⟩

end NamedAlias

/-- The terminals are the beginning of a definition, or of one that gives a named type another name. -/
def DefinitionBegun (trailing : TrailingSeparator) (xs : List Terminal) : Prop :=
  (∃ phrase : Definition, phrase.Allowed trailing ∧ xs <+: phrase.terminals) ∨
    ∃ phrase : NamedAlias, xs = phrase.terminals

/-- Whole definitions come before the one that was begun last. -/
def DocumentBegun (trailing : TrailingSeparator) (xs : List Terminal) : Prop :=
  ∃ definitions : List Definition, (∀ phrase ∈ definitions, phrase.Allowed trailing) ∧
    (xs <+: definitions.flatMap Definition.terminals ∨
      ∃ phrase : NamedAlias, xs = definitions.flatMap Definition.terminals ++ phrase.terminals)

theorem DefinitionBegun.document {trailing : TrailingSeparator} {xs : List Terminal}
    (h : DefinitionBegun trailing xs) : DocumentBegun trailing xs := by
  rcases h with ⟨phrase, hallowed, hxs⟩ | ⟨phrase, rfl⟩
  · exact ⟨[phrase], by simpa using hallowed, .inl (by simpa using hxs)⟩
  · exact ⟨[], by simp, .inr ⟨phrase, rfl⟩⟩

theorem DocumentBegun.next {trailing : TrailingSeparator} {xs : List Terminal} {definition : Definition}
    (hallowed : definition.Allowed trailing) (h : DocumentBegun trailing xs) :
    DocumentBegun trailing (definition.terminals ++ xs) := by
  obtain ⟨definitions, hall, h⟩ := h
  refine ⟨definition :: definitions, List.forall_mem_cons.2 ⟨hallowed, hall⟩, ?_⟩
  rw [List.flatMap_cons, List.prefix_append_right_inj]
  rcases h with h | ⟨phrase, rfl⟩
  · exact .inl h
  · exact .inr ⟨phrase, (List.append_assoc _ _ _).symm⟩

end Phrase

namespace Grammar

open Parse Reader Phrase

variable {start reader between : Reader} {keyword : Link}

/-! ## Definitions -/

theorem scope_viable (hr : reader.Valid) : reader.Viable (· = []) (scope reader) := by
  refine .bind (.lexical (lexical_mark? .star)) fun _ r₁ h₁ => ?_
  rcases mark?_sound (by decide) hr h₁ with ⟨rfl, hreads, -⟩ | ⟨star, rfl, -⟩
  · exact .bind ((name_viable true).viable hreads rfl) fun _ _ _ => .lexical (lexical_pure _)
  · exact .lexical (lexical_pure _)

theorem namespaced_viable {trailing : TrailingSeparator} (htook : start.Took keyword between)
    (hk : keyword.kind = .keyword .namespace) :
    start.Viable (fun xs => ∃ phrase : Phrase.Namespace,
        (∀ annotations ∈ phrase.annotations, annotations.Untrailed) ∧ xs <+: phrase.terminals)
      (namespaced trailing keyword between) := by
  obtain ⟨word, -, hword⟩ := word_reads htook hk
  refine .bind ((scope_viable hword.valid).after hword ?_) fun _ r₁ h₁ => ?_
  · rintro _ rfl
    refine ⟨⟨word, .name (.sample true), .sample true, none⟩, by simp, ?_⟩
    simp [Phrase.Namespace.terminals]
  obtain ⟨scope, -, hscope⟩ := scope_sound hword.valid h₁
  have hreads := hword.trans hscope
  refine .bind ((name_viable true).viable hreads ⟨⟨word, scope, .sample true, none⟩, by simp, ?_⟩)
    fun _ r₂ h₂ => ?_
  · simp [Phrase.Namespace.terminals]
  obtain ⟨target, rfl, htarget⟩ := name_sound hscope.valid h₂
  have hreads := hreads.trans htarget
  refine .bind ((trailingAnnotations_viable _ trailing htarget.valid).after hreads ?_)
    fun _ _ _ => .lexical (lexical_spanned ..)
  rintro xs ⟨annotations, inside, hopen⟩
  refine ⟨⟨word, scope, target, some annotations⟩, by simpa using hopen.untrailed, ?_⟩
  simpa [Phrase.Namespace.terminals, Phrase.optional] using hopen.begins

theorem included_viable (form : IncludeForm) (htook : start.Took keyword between)
    (hk : keyword.kind = .keyword (includeWord form)) :
    start.Viable (Begins Phrase.Include.terminals) (included form keyword between) := by
  obtain ⟨word, -, hword⟩ := word_reads htook hk
  exact .bind (string_viable.viable hword ⟨⟨form, word, Leaf.sampleLiteral⟩, List.prefix_append _ _⟩)
    fun _ _ _ => .lexical (lexical_spanned ..)

theorem const_viable (htook : start.Took keyword between) (hk : keyword.kind = .keyword .const) :
    start.Viable (Begins Phrase.Const.terminals) (const keyword between) := by
  obtain ⟨word, -, hword⟩ := word_reads htook hk
  refine .bind ((fieldType_viable hword.valid).after hword fun xs hxs => ?_) fun _ r₁ h₁ => ?_
  · obtain ⟨type, hxs⟩ := hxs.begins
    refine ⟨⟨word, type, .sample false, .ofMark .equals, .sample, none, type.stopsBefore_sample⟩, ?_⟩
    exact (List.prefix_append_right_inj _).2 (List.prefix_append_of_prefix hxs)
  obtain ⟨type, -, htype, hstops⟩ := fieldType_sound hword.valid h₁
  have hreads := hword.trans htype
  refine .bind ((name_viable false).viable hreads ⟨⟨word, type, .sample false, .ofMark .equals, .sample,
    none, type.stopsBefore_sample⟩, ?_⟩) fun _ r₂ h₂ => ?_
  · simp [Phrase.Const.terminals]
  obtain ⟨name, rfl, hname⟩ := name_sound htype.valid h₂
  have hstops := hstops.head (x := .name false name.words) hname
  have hreads := hreads.trans hname
  refine .bind ((mark_viable .equals).viable hreads ⟨⟨word, type, name, .ofMark .equals, .sample, none,
    hstops⟩, ?_⟩) fun _ r₃ h₃ => ?_
  · simp [Phrase.Const.terminals]
  obtain ⟨equals, -, hequals⟩ := mark_sound hname.valid h₃
  have hreads := hreads.trans hequals
  refine .bind ((constValue_viable hequals.valid).after hreads ?_) fun _ _ _ =>
    .bind (.lexical lexical_separator?) fun _ _ _ => .lexical (lexical_spanned ..)
  rintro xs ⟨value, hxs⟩
  refine ⟨⟨word, type, name, equals, value, none, hstops⟩, ?_⟩
  simpa [Phrase.Const.terminals, Phrase.optional] using hxs

theorem aliasedType_viable (hr : reader.Valid) :
    reader.Viable Phrase.FieldType.Begun (aliasedType reader) := by
  refine .bind (fieldType_viable hr) fun type r₁ h₁ => ?_
  cases type with
  | named name span annotations =>
    exact .bind (.lexical (lexical_token _)) fun _ _ _ => by rintro _ _ _ _ ⟨⟩
  | _ => exact .lexical (lexical_pure _)

theorem typedef_viable (htook : start.Took keyword between) (hk : keyword.kind = .keyword .typedef) :
    start.Viable (fun xs => Begins Phrase.TypeDef.terminals xs ∨ ∃ phrase : NamedAlias, xs = phrase.terminals)
      (typedef keyword between) := by
  obtain ⟨word, -, hword⟩ := word_reads htook hk
  refine .bind ((aliasedType_viable hword.valid).after hword fun xs hxs => ?_) fun _ r₁ h₁ => ?_
  · cases hxs with
    | unnamed type hnamed hxs =>
      refine .inl ⟨⟨word, type, .sample true, none, none, hnamed, type.stopsBefore_sample⟩, ?_⟩
      exact (List.prefix_append_right_inj _).2 (List.prefix_append_of_prefix hxs)
    | named name names hnamed annotations inside ys hopen hxs =>
      have hbegun := hopen.begun
      rw [hxs, hopen.eq]
      exact .inr ⟨⟨word, name, names, hnamed, annotations, inside, hbegun⟩, rfl⟩
  obtain ⟨type, rfl, hnamed, htype, hstops⟩ := aliasedType_sound hword.valid h₁
  have hreads := hword.trans htype
  refine .bind ((name_viable true).viable hreads (.inl ⟨⟨word, type, .sample true, none, none, hnamed,
    type.stopsBefore_sample⟩, ?_⟩)) fun _ r₂ h₂ => ?_
  · simp [Phrase.TypeDef.terminals]
  obtain ⟨name, rfl, hname⟩ := name_sound htype.valid h₂
  have hstops := hstops.head (x := .name true name.words) hname
  have hreads := hreads.trans hname
  refine .bind ((trailingAnnotations_viable _ .allow hname.valid).after hreads ?_) fun _ _ _ =>
    .bind (.lexical lexical_separator?) fun _ _ _ => .lexical (lexical_spanned ..)
  rintro xs ⟨annotations, inside, hopen⟩
  refine .inl ⟨⟨word, type, name, some annotations, none, hnamed, hstops⟩, ?_⟩
  simpa [Phrase.TypeDef.terminals, Phrase.optional] using hopen.begins

theorem assigned?_viable (hr : reader.Valid) :
    reader.Viable (Begins Assigned.terminals) (assigned? reader) := by
  refine .bind (.lexical (lexical_mark? .equals)) fun _ r₁ h₁ => ?_
  rcases mark?_sound (by decide) hr h₁ with ⟨rfl, -⟩ | ⟨equals, rfl, hequals⟩
  · exact .lexical (lexical_pure none)
  · exact .map (integer_viable.viable hequals ⟨⟨equals, Leaf.sampleInteger⟩, List.prefix_append _ _⟩)

theorem enumElement_viable (hr : reader.Valid) :
    reader.Viable (Begins Phrase.EnumElement.terminals) (enumElement reader) := by
  refine .bind ((name_viable false).viable (.refl hr) ⟨⟨.sample false, none, none, none⟩,
    List.nil_prefix⟩) fun _ r₁ h₁ => ?_
  obtain ⟨name, rfl, hname⟩ := name_sound hr h₁
  refine .bind ((assigned?_viable hname.valid).after hname ?_) fun _ r₂ h₂ => ?_
  · rintro xs ⟨assigned, hxs⟩
    refine ⟨⟨name, some assigned, none, none⟩, ?_⟩
    exact (List.prefix_append_right_inj _).2 (List.prefix_append_of_prefix hxs)
  obtain ⟨assigned, -, hassigned⟩ := assigned?_sound hname.valid h₂
  have hreads := hname.trans hassigned
  refine .bind ((trailingAnnotations_viable _ .allow hassigned.valid).after hreads ?_) fun _ _ _ =>
    .bind (.lexical lexical_separator?) fun _ _ _ => .lexical (lexical_spanned ..)
  rintro xs ⟨annotations, inside, hopen⟩
  refine ⟨⟨name, assigned, some annotations, none⟩, ?_⟩
  simpa [Phrase.EnumElement.terminals, Phrase.optional] using hopen.begins

theorem enum_viable {numbering : Numbering} (htook : start.Took keyword between)
    (hk : keyword.kind = .keyword .enum) :
    start.Viable (Begins Phrase.Enum.terminals) (enum numbering keyword between) := by
  obtain ⟨word, -, hword⟩ := word_reads htook hk
  refine .bind ((name_viable false).viable hword ⟨⟨word, .sample false, .ofMark .leftBrace, [],
    .ofMark .rightBrace, none⟩, List.prefix_append _ _⟩) fun _ r₁ h₁ => ?_
  obtain ⟨name, -, hname⟩ := name_sound hword.valid h₁
  have hreads := hword.trans hname
  refine .bind ((mark_viable .leftBrace).viable hreads ⟨⟨word, name, .ofMark .leftBrace, [],
    .ofMark .rightBrace, none⟩, ?_⟩) fun _ r₂ h₂ => ?_
  · simp [Phrase.Enum.terminals]
  obtain ⟨opening, -, hopening⟩ := mark_sound hname.valid h₂
  have hreads := hreads.trans hopening
  have helement : ∀ {reader node after}, reader.Valid → enumElement reader = .ok node after →
      ∃ phrase : Phrase.EnumElement, reader.Reads phrase.terminals after ∧
        after.Meets fun _ => True := by
    intro reader node after hr h
    obtain ⟨phrase, -, hreads⟩ := enumElement_sound hr h
    exact ⟨phrase, hreads⟩
  refine .bind ((itemsUntil_viable (fun _ _ => True) (by decide) (fun _ => by
      simp [Phrase.EnumElement.terminals, Name.terminals]) helement enumElement_viable
    hopening.valid).after hreads ?_) fun _ r₃ h₃ => ?_
  · rintro xs ⟨elements, hxs, -⟩
    refine ⟨⟨word, name, opening, elements, .ofMark .rightBrace, none⟩, ?_⟩
    simp [Phrase.Enum.terminals, List.prefix_append_of_prefix hxs]
  obtain ⟨elements, closing, -, -, helements, -⟩ := itemsUntil_sound (by decide) _ _
    (fun _ _ => True) (fun hr h => enumElement_sound hr h) hopening.valid h₃
  have hreads := hreads.trans helements
  refine .bind ((trailingAnnotations_viable _ .allow helements.valid).after hreads ?_)
    fun _ _ _ => .lexical (lexical_spanned ..)
  rintro xs ⟨annotations, inside, hopen⟩
  refine ⟨⟨word, name, opening, elements, closing, some annotations⟩, ?_⟩
  simpa [Phrase.Enum.terminals, Phrase.optional] using hopen.begins

theorem struct_viable (form : StructForm) (htook : start.Took keyword between)
    (hk : keyword.kind = .keyword (structWord form)) :
    start.Viable (Begins Phrase.Struct.terminals) (struct form keyword between) := by
  obtain ⟨word, -, hword⟩ := word_reads htook hk
  refine .bind ((name_viable false).viable hword ⟨⟨form, word, .sample false, .ofMark .leftBrace, [],
    .ofMark .rightBrace, none⟩, List.prefix_append _ _⟩) fun _ r₁ h₁ => ?_
  obtain ⟨name, -, hname⟩ := name_sound hword.valid h₁
  have hreads := hword.trans hname
  refine .bind ((mark_viable .leftBrace).viable hreads ⟨⟨form, word, name, .ofMark .leftBrace, [],
    .ofMark .rightBrace, none⟩, ?_⟩) fun _ r₂ h₂ => ?_
  · simp [Phrase.Struct.terminals]
  obtain ⟨opening, -, hopening⟩ := mark_sound hname.valid h₂
  have hreads := hreads.trans hopening
  refine .bind ((fieldsUntil_viable (by decide) hopening.valid).after hreads ?_) fun _ r₃ h₃ => ?_
  · rintro xs ⟨fields, hxs⟩
    refine ⟨⟨form, word, name, opening, fields, .ofMark .rightBrace, none⟩, ?_⟩
    simp [Phrase.Struct.terminals, List.prefix_append_of_prefix hxs]
  obtain ⟨fields, closing, -, -, hfields⟩ := fieldsUntil_sound (by decide) hopening.valid h₃
  have hreads := hreads.trans hfields
  refine .bind ((trailingAnnotations_viable _ .allow hfields.valid).after hreads ?_)
    fun _ _ _ => .lexical (lexical_spanned ..)
  rintro xs ⟨annotations, inside, hopen⟩
  refine ⟨⟨form, word, name, opening, fields, closing, some annotations⟩, ?_⟩
  simpa [Phrase.Struct.terminals, Phrase.optional] using hopen.begins

/-- A definition that was begun, of a rule all of whose phrases are allowed. -/
theorem begun_of_begins {β : Type} {terminals : β → List Terminal} {trailing : TrailingSeparator}
    {xs : List Terminal} (wrap : β → Phrase.Definition)
    (hwrap : ∀ phrase, (wrap phrase).Allowed trailing ∧ (wrap phrase).terminals = terminals phrase)
    (h : Begins terminals xs) : DefinitionBegun trailing xs := by
  obtain ⟨phrase, hxs⟩ := h
  exact .inl ⟨wrap phrase, (hwrap phrase).1, (hwrap phrase).2 ▸ hxs⟩

theorem definition_viable {options : Options} {head : Link} (hr : start.Valid)
    (htook : start.Took head between) (hk : head.kind.isTrivia = false) :
    start.Viable (DefinitionBegun options.namespaceTrailing) (definition options head between) := by
  have hrefused : start.Viable (DefinitionBegun options.namespaceTrailing)
      ((throw (.unexpected head .definition) : Parse ThriftSyntax.Definition) between) :=
    .refused ⟨start, between, .refl hr, htook, hk⟩
      (.inl ⟨.included ⟨.thrift, .ofKeyword .include, Leaf.sampleLiteral⟩, trivial, List.nil_prefix⟩)
  have hincluded : ∀ form, head.kind = .keyword (includeWord form) →
      start.Viable (DefinitionBegun options.namespaceTrailing)
        ((ThriftSyntax.Definition.included <$> included form head) between) := fun form hk =>
    .map ((included_viable form htook hk).mono
      fun _ => begun_of_begins .included fun _ => ⟨trivial, rfl⟩)
  have hstruct : ∀ form, head.kind = .keyword (structWord form) →
      start.Viable (DefinitionBegun options.namespaceTrailing)
        ((ThriftSyntax.Definition.struct <$> struct form head) between) := fun form hk =>
    .map ((struct_viable form htook hk).mono
      fun _ => begun_of_begins .struct fun _ => ⟨trivial, rfl⟩)
  unfold definition
  cases hk : head.kind with
  | keyword word =>
    cases word with
    | «namespace» =>
      refine .map ((namespaced_viable htook hk).mono ?_)
      rintro xs ⟨phrase, huntrailed, hxs⟩
      exact .inl ⟨.namespaced phrase, fun _ => huntrailed, hxs⟩
    | «include» => exact hincluded .thrift hk
    | cppInclude => exact hincluded .cpp hk
    | const =>
      exact .map ((const_viable htook hk).mono
        fun _ => begun_of_begins .const fun _ => ⟨trivial, rfl⟩)
    | typedef =>
      refine .map ((typedef_viable htook hk).mono ?_)
      rintro xs (hxs | halias)
      · exact begun_of_begins .typedef (fun _ => ⟨trivial, rfl⟩) hxs
      · exact .inr halias
    | enum =>
      exact .map ((enum_viable htook hk).mono
        fun _ => begun_of_begins .enum fun _ => ⟨trivial, rfl⟩)
    | struct => exact hstruct .struct hk
    | union => exact hstruct .union hk
    | exception => exact hstruct .exception hk
    | service =>
      exact .map ((service_viable htook hk).mono
        fun _ => begun_of_begins .service fun _ => ⟨trivial, rfl⟩)
    | _ => exact hrefused
  | _ => exact hrefused

/-! ## Documents -/

theorem definitionStep_viable {options : Options} (hr : reader.Valid) :
    reader.Viable (DocumentBegun options.namespaceTrailing) (definitionStep options reader) := by
  refine .bind (.lexical lexical_takeSignificant) fun head next hhead => ?_
  obtain ⟨start, hstart, htook, -, hk⟩ := takeSignificant_sound hr hhead
  split
  · exact .lexical (lexical_pure _)
  · exact .map ((definition_viable hstart.valid htook hk).after hstart fun _ h => h.document)

theorem document_viable {options : Options} (hr : reader.Valid) :
    reader.Viable (DocumentBegun options.namespaceTrailing) (document options reader) := by
  rw [document_eq]
  refine .bind (.repeatUntil definitionStep_viable (fun hr h => ?_) hr) fun _ _ _ =>
    .lexical (lexical_spanned ..)
  obtain ⟨head, next, hhead, h⟩ := bind_eq_ok.1 h
  obtain ⟨start, hstart, htook, -, -⟩ := takeSignificant_sound hr hhead
  split at h
  · simp [pure_eq_ok] at h
  · obtain ⟨node, hdefinition, heq⟩ := map_eq_ok.1 h
    cases heq
    obtain ⟨definition, -, hreads, hallowed⟩ := definition_sound htook hdefinition
    exact ⟨_, fun _ => True, hstart.trans hreads, fun _ _ _ _ _ => trivial,
      fun xs hxs _ => hxs.next hallowed⟩

end Grammar

end ThriftSyntax
