import ThriftSyntax.Grammar.Definition
import ThriftSyntax.Proofs.Soundness.Service

/-!
# Soundness of definitions and documents

Every definition that is read is a phrase, and so is the whole document with the end of the input.
-/

namespace ThriftSyntax.Grammar

open Parse Reader Phrase

variable {reader between after : Reader} {keyword : Link}

/-- The reserved word that begins a definition, which is read before the rest of it. -/
theorem word_reads {word : Keyword} (htook : reader.Took keyword between)
    (hk : keyword.kind = .keyword word) :
    ∃ leaf : Word word, leaf.link = keyword ∧ reader.Reads leaf.terminals between :=
  ⟨⟨keyword, htook.spells, hk⟩, rfl, htook.reads (by rw [hk]; rfl) (by simp [hk])⟩

theorem scope_sound (hr : reader.Valid) {text : String} (h : scope reader = .ok text after) :
    ∃ phrase : Scope, phrase.text = text ∧ reader.Reads phrase.terminals after := by
  obtain ⟨found, r₁, h₁, h⟩ := bind_eq_ok.1 h
  rcases mark?_sound (by decide) hr h₁ with ⟨rfl, hreads, -⟩ | ⟨star, rfl, hstar⟩
  · obtain ⟨_, r₂, h₂, h⟩ := bind_eq_ok.1 h
    obtain ⟨rfl, rfl⟩ := pure_eq_ok.1 h
    obtain ⟨name, rfl, hname⟩ := name_sound hreads.valid h₂
    exact ⟨.name name, rfl, hreads.trans hname⟩
  · obtain ⟨rfl, rfl⟩ := pure_eq_ok.1 h
    exact ⟨.all star, rfl, hstar⟩

theorem namespaced_sound {trailing : TrailingSeparator} (htook : reader.Took keyword between)
    (hk : keyword.kind = .keyword .namespace) {node : ThriftSyntax.Namespace}
    (h : namespaced trailing keyword between = .ok node after) :
    ∃ phrase : Phrase.Namespace, phrase.node = node ∧ reader.Reads phrase.terminals after ∧
      (Phrase.Definition.namespaced phrase).Allowed trailing := by
  obtain ⟨word, rfl, hword⟩ := word_reads htook hk
  obtain ⟨_, r₁, h₁, h⟩ := bind_eq_ok.1 h
  obtain ⟨_, r₂, h₂, h⟩ := bind_eq_ok.1 h
  obtain ⟨⟨_, _⟩, r₃, h₃, h⟩ := bind_eq_ok.1 h
  obtain ⟨-, h⟩ := span_bind_eq_ok.1 h
  obtain ⟨rfl, rfl⟩ := pure_eq_ok.1 h
  obtain ⟨scope, rfl, hscope⟩ := scope_sound hword.valid h₁
  obtain ⟨target, rfl, htarget⟩ := name_sound hscope.valid h₂
  obtain ⟨annotations, rfl, rfl, hannotations, hallowed⟩ :=
    trailingAnnotations_sound htarget.valid h₃
  exact ⟨⟨word, scope, target, annotations⟩, rfl,
    hword.trans (hscope.trans (htarget.trans hannotations)), hallowed⟩

theorem included_sound (form : IncludeForm) (htook : reader.Took keyword between)
    (hk : keyword.kind = .keyword (includeWord form)) {node : ThriftSyntax.Include}
    (h : included form keyword between = .ok node after) :
    ∃ phrase : Phrase.Include, phrase.node = node ∧ reader.Reads phrase.terminals after := by
  obtain ⟨word, rfl, hword⟩ := word_reads htook hk
  obtain ⟨_, r₁, h₁, h⟩ := bind_eq_ok.1 h
  obtain ⟨-, h⟩ := span_bind_eq_ok.1 h
  obtain ⟨rfl, rfl⟩ := pure_eq_ok.1 h
  obtain ⟨path, rfl, hpath⟩ := string_sound hword.valid h₁
  exact ⟨⟨form, word, path⟩, rfl, hword.trans hpath⟩

theorem const_sound (htook : reader.Took keyword between) (hk : keyword.kind = .keyword .const)
    {node : ThriftSyntax.Const} (h : const keyword between = .ok node after) :
    ∃ phrase : Phrase.Const, phrase.node = node ∧ reader.Reads phrase.terminals after := by
  obtain ⟨word, rfl, hword⟩ := word_reads htook hk
  obtain ⟨_, r₁, h₁, h⟩ := bind_eq_ok.1 h
  obtain ⟨_, r₂, h₂, h⟩ := bind_eq_ok.1 h
  obtain ⟨_, r₃, h₃, h⟩ := bind_eq_ok.1 h
  obtain ⟨_, r₄, h₄, h⟩ := bind_eq_ok.1 h
  obtain ⟨_, r₅, h₅, h⟩ := bind_eq_ok.1 h
  obtain ⟨-, h⟩ := span_bind_eq_ok.1 h
  obtain ⟨rfl, rfl⟩ := pure_eq_ok.1 h
  obtain ⟨type, rfl, htype, hstops⟩ := fieldType_sound hword.valid h₁
  obtain ⟨name, rfl, hname⟩ := name_sound htype.valid h₂
  obtain ⟨equals, -, hequals⟩ := mark_sound hname.valid h₃
  obtain ⟨value, rfl, hvalue⟩ := constValue_sound hequals.valid h₄
  obtain ⟨separator, rfl, hseparator⟩ := separator?_sound hvalue.valid h₅
  refine ⟨⟨word, type, name, equals, value, separator, ?_⟩, ?_, ?_⟩
  · exact hstops.head (x := .name false name.words) hname
  · rw [lastToken_eq]
    cases separator <;> rfl
  · exact hword.trans (htype.trans (hname.trans (hequals.trans (hvalue.trans hseparator))))

theorem aliasedType_sound (hr : reader.Valid) {node : FieldType}
    (h : aliasedType reader = .ok node after) :
    ∃ phrase : Phrase.FieldType, phrase.node = node ∧ node.isNamed = false ∧
      reader.Reads phrase.terminals after ∧ after.Meets phrase.StopsBefore := by
  obtain ⟨type, r₁, h₁, h⟩ := bind_eq_ok.1 h
  obtain ⟨phrase, rfl, hreads, hstops⟩ := fieldType_sound hr h₁
  cases hnode : phrase.node with
  | named name span annotations =>
    rw [hnode] at h
    obtain ⟨_, _, -, h⟩ := bind_eq_ok.1 h
    cases h
  | _ =>
    rw [hnode] at h
    obtain ⟨rfl, rfl⟩ := pure_eq_ok.1 h
    exact ⟨phrase, hnode, rfl, hreads, hstops⟩

theorem typedef_sound (htook : reader.Took keyword between)
    (hk : keyword.kind = .keyword .typedef) {node : ThriftSyntax.TypeDef}
    (h : typedef keyword between = .ok node after) :
    ∃ phrase : Phrase.TypeDef, phrase.node = node ∧ reader.Reads phrase.terminals after := by
  obtain ⟨word, rfl, hword⟩ := word_reads htook hk
  obtain ⟨_, r₁, h₁, h⟩ := bind_eq_ok.1 h
  obtain ⟨_, r₂, h₂, h⟩ := bind_eq_ok.1 h
  obtain ⟨⟨_, _⟩, r₃, h₃, h⟩ := bind_eq_ok.1 h
  obtain ⟨_, r₄, h₄, h⟩ := bind_eq_ok.1 h
  obtain ⟨-, h⟩ := span_bind_eq_ok.1 h
  obtain ⟨rfl, rfl⟩ := pure_eq_ok.1 h
  obtain ⟨type, rfl, hnamed, htype, hstops⟩ := aliasedType_sound hword.valid h₁
  obtain ⟨name, rfl, hname⟩ := name_sound htype.valid h₂
  obtain ⟨annotations, rfl, rfl, hannotations, -⟩ := trailingAnnotations_sound hname.valid h₃
  obtain ⟨separator, rfl, hseparator⟩ := separator?_sound hannotations.valid h₄
  refine ⟨⟨word, type, name, annotations, separator, hnamed, ?_⟩, ?_, ?_⟩
  · exact hstops.head (x := .name true name.words) hname
  · rw [lastToken_eq]
    cases separator <;> rfl
  · exact hword.trans (htype.trans (hname.trans (hannotations.trans hseparator)))

theorem assigned?_sound (hr : reader.Valid) {found : Option (Link × Int)}
    (h : assigned? reader = .ok found after) :
    ∃ assigned : Option Assigned,
      assigned.map (fun assigned => (assigned.number.link, assigned.number.value)) = found ∧
      reader.Reads (optional Assigned.terminals assigned) after := by
  obtain ⟨equals, r₁, h₁, h⟩ := bind_eq_ok.1 h
  rcases mark?_sound (by decide) hr h₁ with ⟨rfl, hreads, -⟩ | ⟨equals, rfl, hequals⟩
  · obtain ⟨rfl, rfl⟩ := pure_eq_ok.1 h
    exact ⟨none, rfl, hreads⟩
  · obtain ⟨⟨_, _⟩, hinteger, rfl⟩ := map_eq_ok.1 h
    obtain ⟨number, rfl, rfl, hnumber⟩ := integer_sound hequals.valid hinteger
    exact ⟨some ⟨equals, number⟩, rfl, hequals.trans hnumber⟩

theorem enumElement_sound (hr : reader.Valid) {node : ThriftSyntax.EnumElement}
    (h : enumElement reader = .ok node after) :
    ∃ phrase : Phrase.EnumElement, phrase.node = node ∧ reader.Reads phrase.terminals after ∧
      after.Meets fun _ => True := by
  obtain ⟨_, r₁, h₁, h⟩ := bind_eq_ok.1 h
  obtain ⟨_, r₂, h₂, h⟩ := bind_eq_ok.1 h
  obtain ⟨⟨_, _⟩, r₃, h₃, h⟩ := bind_eq_ok.1 h
  obtain ⟨_, r₄, h₄, h⟩ := bind_eq_ok.1 h
  obtain ⟨-, h⟩ := span_bind_eq_ok.1 h
  obtain ⟨rfl, rfl⟩ := pure_eq_ok.1 h
  obtain ⟨name, rfl, hname⟩ := name_sound hr h₁
  obtain ⟨assigned, rfl, hassigned⟩ := assigned?_sound hname.valid h₂
  obtain ⟨annotations, rfl, rfl, hannotations, -⟩ := trailingAnnotations_sound hassigned.valid h₃
  obtain ⟨separator, rfl, hseparator⟩ := separator?_sound hannotations.valid h₄
  refine ⟨⟨name, assigned, annotations, separator⟩, ?_, ?_, fun _ _ _ _ _ => trivial⟩
  · rw [lastToken_eq]
    cases assigned <;> cases separator <;> rfl
  · exact hname.trans (hassigned.trans (hannotations.trans hseparator))

theorem enum_sound {numbering : Numbering} (htook : reader.Took keyword between)
    (hk : keyword.kind = .keyword .enum) {node : ThriftSyntax.Enum}
    (h : enum numbering keyword between = .ok node after) :
    ∃ phrase : Phrase.Enum, phrase.node numbering = node ∧
      reader.Reads phrase.terminals after := by
  obtain ⟨word, rfl, hword⟩ := word_reads htook hk
  obtain ⟨_, r₁, h₁, h⟩ := bind_eq_ok.1 h
  obtain ⟨_, r₂, h₂, h⟩ := bind_eq_ok.1 h
  obtain ⟨⟨_, _⟩, r₃, h₃, h⟩ := bind_eq_ok.1 h
  obtain ⟨⟨_, _⟩, r₄, h₄, h⟩ := bind_eq_ok.1 h
  obtain ⟨-, h⟩ := span_bind_eq_ok.1 h
  obtain ⟨rfl, rfl⟩ := pure_eq_ok.1 h
  obtain ⟨name, rfl, hname⟩ := name_sound hword.valid h₁
  obtain ⟨opening, -, hopening⟩ := mark_sound hname.valid h₂
  obtain ⟨elements, closing, rfl, rfl, helements, -⟩ := itemsUntil_sound (by decide) _ _
    (fun _ _ => True) (fun hr h => enumElement_sound hr h) hopening.valid h₃
  obtain ⟨annotations, rfl, rfl, hannotations, -⟩ := trailingAnnotations_sound helements.valid h₄
  refine ⟨⟨word, name, opening, elements, closing, annotations⟩, rfl, ?_⟩
  have := hword.trans (hname.trans (hopening.trans (helements.trans hannotations)))
  simpa only [Phrase.Enum.terminals, List.append_assoc] using this

theorem struct_sound (form : StructForm) (htook : reader.Took keyword between)
    (hk : keyword.kind = .keyword (structWord form)) {node : ThriftSyntax.Struct}
    (h : struct form keyword between = .ok node after) :
    ∃ phrase : Phrase.Struct, phrase.node = node ∧ reader.Reads phrase.terminals after := by
  obtain ⟨word, rfl, hword⟩ := word_reads htook hk
  obtain ⟨_, r₁, h₁, h⟩ := bind_eq_ok.1 h
  obtain ⟨_, r₂, h₂, h⟩ := bind_eq_ok.1 h
  obtain ⟨⟨_, _⟩, r₃, h₃, h⟩ := bind_eq_ok.1 h
  obtain ⟨⟨_, _⟩, r₄, h₄, h⟩ := bind_eq_ok.1 h
  obtain ⟨-, h⟩ := span_bind_eq_ok.1 h
  obtain ⟨rfl, rfl⟩ := pure_eq_ok.1 h
  obtain ⟨name, rfl, hname⟩ := name_sound hword.valid h₁
  obtain ⟨opening, -, hopening⟩ := mark_sound hname.valid h₂
  obtain ⟨fields, closing, rfl, rfl, hfields⟩ := fieldsUntil_sound (by decide) hopening.valid h₃
  obtain ⟨annotations, rfl, rfl, hannotations, -⟩ := trailingAnnotations_sound hfields.valid h₄
  refine ⟨⟨form, word, name, opening, fields, closing, annotations⟩, rfl, ?_⟩
  have := hword.trans (hname.trans (hopening.trans (hfields.trans hannotations)))
  simpa only [Phrase.Struct.terminals, List.append_assoc] using this

theorem definition_sound {options : Options} {head : Link} (htook : reader.Took head between)
    {node : ThriftSyntax.Definition} (h : definition options head between = .ok node after) :
    ∃ phrase : Phrase.Definition, phrase.node options.numbering = node ∧
      reader.Reads phrase.terminals after ∧ phrase.Allowed options.namespaceTrailing := by
  unfold definition at h
  cases hk : head.kind with
  | keyword word =>
    rw [hk] at h
    cases word with
    | «namespace» =>
      obtain ⟨node, hd, rfl⟩ := map_eq_ok.1 h
      obtain ⟨phrase, rfl, hreads, hallowed⟩ := namespaced_sound htook hk hd
      exact ⟨.namespaced phrase, rfl, hreads, hallowed⟩
    | «include» =>
      obtain ⟨node, hd, rfl⟩ := map_eq_ok.1 h
      obtain ⟨phrase, rfl, hreads⟩ := included_sound .thrift htook hk hd
      exact ⟨.included phrase, rfl, hreads, trivial⟩
    | cppInclude =>
      obtain ⟨node, hd, rfl⟩ := map_eq_ok.1 h
      obtain ⟨phrase, rfl, hreads⟩ := included_sound .cpp htook hk hd
      exact ⟨.included phrase, rfl, hreads, trivial⟩
    | const =>
      obtain ⟨node, hd, rfl⟩ := map_eq_ok.1 h
      obtain ⟨phrase, rfl, hreads⟩ := const_sound htook hk hd
      exact ⟨.const phrase, rfl, hreads, trivial⟩
    | typedef =>
      obtain ⟨node, hd, rfl⟩ := map_eq_ok.1 h
      obtain ⟨phrase, rfl, hreads⟩ := typedef_sound htook hk hd
      exact ⟨.typedef phrase, rfl, hreads, trivial⟩
    | enum =>
      obtain ⟨node, hd, rfl⟩ := map_eq_ok.1 h
      obtain ⟨phrase, rfl, hreads⟩ := enum_sound htook hk hd
      exact ⟨.enum phrase, rfl, hreads, trivial⟩
    | struct =>
      obtain ⟨node, hd, rfl⟩ := map_eq_ok.1 h
      obtain ⟨phrase, rfl, hreads⟩ := struct_sound .struct htook hk hd
      exact ⟨.struct phrase, rfl, hreads, trivial⟩
    | union =>
      obtain ⟨node, hd, rfl⟩ := map_eq_ok.1 h
      obtain ⟨phrase, rfl, hreads⟩ := struct_sound .union htook hk hd
      exact ⟨.struct phrase, rfl, hreads, trivial⟩
    | exception =>
      obtain ⟨node, hd, rfl⟩ := map_eq_ok.1 h
      obtain ⟨phrase, rfl, hreads⟩ := struct_sound .exception htook hk hd
      exact ⟨.struct phrase, rfl, hreads, trivial⟩
    | service =>
      obtain ⟨node, hd, rfl⟩ := map_eq_ok.1 h
      obtain ⟨phrase, rfl, hreads⟩ := service_sound htook hk hd
      exact ⟨.service phrase, rfl, hreads, trivial⟩
    | _ => cases h
  | _ =>
    rw [hk] at h
    cases h

/-- One round of reading definitions up to the end of the input. -/
def definitionStep (options : Options) : Parse (ThriftSyntax.Definition ⊕ Link) := do
  let head ← takeSignificant
  if head.kind = .endOfInput then
    return .inr head
  else
    .inl <$> definition options head

theorem document_eq (options : Options) :
    document options = (do
      let (definitions, ending) ← repeatUntil (definitionStep options)
      return { span := ← span 0 ending.id, definitions }) := rfl

/-- A document is read up to the end of the input, and that is the last token taken. -/
theorem document_sound {options : Options} (hr : reader.Valid) {node : ThriftSyntax.Document}
    (h : document options reader = .ok node after) :
    ∃ (phrase : Phrase.Document) (last : Reader), phrase.node options.numbering = node ∧
      phrase.Allowed options.namespaceTrailing ∧
      reader.Reads (phrase.definitions.flatMap Phrase.Definition.terminals) last ∧
      last.Took phrase.ending.link after := by
  rw [document_eq] at h
  obtain ⟨⟨nodes, ending⟩, between, hrun, h⟩ := bind_eq_ok.1 h
  obtain ⟨-, h⟩ := span_bind_eq_ok.1 h
  obtain ⟨rfl, rfl⟩ := pure_eq_ok.1 h
  suffices ∃ (phrase : Phrase.Document) (last : Reader),
      phrase.definitions.map (Phrase.Definition.node options.numbering) = nodes ∧
      phrase.ending.link = ending ∧ phrase.Allowed options.namespaceTrailing ∧
      reader.Reads (phrase.definitions.flatMap Phrase.Definition.terminals) last ∧
      last.Took phrase.ending.link between by
    obtain ⟨phrase, last, rfl, rfl, hdocument⟩ := this
    exact ⟨phrase, last, rfl, hdocument⟩
  revert hr
  refine repeatUntil_induction (motive := fun reader nodes ending between => reader.Valid →
    ∃ (phrase : Phrase.Document) (last : Reader),
      phrase.definitions.map (Phrase.Definition.node options.numbering) = nodes ∧
      phrase.ending.link = ending ∧ phrase.Allowed options.namespaceTrailing ∧
      reader.Reads (phrase.definitions.flatMap Phrase.Definition.terminals) last ∧
      last.Took phrase.ending.link between) (fun h hr => ?_) ?_ ?_ hrun
  · obtain ⟨phrase, last, hnodes, hending, hallowed, hreads, htook⟩ := h hr.round
    exact ⟨phrase, last, hnodes, hending, hallowed, hreads.of_round, htook⟩
  · intro reader ending between hs hr
    obtain ⟨head, next, hhead, hs⟩ := bind_eq_ok.1 hs
    obtain ⟨last, hlast, htook, -, -⟩ := takeSignificant_sound hr hhead
    split at hs
    · rename_i hk
      obtain ⟨heq, rfl⟩ := pure_eq_ok.1 hs
      cases heq
      exact ⟨⟨[], ⟨_, htook.spells, hk⟩⟩, last, rfl, rfl, by simp [Phrase.Document.Allowed],
        hlast, htook⟩
    · simp [map_eq_ok] at hs
  · intro reader node between nodes ending after hs ih hr
    obtain ⟨head, next, hhead, hs⟩ := bind_eq_ok.1 hs
    obtain ⟨start, hstart, htook, -, -⟩ := takeSignificant_sound hr hhead
    split at hs
    · simp [pure_eq_ok] at hs
    · obtain ⟨node, hdefinition, heq⟩ := map_eq_ok.1 hs
      cases heq
      obtain ⟨definition, rfl, hreads, hallowed⟩ := definition_sound htook hdefinition
      obtain ⟨⟨definitions, ending⟩, last, rfl, rfl, hall, hrest, hlast⟩ := ih hreads.valid
      refine ⟨⟨definition :: definitions, ending⟩, last, rfl, rfl, ?_, ?_, hlast⟩
      · exact List.forall_mem_cons.2 ⟨hallowed, hall⟩
      · rw [List.flatMap_cons]
        exact hstart.trans (hreads.trans hrest)

end ThriftSyntax.Grammar
