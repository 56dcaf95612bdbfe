import ThriftSyntax.Grammar.Definition
import ThriftSyntax.Proofs.Completeness.Service
import ThriftSyntax.Proofs.Soundness.Definition

/-!
# Completeness of definitions and documents

A definition is read where its terminals come next and after them the next definition or the end of
the input.
-/

namespace ThriftSyntax.Grammar

open Parse Reader Phrase

variable {s : Setting} {x : Terminal} {xs : List Terminal} {keyword : Link}

/-! ## Namespaces and includes -/

theorem scope_accepts (phrase : Scope) :
    Accepts s scope (phrase.terminals ++ xs) xs (· = phrase.text) := by
  cases phrase with
  | all star =>
    refine (mark?_some star).bind fun found hfound => ?_
    obtain ⟨link, rfl, hlink⟩ := hfound
    exact .pure hlink.raw
  | name scope =>
    refine (mark?_none (by decide) ⟨.name true scope.words, xs, rfl, ?_⟩).bind
      fun found hfound => ?_
    · exact (scope.starts.begins (by decide)).unclosed
    rw [hfound]
    exact (name_accepts scope).bind fun found hfound => .pure hfound.text

theorem namespaced_accepts {trailing : TrailingSeparator} (phrase : Phrase.Namespace)
    (hallowed : (Phrase.Definition.namespaced phrase).Allowed trailing)
    (hk : phrase.word.link.Alike s keyword) (hxs : Next (· ≠ .punct .leftParen) xs) :
    Accepts s (namespaced trailing keyword) (phrase.terminals.tail ++ xs) xs
      fun node => node.relabel s.new = phrase.node.relabel s.old := by
  simp only [Phrase.Namespace.terminals, Leaf.terminals, List.cons_append, List.nil_append,
    List.tail_cons, List.append_assoc]
  refine (scope_accepts phrase.scope).bind fun scope hscope => ?_
  refine (name_accepts phrase.target).bind fun target htarget => ?_
  refine (trailingAnnotations_accepts phrase.annotations hallowed htarget.last.id hxs).bind
    fun annotations hannotations => span_accepts ?_
  simp only [Namespace.relabel, Phrase.Namespace.node, Span.relabel, hk.id, hscope, htarget.text,
    hannotations.1, hannotations.2]

theorem included_accepts (phrase : Phrase.Include) (hk : phrase.word.link.Alike s keyword) :
    Accepts s (included phrase.form keyword) (phrase.terminals.tail ++ xs) xs
      fun node => node.relabel s.new = phrase.node.relabel s.old := by
  refine (string_accepts phrase.path).bind fun path hpath => span_accepts ?_
  simp only [Include.relabel, Phrase.Include.node, Span.relabel, hk.id, hpath.id,
    value_of_alike hpath]

/-! ## Constants and names of types -/

theorem const_accepts (phrase : Phrase.Const) (hk : phrase.word.link.Alike s keyword)
    (hxs : Next Kind.Fresh xs) :
    Accepts s (const keyword) (phrase.terminals.tail ++ xs) xs
      fun node => node.relabel s.new = phrase.node.relabel s.old := by
  simp only [Phrase.Const.terminals, Leaf.terminals, List.cons_append, List.nil_append,
    List.tail_cons, List.append_assoc]
  refine (fieldType_accepts (x := .name false phrase.name.words) phrase.type
    phrase.name.starts.fresh.parenthesis phrase.stops).bind fun type htype => ?_
  refine (name_accepts phrase.name).bind fun name hname => ?_
  refine (mark_accepts phrase.equals).bind fun _ _ => ?_
  refine (constValue_accepts phrase.value).bind fun value hvalue => ?_
  refine (separator?_accepts phrase.separator hxs).bind fun separator hseparator => span_accepts ?_
  have hlast : s.new value.span.last = s.old phrase.value.node.span.last := by
    have hspan := congrArg ConstValue.span hvalue
    rw [ConstValue.span_relabel, ConstValue.span_relabel] at hspan
    exact congrArg Span.last hspan
  simp only [Const.relabel, Phrase.Const.node, Span.relabel, hk.id,
    lastToken_of_rel hseparator hlast, htype, hname.text, hvalue, separator_of_rel hseparator]

theorem isNamed_relabel (ids : Nat → Nat) (type : FieldType) :
    (type.relabel ids).isNamed = type.isNamed := by
  cases type <;> rfl

theorem aliasedType_accepts (type : Phrase.FieldType) (hunnamed : type.node.isNamed = false)
    (hk : x.head.kind ≠ .punct .leftParen) (hs : type.StopsBefore x.head) :
    Accepts s aliasedType (type.terminals ++ x :: xs) (x :: xs)
      fun node => node.relabel s.new = type.node.relabel s.old := by
  refine (fieldType_accepts type hk hs).bind fun node hnode => ?_
  have hnamed : node.isNamed = false := by
    rw [← isNamed_relabel s.new, hnode, isNamed_relabel, hunnamed]
  cases node with
  | named => cases hnamed
  | _ => exact .pure hnode

theorem typedef_accepts (phrase : Phrase.TypeDef) (hk : phrase.word.link.Alike s keyword)
    (hxs : Next Kind.Fresh xs) :
    Accepts s (typedef keyword) (phrase.terminals.tail ++ xs) xs
      fun node => node.relabel s.new = phrase.node.relabel s.old := by
  simp only [Phrase.TypeDef.terminals, Leaf.terminals, List.cons_append, List.nil_append,
    List.tail_cons, List.append_assoc]
  obtain ⟨x, xs, rfl, hx⟩ := hxs
  refine (aliasedType_accepts (x := .name true phrase.name.words) phrase.type phrase.unnamed
    phrase.name.starts.fresh.parenthesis phrase.stops).bind fun type htype => ?_
  refine (name_accepts phrase.name).bind fun name hname => ?_
  refine (trailingAnnotations_accepts phrase.annotations (by simp) hname.last.id
    (next_separator (by simp) (by simp) ⟨x, xs, rfl, hx.parenthesis⟩)).bind
    fun annotations hannotations => ?_
  refine (separator?_accepts phrase.separator ⟨x, xs, rfl, hx⟩).bind
    fun separator hseparator => span_accepts ?_
  simp only [TypeDef.relabel, Phrase.TypeDef.node, Span.relabel, hk.id,
    lastToken_of_rel hseparator hannotations.2, htype, hname.text, hannotations.1,
    separator_of_rel hseparator]

/-! ## Enumerations and structures -/

/-- Two numbers that may be missing are the same but for where they stand. -/
def AssignedAlike (s : Setting) : Option Assigned → Option (Link × Int) → Prop :=
  Option.Rel fun phrase found =>
    phrase.number.link.Alike s found.1 ∧ found.2 = phrase.number.value

theorem assigned?_accepts (assigned : Option Assigned)
    (hxs : assigned = none → Next (· ≠ .punct .equals) xs) :
    Accepts s assigned? (optional Assigned.terminals assigned ++ xs) xs
      (AssignedAlike s assigned) := by
  cases assigned with
  | some assigned =>
    simp only [Phrase.optional, Option.elim_some, Assigned.terminals, List.append_assoc]
    refine (mark?_some assigned.equals).bind fun found hfound => ?_
    obtain ⟨link, rfl, -⟩ := hfound
    exact (integer_accepts assigned.number).map fun found hfound => .some hfound
  | none =>
    refine (mark?_none (by decide) (hxs rfl)).bind fun found hfound => ?_
    rw [hfound]
    exact .pure .none

theorem assigned_of_rel {assigned : Option Assigned} {found : Option (Link × Int)}
    (h : AssignedAlike s assigned found) :
    found.map (·.2) = assigned.map (·.number.value) := by
  cases h with
  | none => rfl
  | some h => exact congrArg some h.2

theorem assigned_last_of_rel {assigned : Option Assigned} {found : Option (Link × Int)}
    {last last' : Nat} (h : AssignedAlike s assigned found) (hlast : s.new last = s.old last') :
    s.new ((found.map (·.1.id)).getD last) = s.old (assigned.elim last' (·.number.link.id)) := by
  cases h with
  | none => exact hlast
  | some h => exact h.1.id

theorem enumElement_accepts (phrase : Phrase.EnumElement) (hx : x.head.kind.Fresh) :
    Accepts s enumElement (phrase.terminals ++ x :: xs) (x :: xs)
      fun node => node.relabel s.new = phrase.node.relabel s.old := by
  simp only [Phrase.EnumElement.terminals, List.append_assoc]
  have hfollow : ∀ {P : Kind → Prop}, P (.punct .comma) → P (.punct .semicolon) →
      P x.head.kind → Next P (optional Leaf.terminals phrase.separator ++ x :: xs) :=
    fun hcomma hsemicolon hx => next_separator hcomma hsemicolon ⟨x, xs, rfl, hx⟩
  refine (name_accepts phrase.name).bind fun name hname => ?_
  refine (assigned?_accepts phrase.assigned fun _ => next_annotations (by simp)
    (hfollow (by simp) (by simp) hx.equals)).bind fun assigned hassigned => ?_
  have hlast : s.new ((assigned.map (·.1.id)).getD name.last.id) = s.old phrase.last :=
    assigned_last_of_rel hassigned hname.last.id
  refine (trailingAnnotations_accepts phrase.annotations (by simp) hlast
    (hfollow (by simp) (by simp) hx.parenthesis)).bind fun annotations hannotations => ?_
  refine (separator?_accepts phrase.separator ⟨x, xs, rfl, hx⟩).bind
    fun separator hseparator => span_accepts ?_
  simp only [EnumElement.relabel, Phrase.EnumElement.node, Span.relabel, hname.head.id,
    lastToken_of_rel hseparator hannotations.2, hname.text, assigned_of_rel hassigned,
    hannotations.1, separator_of_rel hseparator]

theorem enum_accepts {numbering : Numbering} (phrase : Phrase.Enum)
    (hk : phrase.word.link.Alike s keyword) (hxs : Next (· ≠ .punct .leftParen) xs) :
    Accepts s (enum numbering keyword) (phrase.terminals.tail ++ xs) xs
      fun node => node.relabel s.new = (phrase.node numbering).relabel s.old := by
  simp only [Phrase.Enum.terminals, Leaf.terminals, List.cons_append, List.nil_append,
    List.tail_cons, List.append_assoc]
  refine (name_accepts phrase.name).bind fun name hname => ?_
  refine (mark_accepts phrase.opening).bind fun _ _ => ?_
  refine (freshItemsUntil_accepts (by decide) (by constructor <;> simp)
    (fun phrase => phrase.node.relabel s.old) (EnumElement.relabel s.new) phrase.closing
    List.suffix_rfl ?_ fun phrase _ x zs _ hx => enumElement_accepts phrase hx).bind
    fun elements helements => ?_
  · exact fun phrase _ => ⟨_, _, rfl, phrase.name.starts.begins (by decide)⟩
  refine (trailingAnnotations_accepts phrase.annotations (by simp) helements.2.id hxs).bind
    fun annotations hannotations => span_accepts ?_
  have hassign : (numbering.assign elements.1).map (EnumElement.relabel s.new) =
      (numbering.assign (phrase.elements.map Phrase.EnumElement.node)).map
        (EnumElement.relabel s.old) := by
    rw [← Numbering.assign_relabel, ← Numbering.assign_relabel, helements.1, List.map_map]
    rfl
  simp only [Enum.relabel, Phrase.Enum.node, Span.relabel, hk.id, hname.text, hassign,
    hannotations.1, hannotations.2]

theorem struct_accepts (phrase : Phrase.Struct) (hk : phrase.word.link.Alike s keyword)
    (hxs : Next (· ≠ .punct .leftParen) xs) :
    Accepts s (struct phrase.form keyword) (phrase.terminals.tail ++ xs) xs
      fun node => node.relabel s.new = phrase.node.relabel s.old := by
  simp only [Phrase.Struct.terminals, Leaf.terminals, List.cons_append, List.nil_append,
    List.tail_cons, List.append_assoc]
  refine (name_accepts phrase.name).bind fun name hname => ?_
  refine (mark_accepts phrase.opening).bind fun _ _ => ?_
  refine (fieldsUntil_accepts (.inl rfl) phrase.fields phrase.closing).bind
    fun fields hfields => ?_
  refine (trailingAnnotations_accepts phrase.annotations (by simp) hfields.2.id hxs).bind
    fun annotations hannotations => span_accepts ?_
  simp only [Struct.relabel, Phrase.Struct.node, Span.relabel, hk.id, hname.text, hfields.1,
    hannotations.1, hannotations.2]

/-! ## Documents -/

theorem definition_accepts {options : Options} (phrase : Phrase.Definition)
    (hallowed : phrase.Allowed options.namespaceTrailing) (hk : phrase.head.Alike s keyword)
    (hxs : Next Kind.Fresh xs) :
    Accepts s (definition options keyword) (phrase.terminals.tail ++ xs) xs
      fun node => node.relabel s.new = (phrase.node options.numbering).relabel s.old := by
  have hnext : Next (· ≠ .punct .leftParen) xs := by
    obtain ⟨x, xs, rfl, hx⟩ := hxs
    exact ⟨x, xs, rfl, hx.parenthesis⟩
  unfold definition
  rw [hk.kind]
  cases phrase with
  | namespaced phrase =>
    rw [Phrase.Definition.head, phrase.word.fits]
    exact (namespaced_accepts phrase hallowed hk hnext).map
      fun node hnode => congrArg Definition.namespaced hnode
  | included phrase =>
    obtain ⟨form, word, path⟩ := phrase
    rw [Phrase.Definition.head, word.fits]
    cases form with
    | thrift =>
      exact (included_accepts ⟨.thrift, word, path⟩ hk).map
        fun node hnode => congrArg Definition.included hnode
    | cpp =>
      exact (included_accepts ⟨.cpp, word, path⟩ hk).map
        fun node hnode => congrArg Definition.included hnode
  | const phrase =>
    rw [Phrase.Definition.head, phrase.word.fits]
    exact (const_accepts phrase hk hxs).map fun node hnode => congrArg Definition.const hnode
  | typedef phrase =>
    rw [Phrase.Definition.head, phrase.word.fits]
    exact (typedef_accepts phrase hk hxs).map fun node hnode => congrArg Definition.typedef hnode
  | enum phrase =>
    rw [Phrase.Definition.head, phrase.word.fits]
    exact (enum_accepts phrase hk hnext).map fun node hnode => congrArg Definition.enum hnode
  | struct phrase =>
    obtain ⟨form, word, name, opening, fields, closing, annotations⟩ := phrase
    rw [Phrase.Definition.head, word.fits]
    cases form with
    | struct =>
      exact (struct_accepts ⟨.struct, word, name, opening, fields, closing, annotations⟩ hk
        hnext).map fun node hnode => congrArg Definition.struct hnode
    | union =>
      exact (struct_accepts ⟨.union, word, name, opening, fields, closing, annotations⟩ hk
        hnext).map fun node hnode => congrArg Definition.struct hnode
    | exception =>
      exact (struct_accepts ⟨.exception, word, name, opening, fields, closing, annotations⟩ hk
        hnext).map fun node hnode => congrArg Definition.struct hnode
  | service phrase =>
    rw [Phrase.Definition.head, phrase.word.fits]
    exact (service_accepts phrase hk hnext).map fun node hnode => congrArg Definition.service hnode

/-- The reader has taken the end of the input, after which only blanks could stand. -/
def AtEnd (s : Setting) (after : Reader) (found : Link) : Prop :=
  ∃ front gap, after.chain.links = front ++ [found] ∧ s.all = front ++ found :: gap ∧
    Link.IsGap gap

theorem takeSignificant_ending {reader : Reader} (ending : Ending)
    (hr : reader.Awaits s ending.terminals) :
    ∃ found after, takeSignificant reader = .ok found after ∧ ending.link.Alike s found ∧
      AtEnd s after found := by
  obtain ⟨_, halike, hf⟩ := hr.faces
  obtain ⟨y, _, hy, htail, rfl⟩ := List.forall₂_cons_left_iff.1 halike
  cases htail
  cases hy with
  | @token _ found hfound =>
    obtain ⟨between, hskip, hv, hat, hbetween⟩ := skipTrivia_faces hr.valid hf
    obtain ⟨ahead, hb, -, -, hlaid⟩ := hat.exists_before hbetween
    have hp : Lexeme.Plain found.kind found.raw.toList := by
      rw [hfound.kind, ending.fits]
      constructor <;> simp
    obtain ⟨after, htake, done, tail, hchain, hall, htail, -⟩ := take_complete hv hp hb
    obtain ⟨htook, -⟩ := take_sound hv htake
    obtain ⟨front, hfront⟩ := List.getLast?_eq_some_iff.1 htook.last
    rw [htook.held] at hchain
    refine ⟨found, after, bind_eq_ok.2 ⟨(), between, hskip, htake⟩, hfound, front, ahead, hfront,
      ?_, hlaid.isGap⟩
    rw [hall, ← List.append_nil done, ← Option.toList_none, ← hchain, hfront, List.append_assoc]
    rfl

/-- A definition is read in one round, in which something is read. -/
theorem definitionStep_accepts {options : Options} (phrase : Phrase.Definition)
    (hallowed : phrase.Allowed options.namespaceTrailing) (hxs : Next Kind.Fresh xs) {reader : Reader}
    (hr : reader.Awaits s (phrase.terminals ++ xs)) :
    Attains (fun result between => ∃ node, result = .inl node ∧ between.unread < reader.unread ∧
      node.relabel s.new = (phrase.node options.numbering).relabel s.old ∧ between.Awaits s xs)
      (definitionStep options reader.round) := by
  have hword := phrase.head_isWord
  rw [phrase.terminals_eq, List.cons_append] at hr
  refine (accepts_takeSignificant (Kind.plain_of_isWord hword) (Kind.ne_endOfInput_of_isWord hword)
    reader.round hr.round).bind fun {head start} _ ⟨hhead, hstart⟩ => ?_
  rw [if_neg (hhead.kind ▸ Kind.ne_endOfInput_of_isWord hword)]
  refine (definition_accepts phrase hallowed hhead hxs start hstart).map
    fun {node between} ⟨hnode, hbetween⟩ => ⟨node, rfl, unread_lt hr hbetween fun hraw => ?_, hnode,
      hbetween⟩
  refine hr.spells.ne_nil (Kind.ne_endOfInput_of_isWord hword) ?_
  rw [hraw]
  rfl

/-- Definitions are followed by a definition again or by what comes after all of them. -/
theorem next_definitions (phrases : List Phrase.Definition) (hxs : Next Kind.Fresh xs) :
    Next Kind.Fresh (phrases.flatMap Phrase.Definition.terminals ++ xs) := by
  cases phrases with
  | nil => exact hxs
  | cons phrase phrases =>
    rw [List.flatMap_cons, phrase.terminals_eq]
    exact ⟨.token phrase.head, _, rfl, .of_isWord phrase.head_isWord⟩

theorem document_accepts {options : Options} (phrase : Phrase.Document)
    (hallowed : phrase.Allowed options.namespaceTrailing) {reader : Reader}
    (hr : reader.Awaits s phrase.terminals) :
    Attains (fun node after => node.relabel s.new = (phrase.node options.numbering).relabel s.old ∧
      ∃ found, found.kind = .endOfInput ∧ AtEnd s after found) (document options reader) := by
  obtain ⟨definitions, ending⟩ := phrase
  suffices Attains (fun result after => result.1.map (Definition.relabel s.new) =
        definitions.map (fun phrase => (phrase.node options.numbering).relabel s.old) ∧
      ending.link.Alike s result.2 ∧ AtEnd s after result.2)
      (repeatUntil (definitionStep options) reader) by
    refine this.bind fun {result after} _ ⟨hnodes, hfound, hend⟩ => ?_
    dsimp only
    rw [span_bind (Nat.zero_le _)]
    refine .ok ⟨?_, _, hfound.kind.trans ending.fits, hend⟩
    simp only [Document.relabel, Phrase.Document.node, hfound.id, hnodes, List.map_map]
    rfl
  induction definitions generalizing reader with
  | nil =>
    obtain ⟨found, after, htake, hfound, hend⟩ := takeSignificant_ending ending hr.round
    refine .of_eq_ok (repeatUntil_last (bind_eq_ok.2 ⟨found, after, htake, ?_⟩)) ⟨rfl, hfound, hend⟩
    rw [if_pos (hfound.kind.trans ending.fits)]
    rfl
  | cons phrase phrases ih =>
    obtain ⟨hphrase, hphrases⟩ := List.forall_mem_cons.1 hallowed
    have hending : Next Kind.Fresh ending.terminals := by
      refine ⟨.token ending.link, _, rfl, ?_⟩
      rw [Terminal.head_token, ending.fits]
      constructor <;> simp
    rw [Phrase.Document.terminals, List.flatMap_cons, List.append_assoc] at hr
    obtain ⟨_, between, hrun, node, rfl, hlt, hnode, hbetween⟩ | ⟨_, hrun⟩ :=
      (definitionStep_accepts phrase hphrase (next_definitions phrases hending) hr).cases_run
    · refine .of_repeatUntil_next hrun hlt (ih hphrases hbetween)
        fun {result after} ⟨hnodes, hend⟩ => ⟨?_, hend⟩
      rw [List.map_cons, List.map_cons, hnode, hnodes]
    · exact .of_eq_stalled (repeatUntil_fails hrun)

end ThriftSyntax.Grammar
