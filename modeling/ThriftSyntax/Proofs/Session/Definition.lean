import ThriftSyntax.Grammar.Definition
import ThriftSyntax.Proofs.Session.Value
import ThriftSyntax.Proofs.Soundness.Definition

/-!
# Runs of the rules for services, definitions and documents

The reserved word that begins a definition pays for it, so a document of whatever length costs only the
round at the end of the input.
-/

namespace ThriftSyntax.Grammar

open Parse Reader

variable {start reader after : Reader} {link : Link} {first last n : Nat}

/-! ## Services -/

/-- What is known of a function's result: its type is made of tokens of the chain, none of which was
lost when the first one was put back. -/
def ResultInside (before : Reader) (result : Option FieldType) (after : Reader) : Prop :=
  before.chain.size ≤ after.chain.size ∧ ∀ type ∈ result, TypeInside after.chain.size type

theorem resultType_yields {c : Int} {head : Link} (h : start.Hands c head reader)
    (hs : start.Steady) :
    start.Yields (c - 6) (c + 3) (ResultInside reader) (resultType head reader) := by
  have hreader := h.leads_le
  unfold resultType
  split
  · rename_i hk
    have hraw := (hreader.steady hs).raw_ne_nil h.mem (by simp [hk])
    exact (h.leads_lt hraw).pure (by omega) ⟨Nat.le_refl _, by simp⟩
  · refine (putBackLast_yields h (h.last hs)).bind (by omega) fun _ between h hbetween => ?_
    refine Yields.map (h.last (fieldType_runs (h.steady hs)) (by omega) (by omega)
      fun type after _ h htype => ⟨?_, ?_⟩)
    · rw [hbetween] at h
      exact h.size_le
    · rintro _ ⟨⟩
      exact htype

theorem functionHead_yields {first : Link} (h : start.Hands 1 first reader) (hs : start.Steady) :
    start.Yields (-5) 4 (fun head after => ResultInside reader head.2 after)
      (functionHead first reader) := by
  have hreader := h.leads_le
  unfold functionHead
  split
  · rename_i hk
    have hpaid := h.leads_lt ((hreader.steady hs).raw_ne_nil h.mem (by simp [hk]))
    refine hpaid.bind (takeSignificant_runs (hpaid.sound hs.toSound)) (by decide)
      fun head _ _ h₁ hhands => ?_
    refine (resultType_yields (hpaid.hands hhands) hs).bind (by decide) fun type _ h htype => ?_
    exact h.pure (by decide) ⟨Nat.le_trans h₁.size_le htype.1, htype.2⟩
  · exact (resultType_yields h hs).bind (by decide) fun type _ h htype => h.pure (by decide) htype

/-- The exceptions are made of the first `n` tokens. -/
def ThrowsInside (n : Nat) (throws : Option (Children Field)) : Prop :=
  ∀ fields ∈ throws, ∀ field ∈ fields.items, FieldInside n field

theorem throws_runs (hs : reader.Steady) (hle : first ≤ last) (hlast : last < reader.chain.size) :
    reader.Runs (throws last) 1 1 fun result after =>
      ThrowsInside after.chain.size result.1 ∧ first ≤ result.2 ∧ result.2 < after.chain.size := by
  refine (word?_runs hs).bind (by decide) fun word between h hq => ?_
  have hnone : ThrowsInside between.chain.size none ∧ first ≤ last ∧ last < between.chain.size :=
    ⟨by simp [ThrowsInside], hle, Nat.lt_of_lt_of_le hlast h.size_le⟩
  cases word with
  | none => exact h.pure (by decide) hnone
  | some word =>
    obtain ⟨hhands, hraw⟩ := hq word rfl
    have hpaid := hhands.leads_lt hraw
    dsimp only
    split
    · refine hpaid.bind (mark_runs .leftParen (h.steady hs)) (by decide) fun _ _ h _ _ => ?_
      have hfirst := Nat.lt_of_lt_of_le (Nat.lt_of_le_of_lt hle hlast) h.size_le
      refine h.bind (fieldsUntil_runs .rightParen (h.steady hs)) (by decide) fun result _ h _ hq => ?_
      refine h.pure (by decide) ⟨?_, hq.2.le_of_lt hfirst, hq.2.lt⟩
      rintro _ ⟨⟩
      exact hq.1
    · refine (putBackLast_yields hhands (hhands.last hs)).bind (by decide) fun _ after h hafter => ?_
      rw [hafter]
      rw [hafter] at h
      exact h.pure (by decide) hnone

theorem functionTail_runs (hs : reader.Steady) (hle : first ≤ last)
    (hlast : last < reader.chain.size) :
    reader.Runs (functionTail last) 3 3 fun result after =>
      AnnotationsInside after.chain.size result.1 ∧ ThrowsInside after.chain.size result.2.1 ∧
        first ≤ result.2.2 ∧ result.2.2 < after.chain.size := by
  refine (annotations?_runs .allow hs).bind (by decide) fun found between h hq => ?_
  cases found with
  | some found =>
    obtain ⟨annotations, closing⟩ := found
    obtain ⟨hannotations, hclosing⟩ := hq _ rfl
    have hle := hclosing.le_of_lt (Nat.lt_of_le_of_lt hle hlast)
    refine h.bind (throws_runs (h.steady hs) hle hclosing.lt) (by decide) fun result _ h h₁ hq => ?_
    have := h₁.size_le
    exact h.pure (by decide) ⟨fun node hnode => Node.Inside.mono (hannotations node hnode) this, hq⟩
  | none =>
    have hlast := Nat.lt_of_lt_of_le hlast h.size_le
    refine h.bind (throws_runs (h.steady hs) hle hlast) (by decide) fun result _ h _ hthrows => ?_
    obtain ⟨throws, last⟩ := result
    obtain ⟨hthrows, hle, hlast⟩ := hthrows
    refine h.bind (trailingAnnotations_runs .allow (h.steady hs) hle hlast) (by decide)
      fun result _ h h₂ hq => ?_
    have := h₂.size_le
    exact h.pure (by decide) ⟨hq.1, fun fields hfields field hfield =>
      (hthrows fields hfields field hfield).mono this, hq.2⟩

/-- The function is made of the first `n` tokens. -/
abbrev FunctionInside (n : Nat) (function : Function) : Prop := (Node.function function).Inside n

theorem function_runs (hs : reader.Steady) :
    reader.Runs function (-2) 4 fun function after => FunctionInside after.chain.size function := by
  refine (takeSignificant_runs hs.toSound).bind (by decide) fun first between _ hhands => ?_
  refine (functionHead_yields hhands hs).bind (by decide) fun head _ h hhead => ?_
  obtain ⟨oneway, result⟩ := head
  have hfirst := Nat.lt_of_lt_of_le (id_lt_of_mem hhands.mem) hhead.1
  refine h.bind (name_runs false (h.steady hs)) (by decide) fun name _ h h₁ _ => ?_
  refine h.bind (mark_runs .leftParen (h.steady hs)) (by decide) fun _ _ h h₂ _ => ?_
  have hopened := Nat.lt_of_lt_of_le hfirst (h₁.trans h₂).size_le
  refine h.bind (fieldsUntil_runs .rightParen (h.steady hs)) (by decide) fun args _ h h₃ hargs => ?_
  obtain ⟨args, closing⟩ := args
  obtain ⟨hargs, hclosing⟩ := hargs
  refine h.bind (functionTail_runs (h.steady hs) (hclosing.le_of_lt hopened) hclosing.lt) (by decide)
    fun tail _ h h₄ htail => ?_
  obtain ⟨annotations, throws, last⟩ := tail
  obtain ⟨hannotations, hthrows, hle, hlast⟩ := htail
  refine h.bind (separator?_runs (h.steady hs)) (by decide) fun separator _ h h₅ hseparator => ?_
  obtain ⟨hle, hlast⟩ := lastToken_bounds hle hlast h₅.moves hseparator
  rw [span_bind hle]
  have := h₁.size_le
  have := h₂.size_le
  have := h₃.size_le
  have := h₄.size_le
  have := h₅.size_le
  refine h.pure (by decide) (Node.inside_of_children hle hlast fun child hchild => ?_)
  have hparts := List.mem_mergeSort.1 hchild
  simp only [Node.functionParts, List.mem_append, List.mem_map] at hparts
  obtain ((hpart | ⟨field, hfield, rfl⟩) | ⟨node, hnode, rfl⟩) | ⟨field, hfield, rfl⟩ := hparts
  · obtain ⟨type, htype, rfl⟩ := Option.map_eq_some_iff.1 (Option.mem_toList.1 hpart)
    exact (hhead.2 type htype).mono (by omega)
  · exact (hargs field hfield).mono (by omega)
  · exact (hannotations node hnode).mono this
  · cases throws with
    | none => cases hfield
    | some fields => exact (hthrows fields rfl field hfield).mono this

theorem functionsUntil_runs (close : Punct) (hs : reader.Steady) :
    reader.Runs (functionsUntil close) 2 6 fun result after =>
      (∀ function ∈ result.1.items, FunctionInside after.chain.size function) ∧
        reader.Since after result.2.id := by
  refine Yields.bind (itemsUntil_runs (Q := FunctionInside) close (by decide) (fun hmn h => h.mono hmn)
    (fun _ hs _ => function_runs hs) hs (Nat.le_refl _)) (by decide) fun result between h hq => ?_
  obtain ⟨functions, closing⟩ := result
  have hfirst : ∀ function ∈ functions, function.span.first < between.chain.size :=
    fun function hfunction => (hq.1 function hfunction).first_lt
  dsimp only
  rw [bind_of_ok (index_eq hfirst)]
  exact h.pure (by decide) hq

theorem base?_runs (hs : reader.Steady) : reader.Runs base? 1 1 fun _ _ => True := by
  refine (word?_runs hs).bind (by decide) fun word _ h hq => ?_
  cases word with
  | none => exact h.pure (by decide) trivial
  | some word =>
    obtain ⟨hhands, hraw⟩ := hq word rfl
    have hpaid := hhands.leads_lt hraw
    dsimp only
    split
    · exact Yields.map (hpaid.last (name_runs false (h.steady hs)) (by decide) (by decide)
        fun _ _ _ _ _ => trivial)
    · exact h.throw (by decide) rfl

/-! ## Definitions

Each rule gets the reserved word that begins the definition, which is a token of the chain. -/

variable {keyword : Link} (hkeyword : keyword.id < reader.chain.size)

include hkeyword

theorem service_runs (hs : reader.Steady) :
    reader.Runs (service keyword) 0 3 fun node after => (Node.service node).Inside after.chain.size := by
  refine (name_runs false hs).bind (by decide) fun name _ h _ => ?_
  refine h.bind (base?_runs (h.steady hs)) (by decide) fun base _ h _ _ => ?_
  refine h.bind (mark_runs .leftBrace (h.steady hs)) (by decide) fun _ _ h _ _ => ?_
  have hopened := Nat.lt_of_lt_of_le hkeyword h.size_le
  refine h.bind (functionsUntil_runs .rightBrace (h.steady hs)) (by decide)
    fun functions _ h _ hfunctions => ?_
  obtain ⟨functions, closing⟩ := functions
  obtain ⟨hfunctions, hclosing⟩ := hfunctions
  refine h.bind (trailingAnnotations_runs .allow (h.steady hs) (hclosing.le_of_lt hopened)
    hclosing.lt) (by decide) fun tail _ h h₁ htail => ?_
  obtain ⟨annotations, last⟩ := tail
  obtain ⟨hannotations, hle, hlast⟩ := htail
  dsimp only
  rw [span_bind hle]
  have := h₁.size_le
  exact h.pure (by decide) (Node.inside_of_children hle hlast <|
    List.forall_mem_append.2 ⟨List.forall_mem_map.2 fun function hfunction =>
      (hfunctions function hfunction).mono this, hannotations.forall_mem⟩)

omit hkeyword in
theorem scope_runs (hs : reader.Steady) : reader.Runs scope 0 3 fun _ _ => True := by
  refine (mark?_runs .star hs).bind (by decide) fun star _ h hq => ?_
  cases star with
  | some star => exact (hq star rfl).1.pure (by decide) trivial
  | none =>
    exact h.bind (name_runs true (h.steady hs)) (by decide) fun _ _ h _ _ => h.pure (by decide) trivial

theorem namespaced_runs (trailing : TrailingSeparator) (hs : reader.Steady) :
    reader.Runs (namespaced trailing keyword) 0 3 fun node after =>
      (Node.namespaced node).Inside after.chain.size := by
  refine (scope_runs hs).bind (by decide) fun scope _ h _ => ?_
  have hscoped := Nat.lt_of_lt_of_le hkeyword h.size_le
  refine h.bind (name_runs true (h.steady hs)) (by decide) fun target _ h _ htarget => ?_
  have hle := Nat.le_trans (htarget.2.le_of_lt hscoped) htarget.1.1
  refine h.bind (trailingAnnotations_runs trailing (h.steady hs) hle htarget.1.2) (by decide)
    fun tail _ h _ htail => ?_
  obtain ⟨annotations, last⟩ := tail
  obtain ⟨hannotations, hle, hlast⟩ := htail
  dsimp only
  rw [span_bind hle]
  exact h.pure (by decide) (Node.inside_of_children hle hlast hannotations.forall_mem)

theorem included_runs (form : IncludeForm) (hs : reader.Steady) :
    reader.Runs (included form keyword) 0 3 fun node after =>
      (Node.included node).Inside after.chain.size := by
  refine (string_runs hs).bind (by decide) fun path _ h hpath => ?_
  have hle := hpath.le_of_lt hkeyword
  rw [span_bind hle]
  exact h.pure (by decide) (Node.inside_of_children hle hpath.lt (by simp [Node.children]))

theorem const_runs (hs : reader.Steady) :
    reader.Runs (const keyword) 0 3 fun node after => (Node.const node).Inside after.chain.size := by
  refine (fieldType_runs hs).bind (by decide) fun type _ h htype => ?_
  refine h.bind (name_runs false (h.steady hs)) (by decide) fun name _ h h₁ _ => ?_
  refine h.bind (mark_runs .equals (h.steady hs)) (by decide) fun _ _ h h₂ _ => ?_
  have hnamed := Nat.lt_of_lt_of_le hkeyword h.size_le
  refine h.bind (constValue_runs (h.steady hs)) (by decide) fun value _ h h₃ hvalue => ?_
  obtain ⟨hinside, hend⟩ := hvalue
  refine h.bind (separator?_runs (h.steady hs)) (by decide) fun separator _ h h₄ hseparator => ?_
  obtain ⟨hle, hlast⟩ := lastToken_bounds (hend.le_of_lt hnamed) hend.lt h₄.moves hseparator
  rw [span_bind hle]
  have := h₁.size_le
  have := h₂.size_le
  have := h₃.size_le
  have := h₄.size_le
  refine h.pure (by decide) (Node.inside_of_children hle hlast ?_)
  simp only [Node.children, List.mem_cons, List.not_mem_nil, or_false, forall_eq_or_imp, forall_eq]
  exact ⟨htype.mono (by omega), hinside.mono this⟩

omit hkeyword in
theorem aliasedType_runs (hs : reader.Steady) :
    reader.Runs aliasedType (-6) 3 fun type after => TypeInside after.chain.size type := by
  refine (fieldType_runs hs).bind (by decide) fun type between h htype => ?_
  cases type with
  | named name span annotations =>
    obtain ⟨link, hl, hid⟩ := TokenChain.exists_link (show span.first < between.chain.size from
      htype.first_lt)
    dsimp only
    rw [← hid, bind_of_ok (token_eq hl)]
    exact h.throw (by decide) rfl
  | _ => exact h.pure (by decide) htype

theorem typedef_runs (hs : reader.Steady) :
    reader.Runs (typedef keyword) 0 3 fun node after => (Node.typedef node).Inside after.chain.size := by
  refine (aliasedType_runs hs).bind (by decide) fun type _ h htype => ?_
  have htyped := Nat.lt_of_lt_of_le hkeyword h.size_le
  refine h.bind (name_runs true (h.steady hs)) (by decide) fun name _ h h₁ hname => ?_
  have hle := Nat.le_trans (hname.2.le_of_lt htyped) hname.1.1
  refine h.bind (trailingAnnotations_runs .allow (h.steady hs) hle hname.1.2) (by decide)
    fun tail _ h h₂ htail => ?_
  obtain ⟨annotations, last⟩ := tail
  obtain ⟨hannotations, hle, hlast⟩ := htail
  refine h.bind (separator?_runs (h.steady hs)) (by decide) fun separator _ h h₃ hseparator => ?_
  obtain ⟨hle, hlast⟩ := lastToken_bounds hle hlast h₃.moves hseparator
  rw [span_bind hle]
  have := h₁.size_le
  have := h₂.size_le
  have := h₃.size_le
  exact h.pure (by decide) (Node.inside_of_children hle hlast <|
    List.forall_mem_cons.2 ⟨htype.mono (by omega),
      fun child hchild => (hannotations.forall_mem child hchild).mono this⟩)

omit hkeyword in
theorem assigned?_runs (hs : reader.Steady) :
    reader.Runs assigned? 1 1 fun found after => ∀ number ∈ found, reader.Since after number.1.id := by
  refine (mark?_runs .equals hs).bind (by decide) fun equals _ h hq => ?_
  cases equals with
  | none => exact h.pure (by decide) (by simp)
  | some equals =>
    obtain ⟨hpaid, -⟩ := hq equals rfl
    refine Yields.map (hpaid.last (integer_runs (h.steady hs)) (by decide) (by decide)
      fun number after _ _ hq => ?_)
    rintro _ ⟨⟩
    exact hq.extend h.moves

/-- The element is made of the first `n` tokens. -/
abbrev ElementInside (n : Nat) (element : EnumElement) : Prop := (Node.enumElement element).Inside n

omit hkeyword in
theorem enumElement_runs (hs : reader.Steady) :
    reader.Runs enumElement (-2) 2 fun element after => ElementInside after.chain.size element := by
  refine (name_runs false hs).bind (by decide) fun name _ h hname => ?_
  obtain ⟨⟨hle, hlast⟩, -⟩ := hname
  refine h.bind (assigned?_runs (h.steady hs)) (by decide) fun assigned between h h₁ hassigned => ?_
  have hend : name.head.id ≤ (assigned.map (·.1.id)).getD name.last.id ∧
      (assigned.map (·.1.id)).getD name.last.id < between.chain.size := by
    cases assigned with
    | none => exact ⟨hle, Nat.lt_of_lt_of_le hlast h₁.size_le⟩
    | some number =>
      have hsince := hassigned number rfl
      exact ⟨hsince.le_of_lt (Nat.lt_of_le_of_lt hle hlast), hsince.lt⟩
  refine h.bind (trailingAnnotations_runs .allow (h.steady hs) hend.1 hend.2) (by decide)
    fun tail _ h h₂ htail => ?_
  obtain ⟨annotations, last⟩ := tail
  obtain ⟨hannotations, hle, hlast⟩ := htail
  refine h.bind (separator?_runs (h.steady hs)) (by decide) fun separator _ h h₃ hseparator => ?_
  obtain ⟨hle, hlast⟩ := lastToken_bounds hle hlast h₃.moves hseparator
  rw [span_bind hle]
  have := h₃.size_le
  exact h.pure (by decide) (Node.inside_of_children hle hlast
    fun child hchild => (hannotations.forall_mem child hchild).mono this)

omit hkeyword in
/-- Numbering the elements leaves their tokens as they are. -/
theorem elementInside_assign {numbering : Numbering} {elements : List EnumElement}
    (h : ∀ element ∈ elements, ElementInside n element) :
    ∀ element ∈ numbering.assign elements, ElementInside n element := by
  have hset : ∀ {element : EnumElement} {id : Int}, ElementInside n element →
      ElementInside n { element with id } := fun helement =>
    Node.inside_of_children helement.span.1 helement.span.2 fun child hchild node hn =>
      helement node (.head hchild hn)
  cases numbering with
  | explicit => exact List.forall_mem_map.2 fun element helement => hset (h element helement)
  | sequential =>
    show ∀ element ∈ Numbering.count 0 elements, ElementInside n element
    generalize (0 : Int) = id
    induction elements generalizing id with
    | nil => simp [Numbering.count]
    | cons element elements ih =>
      obtain ⟨helement, h⟩ := List.forall_mem_cons.1 h
      exact List.forall_mem_cons.2 ⟨hset helement, ih h _⟩

theorem enum_runs (numbering : Numbering) (hs : reader.Steady) :
    reader.Runs (enum numbering keyword) 0 3 fun node after =>
      (Node.enum node).Inside after.chain.size := by
  refine (name_runs false hs).bind (by decide) fun name _ h _ => ?_
  refine h.bind (mark_runs .leftBrace (h.steady hs)) (by decide) fun _ _ h _ _ => ?_
  have hopened := Nat.lt_of_lt_of_le hkeyword h.size_le
  refine h.bind (itemsUntil_runs (Q := ElementInside) .rightBrace (by decide)
    (fun hmn h => h.mono hmn) (fun _ hs _ => enumElement_runs hs) (h.steady hs) (Nat.le_refl _))
    (by decide) fun elements _ h _ helements => ?_
  obtain ⟨elements, closing⟩ := elements
  obtain ⟨helements, hclosing⟩ := helements
  refine h.bind (trailingAnnotations_runs .allow (h.steady hs) (hclosing.le_of_lt hopened)
    hclosing.lt) (by decide) fun tail _ h h₁ htail => ?_
  obtain ⟨annotations, last⟩ := tail
  obtain ⟨hannotations, hle, hlast⟩ := htail
  dsimp only
  rw [span_bind hle]
  refine h.pure (by decide) (Node.inside_of_children hle hlast <|
    List.forall_mem_append.2 ⟨List.forall_mem_map.2 <| elementInside_assign fun element helement =>
      (helements element helement).mono h₁.size_le, hannotations.forall_mem⟩)

theorem struct_runs (form : StructForm) (hs : reader.Steady) :
    reader.Runs (struct form keyword) 0 3 fun node after =>
      (Node.struct node).Inside after.chain.size := by
  refine (name_runs false hs).bind (by decide) fun name _ h _ => ?_
  refine h.bind (mark_runs .leftBrace (h.steady hs)) (by decide) fun _ _ h _ _ => ?_
  have hopened := Nat.lt_of_lt_of_le hkeyword h.size_le
  refine h.bind (fieldsUntil_runs .rightBrace (h.steady hs)) (by decide) fun fields _ h _ hfields => ?_
  obtain ⟨fields, closing⟩ := fields
  obtain ⟨hfields, hclosing⟩ := hfields
  refine h.bind (trailingAnnotations_runs .allow (h.steady hs) (hclosing.le_of_lt hopened)
    hclosing.lt) (by decide) fun tail _ h h₁ htail => ?_
  obtain ⟨annotations, last⟩ := tail
  obtain ⟨hannotations, hle, hlast⟩ := htail
  dsimp only
  rw [span_bind hle]
  exact h.pure (by decide) (Node.inside_of_children hle hlast <|
    List.forall_mem_append.2 ⟨List.forall_mem_map.2 fun field hfield =>
      (hfields field hfield).mono h₁.size_le, hannotations.forall_mem⟩)

/-- The definition is made of the first `n` tokens. -/
abbrev DefinitionInside (n : Nat) (definition : Definition) : Prop :=
  (Node.ofDefinition definition).Inside n

theorem definition_runs (options : Options) (hs : reader.Steady) :
    reader.Runs (definition options keyword) 0 3 fun node after =>
      DefinitionInside after.chain.size node := by
  have hmap : ∀ {α : Type} {p : Parse α} {Q : α → Reader → Prop} (f : α → Definition),
      reader.Runs p 0 3 Q → (∀ a after, Q a after → DefinitionInside after.chain.size (f a)) →
      reader.Runs (f <$> p) 0 3 fun node after => DefinitionInside after.chain.size node :=
    fun _ hp hQ => Yields.map (hp.mono (by decide) (by decide) fun a after _ hq => hQ a after hq)
  have hother : reader.Runs (throw (.unexpected keyword .definition) : Parse Definition) 0 3
      fun node after => DefinitionInside after.chain.size node :=
    (Leads.refl reader).throw (by decide) rfl
  unfold definition
  cases keyword.kind with
  | keyword word =>
    cases word with
    | «namespace» =>
      exact hmap _ (namespaced_runs hkeyword options.namespaceTrailing hs) fun _ _ hq => hq
    | «include» => exact hmap _ (included_runs hkeyword .thrift hs) fun _ _ hq => hq
    | cppInclude => exact hmap _ (included_runs hkeyword .cpp hs) fun _ _ hq => hq
    | const => exact hmap _ (const_runs hkeyword hs) fun _ _ hq => hq
    | typedef => exact hmap _ (typedef_runs hkeyword hs) fun _ _ hq => hq
    | enum => exact hmap _ (enum_runs hkeyword options.numbering hs) fun _ _ hq => hq
    | struct => exact hmap _ (struct_runs hkeyword .struct hs) fun _ _ hq => hq
    | union => exact hmap _ (struct_runs hkeyword .union hs) fun _ _ hq => hq
    | exception => exact hmap _ (struct_runs hkeyword .exception hs) fun _ _ hq => hq
    | service => exact hmap _ (service_runs hkeyword hs) fun _ _ hq => hq
    | _ => exact hother
  | _ => exact hother

omit hkeyword in
theorem definitionStep_runs (options : Options) (hs : reader.Steady) :
    reader.Runs (definitionStep options) 1 1 (reader.Round (fun _ => True)
      (fun node after => DefinitionInside after.chain.size node)
      fun ending after => ending.id < after.chain.size) := by
  refine (takeSignificant_runs hs.toSound).bind (by decide) fun head _ h hhands => ?_
  have hhead := id_lt_of_mem hhands.mem
  split
  · exact h.pure (by decide) hhead
  · rename_i hk
    have hpaid := hhands.leads_lt ((h.steady hs).raw_ne_nil hhands.mem hk)
    exact Yields.map (hpaid.last (definition_runs hhead options (h.steady hs)) (by decide) (by decide)
      fun _ _ hl _ hnode => ⟨hl.mono (by decide), trivial, hnode⟩)

omit hkeyword in
theorem document_runs (options : Options) (hs : reader.Steady) :
    reader.Runs (document options) 2 2 fun document after =>
      (Node.document document).Inside after.chain.size := by
  rw [document_eq]
  refine (runs_repeatUntil (fun h => h) (fun hm h => h.mono hm.size_le)
    (fun _ hmoves _ _ => definitionStep_runs options (hmoves.steady hs)) trivial
    (Nat.le_refl _)).bind (by decide) fun result _ h hq => ?_
  obtain ⟨definitions, ending⟩ := result
  dsimp only
  rw [span_bind (Nat.zero_le _)]
  exact h.pure (by decide) (Node.inside_of_children (Nat.zero_le _) hq.2 (List.forall_mem_map.2 hq.1))

end ThriftSyntax.Grammar
