import ThriftSyntax.Grammar.Field
import ThriftSyntax.Proofs.Session.Rule
import ThriftSyntax.Proofs.Soundness.ConstValue

/-!
# Runs of the rules for types, constants and fields

Types lie within types and constants within constants. What is read before an inner one pays for the
rounds it takes, so a type or a constant, with all that lies within it, leaves at least six rounds paid
for that did not begin.
-/

namespace ThriftSyntax.Grammar

open Parse Reader

variable {reader after : Reader} {link : Link} {first last n : Nat}

theorem AnnotationsInside.forall_mem {nodes : List Annotation} (h : AnnotationsInside n nodes) :
    ∀ child ∈ nodes.map Node.annotation, child.Inside n :=
  List.forall_mem_map.2 h

/-! ## Types -/

theorem cppType?_runs (hs : reader.Steady) :
    reader.Runs cppType? 1 1 fun found after => ∀ link ∈ found, reader.Since after link.id := by
  refine (word?_runs hs).bind (by decide) fun word _ h hq => ?_
  cases word with
  | none => exact h.pure (by decide) (by simp)
  | some word =>
    obtain ⟨hhands, hraw⟩ := hq word rfl
    have hpaid := hhands.leads_lt hraw
    dsimp only
    split
    · refine Yields.map (hpaid.last (string_runs (h.steady hs)) (by decide) (by decide)
        fun link after _ _ hq => ?_)
      rintro _ ⟨⟩
      exact hq.extend h.moves
    · refine (putBackLast_yields hhands (hhands.last hs)).bind (by decide) fun _ _ h _ => ?_
      exact h.pure (by decide) (by simp)

/-- The type is made of the first `n` tokens. -/
abbrev TypeInside (n : Nat) (type : FieldType) : Prop := (Node.fieldType type).Inside n

/-- So is the type that this becomes with a span and with annotations; without any, it would end with one
of these tokens that does not come before `first`. -/
structure OpenInside (first n : Nat) (type : OpenType) : Prop where
  le : first ≤ type.2
  lt : type.2 < n
  build : ∀ m ≥ n, ∀ span annotations, span.first ≤ span.last → span.last < m →
    AnnotationsInside m annotations → TypeInside m (type.1 span annotations)

theorem typeInside_of_arguments {type : FieldType} (hle : type.span.first ≤ type.span.last)
    (hlast : type.span.last < n) (hannotations : AnnotationsInside n type.annotations)
    (harguments : ∀ argument ∈ type.arguments, TypeInside n argument) : TypeInside n type :=
  Node.inside_of_children hle hlast <|
    List.forall_mem_append.2 ⟨List.forall_mem_map.2 harguments, hannotations.forall_mem⟩

theorem typeOfName_runs {name : DottedName} (hname : name.Inside reader.chain.size) :
    reader.Runs (typeOfName name) 0 0 fun type after =>
      OpenInside name.head.id after.chain.size type := by
  rw [Runs, typeOfName]
  cases BaseType.ofText? name.text with
  | some base =>
    exact (Leads.refl reader).pure (by decide) ⟨hname.1, hname.2, fun _ _ _ _ hle hlast hannotations =>
      typeInside_of_arguments hle hlast hannotations (by simp [FieldType.arguments])⟩
  | none =>
    dsimp only
    split
    · exact (Leads.refl reader).throw (by decide) rfl
    · exact (Leads.refl reader).pure (by decide) ⟨hname.1, hname.2, fun _ _ _ _ hle hlast hannotations =>
        typeInside_of_arguments hle hlast hannotations (by simp [FieldType.arguments])⟩

/-- The name decides how a type goes on. -/
theorem openType_cases (name : DottedName) :
    (∀ type, openType type name = mapType type) ∨ (∀ type, openType type name = setType type) ∨
      (∀ type, openType type name = listType type) ∨ ∀ type, openType type name = typeOfName name := by
  unfold openType
  split <;> simp

section Containers

variable {type : Parse FieldType} {limit : Nat}
  (htype : ∀ below : Reader, below.Steady → below.unread < limit →
    below.Runs type (-6) 3 fun node after => TypeInside after.chain.size node)

include htype

theorem mapType_runs (hs : reader.Steady) (hlimit : reader.unread < limit)
    (hfirst : first < reader.chain.size) :
    reader.Runs (mapType type) 0 3 fun type after => OpenInside first after.chain.size type := by
  refine (cppType?_runs hs).bind (by decide) fun cppType _ h _ => ?_
  refine h.bind (mark_runs .less (h.steady hs)) (by decide) fun _ _ h _ _ => ?_
  have := h.unread_le (by decide)
  refine h.bind (htype _ (h.steady hs) (by omega)) (by decide) fun key _ h _ hkey => ?_
  refine h.bind (mark_runs .comma (h.steady hs)) (by decide) fun _ _ h h₁ _ => ?_
  have := h.unread_le (by decide)
  refine h.bind (htype _ (h.steady hs) (by omega)) (by decide) fun value inside h h₂ hvalue => ?_
  have hinside := Nat.lt_of_lt_of_le hfirst h.size_le
  refine h.bind (mark_runs .greater (h.steady hs)) (by decide) fun close _ h h₃ hclose => ?_
  have := h₁.size_le
  have := h₂.size_le
  have := h₃.size_le
  refine h.pure (by decide) ⟨hclose.le_of_lt hinside, hclose.lt, fun m hm span _ hle hlast hannotations =>
    typeInside_of_arguments hle hlast hannotations ?_⟩
  simp only [FieldType.arguments, List.mem_cons, List.not_mem_nil, or_false, forall_eq_or_imp,
    forall_eq]
  exact ⟨hkey.mono (by omega), hvalue.mono (by omega)⟩

theorem setType_runs (hs : reader.Steady) (hlimit : reader.unread < limit)
    (hfirst : first < reader.chain.size) :
    reader.Runs (setType type) 0 3 fun type after => OpenInside first after.chain.size type := by
  refine (cppType?_runs hs).bind (by decide) fun cppType _ h _ => ?_
  refine h.bind (mark_runs .less (h.steady hs)) (by decide) fun _ _ h _ _ => ?_
  have := h.unread_le (by decide)
  refine h.bind (htype _ (h.steady hs) (by omega)) (by decide) fun element _ h _ helement => ?_
  have hinside := Nat.lt_of_lt_of_le hfirst h.size_le
  refine h.bind (mark_runs .greater (h.steady hs)) (by decide) fun close _ h h₁ hclose => ?_
  have := h₁.size_le
  refine h.pure (by decide) ⟨hclose.le_of_lt hinside, hclose.lt, fun m hm span _ hle hlast hannotations =>
    typeInside_of_arguments hle hlast hannotations ?_⟩
  simp only [FieldType.arguments, List.mem_singleton, forall_eq]
  exact helement.mono (by omega)

theorem listType_runs (hs : reader.Steady) (hlimit : reader.unread < limit)
    (hfirst : first < reader.chain.size) :
    reader.Runs (listType type) 0 3 fun type after => OpenInside first after.chain.size type := by
  refine (mark_runs .less hs).bind (by decide) fun _ _ h _ => ?_
  have := h.unread_le (by decide)
  refine h.bind (htype _ (h.steady hs) (by omega)) (by decide) fun element _ h _ helement => ?_
  have hinside := Nat.lt_of_lt_of_le hfirst h.size_le
  refine h.bind (mark_runs .greater (h.steady hs)) (by decide) fun close between h h₁ hclose => ?_
  have hbetween := Nat.lt_of_lt_of_le hfirst h.size_le
  refine h.bind (cppType?_runs (h.steady hs)) (by decide) fun cppType after h h₂ hcppType => ?_
  have hend : first ≤ (cppType.getD close).id ∧ (cppType.getD close).id < after.chain.size := by
    cases cppType with
    | none => exact ⟨hclose.le_of_lt hinside, (hclose.mono h₂.moves).lt⟩
    | some literal => exact ⟨(hcppType literal rfl).le_of_lt hbetween, (hcppType literal rfl).lt⟩
  have := h₁.size_le
  have := h₂.size_le
  refine h.pure (by decide) ⟨hend.1, hend.2, fun m hm span _ hle hlast hannotations =>
    typeInside_of_arguments hle hlast hannotations ?_⟩
  simp only [FieldType.arguments, List.mem_singleton, forall_eq]
  exact helement.mono (by omega)

theorem openType_runs {name : DottedName} (hs : reader.Steady) (hlimit : reader.unread < limit)
    (hname : name.Inside reader.chain.size) :
    reader.Runs (openType type name) 0 3 fun type after =>
      OpenInside name.head.id after.chain.size type := by
  have hfirst := Nat.lt_of_le_of_lt hname.1 hname.2
  obtain heq | heq | heq | heq := openType_cases name
  all_goals rw [heq]
  · exact mapType_runs htype hs hlimit hfirst
  · exact setType_runs htype hs hlimit hfirst
  · exact listType_runs htype hs hlimit hfirst
  · exact (typeOfName_runs hname).mono (by decide) (by decide) fun _ _ _ hq => hq

end Containers

theorem fieldType_runs (hs : reader.Steady) :
    reader.Runs fieldType (-6) 3 fun type after => TypeInside after.chain.size type := by
  refine runs_nested (Q := fun _ type after => TypeInside after.chain.size type) (fun h => h)
    (fun inside type hs htype => ?_) hs
  refine (name_runs true hs).bind (by decide) fun name _ h hname => ?_
  refine h.bind (openType_runs htype (h.steady hs) (h.unread_lt (by decide)) hname.1) (by decide)
    fun open_ _ h h₁ hopen => ?_
  refine h.bind (trailingAnnotations_runs .allow (h.steady hs) hopen.le hopen.lt) (by decide)
    fun result _ h h₂ hq => ?_
  obtain ⟨annotations, last⟩ := result
  obtain ⟨hannotations, hle, hlast⟩ := hq
  dsimp only
  rw [span_bind hle]
  exact h.pure (by decide) (hopen.build _ h₂.size_le _ _ hle hlast hannotations)

/-! ## Constants -/

/-- The constant is made of the first `n` tokens. -/
abbrev ValueInside (n : Nat) (value : ConstValue) : Prop := (Node.constValue value).Inside n

/-- The constant is made of tokens of the chain and ends with one that is read from `reader` on. -/
def ValueSince (reader : Reader) (value : ConstValue) (after : Reader) : Prop :=
  ValueInside after.chain.size value ∧ reader.Since after value.span.last

theorem ValueSince.extend {start : Reader} {value : ConstValue} (h : ValueSince reader value after)
    (hmoves : Moves start reader) : ValueSince start value after :=
  ⟨h.1, h.2.extend hmoves⟩

theorem valueInside_of_parts {value : ConstValue} (hle : value.span.first ≤ value.span.last)
    (hlast : value.span.last < n) (hparts : ∀ part ∈ value.parts, ValueInside n part) :
    ValueInside n value :=
  Node.inside_of_children hle hlast (List.forall_mem_map.2 hparts)

theorem valueSince_scalar {form : ScalarForm} {text : String} {span : Span}
    (hle : span.first ≤ span.last) (hlast : reader.Since after span.last) :
    ValueSince reader (.scalar form text span) after :=
  ⟨valueInside_of_parts hle hlast.lt (by simp [ConstValue.parts]), hlast⟩

theorem numberValue_runs (hs : reader.Steady) :
    reader.Runs numberValue (-8) 1 (ValueSince reader) := by
  refine (takeNumber_runs hs.toSound).bind (by decide) fun link between h hhands => ?_
  have hpaid : link.kind = .number → reader.Leads (-9) between := fun hk =>
    hhands.leads_lt ((h.steady hs).raw_ne_nil hhands.mem (by simp [hk]))
  cases hk : link.kind with
  | number =>
    cases Numeral.form? link.raw with
    | none => exact h.throw (by decide) rfl
    | some form =>
      cases form <;>
        exact (hpaid hk).pure (by decide) (valueSince_scalar (Nat.le_refl _) (hhands.since hs))
  | _ => exact h.throw (by decide) rfl

theorem stringValue_runs (hs : reader.Steady) :
    reader.Runs stringValue (-8) 2 (ValueSince reader) := by
  refine (string_runs hs).bind (by decide) fun literal _ h hsince => ?_
  exact h.pure (by decide) (valueSince_scalar (Nat.le_refl _) hsince)

theorem nameValue_runs (hs : reader.Steady) :
    reader.Runs nameValue (-8) 2 (ValueSince reader) := by
  refine (name_runs false hs).bind (by decide) fun name after h hname => ?_
  obtain ⟨⟨hle, hlast⟩, hsince⟩ := hname
  split
  · rw [span_bind hle]
    exact h.pure (by decide)
      (valueSince_scalar hle ⟨Nat.le_trans hsince.le (Nat.succ_le_succ hle), hlast⟩)
  · exact h.throw (by decide) rfl

/-- The mark that was looked at pays for what is read after it. -/
theorem takeSeen_runs {c : Char} (hs : reader.Sound) (hnext : reader.next? = some c) :
    reader.Runs take (-10) 0 fun link after => link.id < after.chain.size where
  ok link after h := by
    obtain ⟨-, hhands, hraw⟩ := (take_runs hs).ok link after h
    exact ⟨(hhands.leads_lt (ne_nil_of_head? (hraw.trans hnext))).mono (by decide),
      id_lt_of_mem hhands.mem⟩
  error error after h := (take_runs hs).error error after h

section Containers

variable {value : Parse ConstValue} {limit : Nat} {c : Char}
  (hvalue : ∀ below : Reader, below.Steady → below.unread < limit →
    below.Runs value (-6) 4 (ValueSince below))

include hvalue

theorem listItem_runs (hs : reader.Steady) (hlimit : reader.unread < limit) :
    reader.Runs (listItem value) (-2) 4 fun node after => ValueInside after.chain.size node := by
  refine (hvalue _ hs hlimit).bind (by decide) fun item _ h hitem => ?_
  refine h.bind (separator?_runs (h.steady hs)) (by decide) fun _ _ h h₁ _ => ?_
  exact h.pure (by decide) (hitem.1.mono h₁.size_le)

theorem listValue_runs (hs : reader.Steady) (hlimit : reader.unread ≤ limit)
    (hnext : reader.next? = some c) :
    reader.Runs (listValue value) (-8) 0 (ValueSince reader) := by
  rw [listValue_eq]
  refine (takeSeen_runs hs.toSound hnext).bind (by decide) fun opening between h hopening => ?_
  have hlt := h.unread_lt (by decide)
  have hmoves := h.moves
  refine h.bind (itemsUntil_runs (Q := ValueInside) .rightBracket (by decide) (fun hmn h => h.mono hmn)
    (fun inside hs hinside => listItem_runs hvalue hs (by omega)) (h.steady hs) (Nat.le_refl _))
    (by decide) fun result after h _ hq => ?_
  obtain ⟨items, closing⟩ := result
  obtain ⟨hitems, hclosing⟩ := hq
  have hle := hclosing.le_of_lt hopening
  dsimp only
  rw [span_bind hle]
  exact h.pure (by decide) ⟨valueInside_of_parts hle hclosing.lt hitems, hclosing.extend hmoves⟩

/-- The key and the value of an entry are made of the first `n` tokens. -/
def EntryInside (n : Nat) (entry : ConstValue × ConstValue) : Prop :=
  ValueInside n entry.1 ∧ ValueInside n entry.2

theorem mapItem_runs (hs : reader.Steady) (hlimit : reader.unread < limit) :
    reader.Runs (mapItem value) (-2) 4 fun entry after => EntryInside after.chain.size entry := by
  refine (hvalue _ hs hlimit).bind (by decide) fun key _ h hkey => ?_
  refine h.bind (mark_runs .colon (h.steady hs)) (by decide) fun _ _ h h₁ _ => ?_
  have := h.unread_le (by decide)
  refine h.bind (hvalue _ (h.steady hs) (by omega)) (by decide) fun value _ h h₂ hvalue => ?_
  refine h.bind (separator?_runs (h.steady hs)) (by decide) fun _ _ h h₃ _ => ?_
  have := h₁.size_le
  have := h₂.size_le
  have := h₃.size_le
  exact h.pure (by decide) ⟨hkey.1.mono (by omega), hvalue.1.mono (by omega)⟩

theorem mapValue_runs (hs : reader.Steady) (hlimit : reader.unread ≤ limit)
    (hnext : reader.next? = some c) :
    reader.Runs (mapValue value) (-8) 0 (ValueSince reader) := by
  rw [mapValue_eq]
  refine (takeSeen_runs hs.toSound hnext).bind (by decide) fun opening between h hopening => ?_
  have hlt := h.unread_lt (by decide)
  have hmoves := h.moves
  refine h.bind (itemsUntil_runs (Q := EntryInside) .rightBrace (by decide)
    (fun hmn h => ⟨h.1.mono hmn, h.2.mono hmn⟩)
    (fun inside hs hinside => mapItem_runs hvalue hs (by omega)) (h.steady hs) (Nat.le_refl _))
    (by decide) fun result after h _ hq => ?_
  obtain ⟨entries, closing⟩ := result
  obtain ⟨hentries, hclosing⟩ := hq
  have hle := hclosing.le_of_lt hopening
  dsimp only
  rw [span_bind hle]
  refine h.pure (by decide) ⟨valueInside_of_parts hle hclosing.lt ?_, hclosing.extend hmoves⟩
  intro part hpart
  obtain ⟨entry, hentry, hpart⟩ := List.mem_flatMap.1 hpart
  obtain ⟨hkey, hvalue⟩ := hentries entry hentry
  simp only [List.mem_cons, List.not_mem_nil, or_false] at hpart
  obtain rfl | rfl := hpart
  · exact hkey
  · exact hvalue

end Containers

theorem constValue_runs (hs : reader.Steady) :
    reader.Runs constValue (-6) 4 (ValueSince reader) := by
  refine runs_nested (Q := ValueSince) (fun h => ⟨h.1, h.2.le, h.2.lt⟩)
    (fun inside value hs hvalue => ?_) hs
  refine (peekSignificant_runs hs.toSound).bind (by decide) fun c between h hc => ?_
  have hs' := h.steady hs
  have hle := h.unread_le (by decide)
  have hlast : ∀ {d e : Int} {p : Parse ConstValue}, between.Runs p d e (ValueSince between) →
      d ≤ -8 → e ≤ 2 → inside.Yields (-6 - 1) (4 - 1) (ValueSince inside) (p between) :=
    fun hp hd he => h.last hp (by omega) (by omega) fun _ _ _ _ hq => hq.extend h.moves
  cases c with
  | none => exact hlast (nameValue_runs hs') (by decide) (by decide)
  | some c =>
    dsimp only
    split
    · exact hlast (numberValue_runs hs') (by decide) (by decide)
    split
    · exact hlast (stringValue_runs hs') (by decide) (by decide)
    split
    · exact hlast (listValue_runs hvalue hs' hle hc.symm) (by decide) (by decide)
    split
    · exact hlast (mapValue_runs hvalue hs' hle hc.symm) (by decide) (by decide)
    · exact hlast (nameValue_runs hs') (by decide) (by decide)

/-! ## Fields -/

theorem requiredness?_runs (hs : reader.Steady) :
    reader.Runs requiredness? 1 1 fun _ _ => True := by
  refine (word?_runs hs).bind (by decide) fun word between h hq => ?_
  cases word with
  | none => exact h.pure (by decide) trivial
  | some word =>
    obtain ⟨hhands, -⟩ := hq word rfl
    have hback : reader.Yields 1 1 (fun _ _ => True)
        ((do putBackLast word; return none : Parse (Option Requiredness)) between) :=
      (putBackLast_yields hhands (hhands.last hs)).bind (by decide) fun _ _ h _ =>
        h.pure (by decide) trivial
    dsimp only
    cases word.kind with
    | keyword keyword =>
      cases keyword with
      | required => exact h.pure (by decide) trivial
      | optional => exact h.pure (by decide) trivial
      | _ => exact hback
    | _ => exact hback

theorem default?_runs (hs : reader.Steady) :
    reader.Runs default? 1 1 fun found after => ∀ value ∈ found, ValueSince reader value after := by
  refine (mark?_runs .equals hs).bind (by decide) fun equals _ h hq => ?_
  cases equals with
  | none => exact h.pure (by decide) (by simp)
  | some equals =>
    obtain ⟨hpaid, -⟩ := hq equals rfl
    refine Yields.map (hpaid.last (constValue_runs (h.steady hs)) (by decide) (by decide)
      fun value after _ _ hq => ?_)
    rintro _ ⟨⟩
    exact hq.extend h.moves

/-- With a separator, a node ends with this. -/
theorem lastToken_bounds {separator : Option Link} (hle : first ≤ last)
    (hlast : last < reader.chain.size) (hmoves : Moves reader after)
    (hseparator : ∀ link ∈ separator, reader.Since after link.id) :
    first ≤ lastToken last separator ∧ lastToken last separator < after.chain.size := by
  cases separator with
  | none => exact ⟨hle, Nat.lt_of_lt_of_le hlast hmoves.size_le⟩
  | some link =>
    have hsince := hseparator link rfl
    exact ⟨hsince.le_of_lt (Nat.lt_of_le_of_lt hle hlast), hsince.lt⟩

/-- The field is made of the first `n` tokens. -/
abbrev FieldInside (n : Nat) (field : Field) : Prop := (Node.field field).Inside n

theorem field_runs (hs : reader.Steady) :
    reader.Runs field (-2) 1 fun field after => FieldInside after.chain.size field := by
  refine (integer_runs hs).bind (by decide) fun id _ h hid => ?_
  refine h.bind (mark_runs .colon (h.steady hs)) (by decide) fun _ _ h h₁ _ => ?_
  refine h.bind (requiredness?_runs (h.steady hs)) (by decide) fun requiredness _ h h₂ _ => ?_
  refine h.bind (fieldType_runs (h.steady hs)) (by decide) fun type _ h h₃ htype => ?_
  have htyped := Nat.lt_of_lt_of_le hid.lt (h₁.trans (h₂.trans h₃)).size_le
  refine h.bind (name_runs false (h.steady hs)) (by decide) fun name _ h h₄ hname => ?_
  have hnamed : id.1.id ≤ name.last.id := Nat.le_trans (hname.2.le_of_lt htyped) hname.1.1
  refine h.bind (default?_runs (h.steady hs)) (by decide) fun default between h h₅ hdefault => ?_
  have hend : id.1.id ≤ (default.map (·.span.last)).getD name.last.id ∧
      (default.map (·.span.last)).getD name.last.id < between.chain.size := by
    cases default with
    | none => exact ⟨hnamed, Nat.lt_of_lt_of_le hname.1.2 h₅.size_le⟩
    | some value =>
      obtain ⟨-, hsince⟩ := hdefault value rfl
      exact ⟨hsince.le_of_lt (Nat.lt_of_lt_of_le htyped h₄.size_le), hsince.lt⟩
  refine h.bind (trailingAnnotations_runs .allow (h.steady hs) hend.1 hend.2) (by decide)
    fun result _ h h₆ hq => ?_
  obtain ⟨annotations, last⟩ := result
  obtain ⟨hannotations, hle, hlast⟩ := hq
  refine h.bind (separator?_runs (h.steady hs)) (by decide) fun separator _ h h₇ hseparator => ?_
  obtain ⟨hle, hlast⟩ := lastToken_bounds hle hlast h₇.moves hseparator
  rw [span_bind hle]
  have := h₄.size_le
  have := h₅.size_le
  have := h₆.size_le
  have := h₇.size_le
  refine h.pure (by decide) (Node.inside_of_children hle hlast ?_)
  refine List.forall_mem_append.2 ⟨List.forall_mem_cons.2 ⟨htype.mono (by omega), ?_⟩,
    fun child hchild => (hannotations.forall_mem child hchild).mono this⟩
  intro child hchild
  obtain ⟨value, hvalue, rfl⟩ := Option.map_eq_some_iff.1 (Option.mem_toList.1 hchild)
  exact (hdefault value hvalue).1.mono (by omega)

/-- Fields that are read up to a closing mark can all be found by their first token. -/
theorem fieldsUntil_runs (close : Punct) (hs : reader.Steady) :
    reader.Runs (fieldsUntil close) 2 3 fun result after =>
      (∀ field ∈ result.1.items, FieldInside after.chain.size field) ∧
        reader.Since after result.2.id := by
  refine Yields.bind (itemsUntil_runs (Q := FieldInside) close (by decide) (fun hmn h => h.mono hmn)
    (fun _ hs _ => field_runs hs) hs (Nat.le_refl _)) (by decide) fun result between h hq => ?_
  obtain ⟨fields, closing⟩ := result
  have hfirst : ∀ field ∈ fields, field.span.first < between.chain.size :=
    fun field hfield => (hq.1 field hfield).first_lt
  dsimp only
  rw [bind_of_ok (index_eq hfirst)]
  exact h.pure (by decide) hq

end ThriftSyntax.Grammar
