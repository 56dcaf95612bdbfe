import ThriftSyntax.Proofs.Legible
import ThriftSyntax.Proofs.Viability.Basic

/-!
# Beginnings of annotations, types and constants

Where one of these rules refuses a token, what it has read before is the beginning of a phrase. The phrase
goes on with what is shortest: `a` for a name, `""` for a string, `0` for a number or a constant and
`i32` for a type.
-/

namespace ThriftSyntax

namespace Phrase

/-! ## Samples -/

def Name.sample (reserved : Bool) : Name reserved :=
  .ofWord .ident "a" (by cases reserved <;> rfl) (.ident (by decide) (by simp) (by decide))

def Leaf.sampleLiteral : Literal where
  link := ⟨0, .string, "\"\"", .start⟩
  spells := .string (.inl rfl) (List.forall_mem_nil _)
  fits := rfl

def Leaf.sampleInteger : Integer where
  link := ⟨0, .number, "0", .start⟩
  spells := .integer (.inl rfl) rfl
  fits := ⟨rfl, rfl⟩

def Leaf.sampleNumber : Number where
  link := ⟨0, .number, "0", .start⟩
  spells := .integer (.inl rfl) rfl
  fits := rfl

def Annotation.sample : Annotation := ⟨.sample false, .ofMark .equals, Leaf.sampleLiteral⟩

def ConstValue.sample : ConstValue := .number Leaf.sampleNumber

theorem ConstValue.terminals_ne (value : ConstValue) : value.terminals ≠ [] := by
  cases value <;> simp [terminals, Leaf.terminals, Name.terminals]

/-- The terminals are the beginning of annotations that are not closed yet. -/
structure Annotations.Open (phrase : Annotations) (inside xs : List Terminal) : Prop where
  untrailed : phrase.Untrailed
  begun : inside <+: phrase.items.flatMap (·.terminals Annotation.terminals)
  eq : xs = phrase.opening.terminals ++ inside

theorem Annotations.Open.begins {phrase : Annotations} {inside xs : List Terminal}
    (h : phrase.Open inside xs) : xs <+: phrase.terminals := by
  rw [h.eq, terminals, List.prefix_append_right_inj]
  exact h.begun.trans (List.prefix_append _ _)

/-- The terminals are the beginning of a type. If the type is a named one, its annotations have been
begun. -/
inductive FieldType.Begun (xs : List Terminal) : Prop
  | unnamed (type : FieldType) (h : type.node.isNamed = false) (hxs : xs <+: type.terminals)
  | named (name : Name true) (names : NamesType name.words)
      (hbase : BaseType.ofText? name.words.text = none) (annotations : Annotations)
      (inside ys : List Terminal) (h : annotations.Open inside ys) (hxs : xs = name.terminals ++ ys)

theorem FieldType.Begun.begins {xs : List Terminal} (h : Begun xs) :
    Grammar.Begins FieldType.terminals xs := by
  cases h with
  | unnamed type h hxs => exact ⟨type, hxs⟩
  | named name names hbase annotations inside ys h hxs =>
    refine ⟨.simple name names (some annotations), ?_⟩
    rw [hxs]
    exact (List.prefix_append_right_inj _).2 h.begins

end Phrase

namespace Grammar

open Parse Reader Phrase

variable {start reader between : Reader} {xs ys : List Terminal}

/-! ## Annotations -/

theorem annotation_viable (hr : reader.Valid) :
    reader.Viable (Begins Phrase.Annotation.terminals) <| annotation reader := by
  refine .bind ((name_viable false).viable (.refl hr) ⟨.sample, List.nil_prefix⟩) fun _ r₁ h₁ => ?_
  obtain ⟨name, rfl, hname⟩ := name_sound hr h₁
  refine .bind ((mark_viable .equals).viable hname
    ⟨⟨name, .ofMark .equals, Leaf.sampleLiteral⟩, List.prefix_append _ _⟩) fun _ r₂ h₂ => ?_
  obtain ⟨equals, -, hequals⟩ := mark_sound hname.valid h₂
  refine .bind (string_viable.viable (hname.trans hequals)
    ⟨⟨name, equals, Leaf.sampleLiteral⟩, ?_⟩) fun _ _ _ => .lexical (lexical_spanned ..)
  simp [Phrase.Annotation.terminals]

theorem checkTrailing_viable (trailing : TrailingSeparator) (separator : Option Link) :
    Single (checkTrailing trailing separator) := by
  intro reader hr
  unfold checkTrailing
  split
  · refine .bind (.lexical lexical_peekSignificant) fun c between h => ?_
    have hreads := (peekSignificant_sound hr h).1
    split
    · exact (unexpected_viable Expectation.annotation).viable hreads rfl
    · exact .lexical (lexical_pure _)
  · exact .lexical (lexical_pure _)

theorem annotationItem_viable (trailing : TrailingSeparator) (hr : reader.Valid) :
    reader.Viable (Begins (Separated.terminals Phrase.Annotation.terminals))
      (annotationItem trailing reader) := by
  refine .bind ((annotation_viable hr).mono ?_) fun _ r₁ h₁ => ?_
  · rintro xs ⟨phrase, hxs⟩
    exact ⟨⟨phrase, none⟩, List.prefix_append_of_prefix hxs⟩
  obtain ⟨phrase, rfl, hphrase⟩ := annotation_sound hr h₁
  refine .bind (.lexical lexical_separator?) fun _ r₂ h₂ => ?_
  obtain ⟨separator, rfl, hseparator⟩ := separator?_sound hphrase.valid h₂
  exact .bind ((checkTrailing_viable _ _).viable (hphrase.trans hseparator)
    ⟨⟨phrase, separator⟩, List.prefix_rfl⟩) fun _ _ _ => .lexical (lexical_pure _)

/-- The list goes on with an annotation that no separator follows. -/
theorem annotationList_viable (trailing : TrailingSeparator) (hr : reader.Valid) :
    reader.Viable (fun xs => ∃ items : List (Separated Phrase.Annotation),
        xs <+: items.flatMap (·.terminals Phrase.Annotation.terminals) ∧
        ∀ item ∈ items.getLast?, item.separator = none) (annotationList trailing reader) := by
  refine (itemsUntil_viable (fun _ _ => True) (by decide) (fun _ => by
      simp [Separated.terminals, Phrase.Annotation.terminals, Name.terminals]) (fun hr h => ?_)
    (annotationItem_viable trailing) hr).mono ?_
  · obtain ⟨item, -, hreads, -⟩ := annotationItem_sound hr h
    exact ⟨item, hreads, fun _ _ _ _ _ => trivial⟩
  · rintro xs ⟨items, hxs, -⟩
    refine ⟨items ++ [⟨.sample, none⟩], ?_, by simp⟩
    rw [List.flatMap_append]
    exact List.prefix_append_of_prefix hxs

theorem annotations?_viable (trailing : TrailingSeparator) (hr : reader.Valid) :
    reader.Viable (fun xs => ∃ (phrase : Annotations) (inside : List Terminal), phrase.Open inside xs)
      (annotations? trailing reader) := by
  refine .bind (.lexical (lexical_mark? .leftParen)) fun found between hmark => ?_
  rcases mark?_sound (by decide) hr hmark with ⟨rfl, -⟩ | ⟨opening, rfl, hopening⟩
  · exact .lexical (lexical_pure none)
  · refine .map ((annotationList_viable trailing hopening.valid).after hopening ?_)
    rintro xs ⟨items, hxs, hlast⟩
    exact ⟨⟨opening, items, .ofMark .rightParen⟩, xs, hlast, hxs, rfl⟩

theorem trailingAnnotations_viable (last : Nat) (trailing : TrailingSeparator) (hr : reader.Valid) :
    reader.Viable (fun xs => ∃ (phrase : Annotations) (inside : List Terminal), phrase.Open inside xs)
      (trailingAnnotations last trailing reader) := by
  refine .bind (annotations?_viable trailing hr) fun found between _ => ?_
  cases found with
  | none => exact .lexical (lexical_pure _)
  | some found => exact .lexical (lexical_pure _)

/-! ## Types -/

theorem cppType?_viable (hr : reader.Valid) :
    reader.Viable (Begins CppType.terminals) (cppType? reader) := by
  refine .bind (.lexical lexical_word?) fun found between hword => ?_
  cases found with
  | none => exact .lexical (lexical_pure none)
  | some word =>
    dsimp only
    split
    · rename_i hraw
      obtain ⟨next, hreads, htook, -, hk⟩ := word?_some hr hword
      have hident : word.kind = .ident := (hraw ▸ htook.spells).eq_ident hk (by decide)
      have hparticle := hreads.trans
        (htook.reads (Kind.not_trivia_of_isWord hk) (Kind.ne_endOfInput_of_isWord hk))
      exact .map (string_viable.viable hparticle
        ⟨⟨⟨word, htook.spells, hident, hraw⟩, Leaf.sampleLiteral⟩, List.prefix_append _ _⟩)
    · exact .lexical ((lexical_putBackLast word).bind fun _ => lexical_pure none)

section Containers

variable {type : Parse FieldType} {name : Name true} {inside : List Terminal}
  (hsound : ∀ {reader node after}, reader.Valid → type reader = .ok node after →
    ReadsType reader node after)
  (htype : ∀ {reader : Reader}, reader.Valid → reader.Viable Phrase.FieldType.Begun (type reader))

include hsound htype

theorem mapType_viable (hname : name.words.text = "map") (hreads : start.Reads name.terminals reader) :
    start.Viable Phrase.FieldType.Begun (mapType type reader) := by
  let sample := Phrase.FieldType.sample
  refine .bind ((cppType?_viable hreads.valid).after hreads ?_) fun _ r₁ h₁ => ?_
  · rintro xs ⟨cppType, hxs⟩
    refine .unnamed (.map name hname (some cppType) (.ofMark .less) sample (.ofMark .comma) sample
      (.ofMark .greater) none) rfl ((List.prefix_append_right_inj _).2 ?_)
    exact List.prefix_append_of_prefix hxs
  obtain ⟨cppType, -, hcpp, -⟩ := cppType?_sound hreads.valid h₁
  have hreads := hreads.trans hcpp
  refine .bind ((mark_viable .less).viable hreads (.unnamed (.map name hname cppType (.ofMark .less)
    sample (.ofMark .comma) sample (.ofMark .greater) none) rfl ?_)) fun _ r₂ h₂ => ?_
  · simp [Phrase.FieldType.terminals]
  obtain ⟨less, -, hless⟩ := mark_sound hcpp.valid h₂
  have hreads := hreads.trans hless
  refine .bind ((htype hless.valid).after hreads fun xs hxs => ?_) fun _ r₃ h₃ => ?_
  · obtain ⟨key, hxs⟩ := hxs.begins
    refine .unnamed (.map name hname cppType less key (.ofMark .comma) sample (.ofMark .greater) none)
      rfl ?_
    simp [Phrase.FieldType.terminals, List.prefix_append_of_prefix hxs]
  obtain ⟨key, -, hkey, -⟩ := hsound hless.valid h₃
  have hreads := hreads.trans hkey
  refine .bind ((mark_viable .comma).viable hreads (.unnamed (.map name hname cppType less key
    (.ofMark .comma) sample (.ofMark .greater) none) rfl ?_)) fun _ r₄ h₄ => ?_
  · simp [Phrase.FieldType.terminals]
  obtain ⟨comma, -, hcomma⟩ := mark_sound hkey.valid h₄
  have hreads := hreads.trans hcomma
  refine .bind ((htype hcomma.valid).after hreads fun xs hxs => ?_) fun _ r₅ h₅ => ?_
  · obtain ⟨value, hxs⟩ := hxs.begins
    refine .unnamed (.map name hname cppType less key comma value (.ofMark .greater) none) rfl ?_
    simp [Phrase.FieldType.terminals, List.prefix_append_of_prefix hxs]
  obtain ⟨value, -, hvalue, -⟩ := hsound hcomma.valid h₅
  refine .bind ((mark_viable .greater).viable (hreads.trans hvalue) (.unnamed (.map name hname cppType
    less key comma value (.ofMark .greater) none) rfl ?_)) fun _ _ _ => .lexical (lexical_pure _)
  simp [Phrase.FieldType.terminals]

theorem setType_viable (hname : name.words.text = "set") (hreads : start.Reads name.terminals reader) :
    start.Viable Phrase.FieldType.Begun (setType type reader) := by
  let sample := Phrase.FieldType.sample
  refine .bind ((cppType?_viable hreads.valid).after hreads ?_) fun _ r₁ h₁ => ?_
  · rintro xs ⟨cppType, hxs⟩
    refine .unnamed (.set name hname (some cppType) (.ofMark .less) sample (.ofMark .greater) none) rfl
      ((List.prefix_append_right_inj _).2 ?_)
    exact List.prefix_append_of_prefix hxs
  obtain ⟨cppType, -, hcpp, -⟩ := cppType?_sound hreads.valid h₁
  have hreads := hreads.trans hcpp
  refine .bind ((mark_viable .less).viable hreads (.unnamed (.set name hname cppType (.ofMark .less)
    sample (.ofMark .greater) none) rfl ?_)) fun _ r₂ h₂ => ?_
  · simp [Phrase.FieldType.terminals]
  obtain ⟨less, -, hless⟩ := mark_sound hcpp.valid h₂
  have hreads := hreads.trans hless
  refine .bind ((htype hless.valid).after hreads fun xs hxs => ?_) fun _ r₃ h₃ => ?_
  · obtain ⟨element, hxs⟩ := hxs.begins
    refine .unnamed (.set name hname cppType less element (.ofMark .greater) none) rfl ?_
    simp [Phrase.FieldType.terminals, List.prefix_append_of_prefix hxs]
  obtain ⟨element, -, helement, -⟩ := hsound hless.valid h₃
  refine .bind ((mark_viable .greater).viable (hreads.trans helement) (.unnamed (.set name hname cppType
    less element (.ofMark .greater) none) rfl ?_)) fun _ _ _ => .lexical (lexical_pure _)
  simp [Phrase.FieldType.terminals]

theorem listType_viable (hname : name.words.text = "list") (hreads : start.Reads name.terminals reader) :
    start.Viable Phrase.FieldType.Begun (listType type reader) := by
  refine .bind ((mark_viable .less).viable hreads (.unnamed (.list name hname (.ofMark .less) .sample
    (.ofMark .greater) none none) rfl (List.prefix_append _ _))) fun _ r₁ h₁ => ?_
  obtain ⟨less, -, hless⟩ := mark_sound hreads.valid h₁
  have hreads := hreads.trans hless
  refine .bind ((htype hless.valid).after hreads fun xs hxs => ?_) fun _ r₂ h₂ => ?_
  · obtain ⟨element, hxs⟩ := hxs.begins
    refine .unnamed (.list name hname less element (.ofMark .greater) none none) rfl ?_
    simp [Phrase.FieldType.terminals, List.prefix_append_of_prefix hxs]
  obtain ⟨element, -, helement, -⟩ := hsound hless.valid h₂
  have hreads := hreads.trans helement
  refine .bind ((mark_viable .greater).viable hreads (.unnamed (.list name hname less element
    (.ofMark .greater) none none) rfl ?_)) fun _ r₃ h₃ => ?_
  · simp [Phrase.FieldType.terminals]
  obtain ⟨greater, -, hgreater⟩ := mark_sound helement.valid h₃
  refine .bind ((cppType?_viable hgreater.valid).after (hreads.trans hgreater) ?_)
    fun _ _ _ => .lexical (lexical_pure _)
  rintro xs ⟨cppType, hxs⟩
  refine .unnamed (.list name hname less element greater (some cppType) none) rfl ?_
  simpa [Phrase.FieldType.terminals, Phrase.optional] using hxs

/-- What reads the rest of a type has begun a type, or refuses the name that it was to begin with. -/
theorem openType_viable (hhead : start.ReadsTo [] name.words.head)
    (hreads : start.Reads name.terminals reader) :
    start.Viable Phrase.FieldType.Begun (openType type name.words reader) := by
  rw [openType_eq]
  split
  · exact mapType_viable hsound htype ‹_› hreads
  split
  · exact setType_viable hsound htype ‹_› hreads
  split
  · exact listType_viable hsound htype ‹_› hreads
  unfold typeOfName
  cases BaseType.ofText? name.words.text with
  | some base => exact .lexical (lexical_pure _)
  | none =>
    dsimp only
    split
    · exact .refused hhead (.unnamed .sample rfl List.nil_prefix)
    · exact .lexical (lexical_pure _)

end Containers

/-- A type that has been read but for its annotations is a named type only if just its name was read. -/
theorem openType_named {type : Parse FieldType} {words : DottedName} {result : OpenType}
    (h : openType type words between = .ok result reader) :
    (∀ span annotations, (result.1 span annotations).isNamed = false) ∨
      NamesType words ∧ BaseType.ofText? words.text = none ∧ between = reader := by
  rw [openType_eq] at h
  split at h
  · simp only [mapType, bind_eq_ok, pure_eq_ok] at h
    obtain ⟨_, _, -, _, _, -, _, _, -, _, _, -, _, _, -, _, _, -, rfl, -⟩ := h
    exact .inl fun _ _ => rfl
  split at h
  · simp only [setType, bind_eq_ok, pure_eq_ok] at h
    obtain ⟨_, _, -, _, _, -, _, _, -, _, _, -, rfl, -⟩ := h
    exact .inl fun _ _ => rfl
  split at h
  · simp only [listType, bind_eq_ok, pure_eq_ok] at h
    obtain ⟨_, _, -, _, _, -, _, _, -, _, _, -, rfl, -⟩ := h
    exact .inl fun _ _ => rfl
  rename_i hmap hset hlist
  unfold typeOfName at h
  cases hbase : BaseType.ofText? words.text with
  | some base =>
    rw [hbase] at h
    obtain ⟨rfl, -⟩ := pure_eq_ok.1 h
    exact .inl fun _ _ => rfl
  | none =>
    rw [hbase] at h
    dsimp only at h
    split at h
    · cases h
    · rename_i hne
      exact .inr ⟨⟨⟨hmap, hset, hlist⟩, .inr hne⟩, rfl, (pure_eq_ok.1 h).2⟩

theorem fieldType_viable (hr : reader.Valid) :
    reader.Viable Phrase.FieldType.Begun (fieldType reader) := by
  refine .nested (fun hok htype reader hr => ?_) hr
  have hsound : ∀ {reader node after}, reader.Valid → _ = EStateM.Result.ok node after →
      ReadsType reader node after := fun hr h => fieldType_sound hr (hok h)
  refine .bind ((name_viable true).viable (.refl hr) (.unnamed .sample rfl List.nil_prefix))
    fun _ r₁ h₁ => ?_
  obtain ⟨name, rfl, hname⟩ := name_sound hr h₁
  refine .bind (openType_viable hsound htype (name_readsTo hr h₁) hname) fun open' r₂ h₂ => ?_
  rcases openType_named h₂ with hnamed | ⟨hnames, hbase, rfl⟩
  · obtain ⟨wrap, inside, hwrap⟩ := openType_sound hsound hname.valid h₂
    refine .bind ((trailingAnnotations_viable open'.2 .allow hwrap.reads.valid).after
      (hname.trans hwrap.reads) ?_) fun _ _ _ => .lexical (lexical_spanned ..)
    rintro xs ⟨annotations, begun, hopen⟩
    refine .unnamed (wrap (some annotations)) ?_ ?_
    · rw [hwrap.node]
      exact hnamed _ _
    · rw [hwrap.terminals, List.append_assoc, List.prefix_append_right_inj,
        List.prefix_append_right_inj]
      exact hopen.begins
  · refine .bind ((trailingAnnotations_viable open'.2 .allow hname.valid).after hname ?_)
      fun _ _ _ => .lexical (lexical_spanned ..)
    rintro xs ⟨annotations, begun, hopen⟩
    exact .named name hnames hbase annotations begun xs hopen rfl

/-! ## Constant values -/

theorem numberValue_viable : Single numberValue := by
  intro reader hr
  refine .bind (.lexical lexical_takeNumber) fun link between h => ?_
  have hother : link.kind ≠ .number → reader.Viable (· = [])
      ((throw (.unexpected link .number) : Parse ThriftSyntax.ConstValue) between) :=
    fun hk => .refused (takeNumber_readsTo hr h hk) rfl
  cases hk : link.kind with
  | number =>
    obtain ⟨form, hform⟩ := Option.isSome_iff_exists.1
      (hk ▸ (takeNumber_sound hr h hk).1 : Lexeme.Spells .number link.raw.toList).form_isSome
    rw [hform]
    cases form with
    | integer => exact .lexical (lexical_pure _)
    | decimal => exact .lexical (lexical_pure _)
  | _ => exact hother (by simp [hk])

theorem stringValue_viable : Single stringValue :=
  fun _ hr => .bind (string_viable hr) fun _ _ _ => .lexical (lexical_pure _)

/-- A name that is no constant is refused as a whole, where it begins. -/
theorem nameValue_viable : Single nameValue := by
  intro reader hr
  refine .bind (name_viable false hr) fun words between h => ?_
  split
  · exact .lexical (lexical_spanned ..)
  · rintro _ _ _ _ ⟨⟩
    obtain ⟨name, rfl, -⟩ := name_sound hr h
    exact ⟨[], name.words.head, name_readsTo hr h, ⟨rfl, fun heq => absurd heq name.shaped.text_ne⟩, rfl⟩

section Containers

variable {value : Parse ThriftSyntax.ConstValue}
  (hvalue : ∀ {reader : Reader}, reader.Valid →
    reader.Viable (Begins Phrase.ConstValue.terminals) (value reader))

include hvalue

theorem listItem_viable (hr : reader.Valid) :
    reader.Viable (Begins (Separated.terminals Phrase.ConstValue.terminals)) (listItem value reader) := by
  refine .bind ((hvalue hr).mono ?_) fun _ r₁ h₁ => ?_
  · rintro xs ⟨phrase, hxs⟩
    exact ⟨⟨phrase, none⟩, List.prefix_append_of_prefix hxs⟩
  exact .bind (.lexical lexical_separator?) fun _ _ _ => .lexical (lexical_pure _)

variable (hsound : ∀ {reader node after}, reader.Valid → value reader = .ok node after →
  ReadsValue reader node after)

include hsound

theorem listValue_viable (hr : reader.Valid) (hc : reader.Peeks (some '[')) :
    reader.Viable (Begins Phrase.ConstValue.terminals) (listValue value reader) := by
  rw [listValue_eq]
  refine .bind (.lexical lexical_take) fun _ r₁ h₁ => ?_
  obtain ⟨opening, -, hopening⟩ := take_mark .leftBracket (by decide) hr hc h₁
  refine .bind ((itemsUntil_viable (fun _ _ => True) (by decide)
    (fun item => by simp [Separated.terminals, item.phrase.terminals_ne]) (fun hr h => ?_)
    (fun hr => listItem_viable hvalue hr) hopening.valid).after hopening ?_)
    fun _ _ _ => .lexical (lexical_spanned ..)
  · obtain ⟨item, -, hreads⟩ := listItem_sound hsound hr h
    exact ⟨item, hreads⟩
  · rintro xs ⟨items, hxs, -⟩
    refine ⟨.list opening items (.ofMark .rightBracket), ?_⟩
    rw [Phrase.ConstValue.terminals, Phrase.ConstValue.itemsTerminals_eq]
    exact (List.prefix_append_right_inj _).2 (List.prefix_append_of_prefix hxs)

theorem mapItem_viable (hr : reader.Valid) :
    reader.Viable (Begins Phrase.ConstValue.Entry.terminals) (mapItem value reader) := by
  refine .bind ((hvalue hr).mono ?_) fun _ r₁ h₁ => ?_
  · rintro xs ⟨key, hxs⟩
    exact ⟨(key, .ofMark .colon, ⟨.sample, none⟩), List.prefix_append_of_prefix hxs⟩
  obtain ⟨key, -, hkey⟩ := hsound hr h₁
  refine .bind ((mark_viable .colon).viable hkey ⟨(key, .ofMark .colon, ⟨.sample, none⟩),
    List.prefix_append _ _⟩) fun _ r₂ h₂ => ?_
  obtain ⟨colon, -, hcolon⟩ := mark_sound hkey.valid h₂
  refine .bind ((hvalue hcolon.valid).after (hkey.trans hcolon) ?_) fun _ _ _ =>
    .bind (.lexical lexical_separator?) fun _ _ _ => .lexical (lexical_pure _)
  rintro xs ⟨phrase, hxs⟩
  refine ⟨(key, colon, ⟨phrase, none⟩), ?_⟩
  rw [List.append_assoc]
  exact (List.prefix_append_right_inj _).2
    ((List.prefix_append_right_inj _).2 (List.prefix_append_of_prefix hxs))

theorem mapValue_viable (hr : reader.Valid) (hc : reader.Peeks (some '\x7b')) :
    reader.Viable (Begins Phrase.ConstValue.terminals) (mapValue value reader) := by
  rw [mapValue_eq]
  refine .bind (.lexical lexical_take) fun _ r₁ h₁ => ?_
  obtain ⟨opening, -, hopening⟩ := take_mark .leftBrace (by decide) hr hc h₁
  refine .bind ((itemsUntil_viable (fun _ _ => True) (by decide)
    (fun entry => by simp [Phrase.ConstValue.Entry.terminals, entry.1.terminals_ne])
    (fun hr h => ?_) (fun hr => mapItem_viable hvalue hsound hr) hopening.valid).after hopening ?_)
    fun _ _ _ => .lexical (lexical_spanned ..)
  · obtain ⟨entry, -, hreads⟩ := mapItem_sound hsound hr h
    exact ⟨entry, hreads⟩
  · rintro xs ⟨entries, hxs, -⟩
    refine ⟨.map opening entries (.ofMark .rightBrace), ?_⟩
    rw [Phrase.ConstValue.terminals, Phrase.ConstValue.entriesTerminals_eq]
    exact (List.prefix_append_right_inj _).2 (List.prefix_append_of_prefix hxs)

end Containers

theorem constValue_viable (hr : reader.Valid) :
    reader.Viable (Begins Phrase.ConstValue.terminals) (constValue reader) := by
  refine .nested (fun hok hvalue reader hr => ?_) hr
  have hsound : ∀ {reader node after}, reader.Valid → _ = EStateM.Result.ok node after →
      ReadsValue reader node after := fun hr h => constValue_sound hr (hok h)
  refine .bind (.lexical lexical_peekSignificant) fun c between hpeek => ?_
  obtain ⟨hreads, hc⟩ := peekSignificant_sound hr hpeek
  have hsample : Begins Phrase.ConstValue.terminals [] := ⟨.sample, List.nil_prefix⟩
  have hname := nameValue_viable.viable hreads hsample
  cases c with
  | none => exact hname
  | some c =>
    dsimp only
    split
    · exact numberValue_viable.viable hreads hsample
    split
    · exact stringValue_viable.viable hreads hsample
    split
    · rename_i h
      exact (listValue_viable hvalue hsound hreads.valid (h ▸ hc)).after hreads fun _ => id
    split
    · rename_i h
      exact (mapValue_viable hvalue hsound hreads.valid (h ▸ hc)).after hreads fun _ => id
    · exact hname

end Grammar

end ThriftSyntax
