import ThriftSyntax.Grammar.FieldType
import ThriftSyntax.Proofs.Soundness.Basic

/-!
# Soundness of annotations and types

What is read as an annotation, a list of annotations or a type is a phrase of that rule.
-/

namespace ThriftSyntax.Grammar

open Parse Reader Phrase

variable {reader after : Reader}

/-! ## Annotations -/

theorem annotation_sound (hr : reader.Valid) {node : ThriftSyntax.Annotation}
    (h : annotation reader = .ok node after) :
    ∃ phrase : Phrase.Annotation, phrase.node = node ∧ reader.Reads phrase.terminals after := by
  obtain ⟨words, r₁, h₁, h⟩ := bind_eq_ok.1 h
  obtain ⟨link, r₂, h₂, h⟩ := bind_eq_ok.1 h
  obtain ⟨value, r₃, h₃, h⟩ := bind_eq_ok.1 h
  obtain ⟨-, h⟩ := span_bind_eq_ok.1 h
  obtain ⟨rfl, rfl⟩ := pure_eq_ok.1 h
  obtain ⟨name, rfl, hname⟩ := name_sound hr h₁
  obtain ⟨equals, rfl, hequals⟩ := mark_sound hname.valid h₂
  obtain ⟨literal, rfl, hliteral⟩ := string_sound hequals.valid h₃
  exact ⟨⟨name, equals, literal⟩, rfl, hname.trans (hequals.trans hliteral)⟩

/-- A separator before a closing parenthesis is refused. -/
def RefusesClosing (trailing : TrailingSeparator) (item : Separated Phrase.Annotation)
    (next : Link) : Prop :=
  trailing = .reject → item.separator.isSome → next.kind ≠ .punct .rightParen

theorem checkTrailing_sound {trailing : TrailingSeparator} {separator : Option Link}
    (hr : reader.Valid) {u : Unit} (h : checkTrailing trailing separator reader = .ok u after) :
    reader.Reads [] after ∧ (trailing = .reject → separator.isSome →
      after.Meets (·.kind ≠ .punct .rightParen)) := by
  unfold checkTrailing at h
  split at h
  · obtain ⟨c, between, hpeek, h⟩ := bind_eq_ok.1 h
    obtain ⟨hreads, hc⟩ := peekSignificant_sound hr hpeek
    split at h
    · exact absurd h not_unexpected
    · rename_i hne
      obtain ⟨-, rfl⟩ := pure_eq_ok.1 h
      exact ⟨hreads, fun _ _ => hc.meets_ne hreads.valid hne⟩
  · rename_i hcond
    obtain ⟨-, rfl⟩ := pure_eq_ok.1 h
    exact ⟨.refl hr, fun ht hs => absurd ⟨ht, hs⟩ hcond⟩

theorem annotationItem_sound {trailing : TrailingSeparator} (hr : reader.Valid)
    {node : ThriftSyntax.Annotation} (h : annotationItem trailing reader = .ok node after) :
    ∃ item : Separated Phrase.Annotation, item.phrase.node = node ∧
      reader.Reads (item.terminals Phrase.Annotation.terminals) after ∧
      after.Meets (RefusesClosing trailing item) := by
  obtain ⟨node, r₁, h₁, h⟩ := bind_eq_ok.1 h
  obtain ⟨found, r₂, h₂, h⟩ := bind_eq_ok.1 h
  obtain ⟨u, r₃, h₃, h⟩ := bind_eq_ok.1 h
  obtain ⟨rfl, rfl⟩ := pure_eq_ok.1 h
  obtain ⟨phrase, rfl, hphrase⟩ := annotation_sound hr h₁
  obtain ⟨separator, rfl, hseparator⟩ := separator?_sound hphrase.valid h₂
  obtain ⟨hreads, hmeets⟩ := checkTrailing_sound hseparator.valid h₃
  have hitem := (hphrase.trans hseparator).trans hreads
  refine ⟨⟨phrase, separator⟩, rfl, by simpa [Separated.terminals] using hitem, ?_⟩
  intro all rest x xs hf ht hs
  exact hmeets ht (by simpa using hs) all rest x xs hf

theorem annotationList_sound {trailing : TrailingSeparator} (hr : reader.Valid)
    {nodes : List ThriftSyntax.Annotation} {closing : Link}
    (h : annotationList trailing reader = .ok (nodes, closing) after) :
    ∃ (items : List (Separated Phrase.Annotation)) (leaf : Mark .rightParen),
      items.map (·.phrase.node) = nodes ∧ leaf.link = closing ∧
      reader.Reads (items.flatMap (·.terminals Phrase.Annotation.terminals) ++ leaf.terminals)
        after ∧
      (trailing = .reject → ∀ item ∈ items.getLast?, item.separator = none) := by
  obtain ⟨items, leaf, hnodes, hleaf, hreads, -, hlast⟩ :=
    itemsUntil_sound (by decide) (·.phrase.node) (·.terminals Phrase.Annotation.terminals)
      (RefusesClosing trailing) (fun hr h => annotationItem_sound hr h) hr h
  refine ⟨items, leaf, hnodes, hleaf, hreads, fun ht item hitem => ?_⟩
  by_contra hs
  exact hlast item hitem ht (Option.isSome_iff_ne_none.2 hs) leaf.fits

theorem annotations_sound (hr : reader.Valid) {nodes : List ThriftSyntax.Annotation}
    (h : annotations reader = .ok nodes after) :
    ∃ phrase : Annotations, phrase.items.map (·.phrase.node) = nodes ∧
      reader.Reads phrase.terminals after := by
  obtain ⟨link, between, hmark, h⟩ := bind_eq_ok.1 h
  obtain ⟨⟨items, closing⟩, last, hlist, h⟩ := bind_eq_ok.1 h
  obtain ⟨rfl, rfl⟩ := pure_eq_ok.1 h
  obtain ⟨opening, -, hopening⟩ := mark_sound hr hmark
  obtain ⟨items, leaf, rfl, -, hreads, -⟩ := annotationList_sound hopening.valid hlist
  exact ⟨⟨opening, items, leaf⟩, rfl, hopening.trans hreads⟩

theorem annotations?_sound {trailing : TrailingSeparator} (hr : reader.Valid)
    {found : Option (List ThriftSyntax.Annotation × Link)}
    (h : annotations? trailing reader = .ok found after) :
    ∃ phrase : Option Annotations,
      found = phrase.map (fun phrase => (phrase.items.map (·.phrase.node), phrase.closing.link)) ∧
      reader.Reads (optional Annotations.terminals phrase) after ∧
      (trailing = .reject → ∀ list ∈ phrase, list.Untrailed) ∧
      (phrase = none → after.Meets (·.kind ≠ .punct .leftParen)) := by
  obtain ⟨opening, between, hmark, h⟩ := bind_eq_ok.1 h
  rcases mark?_sound (by decide) hr hmark with ⟨rfl, hreads, hmeets⟩ | ⟨opening, rfl, hopening⟩
  · obtain ⟨rfl, rfl⟩ := pure_eq_ok.1 h
    exact ⟨none, rfl, hreads, by simp, fun _ => hmeets⟩
  · obtain ⟨⟨nodes, closing⟩, hlist, rfl⟩ := map_eq_ok.1 h
    obtain ⟨items, leaf, rfl, rfl, hreads, hlast⟩ := annotationList_sound hopening.valid hlist
    refine ⟨some ⟨opening, items, leaf⟩, rfl, hopening.trans hreads, ?_, by simp⟩
    rintro ht _ ⟨⟩
    exact hlast ht

theorem trailingAnnotations_sound {trailing : TrailingSeparator} (hr : reader.Valid)
    {last last' : Nat} {nodes : List ThriftSyntax.Annotation}
    (h : trailingAnnotations last trailing reader = .ok (nodes, last') after) :
    ∃ phrase : Option Annotations, nodes = Annotations.nodes phrase ∧
      last' = Annotations.last phrase last ∧
      reader.Reads (optional Annotations.terminals phrase) after ∧
      (trailing = .reject → ∀ list ∈ phrase, list.Untrailed) := by
  obtain ⟨found, between, hfound, h⟩ := bind_eq_ok.1 h
  obtain ⟨phrase, rfl, hreads, htrailing, -⟩ := annotations?_sound hr hfound
  cases phrase with
  | none =>
    obtain ⟨heq, rfl⟩ := pure_eq_ok.1 h
    cases heq
    exact ⟨none, rfl, rfl, hreads, htrailing⟩
  | some phrase =>
    obtain ⟨heq, rfl⟩ := pure_eq_ok.1 h
    cases heq
    exact ⟨some phrase, rfl, rfl, hreads, htrailing⟩

/-! ## Types -/

/-- Where no string for C++ is read, the word before one does not come next. -/
theorem cppType?_sound (hr : reader.Valid) {found : Option Link}
    (h : cppType? reader = .ok found after) :
    ∃ phrase : Option CppType, found = phrase.map (·.literal.link) ∧
      reader.Reads (optional CppType.terminals phrase) after ∧
      (phrase = none → after.Meets (·.raw ≠ "cpp_type")) := by
  obtain ⟨word, between, hword, h⟩ := bind_eq_ok.1 h
  cases word with
  | none =>
    obtain ⟨rfl, rfl⟩ := pure_eq_ok.1 h
    obtain ⟨hreads, hmeets⟩ := word?_none hr hword
    refine ⟨none, rfl, hreads, fun _ all rest x xs hf hraw => ?_⟩
    have hspells := hf.spells hreads.valid
    rw [hraw] at hspells
    have hword := (hspells.opens rfl).word_iff.1 (show Lexeme.startsWord 'c' = true by decide)
    rw [hmeets all rest x xs hf] at hword
    cases hword
  | some word =>
    dsimp only at h
    split at h
    · rename_i hraw
      obtain ⟨link, hstring, rfl⟩ := map_eq_ok.1 h
      obtain ⟨start, hreads, htook, -, hk⟩ := word?_some hr hword
      have hident : word.kind = .ident := (hraw ▸ htook.spells).eq_ident hk (by decide)
      have hparticle := htook.reads (Kind.not_trivia_of_isWord hk) (Kind.ne_endOfInput_of_isWord hk)
      obtain ⟨literal, rfl, hliteral⟩ := string_sound hparticle.valid hstring
      exact ⟨some ⟨⟨word, htook.spells, hident, hraw⟩, literal⟩, rfl,
        hreads.trans (hparticle.trans hliteral), by simp⟩
    · rename_i hraw
      obtain ⟨_, between', hback, h⟩ := bind_eq_ok.1 h
      obtain ⟨rfl, rfl⟩ := pure_eq_ok.1 h
      obtain ⟨hreads, hmeets⟩ := word?_putBack hr hword hback
      refine ⟨none, rfl, hreads, fun _ all rest x xs hf => ?_⟩
      rw [hmeets all rest x xs hf]
      exact hraw

/-- What is read after `name` makes a type of it, but for the annotations. -/
structure OpensType (name : Name true) (build : Span → List ThriftSyntax.Annotation → FieldType)
    (last : Nat) (reader : Reader) (wrap : Option Annotations → Phrase.FieldType)
    (inside : List Terminal) (after : Reader) : Prop where
  reads : reader.Reads inside after
  terminals : ∀ annotations, (wrap annotations).terminals =
    name.terminals ++ (inside ++ optional Annotations.terminals annotations)
  node : ∀ annotations, (wrap annotations).node =
    build ⟨name.words.head.id, Annotations.last annotations last⟩ (Annotations.nodes annotations)
  stops : after.Meets (wrap none).StopsBefore
  annotated : ∀ annotations next, (wrap (some annotations)).StopsBefore next

/-- What is read as a type is one, and a list that it ends with is complete. -/
def ReadsType (reader : Reader) (node : FieldType) (after : Reader) : Prop :=
  ∃ phrase : Phrase.FieldType, phrase.node = node ∧ reader.Reads phrase.terminals after ∧
    after.Meets phrase.StopsBefore

section Containers

variable {type : Parse FieldType} {name : Name true} {open' : OpenType}

theorem mapType_sound
    (htype : ∀ {reader node after}, reader.Valid → type reader = .ok node after →
      ReadsType reader node after)
    (hname : name.words.text = "map") (hr : reader.Valid)
    (h : mapType type reader = .ok open' after) :
    ∃ wrap inside, OpensType name open'.1 open'.2 reader wrap inside after := by
  obtain ⟨found, r₁, h₁, h⟩ := bind_eq_ok.1 h
  obtain ⟨_, r₂, h₂, h⟩ := bind_eq_ok.1 h
  obtain ⟨_, r₃, h₃, h⟩ := bind_eq_ok.1 h
  obtain ⟨_, r₄, h₄, h⟩ := bind_eq_ok.1 h
  obtain ⟨_, r₅, h₅, h⟩ := bind_eq_ok.1 h
  obtain ⟨_, r₆, h₆, h⟩ := bind_eq_ok.1 h
  obtain ⟨rfl, rfl⟩ := pure_eq_ok.1 h
  obtain ⟨cppType, rfl, hcpp, -⟩ := cppType?_sound hr h₁
  obtain ⟨less, -, hless⟩ := mark_sound hcpp.valid h₂
  obtain ⟨key, rfl, hkey, -⟩ := htype hless.valid h₃
  obtain ⟨comma, -, hcomma⟩ := mark_sound hkey.valid h₄
  obtain ⟨value, rfl, hvalue, -⟩ := htype hcomma.valid h₅
  obtain ⟨greater, rfl, hgreater⟩ := mark_sound hvalue.valid h₆
  refine ⟨.map name hname cppType less key comma value greater, _,
    hcpp.trans (hless.trans (hkey.trans (hcomma.trans (hvalue.trans hgreater)))), ?_, ?_, ?_, ?_⟩
  · intro annotations
    simp only [Phrase.FieldType.terminals, List.append_assoc]
  · intro annotations
    simp only [Phrase.FieldType.node, CppType.node, Option.map_map]
    rfl
  · exact fun _ _ _ _ _ => trivial
  · exact fun _ _ => trivial

theorem setType_sound
    (htype : ∀ {reader node after}, reader.Valid → type reader = .ok node after →
      ReadsType reader node after)
    (hname : name.words.text = "set") (hr : reader.Valid)
    (h : setType type reader = .ok open' after) :
    ∃ wrap inside, OpensType name open'.1 open'.2 reader wrap inside after := by
  obtain ⟨found, r₁, h₁, h⟩ := bind_eq_ok.1 h
  obtain ⟨_, r₂, h₂, h⟩ := bind_eq_ok.1 h
  obtain ⟨_, r₃, h₃, h⟩ := bind_eq_ok.1 h
  obtain ⟨_, r₄, h₄, h⟩ := bind_eq_ok.1 h
  obtain ⟨rfl, rfl⟩ := pure_eq_ok.1 h
  obtain ⟨cppType, rfl, hcpp, -⟩ := cppType?_sound hr h₁
  obtain ⟨less, -, hless⟩ := mark_sound hcpp.valid h₂
  obtain ⟨element, rfl, helement, -⟩ := htype hless.valid h₃
  obtain ⟨greater, rfl, hgreater⟩ := mark_sound helement.valid h₄
  refine ⟨.set name hname cppType less element greater, _,
    hcpp.trans (hless.trans (helement.trans hgreater)), ?_, ?_, ?_, ?_⟩
  · intro annotations
    simp only [Phrase.FieldType.terminals, List.append_assoc]
  · intro annotations
    simp only [Phrase.FieldType.node, CppType.node, Option.map_map]
    rfl
  · exact fun _ _ _ _ _ => trivial
  · exact fun _ _ => trivial

theorem listType_sound
    (htype : ∀ {reader node after}, reader.Valid → type reader = .ok node after →
      ReadsType reader node after)
    (hname : name.words.text = "list") (hr : reader.Valid)
    (h : listType type reader = .ok open' after) :
    ∃ wrap inside, OpensType name open'.1 open'.2 reader wrap inside after := by
  obtain ⟨_, r₁, h₁, h⟩ := bind_eq_ok.1 h
  obtain ⟨_, r₂, h₂, h⟩ := bind_eq_ok.1 h
  obtain ⟨_, r₃, h₃, h⟩ := bind_eq_ok.1 h
  obtain ⟨found, r₄, h₄, h⟩ := bind_eq_ok.1 h
  obtain ⟨rfl, rfl⟩ := pure_eq_ok.1 h
  obtain ⟨less, -, hless⟩ := mark_sound hr h₁
  obtain ⟨element, rfl, helement, -⟩ := htype hless.valid h₂
  obtain ⟨greater, rfl, hgreater⟩ := mark_sound helement.valid h₃
  obtain ⟨cppType, rfl, hcpp, hnone⟩ := cppType?_sound hgreater.valid h₄
  refine ⟨.list name hname less element greater cppType, _,
    hless.trans (helement.trans (hgreater.trans hcpp)), ?_, ?_, ?_, ?_⟩
  · intro annotations
    simp only [Phrase.FieldType.terminals, List.append_assoc]
  · intro annotations
    simp only [Phrase.FieldType.node, CppType.node, Option.map_map]
    cases cppType <;> rfl
  · cases cppType with
    | none => exact hnone rfl
    | some cppType => exact fun _ _ _ _ _ => trivial
  · intro annotations next
    cases cppType <;> trivial

theorem typeOfName_sound (hname : name.words.text ≠ "map" ∧ name.words.text ≠ "set" ∧
      name.words.text ≠ "list") (hr : reader.Valid)
    (h : typeOfName name.words reader = .ok open' after) :
    ∃ wrap inside, OpensType name open'.1 open'.2 reader wrap inside after := by
  suffices ∃ hn : NamesType name.words, reader = after ∧ open'.2 = name.words.last.id ∧
      ∀ span annotations, Phrase.FieldType.ofName name.words span annotations =
        open'.1 span annotations by
    obtain ⟨hn, rfl, hlast, hbuild⟩ := this
    refine ⟨.simple name hn, [], .refl hr, fun _ => rfl, fun annotations => ?_, ?_, ?_⟩
    · rw [hlast]
      exact hbuild _ _
    · exact fun _ _ _ _ _ => trivial
    · exact fun _ _ => trivial
  unfold typeOfName at h
  cases hbase : BaseType.ofText? name.words.text with
  | some base =>
    rw [hbase] at h
    obtain ⟨rfl, rfl⟩ := pure_eq_ok.1 h
    refine ⟨⟨hname, by simp [hbase]⟩, rfl, rfl, fun span annotations => ?_⟩
    simp [Phrase.FieldType.ofName, hbase]
  | none =>
    rw [hbase] at h
    dsimp only at h
    split at h
    · cases h
    · rename_i hne
      obtain ⟨rfl, rfl⟩ := pure_eq_ok.1 h
      refine ⟨⟨hname, .inr hne⟩, rfl, rfl, fun span annotations => ?_⟩
      simp [Phrase.FieldType.ofName, hbase]

theorem openType_eq (type : Parse FieldType) (words : DottedName) :
    openType type words =
      if words.text = "map" then mapType type
      else if words.text = "set" then setType type
      else if words.text = "list" then listType type
      else typeOfName words := by
  unfold openType
  split <;> simp_all

theorem openType_sound
    (htype : ∀ {reader node after}, reader.Valid → type reader = .ok node after →
      ReadsType reader node after)
    (hr : reader.Valid) (h : openType type name.words reader = .ok open' after) :
    ∃ wrap inside, OpensType name open'.1 open'.2 reader wrap inside after := by
  rw [openType_eq] at h
  split at h
  · exact mapType_sound htype ‹_› hr h
  split at h
  · exact setType_sound htype ‹_› hr h
  split at h
  · exact listType_sound htype ‹_› hr h
  · exact typeOfName_sound ⟨‹_›, ‹_›, ‹_›⟩ hr h

end Containers

theorem fieldType_sound (hr : reader.Valid) {node : FieldType}
    (h : fieldType reader = .ok node after) : ReadsType reader node after := by
  refine nested_induction (motive := fun reader node after => reader.Valid →
    ReadsType reader node after) (fun h hr => ?_) ?_ h hr
  · obtain ⟨phrase, rfl, hphrase, hstops⟩ := h hr.round
    exact ⟨phrase, rfl, hphrase.of_round, hstops⟩
  intro type reader node after htype h hr
  obtain ⟨words, r₁, h₁, h⟩ := bind_eq_ok.1 h
  obtain ⟨⟨build, last⟩, r₂, h₂, h⟩ := bind_eq_ok.1 h
  obtain ⟨⟨nodes, last'⟩, r₃, h₃, h⟩ := bind_eq_ok.1 h
  obtain ⟨-, h⟩ := span_bind_eq_ok.1 h
  obtain ⟨rfl, rfl⟩ := pure_eq_ok.1 h
  obtain ⟨name, rfl, hname⟩ := name_sound hr h₁
  obtain ⟨wrap, inside, hwrap⟩ := openType_sound (fun hr h => htype h hr) hname.valid h₂
  obtain ⟨annotations, rfl, rfl, hannotations, -⟩ := trailingAnnotations_sound hwrap.reads.valid h₃
  refine ⟨wrap annotations, hwrap.node annotations, ?_, ?_⟩
  · rw [hwrap.terminals]
    exact hname.trans (hwrap.reads.trans hannotations)
  · cases annotations with
    | none => exact hwrap.stops.of_reads hannotations
    | some annotations => exact fun _ _ _ _ _ => hwrap.annotated _ _

end ThriftSyntax.Grammar
