import ThriftSyntax.Proofs.Coupling.Rule
import ThriftSyntax.Proofs.Session.Safety

/-!
# Two runs of definitions and documents

What the actions on tokens keep is kept by services, definitions and documents, and so by every call of
a rule that the parser offers.
-/

namespace ThriftSyntax

open Parse Coupling TokenCoupling

namespace Grammar

variable {S : TokenCoupling} {l m : Link} {α : Type}

/-! ## Functions -/

theorem resultType_couples : S.Couples (S.TakenBy l m) (resultType l) (resultType m)
    fun _ _ => S.readers :=
  .ite (fun h => by rw [S.kind_eq h.alike]) (.pure fun h => h.1.readers)
    ((putBackLast_couples.strengthen fun h => h.1).bind fun _ _ => .map fieldType_ties)

theorem functionHead_couples : S.Couples (S.TakenBy l m) (functionHead l) (functionHead m)
    fun _ _ => S.readers := by
  refine .ite (fun h => by rw [S.kind_eq h.alike]) ?_ ?_
  · exact (takeSignificant_couples.strengthen fun h => h.1.readers).bind fun _ _ =>
      resultType_couples.bind fun _ _ => .pure fun h => h
  · exact (resultType_couples.strengthen fun h => h.1).bind fun _ _ => .pure fun h => h

theorem throws_couples {last last' : Nat} : S.Ties (throws last) (throws last') := by
  refine found_bind word?_couples (.pure fun h => h) fun l m => ?_
  refine .ite (fun h => by rw [S.kind_eq h.alike]) ?_ ?_
  · exact ((mark_ties .leftParen).strengthen fun h => h.1.readers).bind fun _ _ =>
      (fieldsUntil_couples .rightParen).bind fun _ _ => .pure fun h => h
  · exact (putBackLast_couples.strengthen fun h => h.1).bind fun _ _ => .pure fun h => h

theorem functionTail_couples {last last' : Nat} :
    S.Ties (functionTail last) (functionTail last') := by
  refine rel_bind (annotations?_couples .allow) ?_ fun _ _ =>
    (throws_couples.strengthen fun h => h.1).bind fun _ _ => .pure fun h => h
  exact throws_couples.bind fun _ _ => (trailingAnnotations_ties .allow).bind fun _ _ =>
    .pure fun h => h

theorem function_couples : S.Ties function function :=
  takeSignificant_couples.bind fun _ _ => functionHead_couples.bind fun _ _ =>
    (name_ties false).bind fun _ _ => (mark_ties .leftParen).bind fun _ _ =>
    (fieldsUntil_couples .rightParen).bind fun _ _ => functionTail_couples.bind fun _ _ =>
    separator?_ties.bind fun _ _ => span_couples fun h => h

theorem functionsUntil_couples (close : Punct) :
    S.Ties (functionsUntil close) (functionsUntil close) :=
  (itemsUntil_ties close function_couples).bind fun _ _ => index_couples.bind fun _ _ =>
    .pure fun h => h

theorem base?_couples : S.Ties base? base? := by
  refine found_bind word?_couples (.pure fun h => h) fun l m => ?_
  refine .ite (fun h => by rw [S.raw_eq h.alike]) ?_ (.throw (fun h => S.unexpected h.1.alike _)
    fun h => h.1.readers.failed)
  exact .map ((name_ties false).strengthen fun h => h.1.readers)

/-! ## Definitions -/

theorem service_couples : S.Ties (service l) (service m) :=
  (name_ties false).bind fun _ _ => base?_couples.bind fun _ _ =>
    (mark_ties .leftBrace).bind fun _ _ => (functionsUntil_couples .rightBrace).bind fun _ _ =>
    (trailingAnnotations_ties .allow).bind fun _ _ => span_couples fun h => h

theorem scope_couples : S.Ties scope scope :=
  found_bind (mark?_couples .star) ((name_ties true).bind fun _ _ => .pure fun h => h)
    fun _ _ => .pure fun h => h.readers

theorem namespaced_couples (trailing : TrailingSeparator) :
    S.Ties (namespaced trailing l) (namespaced trailing m) :=
  scope_couples.bind fun _ _ => (name_ties true).bind fun _ _ =>
    (trailingAnnotations_ties trailing).bind fun _ _ => span_couples fun h => h

theorem included_couples (form : IncludeForm) : S.Ties (included form l) (included form m) :=
  string_ties.bind fun _ _ => span_couples fun h => h

theorem const_couples : S.Ties (const l) (const m) :=
  fieldType_ties.bind fun _ _ => (name_ties false).bind fun _ _ =>
    (mark_ties .equals).bind fun _ _ => constValue_ties.bind fun _ _ =>
    separator?_ties.bind fun _ _ => span_couples fun h => h

/-- The place of a named type is looked up in the chain, where its first token is found. -/
theorem aliasedType_couples : S.Ties aliasedType aliasedType := by
  have htype : S.Couples S.readers fieldType fieldType
      fun x y r s => S.readers r s ∧ S.Types x y r s := fieldType_couples.weaken fun h => ⟨h.1.1, h.2⟩
  refine htype.bind fun type type' => ?_
  have hthrow : ∀ (a b : Parse FieldType), Onward a → Onward b →
      S.Couples (fun r s => S.readers r s ∧ S.Types type type' r s ∧ type.isNamed ≠ type'.isNamed)
        a b fun _ _ => S.readers := fun a b ha hb => by
    refine .vacuous ha hb fun h => ?_
    obtain ⟨-, htypes, hne⟩ := h
    cases htypes with
    | named => exact hne rfl
    | other h h' => exact hne (h.trans h'.symm)
  have hlook : ∀ (name : String) (span : Span), Onward (do
      let first ← token span.first
      throw (.namedTypedef name first.location) : Parse FieldType) := fun name span =>
    (onward_token _).bind fun _ => onward_throw _
  cases type with
  | named name span annotations =>
    cases type' with
    | named name' span' annotations' =>
      refine ⟨hlook name span, hlook name' span', fun h => ?_⟩
      obtain ⟨hreaders, htypes⟩ := h
      cases htypes with
      | named h =>
        dsimp only
        rw [bind_of_ok (token_eq h.left), bind_of_ok (token_eq h.right)]
        exact .error (S.named h.words h.begins) hreaders.failed
      | other h => cases h
    | base | map | set | list =>
      exact (hthrow _ _ (hlook name span) (onward_pure _)).strengthen fun h =>
        ⟨h.1, h.2, by simp [FieldType.isNamed]⟩
  | base | map | set | list =>
    cases type' with
    | named name' span' annotations' =>
      exact (hthrow _ _ (onward_pure _) (hlook name' span')).strengthen fun h =>
        ⟨h.1, h.2, by simp [FieldType.isNamed]⟩
    | base | map | set | list => exact .pure fun h => h.1

theorem typedef_couples : S.Ties (typedef l) (typedef m) :=
  aliasedType_couples.bind fun _ _ => (name_ties true).bind fun _ _ =>
    (trailingAnnotations_ties .allow).bind fun _ _ => separator?_ties.bind fun _ _ =>
      span_couples fun h => h

theorem assigned?_couples : S.Ties assigned? assigned? :=
  found_bind (mark?_couples .equals) (.pure fun h => h) fun _ _ =>
    .map (integer_ties.strengthen fun h => h.readers)

theorem enumElement_couples : S.Ties enumElement enumElement :=
  (name_ties false).bind fun _ _ => assigned?_couples.bind fun _ _ =>
    (trailingAnnotations_ties .allow).bind fun _ _ => separator?_ties.bind fun _ _ =>
      span_couples fun h => h

theorem enum_couples (numbering : Numbering) : S.Ties (enum numbering l) (enum numbering m) :=
  (name_ties false).bind fun _ _ => (mark_ties .leftBrace).bind fun _ _ =>
    (itemsUntil_ties .rightBrace enumElement_couples).bind fun _ _ =>
    (trailingAnnotations_ties .allow).bind fun _ _ => span_couples fun h => h

theorem struct_couples (form : StructForm) : S.Ties (struct form l) (struct form m) :=
  (name_ties false).bind fun _ _ => (mark_ties .leftBrace).bind fun _ _ =>
    (fieldsUntil_couples .rightBrace).bind fun _ _ =>
    (trailingAnnotations_ties .allow).bind fun _ _ => span_couples fun h => h

theorem definition_couples (options : Options) :
    S.Couples (fun r s => S.readers r s ∧ S.links l m) (definition options l) (definition options m)
      fun _ _ => S.readers := by
  -- A definition goes by the kind of its first token, which is the same in both runs.
  refine Couples.cases (a := l.kind) (b := m.kind)
    (F := fun kind => definition options ⟨l.id, ⟨kind, l.raw, l.location⟩⟩)
    (G := fun kind => definition options ⟨m.id, ⟨kind, m.raw, m.location⟩⟩)
    (fun h => S.kind_eq h.2) (fun kind => ?_) _ rfl _ rfl
  have hthrow : S.Couples (fun r s => (S.readers r s ∧ S.links l m) ∧ l.kind = kind ∧ m.kind = kind)
      (throw (.unexpected ⟨l.id, ⟨kind, l.raw, l.location⟩⟩ .definition) : Parse Definition)
      (throw (.unexpected ⟨m.id, ⟨kind, m.raw, m.location⟩⟩ .definition)) fun _ _ => S.readers := by
    refine .throw (fun h => ?_) fun h => h.1.1.failed
    obtain ⟨⟨-, hlinks⟩, hl, hm⟩ := h
    rw [show (⟨l.id, ⟨kind, l.raw, l.location⟩⟩ : Link) = l from hl ▸ rfl,
      show (⟨m.id, ⟨kind, m.raw, m.location⟩⟩ : Link) = m from hm ▸ rfl]
    exact S.unexpected hlinks .definition
  have htie : ∀ {p q : Parse Definition}, S.Ties p q →
      S.Couples (fun r s => (S.readers r s ∧ S.links l m) ∧ l.kind = kind ∧ m.kind = kind) p q
        fun _ _ => S.readers := fun h => h.strengthen fun h => h.1.1
  cases kind with
  | keyword word =>
    cases word with
    | «namespace» => exact htie (.map (namespaced_couples options.namespaceTrailing))
    | «include» => exact htie (.map (included_couples .thrift))
    | cppInclude => exact htie (.map (included_couples .cpp))
    | const => exact htie (.map const_couples)
    | typedef => exact htie (.map typedef_couples)
    | enum => exact htie (.map (enum_couples options.numbering))
    | struct => exact htie (.map (struct_couples .struct))
    | union => exact htie (.map (struct_couples .union))
    | exception => exact htie (.map (struct_couples .exception))
    | service => exact htie (.map service_couples)
    | _ => exact hthrow
  | _ => exact hthrow

theorem definitionStep_couples (options : Options) (xs ys : List Definition) :
    S.Couples S.readers (definitionStep options) (definitionStep options)
      (Couples.Round (fun _ _ => S.readers) (fun _ _ _ _ => S.readers) xs ys) := by
  refine takeSignificant_couples.bind fun l m => .ite (fun h => by rw [S.kind_eq h.alike])
    (.pure fun h => .last h.1.readers) ?_
  exact .map (((definition_couples options).weaken fun h => .item h).strengthen fun h =>
    ⟨h.1.readers, h.1.alike⟩)

theorem document_couples (options : Options) : S.Ties (document options) (document options) := by
  rw [document_eq]
  exact (Couples.repeatUntil (P := fun _ _ => S.readers) (Q := fun _ _ _ _ => S.readers)
    (fun h => readers_round h) (definitionStep_couples options)).bind fun _ _ => span_couples fun h => h

end Grammar

theorem Call.run_couples {S : TokenCoupling} (call : Call) : S.Ties call.run call.run := by
  cases call with
  | document options => exact .map (Grammar.document_couples options)
  | fieldType => exact .map Grammar.fieldType_ties
  | constValue => exact .map Grammar.constValue_ties
  | field => exact .map Grammar.field_ties
  | annotations => exact .map Grammar.annotations_couples.ties

theorem Call.ne_stalled (call : Call) {reader after : Reader} {error : Error} (hs : reader.Steady)
    (h : call.run reader = .error error after) : error ≠ .stalled := by
  rintro rfl
  exact (call.run_runs hs).ne_stalled after h

end ThriftSyntax
