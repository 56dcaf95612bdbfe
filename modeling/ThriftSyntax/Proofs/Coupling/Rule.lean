import ThriftSyntax.Proofs.Coupling.Token
import ThriftSyntax.Proofs.Relabel
import ThriftSyntax.Proofs.Session.Recursion
import ThriftSyntax.Proofs.Soundness.Basic

/-!
# Two runs of the rules for types, constants and fields

Every rule of the grammar keeps what the actions on tokens keep: whether a mark or a word was found, how
a name is spelled, and whether a type is a named one. So the nodes that both runs read are the same but
for the numbers of their tokens.
-/

namespace ThriftSyntax

open Parse Coupling

namespace TokenCoupling

variable (S : TokenCoupling)

/-- The same but for the numbers of tokens. -/
abbrev Alike {α γ : Type} (relabel : (Nat → Nat) → α → γ) (a b : α) : Prop :=
  relabel S.left a = relabel S.right b

/-- Both runs have taken a token, or neither has. -/
inductive Found : Option Link → Option Link → Reader → Reader → Prop
  | none {r s : Reader} (h : S.readers r s) : Found none none r s
  | some {l m : Link} {r s : Reader} (h : S.TakenBy l m r s) :
      Found (some l) (some m) r s

/-- Two types that are alike are named alike, or neither is a named type. -/
inductive Types : FieldType → FieldType → Reader → Reader → Prop
  | named {a b : DottedName} {r s : Reader} (h : S.Names a b r s) (i j : Nat)
      (as bs : List Annotation) :
      Types (.named a.text ⟨a.head.id, i⟩ as) (.named b.text ⟨b.head.id, j⟩ bs) r s
  | other {type type' : FieldType} {r s : Reader} (h : type.isNamed = false)
      (h' : type'.isNamed = false) : Types type type' r s

/-- Types that have yet to get their annotations are alike, and named by `a` and `b` if they are. -/
structure OpenTypes (a b : DottedName) (type type' : Grammar.OpenType) : Prop where
  last : S.left type.2 = S.right type'.2
  build : ∀ {span span' as bs}, S.Alike Span.relabel span span' → S.Alike relabelAnnotations as bs →
    S.Alike FieldType.relabel (type.1 span as) (type'.1 span' bs)
  named : ((∀ span annotations, type.1 span annotations = .named a.text span annotations) ∧
      ∀ span annotations, type'.1 span annotations = .named b.text span annotations) ∨
    (∀ span annotations, (type.1 span annotations).isNamed = false) ∧
      ∀ span annotations, (type'.1 span annotations).isNamed = false

variable {S} {α : Type} {a b : Option Link} {l m : Link} {p q : Parse α} {R : α → α → Prop}

theorem Relates.ties (h : S.Relates p q R) : S.Ties p q := h.weaken fun h => h.1

theorem Ties.relates (h : S.Ties p q) : S.Relates p q fun _ _ => True := h.weaken fun h => ⟨h, trivial⟩

/-- What is known before the runs is known after them. -/
theorem Relates.given {F : Prop} (h : S.Relates p q R) :
    S.Couples (fun r s => S.readers r s ∧ F) p q fun a b r s => S.readers r s ∧ R a b ∧ F :=
  (Couples.keep h).weaken fun h => ⟨h.1.1, h.1.2, h.2⟩

theorem Found.rel {r s : Reader} (h : S.Found a b r s) : S.readers r s ∧ Option.Rel S.links a b := by
  cases h with
  | none h => exact ⟨h, .none⟩
  | some h => exact ⟨h.readers, .some h.alike⟩

/-! ## What is alike -/

theorem alike_map {β : Type} {relabel : (Nat → Nat) → α → β} {xs ys : List α}
    (h : List.Forall₂ (S.Alike relabel) xs ys) :
    xs.map (relabel S.left) = ys.map (relabel S.right) := by
  rwa [← List.forall₂_eq_eq_eq, List.forall₂_map_left_iff, List.forall₂_map_right_iff]

theorem alike_optionMap {β : Type} {relabel : (Nat → Nat) → α → β} {a b : Option α}
    (h : Option.Rel (S.Alike relabel) a b) :
    a.map (relabel S.left) = b.map (relabel S.right) := by
  cases h with
  | none => rfl
  | some h => exact congrArg some h

theorem isSome_of_rel {a b : Option α} (h : Option.Rel R a b) : a.isSome = b.isSome := by
  cases h <;> rfl

theorem value_eq (h : S.links l m) : l.token.value = m.token.value := by
  have hkind : l.token.kind = m.token.kind := S.kind_eq h
  have hraw : l.token.raw = m.token.raw := S.raw_eq h
  rw [Token.value, Token.value, hkind, hraw]

theorem span_alike {first first' last last' : Nat} (h : S.left first = S.right first')
    (h' : S.left last = S.right last') : S.Alike Span.relabel ⟨first, last⟩ ⟨first', last'⟩ :=
  congrArg₂ Span.mk h h'

theorem cppType_eq (h : Option.Rel S.links a b) :
    a.map (fun link => link.token.value) = b.map fun link => link.token.value := by
  cases h with
  | none => rfl
  | some h => exact congrArg some (value_eq h)

end TokenCoupling

namespace Grammar

open TokenCoupling

variable {S : TokenCoupling} {α : Type} {l m : Link} {a b : DottedName}
  {P : Reader → Reader → Prop} {Q : α → α → Reader → Reader → Prop} {R : α → α → Prop}

theorem found_bind {p q : Parse (Option Link)} {f g : Option Link → Parse α}
    (hp : S.Couples P p q S.Found) (hnone : S.Couples S.readers (f none) (g none) Q)
    (hsome : ∀ l m, S.Couples (S.TakenBy l m) (f (some l)) (g (some m)) Q) :
    S.Couples P (p >>= f) (q >>= g) Q :=
  hp.bindOption (fun h => isSome_of_rel h.rel.2) (hnone.strengthen fun h => h.rel.1)
    fun l m => (hsome l m).strengthen fun h => by cases h; assumption

theorem rel_bind {β : Type} {T : β → β → Prop} {p q : Parse (Option β)} {f g : Option β → Parse α}
    (hp : S.Relates p q (Option.Rel T)) (hnone : S.Couples S.readers (f none) (g none) Q)
    (hsome : ∀ a b, S.Couples (fun r s => S.readers r s ∧ T a b) (f (some a)) (g (some b)) Q) :
    S.Couples S.readers (p >>= f) (q >>= g) Q :=
  hp.bindOption (fun h => isSome_of_rel h.2) (hnone.strengthen fun h => h.1)
    fun a b => (hsome a b).strengthen fun h => ⟨h.1, by cases h.2; assumption⟩

/-! ## The smallest rules -/

theorem found_take : S.Couples S.facing (some <$> take) (some <$> take) S.Found :=
  .map (take_couples.weaken .some)

theorem found_none : S.Couples S.facing (pure none) (pure none) S.Found :=
  .pure fun h => .none (readers_of_facing h)

theorem unexpected_couples (expected : Expectation) :
    S.Couples S.readers (unexpected expected) (unexpected expected) Q :=
  takeSignificant_couples.bind fun _ _ => .throw (fun h => S.unexpected h.alike expected)
    fun h => h.readers.failed

theorem mark?_couples (mark : Punct) : S.Couples S.readers (mark? mark) (mark? mark) S.Found :=
  peekSignificant_couples fun _ => .ite (fun _ => .rfl) (found_take.strengthen fun h => h.1)
    (found_none.strengthen fun h => h.1)

theorem mark_couples (mark : Punct) : S.Relates (Grammar.mark mark) (Grammar.mark mark) S.links :=
  takeSignificant_couples.bind fun _ _ => .ite (fun h => by rw [S.kind_eq h.alike])
    (.pure fun h => ⟨h.1.readers, h.1.alike⟩) (.throw (fun h => S.unexpected h.1.alike _)
      fun h => h.1.readers.failed)

theorem mark_ties (mark : Punct) : S.Ties (Grammar.mark mark) (Grammar.mark mark) :=
  (mark_couples mark).ties

theorem name_couples (reserved : Bool) : S.Couples S.readers (name reserved) (name reserved)
    fun a b r s => S.readers r s ∧ S.Names a b r s := by
  refine (takeName?_couples reserved).bindOption (fun h => ?_) ?_ fun a b => .pure fun h => ?_
  · cases h.2 <;> rfl
  · exact (unexpected_couples .identifier).strengthen fun h => h.1
  · obtain ⟨hreaders, ⟨hnames⟩⟩ := h
    exact ⟨hreaders, hnames⟩

theorem name_relates (reserved : Bool) : S.Relates (name reserved) (name reserved) S.SameName :=
  (name_couples reserved).weaken fun h => ⟨h.1, h.2.same⟩

theorem name_ties (reserved : Bool) : S.Ties (name reserved) (name reserved) :=
  (name_relates reserved).ties

theorem string_couples : S.Relates string string S.links :=
  rel_bind takeString?_couples (unexpected_couples .string) fun _ _ => .pure fun h => h

theorem string_ties : S.Ties string string := string_couples.ties

theorem integer_couples :
    S.Relates integer integer fun x y => S.links x.1 y.1 ∧ x.2 = y.2 := by
  refine takeNumber_couples.bind fun l m => .ite (fun h => by rw [S.kind_eq h.2]) ?_
    (.throw (fun h => S.unexpected h.1.2 _) fun h => h.1.1.failed)
  generalize hx : Numeral.integer? l.raw = x
  generalize hy : Numeral.integer? m.raw = y
  revert x y
  refine Couples.cases (fun h => by rw [S.raw_eq h.1.2]) fun value => ?_
  cases value with
  | some value => exact .pure fun h => ⟨h.1.1.1, h.1.1.2, rfl⟩
  | none => exact .throw (fun h => S.invalid h.1.1.2 h.1.2) fun h => h.1.1.1.failed

theorem integer_ties : S.Ties integer integer := integer_couples.ties

theorem separator?_couples : S.Couples S.readers separator? separator? S.Found := by
  rw [separator?_eq]
  exact peekSignificant_couples fun _ => .ite (fun _ => .rfl) (found_take.strengthen fun h => h.1)
    (found_none.strengthen fun h => h.1)

theorem separator?_relates : S.Relates separator? separator? (Option.Rel S.links) :=
  separator?_couples.weaken fun h => h.rel

theorem separator?_ties : S.Ties separator? separator? := separator?_relates.ties

theorem word?_couples : S.Couples S.readers word? word? S.Found := by
  refine peekSignificant_couples fun c => ?_
  cases c with
  | none => exact found_none
  | some c =>
    exact .ite (fun _ => .rfl) (found_take.strengthen fun h => h.1)
      (found_none.strengthen fun h => h.1)

theorem itemsUntil_couples {p q : Parse α} (close : Punct) (h : S.Relates p q R) :
    S.Relates (itemsUntil close p) (itemsUntil close q)
      fun x y => List.Forall₂ R x.1 y.1 ∧ S.links x.2 y.2 := by
  refine (Couples.repeatUntil (P := fun xs ys r s => S.readers r s ∧ List.Forall₂ R xs ys)
    (Q := fun xs ys l m r s => S.readers r s ∧ List.Forall₂ R xs ys ∧ S.links l m)
    (fun h => ⟨readers_round h.1, h.2⟩) fun xs ys => ?_).strengthen fun h => ⟨h, .nil⟩
  refine ((mark?_couples close).keep).bindOption (fun h => isSome_of_rel h.1.rel.2) ?_ fun l m => ?_
  · refine .map ((h.given.weaken fun h => .item ?_).strengthen fun h => ⟨h.1.rel.1, h.2⟩)
    obtain ⟨hreaders, hitem, hitems⟩ := h
    exact ⟨hreaders, List.rel_append hitems (.cons hitem .nil)⟩
  · refine .pure fun h => .last ?_
    obtain ⟨hfound, hitems⟩ := h
    cases hfound with
    | some htaken => exact ⟨htaken.readers, hitems, htaken.alike⟩

theorem itemsUntil_ties {p q : Parse α} (close : Punct) (h : S.Ties p q) :
    S.Ties (itemsUntil close p) (itemsUntil close q) := (itemsUntil_couples close h.relates).ties

/-- A word that is put back, so that nothing is found. -/
theorem putBack_none {T : α → α → Prop} : S.Couples (S.TakenBy l m)
    (do putBackLast l; return (none : Option α)) (do putBackLast m; return none)
    fun a b r s => S.readers r s ∧ Option.Rel T a b :=
  putBackLast_couples.bind fun _ _ => .pure fun h => ⟨h, .none⟩

/-! ## Putting nodes together -/

theorem onward_span (first last : Nat) : Onward (span first last) :=
  onward_of_still fun reader => by
    obtain h | h := span_or first last reader <;> rw [h] <;> rfl

theorem onward_index (span : α → Span) (name : α → String) (items : List α) :
    Onward (index span name items) :=
  onward_of_still fun reader => by
    obtain h | h := index_or span name items reader <;> rw [h] <;> rfl

/-- Two nodes that only lack their spans. -/
theorem span_couples {first first' last last' : Nat} {build build' : Span → α}
    (h : ∀ {r s}, P r s → Q (build ⟨first, last⟩) (build' ⟨first', last'⟩) r s) :
    S.Couples P (Grammar.span first last >>= fun span => pure (build span))
      (Grammar.span first' last' >>= fun span => pure (build' span)) Q := by
  have hspan : S.Couples P (Grammar.span first last) (Grammar.span first' last')
      fun x y r s => P r s ∧ x = ⟨first, last⟩ ∧ y = ⟨first', last'⟩ :=
    ⟨onward_span first last, onward_span first' last', fun hr =>
      .of_or (span_or first last _) (span_or first' last' _) ⟨hr, rfl, rfl⟩⟩
  refine hspan.bind fun x y => .pure fun hq => ?_
  obtain ⟨hr, rfl, rfl⟩ := hq
  exact h hr

theorem index_couples {span : α → Span} {name : α → String} {items items' : List α} :
    S.Couples P (index span name items) (index span name items') fun _ _ => P :=
  ⟨onward_index span name items, onward_index span name items', fun hr =>
    .of_or (index_or span name items _) (index_or span name items' _) hr⟩

/-! ## Annotations -/

theorem annotation_couples : S.Relates annotation annotation (S.Alike Annotation.relabel) := by
  refine (name_relates false).bind fun _ _ => (mark_couples .equals).given.bind fun _ _ =>
    string_couples.given.bind fun _ _ => span_couples fun h => ?_
  obtain ⟨hreaders, hliteral, -, hname⟩ := h
  refine ⟨hreaders, ?_⟩
  simp only [Alike, Annotation.relabel, Span.relabel, S.id_eq hname.head, S.id_eq hliteral,
    hname.text_eq, value_eq hliteral, S.raw_eq hliteral]

theorem checkTrailing_couples (trailing : TrailingSeparator) {a b : Option Link} :
    S.Couples (S.Found a b) (checkTrailing trailing a) (checkTrailing trailing b)
      fun _ _ => S.readers := by
  refine .ite (fun h => by rw [isSome_of_rel h.rel.2]) ?_ (.pure fun h => h.1.rel.1)
  refine Couples.strengthen (P := S.readers) ?_ fun h => h.1.rel.1
  refine peekSignificant_couples fun _ => .ite (fun _ => .rfl) ?_ (.pure fun h => readers_of_facing h.1)
  exact (unexpected_couples _).strengthen fun h => readers_of_facing h.1

theorem annotationItem_couples (trailing : TrailingSeparator) :
    S.Relates (annotationItem trailing) (annotationItem trailing) (S.Alike Annotation.relabel) := by
  refine annotation_couples.bind fun _ _ => (separator?_couples.keep).bind fun _ _ =>
    ((checkTrailing_couples trailing).keep).bind fun _ _ => .pure fun h => h

theorem annotationList_couples (trailing : TrailingSeparator) :
    S.Relates (annotationList trailing) (annotationList trailing)
      fun x y => S.Alike relabelAnnotations x.1 y.1 ∧ S.links x.2 y.2 :=
  (itemsUntil_couples .rightParen (annotationItem_couples trailing)).weaken fun h =>
    ⟨h.1, alike_map h.2.1, h.2.2⟩

theorem annotations_couples : S.Relates annotations annotations (S.Alike relabelAnnotations) :=
  (mark_ties .leftParen).bind fun _ _ => (annotationList_couples .allow).bind fun _ _ =>
    .pure fun h => ⟨h.1, h.2.1⟩

theorem annotations?_couples (trailing : TrailingSeparator) :
    S.Relates (annotations? trailing) (annotations? trailing)
      (Option.Rel fun x y => S.Alike relabelAnnotations x.1 y.1 ∧ S.links x.2 y.2) :=
  found_bind (mark?_couples .leftParen) (.pure fun h => ⟨h, .none⟩) fun _ _ =>
    .map (((annotationList_couples trailing).weaken fun h => ⟨h.1, .some h.2⟩).strengthen
      fun h => h.readers)

theorem trailingAnnotations_couples (trailing : TrailingSeparator) {last last' : Nat} :
    S.Relates (trailingAnnotations last trailing) (trailingAnnotations last' trailing)
      fun x y => S.Alike relabelAnnotations x.1 y.1 ∧
        (S.left last = S.right last' → S.left x.2 = S.right y.2) :=
  rel_bind (annotations?_couples trailing) (.pure fun h => ⟨h, rfl, fun hlast => hlast⟩)
    fun _ _ => .pure fun h => ⟨h.1, h.2.1, fun _ => S.id_eq h.2.2⟩

theorem trailingAnnotations_ties (trailing : TrailingSeparator) {last last' : Nat} :
    S.Ties (trailingAnnotations last trailing) (trailingAnnotations last' trailing) :=
  (trailingAnnotations_couples trailing).ties

/-! ## Types -/

variable {p q : Parse FieldType}

theorem cppType?_couples : S.Relates cppType? cppType? (Option.Rel S.links) := by
  refine found_bind word?_couples (.pure fun h => ⟨h, .none⟩) fun l m => ?_
  refine .ite (fun h => by rw [S.raw_eq h.alike]) ?_ (putBack_none.strengthen fun h => h.1)
  exact .map ((string_couples.weaken fun h => ⟨h.1, .some h.2⟩).strengthen fun h => h.1.readers)

theorem mapType_couples (h : S.Relates p q (S.Alike FieldType.relabel)) :
    S.Relates (mapType p) (mapType q) (S.OpenTypes a b) := by
  refine cppType?_couples.bind fun _ _ => (mark_couples .less).given.bind fun _ _ =>
    h.given.bind fun _ _ => (mark_couples .comma).given.bind fun _ _ => h.given.bind fun _ _ =>
    (mark_couples .greater).given.bind fun _ _ => .pure fun h => ?_
  obtain ⟨hreaders, hclose, hvalue, -, hkey, -, hcpp⟩ := h
  refine ⟨hreaders, S.id_eq hclose, fun hspan hannotations => ?_, .inr ⟨fun _ _ => rfl, fun _ _ => rfl⟩⟩
  simp only [Alike, FieldType.relabel, hkey, hvalue, cppType_eq hcpp, hspan, hannotations]

theorem setType_couples (h : S.Relates p q (S.Alike FieldType.relabel)) :
    S.Relates (setType p) (setType q) (S.OpenTypes a b) := by
  refine cppType?_couples.bind fun _ _ => (mark_couples .less).given.bind fun _ _ =>
    h.given.bind fun _ _ => (mark_couples .greater).given.bind fun _ _ => .pure fun h => ?_
  obtain ⟨hreaders, hclose, helement, -, hcpp⟩ := h
  refine ⟨hreaders, S.id_eq hclose, fun hspan hannotations => ?_, .inr ⟨fun _ _ => rfl, fun _ _ => rfl⟩⟩
  simp only [Alike, FieldType.relabel, helement, cppType_eq hcpp, hspan, hannotations]

theorem listType_couples (h : S.Relates p q (S.Alike FieldType.relabel)) :
    S.Relates (listType p) (listType q) (S.OpenTypes a b) := by
  refine (mark_ties .less).bind fun _ _ => h.bind fun _ _ => (mark_couples .greater).given.bind fun _ _ =>
    cppType?_couples.given.bind fun _ _ => .pure fun h => ?_
  obtain ⟨hreaders, hcpp, hclose, helement⟩ := h
  refine ⟨hreaders, ?_, fun hspan hannotations => ?_, .inr ⟨fun _ _ => rfl, fun _ _ => rfl⟩⟩
  · cases hcpp with
    | none => exact S.id_eq hclose
    | some hcpp => exact S.id_eq hcpp
  · simp only [Alike, FieldType.relabel, helement, cppType_eq hcpp, hspan, hannotations]

theorem typeOfName_couples : S.Couples (fun r s => S.readers r s ∧ S.SameName a b) (typeOfName a)
    (typeOfName b) fun x y r s => S.readers r s ∧ S.OpenTypes a b x y := by
  unfold typeOfName
  generalize hx : BaseType.ofText? a.text = x
  generalize hy : BaseType.ofText? b.text = y
  revert x y
  refine Couples.cases (fun h => by rw [h.2.text_eq]) fun base => ?_
  cases base with
  | some base =>
    refine .pure fun h => ⟨h.1.1, S.id_eq h.1.2.last, fun hspan hannotations => ?_,
      .inr ⟨fun _ _ => rfl, fun _ _ => rfl⟩⟩
    simp only [Alike, FieldType.relabel, hspan, hannotations]
  | none =>
    refine .ite (fun h => by rw [h.1.2.isEmpty_iff, S.kind_eq h.1.2.head]) ?_ ?_
    · exact .throw (fun h => S.unexpected h.1.1.2.head _) fun h => h.1.1.1.failed
    · refine .pure fun h => ⟨h.1.1.1, S.id_eq h.1.1.2.last, fun hspan hannotations => ?_,
        .inl ⟨fun _ _ => rfl, fun _ _ => rfl⟩⟩
      simp only [Alike, FieldType.relabel, h.1.1.2.text_eq, hspan, hannotations]

theorem openType_couples (h : S.Relates p q (S.Alike FieldType.relabel)) :
    S.Couples (fun r s => S.readers r s ∧ S.SameName a b) (openType p a) (openType q b)
      fun x y r s => S.readers r s ∧ S.OpenTypes a b x y := by
  unfold openType
  generalize hx : a.text = x
  generalize hy : b.text = y
  revert x y
  refine Couples.cases (fun h => by rw [h.2.text_eq]) fun text => ?_
  split
  · exact (mapType_couples h).strengthen fun h => h.1.1
  · exact (setType_couples h).strengthen fun h => h.1.1
  · exact (listType_couples h).strengthen fun h => h.1.1
  · exact typeOfName_couples.strengthen fun h => h.1

/-- The names that a type begins with are kept in mind while the rest of it is read. -/
theorem keep_names {F : Prop} {p q : Parse α}
    (h : S.Couples (fun r s => S.readers r s ∧ F) p q Q) (hF : S.SameName a b → F) :
    S.Couples (fun r s => S.readers r s ∧ S.Names a b r s) p q
      fun x y r s => Q x y r s ∧ S.Names a b r s := by
  have hremember := h.remember (l := a.head) (m := b.head)
  refine ⟨h.onward, h.onward', fun hr => ?_⟩
  obtain ⟨hreaders, hnames⟩ := hr
  exact (hremember.outcome ⟨⟨hreaders, hF hnames.same⟩, hnames.left, hnames.right⟩).mono fun h =>
    ⟨h.1, hnames.words, h.2.1, h.2.2, hnames.begins⟩

/-- Two types that are alike, with what is known of their names. -/
abbrev SameTypes (S : TokenCoupling) (x y : FieldType) (r s : Reader) : Prop :=
  (S.readers r s ∧ S.Alike FieldType.relabel x y) ∧ S.Types x y r s

theorem typeBody_couples (h : S.Couples S.readers p q (SameTypes S)) :
    S.Couples S.readers (typeBody p) (typeBody q) (SameTypes S) := by
  refine (name_couples true).bind fun a b => ?_
  refine (keep_names (openType_couples (h.weaken fun h => h.1)) id).bind fun x y => ?_
  obtain ⟨build, last⟩ := x
  obtain ⟨build', last'⟩ := y
  have hannotations := keep_names (a := a) (b := b)
    ((@trailingAnnotations_couples S .allow last last').strengthen fun h => h.1) fun _ => trivial
  refine (hannotations.keep.strengthen fun h => ⟨⟨h.1.1, h.2⟩, h.1.2⟩).bind fun c d =>
    span_couples fun h => ?_
  obtain ⟨⟨⟨hreaders, halike, hlast⟩, hnames⟩, hopen⟩ := h
  have hspan := span_alike (S.id_eq hnames.same.head) (hlast hopen.last)
  refine ⟨⟨hreaders, hopen.build hspan halike⟩, ?_⟩
  obtain ⟨ha, hb⟩ | ⟨ha, hb⟩ := hopen.named
  · dsimp only at ha hb ⊢
    rw [ha, hb]
    exact .named hnames _ _ _ _
  · exact .other (ha _ _) (hb _ _)

theorem fieldType_couples : S.Couples S.readers fieldType fieldType (SameTypes S) :=
  Couples.nested (fun h => readers_round h) fun _ _ => typeBody_couples

theorem fieldType_relates : S.Relates fieldType fieldType (S.Alike FieldType.relabel) :=
  fieldType_couples.weaken fun h => h.1

theorem fieldType_ties : S.Ties fieldType fieldType := fieldType_relates.ties

/-! ## Constant values -/

variable {v w : Parse ConstValue}

theorem numberValue_couples : S.Relates numberValue numberValue (S.Alike ConstValue.relabel) := by
  refine takeNumber_couples.bind fun l m => ?_
  generalize hx : l.kind = x
  generalize hy : m.kind = y
  revert x y
  refine Couples.cases (fun h => S.kind_eq h.2) fun kind => ?_
  generalize hx : Numeral.form? l.raw = x
  generalize hy : Numeral.form? m.raw = y
  revert x y
  refine Couples.cases (fun h => by rw [S.raw_eq h.1.2]) fun form => ?_
  have hscalar : ∀ {form : ScalarForm}, S.links l m → S.Alike ConstValue.relabel
      (.scalar form l.raw (.single l.id)) (.scalar form m.raw (.single m.id)) := fun hlinks => by
    simp only [Alike, ConstValue.relabel, S.raw_eq hlinks, Span.single, Span.relabel, S.id_eq hlinks]
  split
  · exact .pure fun h => ⟨h.1.1.1, hscalar h.1.1.2⟩
  · exact .pure fun h => ⟨h.1.1.1, hscalar h.1.1.2⟩
  · exact .throw (fun h => S.unexpected h.1.1.2 _) fun h => h.1.1.1.failed

theorem stringValue_couples : S.Relates stringValue stringValue (S.Alike ConstValue.relabel) := by
  refine string_couples.bind fun _ _ => .pure fun h => ⟨h.1, ?_⟩
  simp only [Alike, ConstValue.relabel, value_eq h.2, Span.single, Span.relabel, S.id_eq h.2]

theorem nameValue_couples : S.Relates nameValue nameValue (S.Alike ConstValue.relabel) := by
  refine (name_couples false).bind fun a b =>
    .ite (fun h => by rw [S.kind_eq h.2.same.head, S.kind_eq h.2.same.last])
      (span_couples fun h => ?_)
      (.throw (fun h => S.misplaced h.1.2.words h.1.2.begins) fun h => h.1.1.failed)
  obtain ⟨⟨hreaders, hnames⟩, -⟩ := h
  refine ⟨hreaders, ?_⟩
  simp only [Alike, ConstValue.relabel, hnames.same.text_eq, Span.relabel,
    S.id_eq hnames.same.head, S.id_eq hnames.same.last]

theorem listItem_couples (h : S.Relates v w (S.Alike ConstValue.relabel)) :
    S.Relates (listItem v) (listItem w) (S.Alike ConstValue.relabel) :=
  h.bind fun _ _ => separator?_relates.given.bind fun _ _ => .pure fun h => ⟨h.1, h.2.2⟩

/-- Entries that are alike, key and value. -/
abbrev SameEntry (S : TokenCoupling) (x y : ConstValue × ConstValue) : Prop :=
  S.Alike ConstValue.relabel x.1 y.1 ∧ S.Alike ConstValue.relabel x.2 y.2

theorem mapItem_couples (h : S.Relates v w (S.Alike ConstValue.relabel)) :
    S.Relates (mapItem v) (mapItem w) (SameEntry S) :=
  h.bind fun _ _ => (mark_couples .colon).given.bind fun _ _ => h.given.bind fun _ _ =>
    separator?_relates.given.bind fun _ _ => .pure fun h => ⟨h.1, h.2.2.2.2, h.2.2.1⟩

theorem take_relates : S.Couples S.facing take take fun l m r s => S.readers r s ∧ S.links l m :=
  take_couples.weaken fun h => ⟨h.readers, h.alike⟩

theorem listValue_couples (h : S.Relates v w (S.Alike ConstValue.relabel)) :
    S.Couples S.facing (listValue v) (listValue w)
      fun x y r s => S.readers r s ∧ S.Alike ConstValue.relabel x y := by
  refine take_relates.bind fun _ _ => (itemsUntil_couples .rightBracket (listItem_couples h)).given.bind
    fun _ _ => span_couples fun h => ?_
  obtain ⟨hreaders, ⟨hitems, hclosing⟩, hopening⟩ := h
  refine ⟨hreaders, ?_⟩
  simp only [Alike, ConstValue.relabel, ConstValue.relabelItems_eq, alike_map hitems, Span.relabel,
    S.id_eq hopening, S.id_eq hclosing]

theorem mapValue_couples (h : S.Relates v w (S.Alike ConstValue.relabel)) :
    S.Couples S.facing (mapValue v) (mapValue w)
      fun x y r s => S.readers r s ∧ S.Alike ConstValue.relabel x y := by
  refine take_relates.bind fun _ _ => (itemsUntil_couples .rightBrace (mapItem_couples h)).given.bind
    fun _ _ => span_couples fun h => ?_
  obtain ⟨hreaders, ⟨hentries, hclosing⟩, hopening⟩ := h
  refine ⟨hreaders, ?_⟩
  have hentries := @alike_map S _ _ (fun ids (entry : ConstValue × ConstValue) =>
    (entry.1.relabel ids, entry.2.relabel ids)) _ _ (hentries.imp fun _ _ h => congrArg₂ Prod.mk h.1 h.2)
  simp only [Alike, ConstValue.relabel, ConstValue.relabelEntries_eq, hentries, Span.relabel,
    S.id_eq hopening, S.id_eq hclosing]

theorem valueBody_couples (h : S.Relates v w (S.Alike ConstValue.relabel)) :
    S.Relates (valueBody v) (valueBody w) (S.Alike ConstValue.relabel) := by
  refine peekSignificant_couples fun c => ?_
  cases c with
  | none => exact nameValue_couples.strengthen readers_of_facing
  | some c =>
    refine .ite (fun _ => .rfl) (numberValue_couples.strengthen fun h => readers_of_facing h.1) ?_
    refine .ite (fun _ => .rfl)
      (stringValue_couples.strengthen fun h => readers_of_facing h.1.1) ?_
    refine .ite (fun _ => .rfl) ((listValue_couples h).strengthen fun h => h.1.1.1) ?_
    refine .ite (fun _ => .rfl) ((mapValue_couples h).strengthen fun h => h.1.1.1.1) ?_
    exact nameValue_couples.strengthen fun h => readers_of_facing h.1.1.1.1

theorem constValue_couples : S.Relates constValue constValue (S.Alike ConstValue.relabel) :=
  Couples.nested (fun h => readers_round h) fun _ _ => valueBody_couples

theorem constValue_ties : S.Ties constValue constValue := constValue_couples.ties

/-! ## Fields -/

theorem requiredness?_couples : S.Relates requiredness? requiredness? (Option.Rel Eq) := by
  refine found_bind word?_couples (.pure fun h => ⟨h, .none⟩) fun l m => ?_
  dsimp only
  generalize hx : l.kind = x
  generalize hy : m.kind = y
  revert x y
  refine Couples.cases (fun h => by rw [S.kind_eq h.alike]) fun kind => ?_
  split
  · exact .pure fun h => ⟨h.1.readers, .some rfl⟩
  · exact .pure fun h => ⟨h.1.readers, .some rfl⟩
  · exact putBack_none.strengthen fun h => h.1

theorem default?_couples :
    S.Relates default? default? (Option.Rel (S.Alike ConstValue.relabel)) :=
  found_bind (mark?_couples .equals) (.pure fun h => ⟨h, .none⟩) fun _ _ =>
    .map ((constValue_couples.weaken fun h => ⟨h.1, .some h.2⟩).strengthen fun h => h.readers)

/-- The last token of what a field has before its annotations. -/
theorem default_alike {x y : Option ConstValue} (h : Option.Rel (S.Alike ConstValue.relabel) x y)
    (hname : S.SameName a b) : S.left ((x.map (·.span.last)).getD a.last.id) =
      S.right ((y.map (·.span.last)).getD b.last.id) := by
  cases h with
  | none => exact S.id_eq hname.last
  | @some v w h =>
    have hspan := congrArg ConstValue.span h
    rw [ConstValue.span_relabel, ConstValue.span_relabel] at hspan
    exact congrArg Span.last hspan

theorem lastToken_alike {x y : Option Link} {last last' : Nat} (h : Option.Rel S.links x y)
    (hlast : S.left last = S.right last') : S.left (lastToken last x) = S.right (lastToken last' y) := by
  cases h with
  | none => exact hlast
  | some h => exact S.id_eq h

theorem separator_alike {x y : Option Link} (h : Option.Rel S.links x y) :
    (x.map Link.id).map S.left = (y.map Link.id).map S.right := by
  cases h with
  | none => rfl
  | some h => exact congrArg some (S.id_eq h)

theorem field_couples : S.Relates field field (S.Alike Field.relabel) := by
  refine integer_couples.bind fun _ _ => (mark_couples .colon).given.bind fun _ _ =>
    requiredness?_couples.given.bind fun _ _ => fieldType_relates.given.bind fun _ _ =>
    (name_relates false).given.bind fun _ _ => default?_couples.given.bind fun _ _ =>
    (trailingAnnotations_couples .allow).given.bind fun _ _ => separator?_relates.given.bind fun _ _ =>
      span_couples fun h => ?_
  obtain ⟨hreaders, hseparator, ⟨hannotations, hlast⟩, hdefault, hname, htype, hrequired, -, hnumber,
    hid⟩ := h
  have hspan := span_alike (S.id_eq hnumber)
    (lastToken_alike hseparator (hlast (default_alike hdefault hname)))
  have hids := separator_alike hseparator
  refine ⟨hreaders, ?_⟩
  cases hrequired with
  | none => simp only [Alike, Field.relabel, hspan, hid, htype, hname.text_eq, alike_optionMap hdefault,
      hannotations, hids]
  | some hrequired => simp only [Alike, Field.relabel, hspan, hid, hrequired, htype, hname.text_eq,
      alike_optionMap hdefault, hannotations, hids]

theorem field_ties : S.Ties field field := field_couples.ties

theorem fieldsUntil_couples (close : Punct) : S.Ties (fieldsUntil close) (fieldsUntil close) :=
  (itemsUntil_ties close field_ties).bind fun _ _ => index_couples.bind fun _ _ => .pure fun h => h

end Grammar

end ThriftSyntax
