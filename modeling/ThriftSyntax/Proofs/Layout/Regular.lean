import ThriftSyntax.Proofs.Errors.Exchange
import ThriftSyntax.Proofs.Layout.Neighbours

/-!
# Regular terminals

The grammar has no place for a sign by itself or for a quotation mark, and none for a dot but in a name.
So a text is cut into the tokens of a derivation in one way only, and a dot has after it what could
stand there alone.
-/

namespace ThriftSyntax

open Lexeme

/-! ## Terminals of the grammar -/

/-- A token of this kind is no minus sign, no quotation mark and no dot. -/
def Kind.Regular (kind : Kind) : Prop := ∀ mark, kind = .punct mark → IsLone mark ∧ mark ≠ .dot

/-- A terminal that some phrase has. -/
def Terminal.Regular : Terminal → Prop
  | token link => link.kind.Regular
  | name reserved words => words.Shaped reserved

/-- All of the terminals are regular. -/
def Regular (xs : List Terminal) : Prop := ∀ x ∈ xs, x.Regular

namespace Regular

variable {xs ys : List Terminal}

theorem nil : Regular [] := by simp [Regular]

theorem append (h : Regular xs) (h' : Regular ys) : Regular (xs ++ ys) :=
  List.forall_mem_append.2 ⟨h, h'⟩

theorem flatMap {α : Type} {items : List α} {terminals : α → List Terminal}
    (h : ∀ item ∈ items, Regular (terminals item)) : Regular (items.flatMap terminals) := by
  intro x hx
  obtain ⟨item, hitem, hx⟩ := List.mem_flatMap.1 hx
  exact h item hitem x hx

theorem optional {α : Type} {terminals : α → List Terminal} {phrase : Option α}
    (h : ∀ item ∈ phrase, Regular (terminals item)) : Regular (Phrase.optional terminals phrase) := by
  cases phrase with
  | none => exact nil
  | some item => exact h item rfl

/-- A token that is no mark. -/
theorem leaf {Fits : Kind → String → Prop} (leaf : Phrase.Leaf Fits)
    (h : ∀ mark, leaf.link.kind ≠ .punct mark) : Regular leaf.terminals :=
  List.forall_mem_singleton.2 fun mark hk => absurd hk (h mark)

theorem mark {mark : Punct} (leaf : Phrase.Mark mark) (h : IsLone mark ∧ mark ≠ .dot) :
    Regular leaf.terminals := by
  refine List.forall_mem_singleton.2 fun other hk => ?_
  obtain rfl : mark = other := by simpa [leaf.fits] using hk
  exact h

theorem word {word : Keyword} (leaf : Phrase.Word word) : Regular leaf.terminals :=
  .leaf leaf (by simp [leaf.fits])

theorem particle {text : String} (leaf : Phrase.Particle text) : Regular leaf.terminals :=
  .leaf leaf (by simp [leaf.fits.1])

theorem literal (leaf : Phrase.Literal) : Regular leaf.terminals := .leaf leaf (by simp [leaf.fits])

theorem integer (leaf : Phrase.Integer) : Regular leaf.terminals :=
  .leaf leaf (by simp [leaf.fits.1])

theorem name {reserved : Bool} (name : Phrase.Name reserved) : Regular name.terminals :=
  List.forall_mem_singleton.2 name.shaped

theorem separator (separator : Option Phrase.Separator) :
    Regular (Phrase.optional Phrase.Leaf.terminals separator) := by
  refine .optional fun leaf _ => List.forall_mem_singleton.2 fun mark hk => ?_
  rcases leaf.fits with h | h <;> rw [h] at hk <;> cases hk <;> decide

end Regular

namespace Phrase

theorem regular_annotations (phrase : Option Annotations) :
    Regular (optional Annotations.terminals phrase) :=
  .optional fun list _ => (Regular.mark list.opening (by decide)).append
    ((Regular.flatMap fun item _ => ((Regular.name item.phrase.name).append
      ((Regular.mark item.phrase.equals (by decide)).append
        (.literal item.phrase.literal))).append (.separator item.separator)).append
      (.mark list.closing (by decide)))

theorem regular_cppType (phrase : Option CppType) : Regular (optional CppType.terminals phrase) :=
  .optional fun item _ => (Regular.particle item.particle).append (.literal item.literal)

theorem FieldType.regular (phrase : FieldType) : Regular phrase.terminals := by
  induction phrase with
  | simple name names annotations => exact (Regular.name name).append (regular_annotations annotations)
  | map word isMap cppType less key comma value greater annotations hkey hvalue =>
    exact (Regular.name word).append ((regular_cppType cppType).append
      ((Regular.mark less (by decide)).append (hkey.append ((Regular.mark comma (by decide)).append
        (hvalue.append ((Regular.mark greater (by decide)).append
          (regular_annotations annotations)))))))
  | set word isSet cppType less element greater annotations ih =>
    exact (Regular.name word).append ((regular_cppType cppType).append
      ((Regular.mark less (by decide)).append (ih.append
        ((Regular.mark greater (by decide)).append (regular_annotations annotations)))))
  | list word isList less element greater cppType annotations ih =>
    exact (Regular.name word).append ((Regular.mark less (by decide)).append (ih.append
      ((Regular.mark greater (by decide)).append ((regular_cppType cppType).append
        (regular_annotations annotations)))))

theorem ConstValue.regular (phrase : ConstValue) : Regular phrase.terminals := by
  induction phrase using ConstValue.induction with
  | number numeral => exact .leaf numeral (by simp [numeral.fits])
  | string literal => exact .literal literal
  | name reference proper => exact .name reference
  | list opening items closing ih =>
    rw [terminals, itemsTerminals_eq]
    exact (Regular.mark opening (by decide)).append ((Regular.flatMap fun item hitem =>
      (ih item hitem).append (.separator item.separator)).append (.mark closing (by decide)))
  | map opening entries closing ih =>
    rw [terminals, entriesTerminals_eq]
    exact (Regular.mark opening (by decide)).append ((Regular.flatMap fun entry hentry =>
      (ih entry hentry).1.append ((Regular.mark entry.2.1 (by decide)).append
        ((ih entry hentry).2.append (.separator entry.2.2.separator)))).append
          (.mark closing (by decide)))

theorem regular_fields (phrases : List Field) : Regular (phrases.flatMap Field.terminals) :=
  .flatMap fun phrase _ => (Regular.integer phrase.id).append
    ((Regular.mark phrase.colon (by decide)).append
      ((Regular.optional fun demand _ => .word demand.word).append (phrase.type.regular.append
        ((Regular.name phrase.name).append ((Regular.optional fun item _ =>
          (Regular.mark item.equals (by decide)).append item.value.regular).append
            ((regular_annotations phrase.annotations).append (.separator phrase.separator)))))))

theorem regular_throws (phrase : Option Throws) : Regular (optional Throws.terminals phrase) :=
  .optional fun item _ => (Regular.word item.word).append
    ((Regular.mark item.opening (by decide)).append
      ((regular_fields item.fields).append (.mark item.closing (by decide))))

theorem FunctionTail.regular (phrase : FunctionTail) : Regular phrase.terminals := by
  cases phrase with
  | none => exact .nil
  | annotated annotations throws =>
    exact (regular_annotations (some annotations)).append (regular_throws throws)
  | throwing throws annotations =>
    exact (regular_throws (some throws)).append (regular_annotations annotations)

theorem Result.regular (phrase : Result) : Regular phrase.terminals := by
  cases phrase with
  | void word => exact .word word
  | type type => exact type.regular

theorem Function.regular (phrase : Function) : Regular phrase.terminals :=
  (Regular.optional fun word _ => .word word).append (phrase.result.regular.append
    ((Regular.name phrase.name).append ((Regular.mark phrase.opening (by decide)).append
      ((regular_fields phrase.args).append ((Regular.mark phrase.closing (by decide)).append
        (phrase.tail.regular.append (.separator phrase.separator)))))))

theorem Scope.regular (phrase : Scope) : Regular phrase.terminals := by
  cases phrase with
  | all star => exact .mark star (by decide)
  | name scope => exact .name scope

theorem EnumElement.regular (phrase : EnumElement) : Regular phrase.terminals :=
  (Regular.name phrase.name).append ((Regular.optional fun assigned _ =>
    (Regular.mark assigned.equals (by decide)).append (.integer assigned.number)).append
      ((regular_annotations phrase.annotations).append (.separator phrase.separator)))

theorem Definition.regular (phrase : Definition) : Regular phrase.terminals := by
  cases phrase with
  | namespaced phrase =>
    exact (Regular.word phrase.word).append (phrase.scope.regular.append
      ((Regular.name phrase.target).append (regular_annotations phrase.annotations)))
  | included phrase => exact (Regular.word phrase.word).append (.literal phrase.path)
  | const phrase =>
    exact (Regular.word phrase.word).append (phrase.type.regular.append
      ((Regular.name phrase.name).append ((Regular.mark phrase.equals (by decide)).append
        (phrase.value.regular.append (.separator phrase.separator)))))
  | typedef phrase =>
    exact (Regular.word phrase.word).append (phrase.type.regular.append
      ((Regular.name phrase.name).append ((regular_annotations phrase.annotations).append
        (.separator phrase.separator))))
  | enum phrase =>
    exact (Regular.word phrase.word).append ((Regular.name phrase.name).append
      ((Regular.mark phrase.opening (by decide)).append
        ((Regular.flatMap fun element _ => element.regular).append
          ((Regular.mark phrase.closing (by decide)).append
            (regular_annotations phrase.annotations)))))
  | struct phrase =>
    exact (Regular.word phrase.word).append ((Regular.name phrase.name).append
      ((Regular.mark phrase.opening (by decide)).append ((regular_fields phrase.fields).append
        ((Regular.mark phrase.closing (by decide)).append
          (regular_annotations phrase.annotations)))))
  | service phrase =>
    exact (Regular.word phrase.word).append ((Regular.name phrase.name).append
      ((Regular.optional fun base _ => (Regular.particle base.particle).append
        (.name base.name)).append ((Regular.mark phrase.opening (by decide)).append
          ((Regular.flatMap fun function _ => function.regular).append
            ((Regular.mark phrase.closing (by decide)).append
              (regular_annotations phrase.annotations))))))

theorem Document.regular (phrase : Document) : Regular phrase.terminals :=
  (Regular.flatMap fun definition _ => definition.regular).append
    (.leaf phrase.ending (by simp [phrase.ending.fits]))

end Phrase

/-! ## Cutting a text in one way -/

/-- A token of this kind is no minus sign and no quotation mark. -/
def Kind.Lone (kind : Kind) : Prop := ∀ mark, kind = .punct mark → IsLone mark

theorem Terminal.Regular.lone {x : Terminal} (h : x.Regular) : ∀ link ∈ x.links, link.kind.Lone := by
  cases x with
  | token link => exact List.forall_mem_singleton.2 fun mark hk => (h mark hk).1
  | name reserved words =>
    intro link hl mark hk
    rcases DottedName.Shaped.dot_or_word h link hl with hd | hw
    · rw [hd] at hk
      cases hk
      decide
    · rw [hk] at hw
      cases hw

/-- Every token of a derivation is one that begins no other. -/
theorem Laid.lone {rest : List Char} {xs : List Terminal} {links : List Link}
    (h : Laid rest xs links) (hxs : Regular xs) : ∀ link ∈ links, link.kind.Lone := by
  induction h with
  | nil => simp
  | gap hk _ ih =>
    refine List.forall_mem_cons.2 ⟨fun mark hmark => ?_, ih hxs⟩
    rw [hmark] at hk
    cases hk
  | terminal _ _ _ ih =>
    obtain ⟨hx, hxs⟩ := List.forall_mem_cons.1 hxs
    exact List.forall_mem_append.2 ⟨hx.lone, ih hxs⟩

section Unique

variable {kind kind' : Kind} {raw raw' tail tail' : List Char}

/-- A string and a number with a sign are told by their first characters from other tokens. -/
theorem Lexeme.IsLexeme.unique_of_not_plain (h : IsLexeme kind raw tail)
    (h' : IsLexeme kind' raw' tail') (hp : ¬ Plain kind raw) (hk' : kind'.Lone)
    (heq : raw ++ tail = raw' ++ tail') : kind = kind' ∧ raw = raw' ∧ tail = tail' := by
  have hend : kind ≠ .endOfInput := by
    rintro rfl
    exact hp ⟨by simp, by simp⟩
  obtain ⟨c, hc, -⟩ := h.spells.exists_opens hend
  have hend' : kind' ≠ .endOfInput := by
    rintro rfl
    have hnil : raw' ++ tail' = [] := by rw [h'.spells.eq_nil, List.nil_append]; exact h'.ends
    rw [← heq, List.append_eq_nil_iff] at hnil
    rw [hnil.1] at hc
    cases hc
  obtain ⟨d, hd, hopens⟩ := h'.spells.exists_opens hend'
  obtain rfl : c = d := by
    have hhead := congrArg List.head? heq
    rw [List.head?_append, List.head?_append, hc, hd] at hhead
    simpa using hhead
  rw [Plain, not_and_or, not_not, Classical.not_imp, not_not] at hp
  rcases hp with rfl | ⟨rfl, hsign⟩
  · obtain ⟨quote, body, htext, hq, hstring⟩ := string_of_isLexeme h
    have hquote : c = quote := by
      have hhead := congrArg List.head? htext
      rw [List.head?_append, hc] at hhead
      simpa using hhead
    rcases hopens.quote_iff.1 (hquote ▸ hq) with rfl | rfl | rfl
    · obtain ⟨quote', body', htext', -, hstring'⟩ := string_of_isLexeme h'
      rw [← heq, htext] at htext'
      cases htext'
      rw [hstring] at hstring'
      obtain ⟨hraw, htail⟩ := List.append_inj heq (congrArg Prod.fst hstring')
      exact ⟨rfl, hraw, htail⟩
    · exact absurd (hk' .quote rfl) (by decide)
    · exact absurd (hk' .apostrophe rfl) (by decide)
  · obtain rfl : c = '-' := Option.some.inj (hc.symm.trans hsign)
    rcases hopens.number_iff.1 (.inl rfl) with rfl | rfl
    · have hlength := signed?_of_isLexeme h hsign
      rw [heq, signed?_of_isLexeme h' hd] at hlength
      obtain ⟨hraw, htail⟩ := List.append_inj heq (Option.some.inj hlength).symm
      exact ⟨rfl, hraw, htail⟩
    · exact absurd (hk' .minus rfl) (by decide)

/-- Where no sign and no quotation mark stands by itself, a text is read in one way only. -/
theorem Lexeme.IsLexeme.unique_of_lone (h : IsLexeme kind raw tail)
    (h' : IsLexeme kind' raw' tail') (hk : kind.Lone) (hk' : kind'.Lone)
    (heq : raw ++ tail = raw' ++ tail') : kind = kind' ∧ raw = raw' ∧ tail = tail' := by
  by_cases hp : Plain kind raw
  · by_cases hp' : Plain kind' raw'
    · exact h.unique_of_plain h' hp hp' heq
    · obtain ⟨hkind, hraw, htail⟩ := h'.unique_of_not_plain h hp' hk heq.symm
      exact ⟨hkind.symm, hraw.symm, htail.symm⟩
  · exact h.unique_of_not_plain h' hp hk' heq

end Unique

/-- Two texts that begin in the same way are cut into the same tokens as far as that is cut alike. -/
theorem Link.Lexed.exists_front {front links : List Link} {rest : List Char}
    (h : Lexed front rest) (hlinks : Lexed links []) (hlone : ∀ link ∈ front, link.kind.Lone)
    (hlone' : ∀ link ∈ links, link.kind.Lone) (hend : ∀ link ∈ front, link.kind ≠ .endOfInput)
    (htext : spelled links = spelled front ++ rest) :
    ∃ front' tail, links = front' ++ tail ∧ front'.map lexeme = front.map lexeme ∧
      spelled tail = rest := by
  induction front generalizing links with
  | nil => exact ⟨[], links, rfl, rfl, htext⟩
  | cons link front ih =>
    obtain ⟨hlink, hlone⟩ := List.forall_mem_cons.1 hlone
    obtain ⟨hne, hend⟩ := List.forall_mem_cons.1 hend
    rw [spelled_cons, List.append_assoc] at htext
    cases links with
    | nil => exact absurd (List.append_eq_nil_iff.1 htext.symm).1 (h.1.spells.ne_nil hne)
    | cons other links =>
      obtain ⟨hother, hlone'⟩ := List.forall_mem_cons.1 hlone'
      rw [spelled_cons] at htext
      have hlex := hlinks.1
      rw [List.append_nil] at hlex
      obtain ⟨hkind, hraw, htail⟩ := hlex.unique_of_lone h.1 hother hlink htext
      obtain ⟨front', tail, hfront', hfront, hspelled⟩ := ih h.2 hlinks.2 hlone hlone' hend htail
      refine ⟨other :: front', tail, by rw [hfront', List.cons_append], ?_, hspelled⟩
      rw [List.map_cons, List.map_cons, hfront, lexeme, lexeme, hkind, String.toList_inj.1 hraw]

/-! ## What follows a dot -/

namespace DottedName

variable {reserved : Bool} {front back : List Link} {dot next : Link}

theorem Tail.word_after_dot {tail : List Link} (h : Tail reserved tail)
    (htail : tail = front ++ dot :: next :: back) (hd : dot.kind = .punct .dot) :
    next.kind.isWord reserved = true := by
  induction h generalizing front with
  | nil => simp at htail
  | dot => cases front <;> simp at htail
  | @word _ word tail _ hw _ ih =>
    match front with
    | [] =>
      cases htail
      exact hw
    | [_] =>
      cases htail
      exact absurd hd (Kind.ne_dot_of_isWord hw)
    | _ :: _ :: front =>
      cases htail
      exact ih rfl

theorem Shaped.word_after_dot {name : DottedName} (h : name.Shaped reserved)
    (hlinks : name.links = front ++ dot :: next :: back) (hd : dot.kind = .punct .dot) :
    next.kind.isWord reserved = true := by
  rcases h.shape with hshape | ⟨hw, hshape⟩
  · exact hshape.word_after_dot hlinks hd
  · cases front with
    | nil =>
      obtain ⟨rfl, -⟩ := List.cons.inj hlinks
      exact absurd hd (Kind.ne_dot_of_isWord hw)
    | cons head front => exact hshape.word_after_dot (List.cons.inj hlinks).2 hd

end DottedName

/-- A token right behind a dot is one that is read as it stands, so no number with a sign. -/
theorem Laid.plain_after_dot {rest : List Char} {xs : List Terminal} {links front back : List Link}
    {dot next : Link} (h : Laid rest xs links) (hxs : Regular xs)
    (hlinks : links = front ++ dot :: next :: back) (hd : dot.kind = .punct .dot) :
    Plain next.kind next.raw.toList := by
  induction h generalizing front with
  | nil => simp at hlinks
  | gap hk _ ih =>
    cases front with
    | nil =>
      cases hlinks
      rw [hd] at hk
      cases hk
    | cons link front => exact ih hxs (List.cons.inj hlinks).2
  | @terminal x xs links _ hends _ ih =>
    obtain ⟨hx, hxs⟩ := List.forall_mem_cons.1 hxs
    rcases List.append_eq_append_iff.1 hlinks with ⟨as, -, hlinks⟩ | ⟨bs, hown, hbs⟩
    · exact ih hxs hlinks
    cases bs with
    | nil => exact ih hxs (show links = [] ++ dot :: next :: back from hbs.symm)
    | cons own bs =>
      obtain rfl : dot = own := (List.cons.inj hbs).1
      cases x with
      | token link =>
        have hmem : dot ∈ (Terminal.token link).links := by simp [hown]
        obtain rfl := List.mem_singleton.1 hmem
        exact absurd rfl (hx .dot hd).2
      | name reserved words =>
        cases bs with
        | cons word bs =>
          obtain rfl : next = word := (List.cons.inj (List.cons.inj hbs).2).1
          exact Kind.plain_of_isWord (hx.word_after_dot hown hd)
        | nil =>
          have hlast : words.last = dot := by
            have := words.getLast?_links
            rw [← Terminal.links_name reserved, hown, List.getLast?_concat] at this
            exact (Option.some.inj this).symm
          unfold Terminal.Ends at hends
          dsimp only at hends
          rw [hlast, if_pos hd] at hends
          obtain ⟨link, tail, rfl, -, hplain⟩ := hends
          obtain rfl : next = link := (List.cons.inj (List.cons.inj hbs).2).1
          exact hplain

end ThriftSyntax
