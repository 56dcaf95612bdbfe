import ThriftSyntax.Proofs.Errors.Exchange
import ThriftSyntax.Proofs.Naming

/-!
# The longest name at the front of a text

A name at the front of a text is a dot alone or a qualified name of which the last word is not cut off.
The longest one is found word by word: it goes on behind a word if a dot comes next, and behind a dot
if a word does.
-/

namespace ThriftSyntax.Lexeme

variable {reserved : Bool} {kind : Kind} {raw word word' text text' more more' tail tail' : List Char}

/-- A word before this text is not cut off. -/
def WordEnds (tail : List Char) : Prop := ∀ c ∈ tail.head?, continuesWord c = false

/-- A word that may stand in a name is at the front of the text, up to where words end. -/
def OpensWord (reserved : Bool) (text : List Char) : Prop :=
  ∃ word tail, text = word ++ tail ∧ IsNameWord reserved (String.ofList word) ∧ WordEnds tail

/-- Such a word or a dot is at the front of the text. -/
def OpensName (reserved : Bool) (text : List Char) : Prop :=
  OpensWord reserved text ∨ text.head? = some '.'

/-- A dot alone or a qualified name is what stands before `tail`, and its last word ends there. -/
structure IsNameAt (reserved : Bool) (name tail : List Char) : Prop where
  shape : name = ['.'] ∨ IsQualified reserved (String.ofList name)
  ends : name.getLast? ≠ some '.' → WordEnds tail

/-- No longer name is at the front of the same text. -/
structure IsLongestName (reserved : Bool) (name tail : List Char) : Prop
    extends IsNameAt reserved name tail where
  longest : ∀ other rest, name ++ tail = other ++ rest → IsNameAt reserved other rest →
    other.length ≤ name.length

/-! ## Words -/

theorem wordEnds_dot (text : List Char) : WordEnds ('.' :: text) := by
  rintro _ ⟨⟩
  decide

theorem IsNameWord.exists_cons (h : IsNameWord reserved (String.ofList word)) :
    ∃ c text, word = c :: text ∧ startsWord c = true := by
  obtain ⟨c, hc, hstarts⟩ := h.exists_startsWord
  rw [String.toList_ofList] at hc
  obtain ⟨text, rfl⟩ := List.head?_eq_some_iff.1 hc
  exact ⟨c, text, rfl, hstarts⟩

/-- No word begins with a dot. -/
theorem IsNameWord.head_ne (h : IsNameWord reserved (String.ofList word)) {front : List Char}
    (hdot : front.head? = some '.') : (front ++ tail).head? ≠ (word ++ more ++ tail').head? := by
  obtain ⟨c, text, rfl, hc⟩ := h.exists_cons
  obtain ⟨front, rfl⟩ := List.head?_eq_some_iff.1 hdot
  rintro ⟨⟩
  exact absurd hc (by decide)

/-- A word is made of characters that words go on with. -/
theorem IsNameWord.continues (h : IsNameWord reserved (String.ofList word)) :
    ∀ c ∈ word, continuesWord c = true := by
  rcases h with h | ⟨-, keyword, h⟩
  · rw [String.toList_ofList] at h
    cases h with
    | ident hc ht => exact List.forall_mem_cons.2 ⟨continuesWord_of_startsWord hc, ht⟩
  · obtain ⟨c, text, htext, hc, hall, -⟩ := exists_keyword keyword
    obtain rfl : word = c :: text := by rw [← htext, ← h, String.toList_ofList]
    exact List.forall_mem_cons.2 ⟨continuesWord_of_startsWord hc, hall⟩

/-- Whether a name ends with a dot is for what follows a word to say. -/
theorem IsNameWord.getLast?_append (h : IsNameWord reserved (String.ofList word)) (front : List Char) :
    (front ++ (word ++ more)).getLast? = some '.' ↔ more.getLast? = some '.' := by
  obtain ⟨c, text, rfl, -⟩ := h.exists_cons
  rw [List.getLast?_append_of_ne_nil _ (by simp)]
  cases more with
  | nil =>
    rw [List.append_nil]
    refine iff_of_false (fun hlast => ?_) (by simp)
    exact absurd (h.continues '.' (List.mem_of_getLast? hlast)) (by decide)
  | cons d more => rw [List.getLast?_append_of_ne_nil _ (by simp)]

theorem IsNameWord.unique (h : IsNameWord reserved (String.ofList word))
    (h' : IsNameWord reserved (String.ofList word')) (hends : WordEnds tail) (hends' : WordEnds tail')
    (heq : word ++ tail = word' ++ tail') : word = word' ∧ tail = tail' := by
  refine List.append_inj heq ?_
  rw [← run_append h.continues hends, heq, run_append h'.continues hends']

/-- The word is a lexeme where words end behind it. -/
theorem IsNameWord.exists_lexeme (h : IsNameWord reserved (String.ofList word)) (hends : WordEnds tail) :
    ∃ kind, kind.isWord reserved = true ∧ IsLexeme kind word tail := by
  rcases h with h | ⟨rfl, keyword, h⟩
  · rw [String.toList_ofList] at h
    exact ⟨.ident, rfl, h, hends⟩
  · obtain rfl : word = keyword.text.toList := by rw [← h, String.toList_ofList]
    exact ⟨.keyword keyword, rfl, .keyword keyword, hends⟩

theorem isNameWord_of_isWord (hk : kind.isWord reserved = true) (hs : Spells kind raw) :
    IsNameWord reserved (String.ofList raw) := by
  have hspells : Spells (Link.mk 0 ⟨kind, String.ofList raw, .start⟩).kind
      (Link.mk 0 ⟨kind, String.ofList raw, .start⟩).raw.toList := by
    simpa [Link.kind, Link.raw] using hs
  exact DottedName.isNameWord_raw hk hspells

theorem IsLexeme.wordEnds (h : IsLexeme kind raw tail) (hk : kind.isWord reserved = true) :
    WordEnds tail := by
  have hends := h.ends
  cases kind <;> first | exact hends | cases hk

/-- The kind of a lexeme tells whether a word is at the front. -/
theorem IsLexeme.opensWord_iff (h : IsLexeme kind raw tail) :
    OpensWord reserved (raw ++ tail) ↔ kind.isWord reserved = true := by
  constructor
  · rintro ⟨word, rest, heq, hword, hends⟩
    obtain ⟨kind', hk', hl'⟩ := hword.exists_lexeme hends
    obtain ⟨c, text, rfl, hc⟩ := hword.exists_cons
    have hne : kind ≠ .endOfInput := by
      rintro rfl
      rw [h.spells.eq_nil, show tail = [] from h.ends] at heq
      cases heq
    obtain ⟨d, front, hraw⟩ := List.exists_cons_of_ne_nil (h.spells.ne_nil hne)
    obtain rfl : d = c := by
      rw [hraw] at heq
      exact (List.cons.inj heq).1
    have hopens := h.spells.opens (c := d) (by rw [hraw]; rfl)
    have hplain : Plain kind raw := Kind.plain_of_isWord (hopens.word_iff.1 hc)
    obtain ⟨rfl, -, -⟩ := h.unique_of_plain hl' hplain (Kind.plain_of_isWord hk') heq
    exact hk'
  · intro hk
    exact ⟨raw, tail, rfl, isNameWord_of_isWord hk h.spells, h.wordEnds hk⟩

theorem not_opensWord_of_error {fault : Fault} (h : first text = .error fault) :
    ¬ OpensWord reserved text := by
  rintro ⟨word, tail, rfl, hword, hends⟩
  obtain ⟨kind, hk, hl⟩ := hword.exists_lexeme hends
  cases h.symm.trans (first_of_isLexeme hl (Kind.plain_of_isWord hk))

/-- The kind of a lexeme tells whether a name is at the front. -/
theorem IsLexeme.opensName_iff (h : IsLexeme kind raw tail) :
    OpensName reserved (raw ++ tail) ↔ kind.isWord reserved = true ∨ kind = .punct .dot := by
  refine or_congr h.opensWord_iff ⟨fun hdot => ?_, ?_⟩
  · have hne : kind ≠ .endOfInput := by
      rintro rfl
      rw [h.spells.eq_nil, show tail = [] from h.ends] at hdot
      cases hdot
    obtain ⟨c, front, hraw⟩ := List.exists_cons_of_ne_nil (h.spells.ne_nil hne)
    rw [hraw] at hdot
    obtain rfl : c = '.' := Option.some.inj hdot
    have hopens : Opens kind Punct.dot.char := h.spells.opens (by rw [hraw]; rfl)
    exact hopens.eq_punct (by decide)
  · rintro rfl
    cases h.spells
    rfl

theorem not_opensName_of_error {fault : Fault} (h : first text = .error fault) :
    ¬ OpensName reserved text := by
  rintro (hword | hdot)
  · exact not_opensWord_of_error h hword
  · obtain ⟨tail, rfl⟩ := List.head?_eq_some_iff.1 hdot
    cases h.symm.trans (@first_mark .dot tail)

theorem not_opensName_nil : ¬ OpensName reserved [] := by
  have hend : IsLexeme .endOfInput [] [] := ⟨.endOfInput, rfl⟩
  exact mt hend.opensName_iff.1 (by simp [Kind.isWord])

/-! ## Behind a word -/

/-- What may follow a word of a name that ends before `tail`. -/
inductive NameRest (reserved : Bool) : List Char → List Char → Prop
  | nil {tail : List Char} (h : WordEnds tail) : NameRest reserved [] tail
  | dot (tail : List Char) : NameRest reserved ['.'] tail
  | word {word more tail : List Char} (hw : IsNameWord reserved (String.ofList word))
      (h : NameRest reserved more tail) : NameRest reserved ('.' :: (word ++ more)) tail

namespace NameRest

theorem wordEnds (h : NameRest reserved more tail) : WordEnds (more ++ tail) := by
  cases h with
  | nil h => exact h
  | dot => exact wordEnds_dot _
  | word => exact wordEnds_dot _

theorem head_eq (h : NameRest reserved more tail) (hne : more ≠ []) : more.head? = some '.' := by
  cases h with
  | nil => exact absurd rfl hne
  | dot | word => rfl

/-- A word and what follows it are words joined by dots, and perhaps one more dot. -/
theorem exists_qualified (h : NameRest reserved more tail)
    (hw : IsNameWord reserved (String.ofList word)) :
    ∃ words trail, trail ∈ ["", "."] ∧
      (∀ other ∈ String.ofList word :: words, IsNameWord reserved other) ∧
      String.ofList (word ++ more) = qualified (String.ofList word) words ++ trail := by
  induction h generalizing word with
  | nil => exact ⟨[], "", by simp, by simpa using hw, by simp [qualified]⟩
  | dot => exact ⟨[], ".", by simp, by simpa using hw, by simp [qualified]⟩
  | @word next more tail hnext _ ih =>
    obtain ⟨words, trail, htrail, hwords, heq⟩ := ih hnext
    refine ⟨String.ofList next :: words, trail, htrail, List.forall_mem_cons.2 ⟨hw, hwords⟩, ?_⟩
    rw [qualified_cons, String.append_assoc, String.append_assoc, ← heq]
    simp

/-- The last word of a name ends before what follows the name. -/
theorem wordEnds_tail (h : NameRest reserved more tail) (front : List Char)
    (hlast : (front ++ more).getLast? ≠ some '.') : WordEnds tail := by
  induction h generalizing front with
  | nil h => exact h
  | dot => simp at hlast
  | @word next more tail hnext _ ih => exact ih (front ++ '.' :: next) (by simpa using hlast)

end NameRest

theorem qualified_ne_nil {first : String} {words : List String}
    (hwords : ∀ other ∈ first :: words, IsNameWord reserved other) :
    (qualified first words).toList ≠ [] := by
  have hq : IsQualified reserved (qualified first words) :=
    ⟨"", first, words, "", by simp, by simp, hwords, by simp⟩
  simpa using hq.ne.1

/-- Words joined by dots end with a word. -/
theorem getLast?_qualified {first : String} {words : List String}
    (hwords : ∀ other ∈ first :: words, IsNameWord reserved other) :
    ∀ c ∈ (qualified first words).toList.getLast?, continuesWord c = true := by
  induction words generalizing first with
  | nil =>
    intro c hc
    have hfirst := hwords first List.mem_cons_self
    rw [← String.ofList_toList (s := first)] at hfirst
    exact hfirst.continues c (List.mem_of_getLast? (by simpa [qualified] using hc))
  | cons second words ih =>
    obtain ⟨-, hwords⟩ := List.forall_mem_cons.1 hwords
    have hne := qualified_ne_nil hwords
    rw [qualified_cons, String.toList_append, String.toList_append,
      List.getLast?_append_of_ne_nil _ (List.append_ne_nil_of_right_ne_nil _ hne),
      List.getLast?_append_of_ne_nil _ hne]
    exact ih hwords

/-- Words joined by dots, and perhaps one more dot, are a word and what follows it. -/
theorem exists_nameRest {first : String} {words : List String} {trail : String}
    (hwords : ∀ other ∈ first :: words, IsNameWord reserved other) (htrail : trail ∈ ["", "."])
    (hends : trail = "" → WordEnds tail) :
    ∃ more, (qualified first words ++ trail).toList = first.toList ++ more ∧
      NameRest reserved more tail := by
  induction words generalizing first with
  | nil =>
    obtain rfl | rfl : trail = "" ∨ trail = "." := by simpa using htrail
    · exact ⟨[], by simp [qualified], .nil (hends rfl)⟩
    · exact ⟨['.'], by simp [qualified], .dot tail⟩
  | cons second words ih =>
    obtain ⟨-, hwords⟩ := List.forall_mem_cons.1 hwords
    obtain ⟨more, heq, hmore⟩ := ih hwords
    refine ⟨'.' :: (second.toList ++ more), ?_, .word ?_ hmore⟩
    · rw [qualified_cons, String.append_assoc, String.append_assoc, String.toList_append,
        String.toList_append, heq]
      rfl
    · rw [String.ofList_toList]
      exact (List.forall_mem_cons.1 hwords).1

/-! ## Names -/

theorem isNameAt_of_rest (h : NameRest reserved more tail) (hne : more ≠ []) :
    IsNameAt reserved more tail where
  shape := by
    cases h with
    | nil => exact absurd rfl hne
    | dot => exact .inl rfl
    | word hw h =>
      obtain ⟨words, trail, htrail, hwords, heq⟩ := h.exists_qualified hw
      refine .inr ⟨".", _, words, trail, by simp, htrail, hwords, ?_⟩
      rw [String.append_assoc, ← heq]
      simp
  ends hlast := h.wordEnds_tail [] hlast

theorem isNameAt_of_word (hw : IsNameWord reserved (String.ofList word))
    (h : NameRest reserved more tail) : IsNameAt reserved (word ++ more) tail where
  shape := by
    obtain ⟨words, trail, htrail, hwords, heq⟩ := h.exists_qualified hw
    exact .inr ⟨"", _, words, trail, by simp, htrail, hwords, by simpa using heq⟩
  ends := h.wordEnds_tail word

/-- A name is a word and what may follow it, or what may follow a word. -/
theorem IsNameAt.cases {name : List Char} (h : IsNameAt reserved name tail) :
    (NameRest reserved name tail ∧ name ≠ []) ∨ ∃ word more, name = word ++ more ∧
      IsNameWord reserved (String.ofList word) ∧ NameRest reserved more tail := by
  rcases h.shape with rfl | ⟨lead, first, words, trail, hlead, htrail, hwords, heq⟩
  · exact .inl ⟨.dot tail, by simp⟩
  have hname : name = lead.toList ++ (qualified first words ++ trail).toList := by
    rw [← String.toList_append, ← String.append_assoc, ← heq, String.toList_ofList]
  have hends : trail = "" → WordEnds tail := by
    rintro rfl
    refine h.ends fun hlast => ?_
    rw [hname, String.append_empty,
      List.getLast?_append_of_ne_nil _ (qualified_ne_nil hwords)] at hlast
    exact absurd (getLast?_qualified hwords '.' hlast) (by decide)
  obtain ⟨more, hmore, hrest⟩ := exists_nameRest hwords htrail hends
  have hfirst := (List.forall_mem_cons.1 hwords).1
  rw [← String.ofList_toList (s := first)] at hfirst
  obtain rfl | rfl : lead = "" ∨ lead = "." := by simpa using hlead
  · exact .inr ⟨first.toList, more, by simp [hname, hmore], hfirst, hrest⟩
  · have hdot : name = '.' :: (first.toList ++ more) := by simp [hname, hmore]
    exact .inl ⟨hdot ▸ .word hfirst hrest, by simp [hdot]⟩

theorem IsNameAt.opensName {name : List Char} (h : IsNameAt reserved name tail) :
    OpensName reserved (name ++ tail) := by
  rcases h.cases with ⟨hrest, hne⟩ | ⟨word, more, rfl, hw, hrest⟩
  · obtain ⟨front, rfl⟩ := List.head?_eq_some_iff.1 (hrest.head_eq hne)
    exact .inr rfl
  · exact .inl ⟨word, more ++ tail, List.append_assoc .., hw, hrest.wordEnds⟩

/-! ## The longest name -/

theorem IsLongestName.unique {name name' : List Char} (h : IsLongestName reserved name tail)
    (h' : IsLongestName reserved name' tail') (heq : name ++ tail = name' ++ tail') :
    name = name' ∧ tail = tail' :=
  List.append_inj heq (Nat.le_antisymm (h'.longest name tail heq.symm h.toIsNameAt)
    (h.longest name' tail' heq h'.toIsNameAt))

/-- No longer rest of a name is at the front of the same text. -/
structure IsLongestRest (reserved : Bool) (more tail : List Char) : Prop where
  rest : NameRest reserved more tail
  longest : ∀ other rest, more ++ tail = other ++ rest → NameRest reserved other rest →
    other.length ≤ more.length

namespace IsLongestRest

theorem nil (hdot : tail.head? ≠ some '.') (h : WordEnds tail) : IsLongestRest reserved [] tail where
  rest := .nil h
  longest other rest heq hother := by
    by_contra hlong
    have hhead := hother.head_eq (List.ne_nil_of_length_pos (Nat.lt_of_not_le hlong))
    refine hdot ?_
    rw [List.nil_append] at heq
    rw [heq, List.head?_append, hhead]
    rfl

theorem dot (h : ¬ OpensWord reserved tail) : IsLongestRest reserved ['.'] tail where
  rest := .dot tail
  longest other rest heq hother := by
    cases hother with
    | nil => simp
    | dot => simp
    | @word word more _ hw hmore =>
      refine absurd ⟨word, more ++ rest, ?_, hw, hmore.wordEnds⟩ h
      simpa using heq

theorem cons (hw : IsNameWord reserved (String.ofList word)) (h : IsLongestRest reserved more tail) :
    IsLongestRest reserved ('.' :: (word ++ more)) tail where
  rest := .word hw h.rest
  longest other rest heq hother := by
    cases hother with
    | nil => simp
    | dot => simp
    | @word word' more' _ hw' hmore' =>
      obtain ⟨rfl, hbehind⟩ := hw.unique hw' h.rest.wordEnds hmore'.wordEnds (by simpa using heq)
      have := h.longest more' rest hbehind hmore'
      simpa using this

/-- A rest of a name that begins with a dot is a name. -/
theorem isLongestName (h : IsLongestRest reserved more tail) (hne : more ≠ []) :
    IsLongestName reserved more tail where
  toIsNameAt := isNameAt_of_rest h.rest hne
  longest other rest heq hother := by
    rcases hother.cases with ⟨hother, -⟩ | ⟨word, more', rfl, hw, -⟩
    · exact h.longest other rest heq hother
    · exact absurd (congrArg List.head? heq) (hw.head_ne (h.rest.head_eq hne))

theorem isLongestName_word (hw : IsNameWord reserved (String.ofList word))
    (h : IsLongestRest reserved more tail) : IsLongestName reserved (word ++ more) tail where
  toIsNameAt := isNameAt_of_word hw h.rest
  longest other rest heq hother := by
    rcases hother.cases with ⟨hother, hne⟩ | ⟨word', more', rfl, hw', hmore'⟩
    · exact absurd (congrArg List.head? heq.symm) (hw.head_ne (hother.head_eq hne))
    · obtain ⟨rfl, hbehind⟩ := hw.unique hw' h.rest.wordEnds hmore'.wordEnds (by simpa using heq)
      have := h.longest more' rest hbehind hmore'
      simpa using this

end IsLongestRest

end ThriftSyntax.Lexeme
