import ThriftSyntax.Proofs.Lexeme.Scanning

/-!
# First characters

`Opens kind c`: a token of this kind may begin with `c`. The grammar looks ahead by one character
only; the lemmas here say which kinds of token it has told apart by that.
-/

namespace ThriftSyntax.Lexeme

inductive Opens : Kind → Char → Prop where
  | blank (blank : Blank) : Opens (.blank blank) blank.char
  | comment {c : Char} (h : c = '#' ∨ c = '/') : Opens .comment c
  | punct (mark : Punct) : Opens (.punct mark) mark.char
  | word {kind : Kind} {c : Char} (hk : kind.isWord true = true) (hc : startsWord c = true) :
      Opens kind c
  | digit {c : Char} (hc : c.isDigit = true) : Opens .number c
  | sign : Opens .number '-'
  | quote {c : Char} (h : c = '"' ∨ c = '\'') : Opens .string c

variable {kind : Kind} {raw : List Char} {c : Char}

theorem Spells.opens (h : Spells kind raw) (hr : raw.head? = some c) : Opens kind c := by
  cases h with
  | endOfInput => cases hr
  | blank blank =>
    cases hr
    exact .blank blank
  | punct mark =>
    cases hr
    exact .punct mark
  | lineComment ho hb => rcases ho with rfl | rfl <;> (cases hr; exact .comment (by simp))
  | blockComment hb =>
    cases hr
    exact .comment (by simp)
  | keyword word =>
    obtain ⟨d, text, ht, hd, -⟩ := exists_keyword word
    rw [ht] at hr
    cases hr
    exact .word rfl hd
  | ident hc ht hn =>
    cases hr
    exact .word rfl hc
  | integer hs hw =>
    rcases spells_number_cases (.integer hs hw) with ⟨d, tail, hd, hdig⟩ | ⟨d, tail, hd, -⟩ <;>
      (rw [hd] at hr; cases hr)
    · exact .digit hdig
    · exact .sign
  | decimal hs hw hf =>
    rcases spells_number_cases (.decimal hs hw hf) with ⟨d, tail, hd, hdig⟩ | ⟨d, tail, hd, -⟩ <;>
      (rw [hd] at hr; cases hr)
    · exact .digit hdig
    · exact .sign
  | string hq hb =>
    cases hr
    exact .quote hq

/-- Every token but the end of the input has a text. -/
theorem Spells.ne_nil (h : Spells kind raw) (hk : kind ≠ .endOfInput) : raw ≠ [] := by
  cases h with
  | endOfInput => exact absurd rfl hk
  | lineComment ho hb => rcases ho with rfl | rfl <;> simp
  | keyword word => cases word <;> decide
  | integer hs hw => simp [(isDigits_iff.1 hw).1]
  | _ => simp

theorem Spells.exists_opens (h : Spells kind raw) (hk : kind ≠ .endOfInput) :
    ∃ c, raw.head? = some c ∧ Opens kind c := by
  obtain ⟨c, tail, rfl⟩ := List.exists_cons_of_ne_nil (h.ne_nil hk)
  exact ⟨c, rfl, h.opens rfl⟩

/-- A word that is not reserved is an identifier. -/
theorem Spells.eq_ident {word : String} (h : Spells kind word.toList)
    (hk : kind.isWord true = true) (hn : Keyword.ofText? word = none) : kind = .ident := by
  generalize hw : word.toList = text at h
  cases h with
  | ident => rfl
  | keyword other =>
    rw [String.toList_inj.1 hw, Keyword.ofText?_eq_some_iff.2 rfl] at hn
    cases hn
  | _ => cases hk

/-- The marks that begin no token but themselves. -/
def IsLone (mark : Punct) : Prop := mark ≠ .minus ∧ mark ≠ .quote ∧ mark ≠ .apostrophe

instance (mark : Punct) : Decidable (IsLone mark) := inferInstanceAs (Decidable (_ ∧ _))

theorem Opens.eq_punct {mark : Punct} (h : Opens kind mark.char) (hm : IsLone mark) :
    kind = .punct mark := by
  obtain ⟨hminus, hquote, hapostrophe⟩ := hm
  generalize hc : mark.char = c at h
  cases h with
  | blank blank => exact absurd hc.symm (blank_ne_mark blank mark)
  | comment h => rcases h with rfl | rfl <;> cases mark <;> cases hc
  | punct other => rw [mark_injective hc]
  | word hk hw =>
    rw [← hc, startsWord_mark] at hw
    cases hw
  | digit hd =>
    rw [← hc, isDigit_mark] at hd
    cases hd
  | sign => exact absurd (mark_injective (b := .minus) hc) hminus
  | quote h =>
    rcases h with rfl | rfl
    · exact absurd (mark_injective (b := .quote) hc) hquote
    · exact absurd (mark_injective (b := .apostrophe) hc) hapostrophe

theorem Opens.word_iff (h : Opens kind c) : startsWord c = true ↔ kind.isWord true = true := by
  cases h with
  | blank blank => simp [Kind.isWord]
  | comment h => simp [Kind.isWord, startsWord_opening h]
  | punct mark => simp [Kind.isWord]
  | word hk hc => simp [hk, hc]
  | digit hd => simp [Kind.isWord, startsWord_of_isDigit hd]
  | sign => decide
  | quote h => rcases h with rfl | rfl <;> decide

theorem Opens.number_iff (h : Opens kind c) :
    c = '-' ∨ c.isDigit = true ↔ kind = .number ∨ kind = .punct .minus := by
  cases h with
  | blank blank => cases blank <;> simp [Blank.char]
  | comment h => rcases h with rfl | rfl <;> simp
  | punct mark => cases mark <;> simp [Punct.char]
  | word hk hc =>
    constructor
    · rintro (rfl | hd)
      · exact absurd hc (by decide)
      · rw [startsWord_of_isDigit hd] at hc
        cases hc
    · rintro (rfl | rfl) <;> cases hk
  | digit hd => simp [hd]
  | sign => simp
  | quote h => rcases h with rfl | rfl <;> simp

theorem Opens.quote_iff (h : Opens kind c) :
    c = '"' ∨ c = '\'' ↔ kind = .string ∨ kind = .punct .quote ∨ kind = .punct .apostrophe := by
  cases h with
  | blank blank => cases blank <;> simp [Blank.char]
  | comment h => rcases h with rfl | rfl <;> simp
  | punct mark => cases mark <;> simp [Punct.char]
  | word hk hc =>
    constructor
    · rintro (rfl | rfl) <;> exact absurd hc (by decide)
    · rintro (rfl | rfl | rfl) <;> cases hk
  | digit hd =>
    have : c ≠ '"' ∧ c ≠ '\'' := by
      constructor <;> (rintro rfl; exact absurd hd (by decide))
    simp [this]
  | sign => simp
  | quote h => simp [h]

theorem Opens.not_trivia (h : Opens kind c) (hk : kind.isTrivia = false) :
    (∀ blank : Blank, blank.char ≠ c) ∧ c ≠ '#' ∧ c ≠ '/' := by
  cases h with
  | blank blank => cases hk
  | comment h => cases hk
  | punct mark => exact ⟨fun blank => blank_ne_mark blank mark, by cases mark <;> decide,
      by cases mark <;> decide⟩
  | word hw hc =>
    refine ⟨?_, ?_, ?_⟩
    · rintro blank rfl
      simp at hc
    all_goals
      rintro rfl
      exact absurd hc (by decide)
  | digit hd =>
    refine ⟨?_, ?_, ?_⟩
    · rintro blank rfl
      simp at hd
    all_goals
      rintro rfl
      exact absurd hd (by decide)
  | sign => exact ⟨fun blank => by cases blank <;> decide, by decide, by decide⟩
  | quote h =>
    rcases h with rfl | rfl <;>
      exact ⟨fun blank => by cases blank <;> decide, by decide, by decide⟩

/-- One character, or two where it is a slash, tell trivia from other tokens. -/
theorem IsLexeme.startsTrivia_eq {rest : List Char} (h : IsLexeme kind raw rest) :
    startsTrivia (raw ++ rest) = kind.isTrivia := by
  by_cases hk : kind.isTrivia = true
  · rw [hk]
    cases kind with
    | blank blank =>
      cases h.spells
      simp [startsTrivia, Blank.ofChar?_eq_some_iff.2 rfl]
    | comment =>
      have hs := (comment_of_isLexeme h).1
      cases ht : raw ++ rest with
      | nil => simp [ht, startsComment] at hs
      | cons c tail =>
        rw [ht] at hs
        simp [startsTrivia, hs]
    | _ => cases hk
  · rw [Bool.not_eq_true] at hk
    rw [hk]
    by_cases he : kind = .endOfInput
    · subst he
      obtain rfl : rest = [] := h.ends
      cases h.spells
      rfl
    · obtain ⟨c, hc, ho⟩ := h.spells.exists_opens he
      obtain ⟨hb, hx, hy⟩ := ho.not_trivia hk
      obtain ⟨tail, rfl⟩ : ∃ tail, raw = c :: tail := ⟨raw.tail, (List.cons_head?_tail hc).symm⟩
      simp [startsTrivia, blank_eq_none hb, startsComment_eq_false hx hy]

end ThriftSyntax.Lexeme
