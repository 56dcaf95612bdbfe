import ThriftSyntax.Proofs.Lexeme.Opening

/-!
# Where no lexeme stands

The two reasons for which the front of a text is no lexeme: a character that begins none, and a comment
that is not closed.
-/

namespace ThriftSyntax.Lexeme

variable {kind : Kind} {raw rest : List Char} {c : Char}

/-- The text begins with a character that begins no lexeme. -/
structure Stray (c : Char) (rest : List Char) : Prop where
  head : rest.head? = some c
  comment : startsComment rest = false
  blank : ∀ blank : Blank, blank.char ≠ c
  mark : ∀ mark : Punct, mark.char ≠ c
  digit : c.isDigit = false
  word : startsWord c = false

theorem commentEnd?_eq_none {body : List Char} {passed : Nat} (h : commentEnd? passed body = none) :
    ¬ ['*', '/'] <:+: body := by
  fun_induction commentEnd? passed body with
  | case1 => simp
  | case2 => cases h
  | case3 passed c text hclosing ih =>
    rw [List.infix_cons_iff, not_or]
    refine ⟨?_, ih h⟩
    rintro ⟨tail, heq⟩
    obtain ⟨rfl, rfl⟩ := List.cons.inj heq
    exact hclosing tail rfl rfl

theorem comment_eq_error {fault : Fault} (hc : startsComment rest = true)
    (h : comment rest = .error fault) : fault = .unterminatedComment ∧
      ∃ body, rest = '/' :: '*' :: body ∧ ¬ ['*', '/'] <:+: body := by
  rcases startsComment_cases hc with ⟨_, tail, rfl, rfl | rfl⟩ | ⟨body, rfl⟩
  · cases h
  · cases h
  · unfold comment at h
    cases hend : commentEnd? 2 body with
    | some length => simp [hend] at h
    | none =>
      simp only [hend, Except.error.injEq] at h
      exact ⟨h.symm, body, rfl, commentEnd?_eq_none hend⟩

theorem first_of_stray (h : Stray c rest) : first rest = .error (.unexpectedCharacter c) := by
  obtain ⟨text, rfl⟩ := List.head?_eq_some_iff.1 h.head
  simp only [first, blank_eq_none h.blank, h.comment, mark_eq_none h.mark, h.digit, h.word,
    Bool.false_eq_true, if_false]

theorem first_eq_error {fault : Fault} (h : first rest = .error fault) :
    (∃ c, fault = .unexpectedCharacter c ∧ Stray c rest) ∨
      fault = .unterminatedComment ∧ ∃ body, rest = '/' :: '*' :: body ∧ ¬ ['*', '/'] <:+: body := by
  cases rest with
  | nil => cases h
  | cons c text =>
    by_cases hblank : ∃ blank : Blank, blank.char = c
    · obtain ⟨blank, rfl⟩ := hblank
      rw [first_blank] at h
      cases h
    by_cases hmark : ∃ mark : Punct, mark.char = c
    · obtain ⟨mark, rfl⟩ := hmark
      rw [first_mark] at h
      cases h
    by_cases hdigit : c.isDigit = true
    · rw [first_digit hdigit] at h
      cases h
    by_cases hword : startsWord c = true
    · rw [first_word hword] at h
      cases h
    rw [not_exists] at hblank hmark
    by_cases hcomment : startsComment (c :: text) = true
    · refine .inr (comment_eq_error hcomment ?_)
      cases hres : comment (c :: text) <;>
        simp_all [first, blank_eq_none hblank, Except.map]
    · have hstray : Stray c (c :: text) :=
        ⟨rfl, by simpa using hcomment, hblank, hmark, by simpa using hdigit, by simpa using hword⟩
      rw [first_of_stray hstray, Except.error.injEq] at h
      exact .inl ⟨c, h.symm, hstray⟩

/-- A comment spelled at the front of a text begins there. -/
theorem Spells.startsComment (h : Spells .comment raw) (hr : raw <+: rest) :
    Lexeme.startsComment rest = true := by
  obtain ⟨tail, rfl⟩ := hr
  cases h with
  | lineComment ho => rcases ho with rfl | rfl <;> rfl
  | blockComment => rfl

/-- Whatever begins like a stray character is none of the lexemes. -/
theorem Stray.eq_nil (h : Stray c rest) (hr : raw <+: rest) (hs : Spells kind raw) : raw = [] := by
  by_contra hne
  obtain ⟨d, tail, rfl⟩ := List.exists_cons_of_ne_nil hne
  obtain ⟨text, rfl⟩ := List.head?_eq_some_iff.1 h.head
  obtain rfl : d = c := (List.cons_prefix_cons.1 hr).1
  cases hs.opens rfl with
  | blank blank => exact h.blank blank rfl
  | comment => cases h.comment.symm.trans (hs.startsComment hr)
  | punct mark => exact h.mark mark rfl
  | word _ hc => cases h.word.symm.trans hc
  | digit hc => cases h.digit.symm.trans hc
  | sign => exact h.mark .minus rfl
  | quote hq => rcases hq with rfl | rfl <;> [exact h.mark .quote rfl; exact h.mark .apostrophe rfl]

/-- A token that is neither a blank nor a comment does not begin like one. -/
theorem Spells.startsTrivia_eq_false (h : Spells kind raw) (hk : kind.isTrivia = false)
    (hne : kind ≠ .endOfInput) (rest : List Char) : startsTrivia (raw ++ rest) = false := by
  obtain ⟨c, hc, ho⟩ := h.exists_opens hne
  obtain ⟨hblank, hhash, hslash⟩ := ho.not_trivia hk
  obtain ⟨tail, rfl⟩ := List.head?_eq_some_iff.1 hc
  rw [List.cons_append, startsTrivia, blank_eq_none hblank, startsComment_eq_false hhash hslash]
  rfl

end ThriftSyntax.Lexeme
