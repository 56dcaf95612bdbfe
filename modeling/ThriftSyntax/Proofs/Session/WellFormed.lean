import ThriftSyntax.Proofs.Completeness.ConstValue
import ThriftSyntax.Proofs.Session.Lexeme

/-!
# Well-formed tokens

What the lexemes of each kind look like, said of the text and the value of a token and of the text that
follows: how it is enclosed or made up, and that it goes on as far as it can. Every token of every
session is one of these.
-/

namespace ThriftSyntax

open Lexeme

namespace Lexeme

/-- Text between two quotation marks of one kind, on one line and without this mark. -/
def IsString (raw value : List Char) : Prop :=
  ∃ quote, (quote = '"' ∨ quote = '\'') ∧ raw = quote :: (value ++ [quote]) ∧
    ∀ c ∈ value, c ≠ quote ∧ c ≠ '\r' ∧ c ≠ '\n'

/-- Text from a number sign or two slashes to the end of the line, or else between a slash and an
asterisk and the first asterisk and slash behind them. -/
def IsComment (raw value rest : List Char) : Prop :=
  (∃ opening, (opening = ['#'] ∨ opening = ['/', '/']) ∧ raw = opening ++ value ∧
    (∀ c ∈ value, c ≠ '\r' ∧ c ≠ '\n') ∧ ∀ c ∈ rest.head?, c = '\r' ∨ c = '\n') ∨
  raw = '/' :: '*' :: (value ++ ['*', '/']) ∧
    ∀ before after, value ++ ['*', '/'] = before ++ '*' :: '/' :: after → after = []

/-- Digits after an optional sign, with no digit behind them, and no point and digit either unless they
have both. -/
def IsNumber (raw rest : List Char) : Prop :=
  ∃ sign whole, (sign = [] ∨ sign = ['-']) ∧ Numeral.isDigits whole = true ∧
    (∀ c ∈ rest.head?, c.isDigit = false) ∧
    (raw = sign ++ whole ∧ (∀ c text, rest = '.' :: c :: text → c.isDigit = false) ∨
      ∃ fraction, Numeral.isDigits fraction = true ∧ raw = sign ++ (whole ++ '.' :: fraction))

/-- A letter or an underscore, and after it letters, digits and underscores as far as they go. -/
def IsWord (raw rest : List Char) : Prop :=
  (∃ c text, raw = c :: text ∧ startsWord c = true ∧ ∀ d ∈ text, continuesWord d = true) ∧
    ∀ c ∈ rest.head?, continuesWord c = false

theorem isLineBreak_eq_false {c : Char} : isLineBreak c = false ↔ c ≠ '\r' ∧ c ≠ '\n' := by
  simp [isLineBreak, and_comm]

/-- Where the end of a block comment stands in it, the comment ends. -/
theorem eq_nil_of_closing {body before after : List Char} (h : ¬ ['*', '/'] <:+: body ++ ['*'])
    (heq : body ++ ['*', '/'] = before ++ '*' :: '/' :: after) : after = [] := by
  by_contra hne
  refine h ⟨before, after.dropLast, ?_⟩
  have hlast := congrArg List.dropLast heq
  rw [List.dropLast_append_of_ne_nil (by simp), List.dropLast_append_of_ne_nil (by simp)] at hlast
  simpa [List.dropLast_cons_of_ne_nil hne, List.dropLast] using hlast.symm

variable {raw rest : List Char}

theorem IsLexeme.isString (h : IsLexeme .string raw rest) : IsString raw raw.tail.dropLast := by
  obtain ⟨hs, -⟩ := h
  cases hs with
  | @string quote body hq hb =>
    have hvalue : (quote :: (body ++ [quote])).tail.dropLast = body := List.dropLast_concat
    rw [hvalue]
    exact ⟨quote, hq, rfl, fun c hc => ⟨(hb c hc).1, isLineBreak_eq_false.1 (hb c hc).2⟩⟩

theorem IsLexeme.isComment (h : IsLexeme .comment raw rest) :
    IsComment raw (Token.commentBody raw) rest := by
  obtain ⟨hs, hends⟩ := h
  cases hs with
  | @lineComment opening body ho hb =>
    have hvalue : Token.commentBody (opening ++ body) = body := by
      rcases ho with rfl | rfl <;> rfl
    have hopen : ¬ ∃ text, opening ++ body = '/' :: '*' :: text := by
      rcases ho with rfl | rfl <;> simp
    rw [hvalue]
    refine .inl ⟨opening, ho, rfl, fun c hc => isLineBreak_eq_false.1 (hb c hc), fun c hc => ?_⟩
    simpa [isLineBreak, or_comm] using hends.resolve_left hopen c hc
  | @blockComment body hb =>
    have hvalue : Token.commentBody ('/' :: '*' :: (body ++ ['*', '/'])) = body := by
      show (body ++ ['*', '/']).dropLast.dropLast = body
      rw [List.dropLast_append_of_ne_nil (by simp)]
      exact List.dropLast_concat
    rw [hvalue]
    exact .inr ⟨rfl, fun before after heq => eq_nil_of_closing hb heq⟩

theorem IsLexeme.isNumber (h : IsLexeme .number raw rest) : IsNumber raw rest := by
  obtain ⟨hs, hdigit, hpoint⟩ := h
  cases hs with
  | @integer sign whole hs hw =>
    have hdot : '.' ∉ sign ++ whole := by
      rcases hs with rfl | rfl <;> simpa using dot_notMem hw
    exact ⟨sign, whole, hs, hw, hdigit, .inl ⟨rfl, hpoint.resolve_left hdot⟩⟩
  | @decimal sign whole fraction hs hw hf =>
    exact ⟨sign, whole, hs, hw, hdigit, .inr ⟨fraction, hf, rfl⟩⟩

/-- A word is of the kind that its spelling says, and goes on as far as words do. -/
theorem IsLexeme.isWord {kind : Kind} (h : IsLexeme kind raw rest) (hk : kind.isWord true = true) :
    kind = .ofWord (String.ofList raw) ∧ IsWord raw rest := by
  obtain ⟨hs, hends⟩ := h
  cases hs with
  | keyword word =>
    obtain ⟨c, text, htext, hc, hall, hkind⟩ := exists_keyword word
    rw [htext]
    exact ⟨hkind.symm, ⟨c, text, rfl, hc, hall⟩, hends⟩
  | @ident c text hc ht hn =>
    exact ⟨by rw [Kind.ofWord, hn], ⟨c, text, rfl, hc, ht⟩, hends⟩
  | _ => cases hk

end Lexeme

/-- The token is a lexeme of its kind, where `rest` follows it in the text. -/
def Token.WellFormed (token : Token) (rest : List Char) : Prop :=
  match token.kind with
  | .endOfInput => token.raw = "" ∧ token.value = "" ∧ rest = []
  | .blank blank => token.raw.toList = [blank.char]
  | .punct mark => token.raw.toList = [mark.char]
  | .string => IsString token.raw.toList token.value.toList
  | .comment => IsComment token.raw.toList token.value.toList rest
  | .number => token.value = token.raw ∧ (Numeral.form? token.raw).isSome = true ∧
      IsNumber token.raw.toList rest
  | .ident | .keyword _ => token.value = token.raw ∧ token.kind = .ofWord token.raw ∧
      IsWord token.raw.toList rest

theorem Token.wellFormed_of_isLexeme {token : Token} {rest : List Char}
    (h : IsLexeme token.kind token.raw.toList rest) : token.WellFormed rest := by
  obtain ⟨kind, raw, place⟩ := token
  obtain ⟨text, rfl⟩ : ∃ text, raw = String.ofList text := ⟨_, String.ofList_toList.symm⟩
  simp only [String.toList_ofList] at h
  unfold WellFormed
  cases kind with
  | endOfInput =>
    rw [h.spells.eq_nil]
    exact ⟨rfl, rfl, h.ends⟩
  | blank blank =>
    cases h.spells
    exact String.toList_ofList
  | punct mark =>
    cases h.spells
    exact String.toList_ofList
  | string => simpa [value] using h.isString
  | comment => simpa [value] using h.isComment
  | number =>
    refine ⟨rfl, Spells.form_isSome ?_, ?_⟩
    all_goals rw [String.toList_ofList]
    · exact h.spells
    · exact h.isNumber
  | ident =>
    obtain ⟨hkind, hword⟩ := h.isWord rfl
    exact ⟨rfl, hkind, by rwa [String.toList_ofList]⟩
  | keyword word =>
    obtain ⟨hkind, hword⟩ := h.isWord rfl
    exact ⟨rfl, hkind, by rwa [String.toList_ofList]⟩

/-- The token stands in the text at the byte it says, and is well formed there. -/
def Token.WellFormedIn (token : Token) (text : List Char) : Prop :=
  ∃ front rest, text = front ++ (token.raw.toList ++ rest) ∧
    token.location.offset = byteSize front ∧ token.WellFormed rest

theorem Reader.Lexes.wellFormed {reader : Reader} {text : List Char} (h : reader.Lexes text) :
    ∀ token ∈ reader.chain.toList, token.WellFormedIn text := by
  intro token hmem
  obtain ⟨rest, ⟨front, htext, hoffset, -⟩, hl⟩ := h.tokens token hmem
  exact ⟨front, rest, htext, hoffset, Token.wellFormed_of_isLexeme hl⟩

/-- Whatever is asked of a reader or called upon a parser, also after errors: every token is a lexeme of
its kind and goes on as far as it can. -/
theorem tokens_wellFormed (text : String) :
    (∀ requests, ∀ token ∈ (Request.session text requests).2.chain.toList,
      token.WellFormedIn text.toList) ∧
    ∀ calls, ∀ token ∈ (Call.resume calls (.ofText text.toList)).chain.toList,
      token.WellFormedIn text.toList :=
  ⟨fun requests => (Request.session_lexes text requests).1.wellFormed,
    fun calls => (Call.resume_lexes text calls).wellFormed⟩

/-- A number ends before a second point, a comment after its opening not before a slash, and behind a
string that was left open a string may be read. -/
theorem tokens_wellFormed_mixed :
    (Request.session "-1.2.3/*/*/'x\n''" [.takeNumber, .take, .take, .take, .takeString,
        .takeString]).2.chain.toList =
      [⟨.number, "-1.2", ⟨0, 1, 1⟩⟩, ⟨.punct .dot, ".", ⟨4, 1, 5⟩⟩, ⟨.number, "3", ⟨5, 1, 6⟩⟩,
        ⟨.comment, "/*/*/", ⟨6, 1, 7⟩⟩, ⟨.string, "''", ⟨14, 2, 1⟩⟩] ∧
    Token.WellFormedIn ⟨.comment, "/*/*/", ⟨6, 1, 7⟩⟩ "-1.2.3/*/*/'x\n''".toList := by
  have hchain : (Request.session "-1.2.3/*/*/'x\n''" [.takeNumber, .take, .take, .take, .takeString,
        .takeString]).2.chain.toList =
      [⟨.number, "-1.2", ⟨0, 1, 1⟩⟩, ⟨.punct .dot, ".", ⟨4, 1, 5⟩⟩, ⟨.number, "3", ⟨5, 1, 6⟩⟩,
        ⟨.comment, "/*/*/", ⟨6, 1, 7⟩⟩, ⟨.string, "''", ⟨14, 2, 1⟩⟩] := by decide +kernel
  exact ⟨hchain, (tokens_wellFormed "-1.2.3/*/*/'x\n''").1 _ _ (by rw [hchain]; simp)⟩

end ThriftSyntax
