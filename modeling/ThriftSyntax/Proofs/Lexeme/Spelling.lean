import ThriftSyntax.Token.Lexeme
import ThriftSyntax.Token.Numeral

/-!
# Spelling of lexemes

`Spells kind raw` says which texts a token of a kind may have, and `EndsBefore kind raw rest` that a
text does not go on where `rest` follows it. Together they are `IsLexeme`: what stands at the front
of `raw ++ rest`, said without a scanner.
-/

namespace ThriftSyntax.Lexeme

/-- `raw` is the text of a token of this kind. -/
inductive Spells : Kind → List Char → Prop where
  | endOfInput : Spells .endOfInput []
  | blank (blank : Blank) : Spells (.blank blank) [blank.char]
  | punct (mark : Punct) : Spells (.punct mark) [mark.char]
  | lineComment {opening body : List Char} (ho : opening = ['#'] ∨ opening = ['/', '/'])
      (hb : ∀ c ∈ body, isLineBreak c = false) : Spells .comment (opening ++ body)
  | blockComment {body : List Char} (hb : ¬ ['*', '/'] <:+: body ++ ['*']) :
      Spells .comment ('/' :: '*' :: (body ++ ['*', '/']))
  | keyword (word : Keyword) : Spells (.keyword word) word.text.toList
  | ident {c : Char} {text : List Char} (hc : startsWord c = true)
      (ht : ∀ d ∈ text, continuesWord d = true)
      (hn : Keyword.ofText? (String.ofList (c :: text)) = none) : Spells .ident (c :: text)
  | integer {sign whole : List Char} (hs : sign = [] ∨ sign = ['-'])
      (hw : Numeral.isDigits whole = true) : Spells .number (sign ++ whole)
  | decimal {sign whole fraction : List Char} (hs : sign = [] ∨ sign = ['-'])
      (hw : Numeral.isDigits whole = true) (hf : Numeral.isDigits fraction = true) :
      Spells .number (sign ++ (whole ++ '.' :: fraction))
  | string {quote : Char} {body : List Char} (hq : quote = '"' ∨ quote = '\'')
      (hb : ∀ c ∈ body, c ≠ quote ∧ isLineBreak c = false) :
      Spells .string (quote :: (body ++ [quote]))

/-- A token with the text `raw` stops where `rest` begins. -/
def EndsBefore (kind : Kind) (raw rest : List Char) : Prop :=
  match kind with
  | .endOfInput => rest = []
  | .ident | .keyword _ => ∀ c ∈ rest.head?, continuesWord c = false
  | .number =>
    (∀ c ∈ rest.head?, c.isDigit = false) ∧
      ('.' ∈ raw ∨ ∀ c text, rest = '.' :: c :: text → c.isDigit = false)
  | .comment => (∃ body, raw = '/' :: '*' :: body) ∨ ∀ c ∈ rest.head?, isLineBreak c = true
  | _ => True

/-- `raw` is the lexeme at the front of `raw ++ rest`. -/
structure IsLexeme (kind : Kind) (raw rest : List Char) : Prop where
  spells : Spells kind raw
  ends : EndsBefore kind raw rest

theorem Spells.eq_nil {raw : List Char} (h : Spells .endOfInput raw) : raw = [] := by
  cases h
  rfl

/-! ## Characters -/

@[simp] theorem startsWord_blank (blank : Blank) : startsWord blank.char = false := by
  cases blank <;> decide

@[simp] theorem startsWord_mark (mark : Punct) : startsWord mark.char = false := by
  cases mark <;> decide

@[simp] theorem isDigit_blank (blank : Blank) : blank.char.isDigit = false := by
  cases blank <;> decide

@[simp] theorem isDigit_mark (mark : Punct) : mark.char.isDigit = false := by
  cases mark <;> decide

theorem blank_ne_mark (blank : Blank) (mark : Punct) : blank.char ≠ mark.char := by
  cases blank <;> cases mark <;> decide

theorem mark_injective {a b : Punct} (h : a.char = b.char) : a = b := by
  have := Punct.ofChar?_eq_some_iff.2 h
  rw [Punct.ofChar?_eq_some_iff.2 rfl] at this
  exact (Option.some.inj this).symm

theorem startsWord_of_isDigit {c : Char} (h : c.isDigit = true) : startsWord c = false := by
  have hc : 48 ≤ c.toNat ∧ c.toNat ≤ 57 := by
    simpa [Char.isDigit, UInt32.le_iff_toNat_le] using h
  have hu : c ≠ '_' := by
    rintro rfl
    exact absurd h (by decide)
  unfold startsWord isAlphabetic CodePointSet.contains CodePointSet.alphabetic
  rw [CodePointSet.covers_cons, if_pos (by omega)]
  simp [hu]
  omega

theorem continuesWord_of_startsWord {c : Char} (h : startsWord c = true) :
    continuesWord c = true := by
  simp only [startsWord, continuesWord, Bool.or_eq_true] at h ⊢
  exact h.imp .inl id

theorem continuesWord_of_isDigit {c : Char} (h : c.isDigit = true) : continuesWord c = true := by
  simp [continuesWord, isNumeric_of_isDigit h]

/-- What a comment or a number begins with begins no word. -/
theorem startsWord_opening {c : Char} (h : c = '#' ∨ c = '/') : startsWord c = false := by
  rcases h with rfl | rfl <;> decide

end ThriftSyntax.Lexeme
