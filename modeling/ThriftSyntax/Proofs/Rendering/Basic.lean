import ThriftSyntax.Proofs.Errors.Exchange
import ThriftSyntax.Proofs.Relabel

/-!
# Renderings of constant values

What texts a constant value may be written as, said of their characters alone: no token, phrase or
action is mentioned. A rendering ends where the text goes on with `rest`, so that a number and a name
are cut off where they could be longer, and with them whatever they are the end of.
-/

namespace ThriftSyntax

open Lexeme

/-- Words that are not reserved, joined by single dots. -/
inductive IsReference : List Char → Prop
  | word {word : List Char} (h : Spells .ident word) : IsReference word
  | dotted {word text : List Char} (hw : Spells .ident word) (h : IsReference text) :
      IsReference (word ++ '.' :: text)

/-- A comma or a semicolon after blanks and comments, or nothing. -/
inductive IsSeparator : List Char → Prop
  | absent : IsSeparator []
  | mark {gap : List Char} {c : Char} (hgap : IsTrivia gap) (hc : c = ',' ∨ c = ';') :
      IsSeparator (gap ++ [c])

namespace ConstValue

section
variable (Spans : Span → List Char → List Char → Prop)

mutual

/-- The value is written as `raw` where `rest` follows. What its span has to do with that, and those of
the values within it, is for `Spans` to say. -/
inductive RendersWith : ConstValue → List Char → List Char → Prop
  | number {raw rest : List Char} {span : Span} (h : IsLexeme .number raw rest)
      (hspan : Spans span raw rest) :
      RendersWith (scalar (if '.' ∈ raw then .decimal else .integer) (String.ofList raw) span) raw rest
  | string {quote : Char} {body rest : List Char} {span : Span} (hq : quote = '"' ∨ quote = '\'')
      (hb : ∀ c ∈ body, c ≠ quote ∧ isLineBreak c = false)
      (hspan : Spans span (quote :: (body ++ [quote])) rest) :
      RendersWith (scalar .string (String.ofList body) span) (quote :: (body ++ [quote])) rest
  | name {raw rest : List Char} {span : Span} (h : IsReference raw)
      (hrest : ∀ c ∈ rest.head?, continuesWord c = false ∧ c ≠ '.') (hspan : Spans span raw rest) :
      RendersWith (scalar .name (String.ofList raw) span) raw rest
  | list {items : List ConstValue} {text rest : List Char} {span : Span}
      (h : RendersItems items text rest) (hspan : Spans span ('[' :: text) rest) :
      RendersWith (list items span) ('[' :: text) rest
  | map {entries : List (ConstValue × ConstValue)} {text rest : List Char} {span : Span}
      (h : RendersEntries entries text rest) (hspan : Spans span ('\x7b' :: text) rest) :
      RendersWith (map entries span) ('\x7b' :: text) rest

/-- The items of a list and the bracket that closes it. -/
inductive RendersItems : List ConstValue → List Char → List Char → Prop
  | nil {gap rest : List Char} (hgap : IsTrivia gap) : RendersItems [] (gap ++ [']']) rest
  | cons {item : ConstValue} {items : List ConstValue} {gap raw separator text rest : List Char}
      (hgap : IsTrivia gap) (hitem : RendersWith item raw (separator ++ (text ++ rest)))
      (hseparator : IsSeparator separator) (h : RendersItems items text rest) :
      RendersItems (item :: items) (gap ++ (raw ++ (separator ++ text))) rest

/-- The entries of a map and the brace that closes it. -/
inductive RendersEntries : List (ConstValue × ConstValue) → List Char → List Char → Prop
  | nil {gap rest : List Char} (hgap : IsTrivia gap) : RendersEntries [] (gap ++ ['\x7d']) rest
  | cons {key value : ConstValue} {entries : List (ConstValue × ConstValue)}
      {gap gap' gap'' raw raw' separator text rest : List Char} (hgap : IsTrivia gap)
      (hkey : RendersWith key raw (gap' ++ ':' :: (gap'' ++ (raw' ++ (separator ++ (text ++ rest))))))
      (hgap' : IsTrivia gap') (hgap'' : IsTrivia gap'')
      (hvalue : RendersWith value raw' (separator ++ (text ++ rest)))
      (hseparator : IsSeparator separator) (h : RendersEntries entries text rest) :
      RendersEntries ((key, value) :: entries)
        (gap ++ (raw ++ (gap' ++ ':' :: (gap'' ++ (raw' ++ (separator ++ text)))))) rest

end

end

/-- The value is written as `raw` where `rest` follows, whatever its span. -/
abbrev Renders (value : ConstValue) (raw rest : List Char) : Prop :=
  value.RendersWith (fun _ _ _ => True) raw rest

/-- What a value says, apart from where its tokens are. -/
def forget (value : ConstValue) : ConstValue := value.relabel fun _ => 0

end ConstValue

/-! ## Where trivia ends -/

/-- Tokens that are trivia, before one that is not, are trivia as a text. -/
theorem Link.Lexed.isTrivia {gap : List Link} {rest : List Char} (hlexed : Lexed gap rest)
    (hgap : IsGap gap) (hrest : ∃ c ∈ rest.head?, isLineBreak c = false) :
    IsTrivia (spelled gap) := by
  induction gap with
  | nil => exact .nil
  | cons link gap ih =>
    obtain ⟨⟨hspells, hends⟩, hlexed⟩ := hlexed
    obtain ⟨hk, hgap⟩ := isGap_cons.1 hgap
    have ih := ih hlexed hgap
    rw [spelled_cons]
    generalize hraw : link.raw.toList = raw at hspells hends
    generalize link.kind = kind at hk hspells hends
    cases hspells with
    | blank blank => exact .blank blank ih
    | blockComment hb => exact .block hb ih
    | @lineComment opening body ho hb =>
      have hbreak : ∀ c ∈ (spelled gap ++ rest).head?, isLineBreak c = true := by
        refine hends.resolve_left ?_
        rintro ⟨body, hbody⟩
        rcases ho with rfl | rfl <;> cases hbody
      cases htext : spelled gap with
      | nil =>
        -- Without a line break the comment would go on with what follows.
        obtain ⟨c, hc, hn⟩ := hrest
        rw [htext, List.nil_append] at hbreak
        rw [hbreak c hc] at hn
        cases hn
      | cons c text =>
        rw [htext] at hbreak ih
        exact .line ho hb (hbreak c rfl) ih
    | _ => cases hk

theorem Link.Lexed.startsTrivia_eq {link : Link} {gap : List Link} {rest : List Char}
    (hlexed : Lexed (link :: gap) rest) (hk : link.kind.isTrivia = true) :
    startsTrivia (spelled (link :: gap) ++ rest) = true := by
  rw [spelled_cons, List.append_assoc]
  exact hlexed.1.startsTrivia_eq.trans hk

/-- A text is cut in one way only into trivia and what does not begin with trivia. -/
theorem IsTrivia.unique {gap gap' rest rest' : List Char} (h : IsTrivia gap) (h' : IsTrivia gap')
    (htext : gap ++ rest = gap' ++ rest') (hrest : startsTrivia rest = false)
    (hrest' : startsTrivia rest' = false) : gap = gap' ∧ rest = rest' := by
  obtain ⟨xs, rfl, hxs, hlexed⟩ := h.exists_gap
  obtain ⟨ys, rfl, hys, hlexed'⟩ := h'.exists_gap
  replace hlexed := hlexed rest
  replace hlexed' := hlexed' rest'
  clear h h'
  induction xs generalizing ys with
  | nil =>
    cases ys with
    | nil => exact ⟨rfl, htext⟩
    | cons link ys =>
      have hstarts := hlexed'.startsTrivia_eq (Link.isGap_cons.1 hys).1
      rw [← htext, Link.spelled_nil, List.nil_append, hrest] at hstarts
      cases hstarts
  | cons link xs ih =>
    obtain ⟨hk, hxs⟩ := Link.isGap_cons.1 hxs
    cases ys with
    | nil =>
      have hstarts := hlexed.startsTrivia_eq hk
      rw [htext, Link.spelled_nil, List.nil_append, hrest'] at hstarts
      cases hstarts
    | cons other ys =>
      obtain ⟨hk', hys⟩ := Link.isGap_cons.1 hys
      rw [Link.spelled_cons, Link.spelled_cons, List.append_assoc, List.append_assoc] at htext
      obtain ⟨-, hraw, htail⟩ := hlexed.1.unique hlexed'.1 hk hk' htext
      obtain ⟨hgap, heq⟩ := ih hxs ys htail hys hlexed.2 hlexed'.2
      rw [Link.spelled_cons, Link.spelled_cons, hraw, hgap]
      exact ⟨rfl, heq⟩

theorem IsReference.starts {raw : List Char} (h : IsReference raw) (rest : List Char)
    (hrest : ∀ c ∈ rest.head?, continuesWord c = false ∧ c ≠ '.') :
    startsTrivia (raw ++ rest) = false := by
  cases h with
  | word h =>
    have hword : IsLexeme .ident raw rest := ⟨h, fun c hc => (hrest c hc).1⟩
    exact hword.startsTrivia_eq
  | @dotted word text hw h =>
    have hdot : EndsBefore .ident word (('.' :: text) ++ rest) := by
      rintro _ ⟨⟩
      decide
    have hword : IsLexeme .ident word (('.' :: text) ++ rest) := ⟨hw, hdot⟩
    rw [List.append_assoc]
    exact hword.startsTrivia_eq

/-- A rendering does not begin with trivia. -/
theorem ConstValue.RendersWith.starts {Spans : Span → List Char → List Char → Prop}
    {value : ConstValue} {raw rest : List Char} (h : value.RendersWith Spans raw rest) :
    startsTrivia (raw ++ rest) = false := by
  cases h with
  | number h => exact h.startsTrivia_eq
  | string hq hb =>
    have hstring : IsLexeme .string _ rest := ⟨.string hq hb, trivial⟩
    exact hstring.startsTrivia_eq
  | name h hrest => exact h.starts rest hrest
  | list | map => rfl

end ThriftSyntax
