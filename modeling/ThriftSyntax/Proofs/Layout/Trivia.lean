import ThriftSyntax.Proofs.Layout.Arrangement

/-!
# Blanks and comments as text

`IsTrivia text` says that a text is blanks and comments, each comment complete. Such a text is cut
into the same tokens wherever it stands, and it ends every token before it but a comment that goes
to the end of its line.
-/

namespace ThriftSyntax

open Lexeme

/-- A comment that goes to the end of its line has to end within the text. -/
inductive IsTrivia : List Char → Prop
  | nil : IsTrivia []
  | blank (blank : Blank) {text : List Char} (h : IsTrivia text) : IsTrivia (blank.char :: text)
  | block {body text : List Char} (hb : ¬ ['*', '/'] <:+: body ++ ['*']) (h : IsTrivia text) :
      IsTrivia (('/' :: '*' :: (body ++ ['*', '/'])) ++ text)
  | line {opening body text : List Char} {c : Char} (ho : opening = ['#'] ∨ opening = ['/', '/'])
      (hb : ∀ c ∈ body, isLineBreak c = false) (hc : isLineBreak c = true)
      (h : IsTrivia (c :: text)) : IsTrivia (opening ++ body ++ c :: text)

namespace IsTrivia

variable {text : List Char}

/-- The tokens of a text that is blanks and comments, whatever comes after it. -/
theorem exists_gap (h : IsTrivia text) :
    ∃ gap, Link.spelled gap = text ∧ Link.IsGap gap ∧ ∀ rest, Link.Lexed gap rest := by
  -- Any number and any place will do.
  have hcons : ∀ {kind : Kind} {raw text : List Char}, kind.isTrivia = true → Spells kind raw →
      (∀ rest, EndsBefore kind raw (text ++ rest)) →
      (∃ gap, Link.spelled gap = text ∧ Link.IsGap gap ∧ ∀ rest, Link.Lexed gap rest) →
      ∃ gap, Link.spelled gap = raw ++ text ∧ Link.IsGap gap ∧ ∀ rest, Link.Lexed gap rest := by
    rintro kind raw _ hk hs he ⟨gap, rfl, hgap, hlexed⟩
    have hraw : (Link.mk 0 ⟨kind, String.ofList raw, .start⟩).raw.toList = raw := by simp [Link.raw]
    refine ⟨⟨0, kind, String.ofList raw, .start⟩ :: gap, ?_, Link.isGap_cons.2 ⟨hk, hgap⟩,
      fun rest => ⟨?_, hlexed rest⟩⟩
    · rw [Link.spelled_cons, hraw]
    · rw [hraw]
      exact ⟨hs, he rest⟩
  induction h with
  | nil => exact ⟨[], rfl, Link.isGap_nil, fun _ => trivial⟩
  | blank blank _ ih => exact hcons rfl (.blank blank) (fun _ => trivial) ih
  | block hb _ ih =>
    exact @hcons .comment _ _ rfl (.blockComment hb) (fun _ => .inl ⟨_, rfl⟩) ih
  | line ho hb hc _ ih =>
    refine @hcons .comment _ _ rfl (.lineComment ho hb) (fun _ => .inr ?_) ih
    rintro _ ⟨⟩
    exact hc

end IsTrivia

/-! ## What ends a token -/

namespace Lexeme

/-- A character that no word and no number goes on with. -/
structure Halts (c : Char) : Prop where
  word : continuesWord c = false
  point : c ≠ '.'

theorem Halts.not_digit {c : Char} (h : Halts c) : c.isDigit = false := by
  by_contra hd
  have hword := h.word
  rw [continuesWord_of_isDigit (by simpa using hd)] at hword
  cases hword

theorem halts_blank (blank : Blank) : Halts blank.char := by
  cases blank <;> exact ⟨by decide, by decide⟩

theorem halts_trivia {text : List Char} (h : IsTrivia text) : ∀ c ∈ text.head?, Halts c := by
  have hhash : Halts '#' := ⟨by decide, by decide⟩
  have hslash : Halts '/' := ⟨by decide, by decide⟩
  cases h with
  | nil => simp
  | blank blank =>
    rintro _ ⟨⟩
    exact halts_blank blank
  | block =>
    rintro _ ⟨⟩
    exact hslash
  | line ho =>
    rcases ho with rfl | rfl <;> rintro _ ⟨⟩
    · exact hhash
    · exact hslash

theorem EndsBefore.of_halts {kind : Kind} {raw rest : List Char} (h : ∀ c ∈ rest.head?, Halts c)
    (hend : kind ≠ .endOfInput) (hcomment : kind ≠ .comment) : EndsBefore kind raw rest := by
  cases kind with
  | endOfInput => exact absurd rfl hend
  | comment => exact absurd rfl hcomment
  | ident | keyword word => exact fun c hc => (h c hc).word
  | number =>
    refine ⟨fun c hc => (h c hc).not_digit, .inr ?_⟩
    rintro c text rfl
    exact absurd rfl (h '.' rfl).point
  | _ => trivial

end Lexeme

/-! ## Putting text between tokens -/

/-- A comment that goes to the end of its line. -/
def Link.IsLineComment (link : Link) : Prop :=
  link.kind = .comment ∧ ¬ ['/', '*'] <+: link.raw.toList

/-- A token that ends somewhere still does so with another text later on, or right after it. -/
theorem Lexeme.EndsBefore.replace {kind : Kind} {raw front back text : List Char}
    (h : EndsBefore kind raw (front ++ back)) (htext : ∀ c ∈ text.head?, Halts c) (hne : text ≠ [])
    (hend : kind ≠ .endOfInput)
    (hcomment : front = [] → kind = .comment → EndsBefore .comment raw text) :
    EndsBefore kind raw (front ++ text) := by
  obtain ⟨d, text, rfl⟩ := List.exists_cons_of_ne_nil hne
  have hd : Halts d := htext d rfl
  cases front with
  | nil =>
    by_cases hk : kind = .comment
    · subst hk
      exact hcomment rfl rfl
    · refine .of_halts ?_ hend hk
      rintro _ ⟨⟩
      exact hd
  | cons c front =>
    cases kind with
    | endOfInput => exact absurd rfl hend
    | number =>
      refine ⟨h.1, h.2.imp_right fun h => ?_⟩
      cases front with
      | nil =>
        rintro _ _ ⟨⟩
        exact hd.not_digit
      | cons e front =>
        rintro _ _ ⟨⟩
        exact h e _ rfl
    | comment => exact h
    | ident | keyword word => exact h
    | _ => trivial

variable {rest : List Char} {front back gap : List Link}

/-- Tokens that no end of input is among have a text. -/
theorem Link.spelled_ne_nil {link : Link} {links : List Link} (h : Lexed (link :: links) rest)
    (hend : link.kind ≠ .endOfInput) : spelled (link :: links) ≠ [] := by
  rw [spelled_cons]
  exact List.append_ne_nil_of_left_ne_nil (h.1.spells.ne_nil hend) _

/-- Tokens are cut in the same way where another text comes after them. -/
theorem Link.Lexed.replace {text : List Char} (h : Lexed front rest)
    (htext : ∀ c ∈ text.head?, Halts c) (hne : text ≠ [])
    (hend : ∀ link ∈ front, link.kind ≠ .endOfInput)
    (hline : ∀ link ∈ front.getLast?, ¬ link.IsLineComment) : Lexed front text := by
  induction front with
  | nil => trivial
  | cons link front ih =>
    obtain ⟨hlink, hend⟩ := List.forall_mem_cons.1 hend
    refine ⟨⟨h.1.spells, h.1.ends.replace htext hne hlink fun hfront hk => ?_⟩,
      ih h.2 hend fun other ho => ?_⟩
    · cases front with
      | cons other front =>
        exact absurd hfront (spelled_ne_nil h.2 (hend other List.mem_cons_self))
      | nil =>
        have := hline link rfl
        rw [IsLineComment, not_and, not_not] at this
        obtain ⟨body, hbody⟩ := this hk
        exact .inl ⟨body, hbody.symm⟩
    · cases front with
      | nil => cases ho
      | cons next front => exact hline other ho

theorem Link.Lexed.insert {text : List Char} (h : Lexed front rest) (htext : IsTrivia text)
    (hne : text ≠ []) (hend : ∀ link ∈ front, link.kind ≠ .endOfInput)
    (hline : ∀ link ∈ front.getLast?, ¬ link.IsLineComment) :
    Lexed front (text ++ rest) := by
  have hhalts := halts_trivia htext
  obtain ⟨c, tail, rfl⟩ := List.exists_cons_of_ne_nil hne
  exact h.replace hhalts (List.cons_ne_nil _ _) hend hline

/-- The place between `front` and `back` lies within the tokens of `x`. -/
def Terminal.Splits (x : Terminal) (front back : List Link) : Prop :=
  ∃ xs ys, xs ≠ [] ∧ ys ≠ [] ∧ x.links = xs ++ ys ∧ xs <:+ front ∧ ys <+: back

theorem Terminal.Ends.insert {x : Terminal} (h : x.Ends (front ++ back) rest)
    (hfront : Link.Lexed front (Link.spelled back ++ rest))
    (hend : ∀ link ∈ front, link.kind ≠ .endOfInput) (hgap : Link.IsGap gap)
    (hne : Link.spelled gap ≠ []) (hhalts : ∀ c ∈ (Link.spelled gap).head?, Halts c) :
    x.Ends (front ++ (gap ++ back)) rest := by
  cases x with
  | token link => trivial
  | name reserved words =>
    unfold Terminal.Ends at h ⊢
    dsimp only at h ⊢
    cases front with
    | nil =>
      split
      · cases gap with
        | nil => exact absurd rfl hne
        | cons blank gap =>
          have hk := hgap blank List.mem_cons_self
          exact ⟨blank, gap ++ back, rfl, Kind.not_word_of_isTrivia hk, Parse.plain_of_trivia hk⟩
      · obtain ⟨c, text, hc⟩ := List.exists_cons_of_ne_nil hne
        rw [List.nil_append, Link.spelled_append, hc]
        have := (hhalts c (by rw [hc]; rfl)).point
        simpa using this
    | cons link front =>
      split at h
      · obtain ⟨next, tail, heq, hnext⟩ := h
        cases heq
        rw [if_pos ‹_›]
        exact ⟨link, _, rfl, hnext⟩
      · have hraw := Link.spelled_ne_nil hfront (hend link List.mem_cons_self)
        obtain ⟨c, text, hc⟩ := List.exists_cons_of_ne_nil hraw
        rw [if_neg ‹_›]
        rw [Link.spelled_append, hc] at h ⊢
        exact h

/-- Blanks and comments may be put anywhere but within the tokens of a name. -/
theorem Laid.insert {xs : List Terminal} (h : Laid rest xs (front ++ back))
    (hfront : Link.Lexed front (Link.spelled back ++ rest))
    (hend : ∀ link ∈ front, link.kind ≠ .endOfInput) (hgap : Link.IsGap gap)
    (hne : Link.spelled gap ≠ []) (hhalts : ∀ c ∈ (Link.spelled gap).head?, Halts c)
    (hsplits : ∀ x ∈ xs, ¬ x.Splits front back) : Laid rest xs (front ++ (gap ++ back)) := by
  generalize hlinks : front ++ back = links at h
  induction h generalizing front with
  | nil =>
    obtain ⟨rfl, rfl⟩ := List.append_eq_nil_iff.1 hlinks
    rw [List.nil_append]
    exact Laid.nil.of_gap hgap
  | @gap xs link links hk h ih =>
    cases front with
    | nil =>
      obtain rfl : back = link :: links := hlinks
      rw [List.nil_append]
      exact (h.gap hk).of_gap hgap
    | cons other front =>
      cases hlinks
      refine .gap hk (ih hfront.2 (fun link hl => hend link (List.mem_cons_of_mem _ hl))
        (fun x hx ⟨as, bs, ha, hb, hxs, hfront, hback⟩ => ?_) rfl)
      exact hsplits x hx ⟨as, bs, ha, hb, hxs, hfront.trans (List.suffix_cons _ _), hback⟩
  | @terminal x xs links hx he h ih =>
    by_cases hfront' : front = []
    · subst hfront'
      obtain rfl : back = x.links ++ links := hlinks
      rw [List.nil_append]
      exact (h.terminal hx he).of_gap hgap
    obtain ⟨as, rfl, rfl⟩ : ∃ as, front = x.links ++ as ∧ links = as ++ back := by
      rcases List.append_eq_append_iff.1 hlinks with ⟨bs, hbs, rfl⟩ | ⟨as, rfl, rfl⟩
      · cases bs with
        | nil => exact ⟨[], by simpa using hbs.symm, rfl⟩
        | cons b bs =>
          refine absurd ?_ (hsplits x List.mem_cons_self)
          exact ⟨front, b :: bs, hfront', List.cons_ne_nil _ _, hbs, List.suffix_rfl,
            List.prefix_append _ _⟩
      · exact ⟨as, rfl, rfl⟩
    obtain ⟨-, hlexed⟩ := Link.lexed_append.1 hfront
    have hend' : ∀ link ∈ as, link.kind ≠ .endOfInput :=
      fun link hl => hend link (List.mem_append_right _ hl)
    rw [List.append_assoc]
    refine .terminal hx (he.insert hlexed hend' hgap hne hhalts) (ih hlexed hend' ?_ rfl)
    rintro y hy ⟨bs, cs, hb, hc, hys, hbs, hcs⟩
    exact hsplits y (List.mem_cons_of_mem _ hy)
      ⟨bs, cs, hb, hc, hys, hbs.trans (List.suffix_append _ _), hcs⟩

end ThriftSyntax
