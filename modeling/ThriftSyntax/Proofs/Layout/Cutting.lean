import ThriftSyntax.Proofs.Layout.Trivia

/-!
# Cutting a text

The tokens of a text may be cut between two terminals. What stands before the cut is cut into the
same tokens and laid out in the same way where nothing comes after it, or where a line break does.
-/

namespace ThriftSyntax

open Lexeme

/-! ## Tokens with less text after them, or more -/

/-- A token that ends somewhere still does so where the text after it is cut short. -/
theorem Lexeme.EndsBefore.truncate {kind : Kind} {raw front back : List Char}
    (h : EndsBefore kind raw (front ++ back)) : EndsBefore kind raw front := by
  have hhead : ∀ {P : Char → Prop}, (∀ c ∈ (front ++ back).head?, P c) →
      ∀ c ∈ front.head?, P c := by
    intro P h c hc
    cases front with
    | nil => cases hc
    | cons d front => exact h c hc
  cases kind with
  | endOfInput => exact (List.append_eq_nil_iff.1 h).1
  | ident | keyword word => exact hhead h
  | number =>
    refine ⟨hhead h.1, h.2.imp_right fun h c text heq => h c (text ++ back) ?_⟩
    rw [heq]
    rfl
  | comment => exact h.imp_right hhead
  | _ => trivial

variable {links : List Link} {text rest rest' : List Char}

theorem Link.Lexed.truncate (h : Lexed links (text ++ rest)) : Lexed links text := by
  induction links with
  | nil => trivial
  | cons link links ih =>
    refine ⟨⟨h.1.spells, @EndsBefore.truncate _ _ _ rest ?_⟩, ih h.2⟩
    rw [List.append_assoc]
    exact h.1.ends

/-- A line break ends every token, a comment that goes to the end of its line among them. -/
theorem Link.Lexed.extend (h : Lexed links rest) (hend : ∀ link ∈ links, link.kind ≠ .endOfInput)
    {c : Char} (hbreak : isLineBreak c = true) (hc : Halts c) : Lexed links (c :: text) := by
  induction links with
  | nil => trivial
  | cons link links ih =>
    obtain ⟨hlink, hend⟩ := List.forall_mem_cons.1 hend
    refine ⟨⟨h.1.spells, ?_⟩, ih h.2 hend⟩
    have hhalts : ∀ d ∈ (c :: text).head?, Halts d := by
      rintro _ ⟨⟩
      exact hc
    refine h.1.ends.replace hhalts (by simp) hlink fun _ _ => .inr ?_
    rintro _ ⟨⟩
    exact hbreak

/-! ## Terminals before other tokens -/

/-- No terminal goes on with a token that is no word and that may stand anywhere, if its text begins
with no dot. -/
theorem Terminal.ends_of_plain (x : Terminal) {link : Link}
    (hw : ∀ reserved, link.kind.isWord reserved = false) (hp : Plain link.kind link.raw.toList)
    (hdot : (Link.spelled (link :: links) ++ rest).head? ≠ some '.') :
    x.Ends (link :: links) rest := by
  cases x with
  | token => trivial
  | name reserved words =>
    unfold Terminal.Ends
    dsimp only
    split
    · exact ⟨link, links, rfl, hw reserved, hp⟩
    · exact hdot

/-- A blank or a comment ends every terminal. -/
theorem Terminal.ends_of_trivia (x : Terminal) {link : Link} (hk : link.kind.isTrivia = true)
    (hs : Spells link.kind link.raw.toList) : x.Ends (link :: links) rest := by
  refine x.ends_of_plain (fun _ => Kind.not_word_of_isTrivia hk) (Parse.plain_of_trivia hk) ?_
  obtain ⟨c, hc, ho⟩ := hs.exists_opens (Parse.ne_endOfInput_of_trivia hk)
  obtain ⟨text, hraw⟩ := List.head?_eq_some_iff.1 hc
  rw [Link.spelled_cons, hraw]
  rintro ⟨⟩
  have hdot : link.kind = .punct .dot := ho.eq_punct (by decide)
  rw [hdot] at hk
  cases hk

/-- Where a terminal ends is told by the next token. -/
theorem Terminal.Ends.of_next {x : Terminal} {link : Link} {tail tail' : List Link}
    (h : x.Ends (link :: tail) rest) (hraw : link.raw.toList ≠ []) :
    x.Ends (link :: tail') rest' := by
  cases x with
  | token => trivial
  | name reserved words =>
    unfold Terminal.Ends at h ⊢
    dsimp only at h ⊢
    split at h
    · obtain ⟨next, _, heq, hnext⟩ := h
      cases heq
      rw [if_pos ‹_›]
      exact ⟨link, _, rfl, hnext⟩
    · rw [if_neg ‹_›]
      obtain ⟨c, text, hc⟩ := List.exists_cons_of_ne_nil hraw
      rw [Link.spelled_cons, hc] at h ⊢
      exact h

/-! ## Cuts -/

variable {xs ys zs : List Terminal}

/-- Blanks and comments before the first terminal may be left out. -/
theorem Laid.of_isGap_append {gap : List Link} (hgap : Link.IsGap gap)
    (h : Laid rest xs (gap ++ links)) : Laid rest xs links := by
  induction gap with
  | nil => exact h
  | cons link gap ih =>
    obtain ⟨hk, hgap⟩ := Link.isGap_cons.1 hgap
    refine ih hgap ?_
    generalize hlinks : link :: gap ++ links = all at h
    cases h with
    | nil => cases hlinks
    | gap _ h =>
      cases hlinks
      exact h
    | @terminal x _ _ hx =>
      obtain ⟨rfl, -⟩ := List.cons_eq_cons.1 hlinks
      have := hx _ List.mem_cons_self
      rw [hk] at this
      cases this

/-- The tokens `front` are those of the terminals `xs` wherever those end before what comes next. -/
def Link.Fronts (xs : List Terminal) (front : List Link) : Prop :=
  ∀ {rest zs tail}, (∀ x ∈ xs, x.Ends tail rest) → Laid rest zs tail →
    Laid rest (xs ++ zs) (front ++ tail)

/-- Blanks and comments may come with the tokens before them. -/
theorem Link.Fronts.gap {front gap : List Link} (h : Fronts xs front) (hgap : IsGap gap)
    (hs : ∀ link ∈ gap, Spells link.kind link.raw.toList) : Fronts xs (front ++ gap) := by
  intro rest zs tail hends htail
  rw [List.append_assoc]
  refine h (fun x hx => ?_) (htail.of_gap hgap)
  cases gap with
  | nil => exact hends x hx
  | cons blank gap =>
    exact x.ends_of_trivia (hgap blank List.mem_cons_self) (hs blank List.mem_cons_self)

/-- A cut right after the tokens of the terminals `xs`, none of which is the end of the input. -/
theorem Laid.cut (h : Laid rest (xs ++ ys) links)
    (hraw : ∀ link ∈ links, link.kind ≠ .endOfInput → link.raw.toList ≠ [])
    (hend : ∀ x ∈ xs, ∀ link ∈ x.links, link.kind ≠ .endOfInput) :
    ∃ front back, links = front ++ back ∧ Laid rest ys back ∧
      (∀ link ∈ front, link.kind ≠ .endOfInput) ∧
      front.getLast? = (xs.flatMap Terminal.links).getLast? ∧ Link.Fronts xs front := by
  induction xs generalizing links with
  | nil => exact ⟨[], links, rfl, h, by simp, rfl, fun _ h => h⟩
  | cons x xs ih =>
    obtain ⟨hx, hend⟩ := List.forall_mem_cons.1 hend
    obtain ⟨gap, tail, rfl, hgap, htrivia, hends, htail⟩ := h.exists_gap
    obtain ⟨front, back, rfl, hback, hfrontend, hlast, hfront⟩ := ih htail
      (fun link hl => hraw link (by simp [hl])) hend
    refine ⟨gap ++ (x.links ++ front), back, by simp, hback, ?_, ?_, ?_⟩
    · simp only [List.forall_mem_append]
      exact ⟨fun link hl => Parse.ne_endOfInput_of_trivia (hgap link hl), hx, hfrontend⟩
    · rw [List.flatMap_cons, List.getLast?_append, List.getLast?_append, List.getLast?_append, hlast,
        Terminal.links, List.getLast?_cons, Option.or_assoc, Option.some_or]
    · intro rest' zs tail' hends' htail'
      obtain ⟨hx', hends'⟩ := List.forall_mem_cons.1 hends'
      rw [List.append_assoc, List.append_assoc]
      refine .of_gap hgap (.terminal htrivia ?_ (hfront hends' htail'))
      cases front with
      | nil => exact hx'
      | cons link front =>
        exact Terminal.Ends.of_next hends (hraw link (by simp) (hfrontend link List.mem_cons_self))

/-- The tokens of a run of terminals, from the first token of the run to the last. -/
theorem Laid.cut_out {part : List Terminal} (h : Laid rest (xs ++ (part ++ ys)) links)
    (hraw : ∀ link ∈ links, link.kind ≠ .endOfInput → link.raw.toList ≠ [])
    (hend : ∀ x ∈ xs ++ part, ∀ link ∈ x.links, link.kind ≠ .endOfInput) (hne : part ≠ []) :
    ∃ before mid after, links = before ++ (mid ++ after) ∧
      (∀ link ∈ mid, link.kind ≠ .endOfInput) ∧
      mid.head? = (part.flatMap Terminal.links).head? ∧
      mid.getLast? = (part.flatMap Terminal.links).getLast? ∧ Link.Fronts part mid := by
  obtain ⟨x, part, rfl⟩ := List.exists_cons_of_ne_nil hne
  obtain ⟨hendx, hendpart⟩ := List.forall_mem_append.1 hend
  obtain ⟨before, back, rfl, hback, -⟩ := h.cut hraw hendx
  obtain ⟨gap, tail, rfl, -, htrivia, hends, htail⟩ := hback.exists_gap
  have hlaid : Laid rest (x :: part ++ ys) (x.links ++ tail) := .terminal htrivia hends htail
  obtain ⟨mid, after, hmid, -, hmidend, hlast, hfront⟩ := hlaid.cut
    (fun link hl => hraw link (by simp only [List.mem_append] at hl ⊢; tauto)) hendpart
  refine ⟨before ++ gap, mid, after, by rw [hmid, List.append_assoc], hmidend, ?_, hlast, hfront⟩
  have hmidne : mid ≠ [] := by
    rintro rfl
    simp [Terminal.links, List.getLast?_cons] at hlast
  obtain ⟨link, mid, rfl⟩ := List.exists_cons_of_ne_nil hmidne
  obtain ⟨rfl, -⟩ := List.cons_eq_cons.1 hmid
  rfl

end ThriftSyntax
