import ThriftSyntax.Proofs.Coupling.Abreast
import ThriftSyntax.Proofs.Layout.Trivia

/-!
# Texts with other blanks and comments

An `Exchange` is a text and another one that differs from it in the blanks and comments of one place. A
reader of the first text and one of the second are before that place, within it or behind it, and what is
read there moves both on alike.
-/

namespace ThriftSyntax

open Parse Lexeme

/-! ## Lexemes before blanks and comments -/

namespace Lexeme

variable {kind kind' : Kind} {raw raw' tail tail' : List Char} {c d : Char}

theorem Spells.halts (h : Spells kind raw) (hk : kind.isTrivia = true) : ∀ c ∈ raw.head?, Halts c := by
  intro c hc
  cases h.opens hc with
  | blank blank => exact halts_blank blank
  | comment h => rcases h with rfl | rfl <;> exact ⟨by decide, by decide⟩
  | punct | digit | sign | quote => cases hk
  | word hw => cases (Kind.not_word_of_isTrivia hk).symm.trans hw

/-- What may be read as it stands is read in one way only. -/
theorem IsLexeme.unique_of_plain (h : IsLexeme kind raw tail) (h' : IsLexeme kind' raw' tail')
    (hp : Plain kind raw) (hp' : Plain kind' raw') (heq : raw ++ tail = raw' ++ tail') :
    kind = kind' ∧ raw = raw' ∧ tail = tail' := by
  have hfirst := first_of_isLexeme h hp
  rw [heq, first_of_isLexeme h' hp', Except.ok.injEq, Prod.mk.injEq] at hfirst
  obtain ⟨hkind, hlength⟩ := hfirst
  obtain ⟨hraw, htail⟩ := List.append_inj heq hlength.symm
  exact ⟨hkind.symm, hraw, htail⟩

/-- Blanks and comments are read in one way only. -/
theorem IsLexeme.unique (h : IsLexeme kind raw tail) (h' : IsLexeme kind' raw' tail')
    (hk : kind.isTrivia = true) (hk' : kind'.isTrivia = true) (heq : raw ++ tail = raw' ++ tail') :
    kind = kind' ∧ raw = raw' ∧ tail = tail' :=
  h.unique_of_plain h' (plain_of_trivia hk) (plain_of_trivia hk') heq

theorem signed?_append {front : List Char} (hfront : front ≠ []) (hc : Halts c) (hd : Halts d)
    (text text' : List Char) :
    (signed? (front ++ c :: text)).isSome = (signed? (front ++ d :: text')).isSome := by
  have hc := hc.not_digit
  have hd := hd.not_digit
  match front with
  | [e] =>
    unfold signed?
    split <;> split <;> simp_all
  | e :: f :: front =>
    unfold signed?
    split <;> split <;> simp_all

end Lexeme

/-! ## Passing over blanks and comments -/

namespace Reader

variable {reader : Reader} {kind : Kind} {raw tail rest : List Char}

/-- Nothing is put back, and the end of the input was not read yet. -/
structure Open (reader : Reader) : Prop where
  sound : reader.Sound
  held : reader.held = none
  ending : reader.chain.ending? = none

theorem Open.abreast {links : Link → Link → Prop} {other : Reader} (h : reader.Open) (h' : other.Open)
    (hrest : reader.cursor.rest = other.cursor.rest) : Abreast links reader other :=
  ⟨⟨h.held, h'.held⟩, ⟨h.sound, h'.sound⟩, hrest, by rw [h.ending, h'.ending]; exact .none⟩

theorem Open.atRound (h : reader.Open) (n : Nat) : (reader.atRound n).Open :=
  ⟨h.sound.atRound n, h.held, h.ending⟩

theorem Open.round (h : reader.Open) : reader.round.Open := h.atRound _

theorem Open.pass (h : reader.Open) (ht : reader.cursor.rest = raw ++ tail) (hl : IsLexeme kind raw tail)
    (hk : kind ≠ .endOfInput) : (reader.pass kind raw.length).Open :=
  ⟨(Move.lexeme h.held h.ending ht hl).sound h.sound, h.held, by rw [ending?_pass, if_neg hk]⟩

theorem offset_pass (ht : reader.cursor.rest = raw ++ tail) (kind : Kind) :
    (reader.pass kind raw.length).cursor.location.offset =
      reader.cursor.location.offset + byteSize raw := by
  rw [pass, Cursor.location_advance, ht, Location.offset_advance]

/-- Chaining a blank or a comment is the first of what is done to chain them all. -/
theorem Open.chainTrivia_pass (h : reader.Open) (ht : reader.cursor.rest = raw ++ tail)
    (hl : IsLexeme kind raw tail) (hk : kind.isTrivia = true) :
    chainTrivia reader = chainTrivia (reader.round.pass kind raw.length) := by
  have hfirst : first reader.cursor.rest = .ok (kind, raw.length) := by
    rw [ht]
    exact first_of_isLexeme hl (plain_of_trivia hk)
  have hstep : triviaStep reader.round = .ok (.inl (reader.round.nextLink kind raw.length))
      (reader.round.pass kind raw.length) := by
    have hstarts : startsTrivia reader.round.cursor.rest = true := by
      rw [cursor_round, ht, hl.startsTrivia_eq, hk]
    rw [triviaStep, get_bind, if_pos hstarts]
    exact map_eq_ok.2 ⟨_, scan_of_first h.round.held h.round.ending hfirst, rfl⟩
  have hlt : (reader.round.pass kind raw.length).unread < reader.unread := by
    have hpos := List.length_pos_of_ne_nil (hl.spells.ne_nil (ne_endOfInput_of_trivia hk))
    have hleft := reader.cursor.left_eq
    rw [ht, List.length_append] at hleft
    have hheld : (reader.round.pass kind raw.length).held = none := h.held
    rw [unread, unread, hheld, h.held]
    show 0 + (reader.cursor.left - raw.length) < 0 + reader.cursor.left
    omega
  rw [chainTrivia_eq]
  cases hrun : repeatUntil triviaStep (reader.round.pass kind raw.length) with
  | ok result after =>
    obtain ⟨items, last⟩ := result
    have hboth : discard (repeatUntil triviaStep) reader = .ok () after :=
      discard_eq_ok.2 ⟨_, repeatUntil_next hstep hlt hrun⟩
    exact hboth.trans (discard_eq_ok.2 ⟨_, hrun⟩).symm
  | error error after =>
    have hfails : repeatUntil triviaStep reader = .error error after := by
      rw [repeatUntil_apply, hstep]
      dsimp only
      rw [below, if_pos hlt]
      exact bind_eq_error.2 (.inl hrun)
    exact (map_eq_error.2 hfails).trans (map_eq_error.2 hrun).symm

/-- Where blanks and comments come next, to chain them is to go on behind them. -/
theorem Open.chainTrivia_eq {links : List Link} (h : reader.Open) (hgap : Link.IsGap links)
    (hl : Link.Lexed links rest) (ht : reader.cursor.rest = Link.spelled links ++ rest) :
    ∃ after : Reader, chainTrivia reader = chainTrivia after ∧ after.Open ∧
      after.cursor.rest = rest ∧ after.chain.size = reader.chain.size + links.length ∧
      after.cursor.location =
        reader.cursor.location.advance (Link.spelled links).length (Link.spelled links ++ rest) := by
  induction links generalizing reader with
  | nil => exact ⟨reader, rfl, h, ht, rfl, by simp⟩
  | cons link links ih =>
    obtain ⟨hk, hgap⟩ := Link.isGap_cons.1 hgap
    rw [Link.spelled_cons, List.append_assoc] at ht
    obtain ⟨after, hrun, hopen, hrest, hsize, hplace⟩ := ih
      (h.round.pass ht hl.1 (ne_endOfInput_of_trivia hk)) hgap hl.2 (rest_pass ht link.kind)
    refine ⟨after, (h.chainTrivia_pass ht hl.1 hk).trans hrun, hopen, hrest, ?_, ?_⟩
    · rw [hsize, Reader.pass, TokenChain.size_push, List.length_cons, Nat.add_assoc, Nat.add_comm 1]
      rfl
    · rw [hplace, Link.spelled_cons, List.append_assoc, Location.advance_append, ← ht]
      rfl

end Reader

/-! ## Two texts with different gaps -/

/-- A gap between the tokens of a text, and what stands in its place in another text: both are blanks and
comments, and the tokens before them and the text behind them are the same. -/
structure Exchange where
  front : List Link
  gap : List Link
  other : List Link
  back : List Link
  rest : List Char
  gap_trivia : Link.IsGap gap
  gap_ne : gap ≠ []
  other_trivia : Link.IsGap other
  other_ne : other ≠ []
  lexed : Link.Lexed (front ++ gap) rest
  lexed_other : Link.Lexed (front ++ other) rest
  significant : ∀ link ∈ front.getLast?, link.kind.isTrivia = false
  unended : ∀ link ∈ front, link.kind ≠ .endOfInput

namespace Exchange

variable (E : Exchange)

/-- Where the gap ends. -/
def stop : Nat := byteSize (Link.spelled (E.front ++ E.gap))

/-- A place behind the gap is shifted by as much as the gaps differ in length. -/
def Shifted (place place' : Location) : Prop :=
  E.stop ≤ place.offset →
    place'.offset + byteSize (Link.spelled E.gap) = place.offset + byteSize (Link.spelled E.other)

structure Links (l m : Link) : Prop where
  kind_eq : l.kind = m.kind
  raw_eq : l.raw = m.raw
  shifted : E.Shifted l.location m.location

/-- Both readers are before the gap, with the tokens `ahead` up to it. -/
structure Before (ahead : List Link) (r s : Reader) : Prop where
  left : r.Open
  right : s.Open
  links : E.front = r.chain.links ++ ahead
  rest_left : r.cursor.rest = Link.spelled ahead ++ (Link.spelled E.gap ++ E.rest)
  rest_right : s.cursor.rest = Link.spelled ahead ++ (Link.spelled E.other ++ E.rest)
  offset_left : r.cursor.location.offset = byteSize (Link.spelled r.chain.links)
  offset_right : s.cursor.location.offset = r.cursor.location.offset

/-- Each reader is in its gap, with `xs` or `ys` to come of it. -/
structure Within (xs ys : List Link) (r s : Reader) : Prop where
  left : r.Open
  right : s.Open
  gap : xs <:+ E.gap
  other : ys <:+ E.other
  rest_left : r.cursor.rest = Link.spelled xs ++ E.rest
  rest_right : s.cursor.rest = Link.spelled ys ++ E.rest
  offset_left : r.cursor.location.offset + byteSize (Link.spelled xs) = E.stop
  offset_right : s.cursor.location.offset + byteSize (Link.spelled ys) +
    byteSize (Link.spelled E.gap) = E.stop + byteSize (Link.spelled E.other)

/-- Both readers are behind the gap. -/
structure Behind (r s : Reader) : Prop extends r.Abreast E.Links s where
  stop_le : E.stop ≤ r.cursor.location.offset
  shifted : E.Shifted r.cursor.location s.cursor.location

/-- The first run reads something else than the tokens up to its error. -/
def Gone (reader : Reader) : Prop := ¬ reader.chain.links <+: E.front ++ (E.gap ++ E.back)

variable {E} {r s : Reader} {kind : Kind} {raw tail : List Char} {ahead xs ys : List Link}

theorem nextLink_links (hr : r.cursor.rest = raw ++ tail) {tail' : List Char}
    (hs : s.cursor.rest = raw ++ tail') (h : E.Shifted r.cursor.location s.cursor.location) :
    E.Links (r.nextLink kind raw.length) (s.nextLink kind raw.length) := by
  refine ⟨rfl, ?_, h⟩
  rw [← String.toList_inj, Reader.nextLink_raw hr, Reader.nextLink_raw hs]

/-- What begins a gap goes on with no token before it. -/
theorem exists_halts {links : List Link} (h : Link.IsGap links) (hne : links ≠ [])
    {rest : List Char} (hl : Link.Lexed links rest) :
    ∃ c text, Link.spelled links ++ rest = c :: text ∧ Halts c := by
  obtain ⟨link, links, rfl⟩ := List.exists_cons_of_ne_nil hne
  obtain ⟨hk, -⟩ := Link.isGap_cons.1 h
  obtain ⟨c, text, hraw⟩ := List.exists_cons_of_ne_nil
    (hl.1.spells.ne_nil (ne_endOfInput_of_trivia hk))
  refine ⟨c, text ++ (Link.spelled links ++ rest), ?_, hl.1.spells.halts hk c (by rw [hraw]; rfl)⟩
  rw [Link.spelled_cons, hraw]
  simp

theorem lexed_gap : Link.Lexed E.gap E.rest := (Link.lexed_append.1 E.lexed).2

theorem lexed_exchanged : Link.Lexed E.other E.rest := (Link.lexed_append.1 E.lexed_other).2

theorem gap_pos : 0 < byteSize (Link.spelled E.gap) := by
  obtain ⟨link, links, hgap⟩ := List.exists_cons_of_ne_nil E.gap_ne
  have hl := E.lexed_gap
  rw [hgap] at hl ⊢
  have hk := (Link.isGap_cons.1 (hgap ▸ E.gap_trivia)).1
  obtain ⟨c, text, hraw⟩ := List.exists_cons_of_ne_nil
    (hl.1.spells.ne_nil (ne_endOfInput_of_trivia hk))
  rw [Link.spelled_cons, hraw, List.cons_append, byteSize_cons]
  have := c.utf8Size_pos
  omega

theorem stop_eq : E.stop = byteSize (Link.spelled E.front) + byteSize (Link.spelled E.gap) := by
  rw [stop, Link.spelled_append, byteSize_append]

namespace Before

theorem round (h : E.Before ahead r s) : E.Before ahead r.round s.round :=
  ⟨h.left.round, h.right.round, h.links, h.rest_left, h.rest_right, h.offset_left, h.offset_right⟩

theorem within (h : E.Before [] r s) : E.Within E.gap E.other r s := by
  have hlinks : E.front = r.chain.links := by simpa using h.links
  have hstop := E.stop_eq
  rw [hlinks, ← h.offset_left] at hstop
  refine ⟨h.left, h.right, List.suffix_refl _, List.suffix_refl _, h.rest_left, h.rest_right,
    hstop.symm, ?_⟩
  have := h.offset_right
  omega

/-- There the error is not yet. -/
theorem offset_lt (h : E.Before ahead r s) : r.cursor.location.offset < E.stop := by
  have hpos := E.gap_pos
  rw [h.offset_left, E.stop_eq, h.links, Link.spelled_append, byteSize_append]
  omega

theorem size_lt (h : E.Before ahead r s) : r.chain.size < (E.front ++ E.gap).length := by
  have hpos := List.length_pos_of_ne_nil E.gap_ne
  rw [h.links, ← TokenChain.length_links]
  simp only [List.length_append]
  omega

variable {link : Link}

/-- A token that is read before the gap is the next one, unless the first run has gone astray. -/
theorem read (h : E.Before (link :: ahead) r s) (ht : r.cursor.rest = raw ++ tail)
    (hl : IsLexeme kind raw tail) :
    E.Gone (r.pass kind raw.length) ∨ link.kind = kind ∧
      ∃ tail', s.cursor.rest = raw ++ tail' ∧ IsLexeme kind raw tail' ∧
        E.Links (r.nextLink kind raw.length) (s.nextLink kind raw.length) ∧
        E.Before ahead (r.pass kind raw.length) (s.pass kind raw.length) := by
  refine or_iff_not_imp_left.2 fun hprefix => ?_
  obtain rfl : r.nextLink kind raw.length = link := by
    rw [Gone, not_not, Reader.links_pass, h.links, List.append_assoc,
      List.prefix_append_right_inj] at hprefix
    exact (List.cons_prefix_cons.1 hprefix).1
  have hraw := Reader.nextLink_raw ht kind
  have hright := h.rest_right
  rw [Link.spelled_cons, hraw, List.append_assoc] at hright
  have hl' : IsLexeme kind raw (Link.spelled ahead ++ (Link.spelled E.other ++ E.rest)) := by
    have hlexed := E.lexed_other
    rw [h.links, List.append_assoc, List.cons_append, Link.lexed_append] at hlexed
    have := hlexed.2.1
    rwa [hraw, Link.spelled_append, List.append_assoc] at this
  have hne : kind ≠ .endOfInput := E.unended (r.nextLink kind raw.length) (by simp [h.links])
  have hleft : tail = Link.spelled ahead ++ (Link.spelled E.gap ++ E.rest) := by
    have := h.rest_left
    rw [Link.spelled_cons, hraw, List.append_assoc, ht] at this
    exact List.append_cancel_left this
  refine ⟨rfl, _, hright, hl', nextLink_links ht hright fun hstop => ?_, h.left.pass ht hl hne,
    h.right.pass hright hl' hne, ?_, ?_, Reader.rest_pass hright kind, ?_, ?_⟩
  · exact absurd hstop (Nat.not_le.2 h.offset_lt)
  · rw [Reader.links_pass, h.links, List.append_assoc]
    rfl
  · rw [Reader.rest_pass ht, hleft]
  · rw [Reader.offset_pass ht, Reader.links_pass, Link.spelled_append, byteSize_append,
      h.offset_left]
    simp [hraw]
  · rw [Reader.offset_pass ht, Reader.offset_pass hright, h.offset_right]

/-- Before a token both texts go on in the same way, as far as the grammar looks ahead. -/
theorem ne_nil (h : E.Before (link :: ahead) r s) : Link.spelled (link :: ahead) ≠ [] := by
  have hlexed := E.lexed
  rw [h.links, List.append_assoc, List.cons_append, Link.lexed_append] at hlexed
  have hne : link.kind ≠ .endOfInput := E.unended link (by simp [h.links])
  rw [Link.spelled_cons]
  exact List.append_ne_nil_of_left_ne_nil (hlexed.2.1.spells.ne_nil hne) _

theorem peek_eq (h : E.Before (link :: ahead) r s) : r.cursor.peek? = s.cursor.peek? := by
  obtain ⟨c, text, htext⟩ := List.exists_cons_of_ne_nil h.ne_nil
  rw [Cursor.peek?, Cursor.peek?, h.rest_left, h.rest_right, htext]
  rfl

theorem signed_eq (h : E.Before (link :: ahead) r s) :
    (signed? r.cursor.rest).isSome = (signed? s.cursor.rest).isSome := by
  obtain ⟨c, text, hgap, hc⟩ := exists_halts E.gap_trivia E.gap_ne E.lexed_gap
  obtain ⟨d, text', hother, hd⟩ := exists_halts E.other_trivia E.other_ne E.lexed_exchanged
  rw [h.rest_left, h.rest_right, hgap, hother]
  exact signed?_append h.ne_nil hc hd _ _

theorem dot_iff (h : E.Before ahead r s) :
    r.cursor.peek? = some '.' ↔ s.cursor.peek? = some '.' := by
  cases ahead with
  | cons link ahead => rw [h.peek_eq]
  | nil =>
    obtain ⟨c, text, hgap, hc⟩ := exists_halts E.gap_trivia E.gap_ne E.lexed_gap
    obtain ⟨d, text', hother, hd⟩ := exists_halts E.other_trivia E.other_ne E.lexed_exchanged
    rw [Cursor.peek?, Cursor.peek?, h.rest_left, h.rest_right, hgap, hother]
    simp [hc.point, hd.point]

theorem startsTrivia_eq (h : E.Before (link :: ahead) r s) :
    startsTrivia r.cursor.rest = link.kind.isTrivia ∧ startsTrivia s.cursor.rest = link.kind.isTrivia := by
  have hlexed := E.lexed
  have hlexed' := E.lexed_other
  rw [h.links, List.append_assoc, List.cons_append, Link.lexed_append] at hlexed hlexed'
  have hleft := hlexed.2.1.startsTrivia_eq
  have hright := hlexed'.2.1.startsTrivia_eq
  rw [Link.spelled_append, List.append_assoc] at hleft hright
  rw [h.rest_left, h.rest_right, Link.spelled_cons, List.append_assoc, List.append_assoc]
  exact ⟨hleft, hright⟩

/-- Where only the gap comes next, a blank or a comment does. -/
theorem exists_cons (h : E.Before ahead r s) (hrest : startsTrivia r.cursor.rest = false) :
    ∃ link ahead', ahead = link :: ahead' := by
  cases ahead with
  | cons link ahead => exact ⟨link, ahead, rfl⟩
  | nil =>
    obtain ⟨link, links, hgap⟩ := List.exists_cons_of_ne_nil E.gap_ne
    have hl := E.lexed_gap
    have htrivia := E.gap_trivia
    rw [hgap] at hl htrivia
    rw [h.rest_left, Link.spelled_nil, List.nil_append, hgap, Link.spelled_cons, List.append_assoc,
      hl.1.startsTrivia_eq, (Link.isGap_cons.1 htrivia).1] at hrest
    cases hrest

end Before

/-- A blank or a comment of the gap, and one in its place. -/
theorem Within.read {l m : Link} (h : E.Within (l :: xs) (m :: ys) r s)
    (ht : r.cursor.rest = raw ++ tail) (hl : IsLexeme kind raw tail) (hk : kind.isTrivia = true) :
    ∃ kind' raw' tail', s.cursor.rest = raw' ++ tail' ∧ IsLexeme kind' raw' tail' ∧
      kind'.isTrivia = true ∧ E.Within xs ys (r.pass kind raw.length) (s.pass kind' raw'.length) := by
  have hgap : Link.Lexed (l :: xs) E.rest := by
    obtain ⟨front, hfront⟩ := h.gap
    have := E.lexed_gap
    rw [← hfront, Link.lexed_append] at this
    exact this.2
  have hother : Link.Lexed (m :: ys) E.rest := by
    obtain ⟨front, hfront⟩ := h.other
    have := E.lexed_exchanged
    rw [← hfront, Link.lexed_append] at this
    exact this.2
  have hlk : l.kind.isTrivia = true := E.gap_trivia l (h.gap.subset List.mem_cons_self)
  have hmk : m.kind.isTrivia = true := E.other_trivia m (h.other.subset List.mem_cons_self)
  have hleft := h.rest_left
  have hright := h.rest_right
  rw [Link.spelled_cons, List.append_assoc] at hleft hright
  obtain ⟨rfl, rfl, rfl⟩ := hgap.1.unique hl hlk hk (hleft.symm.trans ht)
  have hoffset := h.offset_left
  have hoffset' := h.offset_right
  rw [Link.spelled_cons, byteSize_append] at hoffset hoffset'
  refine ⟨m.kind, m.raw.toList, _, hright, hother.1, hmk,
    h.left.pass ht hl (ne_endOfInput_of_trivia hk),
    h.right.pass hright hother.1 (ne_endOfInput_of_trivia hmk),
    (List.suffix_cons l xs).trans h.gap, (List.suffix_cons m ys).trans h.other,
    Reader.rest_pass ht l.kind, Reader.rest_pass hright m.kind, ?_, ?_⟩
  · rw [Reader.offset_pass ht]
    omega
  · rw [Reader.offset_pass hright]
    omega

theorem Within.round (h : E.Within xs ys r s) : E.Within xs ys r.round s.round :=
  ⟨h.left.round, h.right.round, h.gap, h.other, h.rest_left, h.rest_right, h.offset_left,
    h.offset_right⟩

namespace Behind

theorem round (h : E.Behind r s) : E.Behind r.round s.round := ⟨h.toAbreast.round, h.stop_le, h.shifted⟩

theorem read (h : E.Behind r s) (hn : raw = [] → r.chain.ending? = none)
    (ht : r.cursor.rest = raw ++ tail) (hl : IsLexeme kind raw tail) :
    s.cursor.rest = raw ++ tail ∧ E.Links (r.nextLink kind raw.length) (s.nextLink kind raw.length) ∧
      E.Behind (r.pass kind raw.length) (s.pass kind raw.length) := by
  have ht' : s.cursor.rest = raw ++ tail := h.rest ▸ ht
  have hlinks : E.Links (r.nextLink kind raw.length) (s.nextLink kind raw.length) :=
    nextLink_links ht ht' h.shifted
  have hoffset := Reader.offset_pass ht kind
  have hoffset' := Reader.offset_pass ht' kind
  have hstop := h.stop_le
  refine ⟨ht', hlinks, h.toAbreast.pass hn ht hl hlinks, ?_, fun _ => ?_⟩
  · omega
  · have := h.shifted hstop
    omega

end Behind

end Exchange

/-- The end of the input has no text behind it. -/
theorem Link.Lexed.ne_endOfInput {front back : List Link} {rest : List Char}
    (h : Lexed (front ++ back) rest) (hback : spelled back ≠ []) :
    ∀ link ∈ front, link.kind ≠ .endOfInput := by
  intro link hl hk
  obtain ⟨before, later, rfl⟩ := List.append_of_mem hl
  rw [List.append_assoc, lexed_append, List.cons_append] at h
  have hends := h.2.1.ends
  rw [hk, spelled_append, List.append_assoc] at hends
  exact hback (List.append_eq_nil_iff.1 (List.append_eq_nil_iff.1 hends).2).1

/-- Other blanks and comments may stand in the place of those behind a token. -/
theorem Exchange.exists_of_trivia (back : List Link) {front gap : List Link} {rest trivia : List Char}
    (hlexed : Link.Lexed (front ++ gap) rest) (hgap : Link.IsGap gap) (hne : gap ≠ [])
    (hfront : ∀ link ∈ front.getLast?, link.kind.isTrivia = false) (htrivia : IsTrivia trivia)
    (htrivia_ne : trivia ≠ []) :
    ∃ E : Exchange, E.front = front ∧ E.gap = gap ∧ E.back = back ∧ E.rest = rest ∧
      Link.spelled E.other = trivia := by
  have hend : ∀ link ∈ front, link.kind ≠ .endOfInput := by
    refine hlexed.ne_endOfInput ?_
    obtain ⟨link, links, rfl⟩ := List.exists_cons_of_ne_nil hne
    exact Link.spelled_ne_nil (Link.lexed_append.1 hlexed).2
      (ne_endOfInput_of_trivia (hgap link List.mem_cons_self))
  have hline : ∀ link ∈ front.getLast?, ¬ link.IsLineComment := fun link hl hcomment => by
    have := hfront link hl
    rw [hcomment.1] at this
    cases this
  have hhalts := halts_trivia htrivia
  obtain ⟨other, rfl, hother, hlexed'⟩ := htrivia.exists_gap
  obtain ⟨c, text, hc⟩ := List.exists_cons_of_ne_nil htrivia_ne
  rw [hc] at hhalts
  refine ⟨⟨front, gap, other, back, rest, hgap, hne, hother, ?_, hlexed,
    Link.lexed_append.2 ⟨?_, hlexed' rest⟩, hfront, hend⟩, rfl, rfl, rfl, rfl, rfl⟩
  · rintro rfl
    exact htrivia_ne rfl
  · exact (Link.lexed_append.1 hlexed).1.replace (by rw [hc]; exact hhalts) (by simp [hc]) hend hline

end ThriftSyntax
