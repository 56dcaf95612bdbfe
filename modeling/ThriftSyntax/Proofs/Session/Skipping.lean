import ThriftSyntax.Proofs.Errors.Exchange
import ThriftSyntax.Proofs.Session.Lexeme

/-!
# Passing over blanks and comments

Every text begins with a gap, that is, with blanks and comments up to where neither of them begins, or up
to a comment that is left open. `reader.At source done text` says where a reader stands: it has chained
`done` and has `text` before it, of which a token that was put back is the beginning. From there, the
blanks and comments that are chained are just those of the gap.
-/

namespace ThriftSyntax

open Lexeme

/-! ## Gaps -/

/-- `gap` is the blanks and comments at the front of `text`, and `rest` what is behind them: it begins
with neither. -/
structure LeadingGap (text : List Char) (gap : List Link) (rest : List Char) : Prop where
  text_eq : text = Link.spelled gap ++ rest
  trivia : Link.IsGap gap
  lexed : Link.Lexed gap rest
  clear : startsTrivia rest = false

theorem Link.spelled_congr {links gap : List Link} (heq : links.map lexeme = gap.map lexeme) :
    spelled links = spelled gap := by
  rw [spelled_eq_lexemes, heq, ← spelled_eq_lexemes]

/-- What tokens are, and not where they stand, makes them those of a text. -/
theorem Link.Lexed.congr {links gap : List Link} {rest : List Char} (h : Lexed gap rest)
    (heq : links.map lexeme = gap.map lexeme) : Lexed links rest := by
  induction gap generalizing links with
  | nil =>
    obtain rfl := List.map_eq_nil_iff.1 heq
    trivial
  | cons link gap ih =>
    obtain ⟨other, others, rfl, hlink, hlinks⟩ := List.map_eq_cons_iff.1 heq
    obtain ⟨hkind, hraw⟩ := Prod.mk.inj hlink
    refine ⟨?_, ih h.2 hlinks⟩
    rw [hkind, hraw, spelled_congr hlinks]
    exact h.1

theorem Link.IsGap.congr {links gap : List Link} (h : IsGap gap)
    (heq : links.map lexeme = gap.map lexeme) : IsGap links := fun link hlink => by
  have hmem : link.lexeme ∈ gap.map lexeme := heq ▸ List.mem_map_of_mem hlink
  obtain ⟨other, hother, hkind⟩ := List.mem_map.1 hmem
  rw [← (Prod.mk.inj hkind).1]
  exact h other hother

/-- A comment begins the text that is left open. -/
def OpensComment (text : List Char) : Prop := first text = .error .unterminatedComment

theorem OpensComment.startsTrivia {text : List Char} (h : OpensComment text) :
    startsTrivia text = true := by
  obtain ⟨body, rfl, -⟩ : Fault.Stands text .unterminatedComment := stands_of_first h
  rfl

namespace LeadingGap

variable {text rest : List Char} {gap : List Link}

theorem congr {links : List Link} (h : LeadingGap text gap rest)
    (heq : links.map Link.lexeme = gap.map Link.lexeme) : LeadingGap text links rest where
  text_eq := by rw [h.text_eq, Link.spelled_congr heq]
  trivia := h.trivia.congr heq
  lexed := h.lexed.congr heq
  clear := h.clear

/-- Where neither a blank nor a comment begins, the gap is empty. -/
theorem eq_nil (h : LeadingGap text gap rest) (hclear : startsTrivia text = false) :
    gap = [] ∧ rest = text := by
  cases gap with
  | nil => exact ⟨rfl, h.text_eq.symm⟩
  | cons link gap =>
    obtain ⟨hk, -⟩ := Link.isGap_cons.1 h.trivia
    have hstarts := h.lexed.1.startsTrivia_eq
    rw [← List.append_assoc, ← Link.spelled_cons, ← h.text_eq, hclear, hk] at hstarts
    cases hstarts

/-- A gap that begins with a blank or a comment goes on behind it. -/
theorem eq_cons {kind : Kind} {raw tail : List Char} (h : LeadingGap (raw ++ tail) gap rest)
    (hl : IsLexeme kind raw tail) (hk : kind.isTrivia = true) :
    ∃ link links, gap = link :: links ∧ link.kind = kind ∧ link.raw.toList = raw ∧
      LeadingGap tail links rest := by
  cases gap with
  | nil =>
    have hclear := h.clear
    have htext : raw ++ tail = rest := h.text_eq
    rw [← htext, hl.startsTrivia_eq, hk] at hclear
    cases hclear
  | cons link links =>
    obtain ⟨hlink, hlinks⟩ := Link.isGap_cons.1 h.trivia
    have htext := h.text_eq
    rw [Link.spelled_cons, List.append_assoc] at htext
    obtain ⟨rfl, rfl, rfl⟩ := hl.unique h.lexed.1 hk hlink htext
    exact ⟨link, links, rfl, rfl, rfl, rfl, hlinks, h.lexed.2, h.clear⟩

end LeadingGap

/-- What begins a blank or a comment is one, or a comment that is left open. -/
theorem Lexeme.exists_trivia {text : List Char} (h : startsTrivia text = true) :
    (∃ kind raw tail, text = raw ++ tail ∧ IsLexeme kind raw tail ∧ kind.isTrivia = true) ∨
      OpensComment text := by
  cases hfirst : first text with
  | ok result =>
    obtain ⟨kind, length⟩ := result
    obtain ⟨raw, tail, rfl, -, hl, -⟩ := isLexeme_of_first hfirst
    exact .inl ⟨kind, raw, tail, rfl, hl, by rw [← hl.startsTrivia_eq, h]⟩
  | error fault =>
    rcases first_eq_error hfirst with ⟨c, -, hstray⟩ | ⟨rfl, -⟩
    · obtain ⟨tail, rfl⟩ := List.head?_eq_some_iff.1 hstray.head
      rw [startsTrivia, blank_eq_none hstray.blank, hstray.comment] at h
      cases h
    · exact .inr hfirst

/-- Where a lexeme is, also a string or a signed number, some lexeme is scanned. -/
theorem Lexeme.IsLexeme.exists_first {kind : Kind} {raw tail : List Char} (h : IsLexeme kind raw tail) :
    ∃ found, first (raw ++ tail) = .ok found := by
  cases hfirst : first (raw ++ tail) with
  | ok found => exact ⟨found, rfl⟩
  | error fault =>
    rcases first_eq_error hfirst with ⟨c, -, hstray⟩ | ⟨rfl, -⟩
    · have hraw := hstray.eq_nil (List.prefix_append raw tail) h.spells
      have hk : kind = .endOfInput := by
        by_contra hk
        exact h.spells.ne_nil hk hraw
      have hends := h.ends
      rw [hk] at hends
      obtain rfl : tail = [] := hends
      rw [hraw] at hfirst
      cases hfirst
    · have hk : kind.isTrivia = true := by
        rw [← h.startsTrivia_eq, OpensComment.startsTrivia hfirst]
      have hplain : Plain kind raw := by constructor <;> (rintro rfl; cases hk)
      cases hfirst.symm.trans (first_of_isLexeme h hplain)

/-- Every text begins with a gap, unless its blanks and comments end with one that is left open. -/
theorem exists_leadingGap (text : List Char) :
    ∃ gap rest, text = Link.spelled gap ++ rest ∧ Link.IsGap gap ∧ Link.Lexed gap rest ∧
      (startsTrivia rest = false ∨ OpensComment rest) := by
  induction hn : text.length using Nat.strongRecOn generalizing text with
  | ind n ih =>
    by_cases hstarts : startsTrivia text = true
    · rcases exists_trivia hstarts with ⟨kind, raw, tail, rfl, hl, hk⟩ | hopen
      · have hpos := List.length_pos_of_ne_nil (hl.spells.ne_nil (Parse.ne_endOfInput_of_trivia hk))
        rw [List.length_append] at hn
        obtain ⟨gap, rest, rfl, hgap, hlexed, hrest⟩ := ih tail.length (by omega) tail rfl
        -- Any number and any place will do.
        have hraw : (Link.mk 0 ⟨kind, String.ofList raw, .start⟩).raw.toList = raw := by simp [Link.raw]
        refine ⟨⟨0, kind, String.ofList raw, .start⟩ :: gap, rest, ?_, Link.isGap_cons.2 ⟨hk, hgap⟩,
          ⟨?_, hlexed⟩, hrest⟩
        · rw [Link.spelled_cons, hraw, List.append_assoc]
        · rw [hraw]
          exact hl
      · exact ⟨[], text, rfl, Link.isGap_nil, trivial, .inr hopen⟩
    · exact ⟨[], text, rfl, Link.isGap_nil, trivial, .inl (by simpa using hstarts)⟩

/-! ## Where a reader stands -/

namespace Reader

/-- The reader has read `done` of the text `source` and stands before `text`. A token that was put back
is the last of the chain and the lexeme at the front of `text`. -/
structure At (reader : Reader) (source : List Char) (done : List Link) (text : List Char) : Prop where
  sound : reader.Sound
  lexes : reader.Lexes source
  links_eq : reader.chain.links = done ++ reader.held.toList
  text_eq : text = Link.spelled reader.held.toList ++ reader.cursor.rest
  held_lexeme : ∀ link ∈ reader.held, IsLexeme link.kind link.raw.toList reader.cursor.rest

variable {reader after : Reader} {source text raw tail rest : List Char} {done gap : List Link}
  {kind : Kind} {link : Link}

theorem at_self (hs : reader.Sound) (hl : reader.Lexes source) (hh : reader.held = none) :
    reader.At source reader.chain.links reader.cursor.rest where
  sound := hs
  lexes := hl
  links_eq := by simp [hh]
  text_eq := by simp [hh]
  held_lexeme := by simp [hh]

namespace At

theorem round (h : reader.At source done text) : reader.round.At source done text where
  sound := (Move.round reader).sound h.sound
  lexes := ⟨h.lexes.shows, h.lexes.tokens⟩
  links_eq := h.links_eq
  text_eq := h.text_eq
  held_lexeme := h.held_lexeme

/-- With nothing put back the cursor is where the text begins, and all that was read is chained. -/
theorem rest_eq (h : reader.At source done text) (hh : reader.held = none) :
    reader.cursor.rest = text := by
  rw [h.text_eq, hh]
  rfl

theorem chain_eq (h : reader.At source done text) (hh : reader.held = none) :
    reader.chain.links = done := by
  rw [h.links_eq, hh, Option.toList_none, List.append_nil]

theorem isOpen (h : reader.At source done text) (hh : reader.held = none) (hne : text ≠ []) :
    reader.Open :=
  ⟨h.sound, hh, h.sound.ending?_eq_none (by rwa [h.rest_eq hh])⟩

theorem pass (h : reader.At source done text) (hh : reader.held = none)
    (hn : reader.chain.ending? = none) (ht : text = raw ++ tail) (hl : IsLexeme kind raw tail) :
    (reader.pass kind raw.length).At source (done ++ [reader.nextLink kind raw.length]) tail where
  sound := (Move.lexeme hh hn ((h.rest_eq hh).trans ht) hl).sound h.sound
  lexes := h.lexes.pass ((h.rest_eq hh).trans ht) hl
  links_eq := by
    rw [links_pass, h.chain_eq hh, show (reader.pass kind raw.length).held = none from hh]
    simp
  text_eq := by
    rw [rest_pass ((h.rest_eq hh).trans ht), show (reader.pass kind raw.length).held = none from hh]
    rfl
  held_lexeme other ho := by
    rw [show (reader.pass kind raw.length).held = none from hh] at ho
    cases ho

theorem release (h : reader.At source done text) (hh : reader.held = some link) :
    reader.release.At source (done ++ [link]) reader.cursor.rest where
  sound := Move.release.sound h.sound
  lexes := ⟨h.lexes.shows, h.lexes.tokens⟩
  links_eq := by
    show reader.chain.links = _
    rw [h.links_eq, hh, show reader.release.held = none from rfl]
    simp
  text_eq := rfl
  held_lexeme other ho := by cases ho

/-- To put back the last token is to stand before it. -/
theorem hold (h : reader.At source (done ++ [link]) text) (hh : reader.held = none)
    (hl : IsLexeme link.kind link.raw.toList text) :
    (reader.hold link).At source done (link.raw.toList ++ text) where
  sound := h.sound.hold (by rw [h.chain_eq hh]; simp)
  lexes := ⟨h.lexes.shows, h.lexes.tokens⟩
  links_eq := (h.chain_eq hh).trans rfl
  text_eq := by
    show _ = Link.spelled [link] ++ reader.cursor.rest
    rw [h.rest_eq hh]
    simp
  held_lexeme other ho := by
    obtain rfl : link = other := by simpa [Reader.hold] using ho
    exact (h.rest_eq hh).symm ▸ hl

/-! ## Blanks and comments -/

open Parse

/-- To chain the blanks and comments at the front is to go on behind them. -/
theorem chainTrivia_eq (h : reader.At source done text) (hh : reader.held = none)
    (ht : text = Link.spelled gap ++ rest) (hgap : Link.IsGap gap) (hl : Link.Lexed gap rest) :
    ∃ links between, chainTrivia reader = chainTrivia between ∧ between.held = none ∧
      links.map Link.lexeme = gap.map Link.lexeme ∧ between.At source (done ++ links) rest := by
  induction gap generalizing reader done text with
  | nil =>
    obtain rfl : text = rest := ht
    exact ⟨[], reader, rfl, hh, rfl, by rwa [List.append_nil]⟩
  | cons link gap ih =>
    obtain ⟨hk, hgap⟩ := Link.isGap_cons.1 hgap
    have hne := hl.1.spells.ne_nil (ne_endOfInput_of_trivia hk)
    rw [Link.spelled_cons, List.append_assoc] at ht
    have hopen := h.isOpen hh (by simp [ht, hne])
    have hnext := h.round.pass hh hopen.ending ht hl.1
    obtain ⟨links, between, hrun, hheld, hlexemes, hat⟩ := ih hnext hh rfl hgap hl.2
    refine ⟨reader.round.nextLink link.kind link.raw.toList.length :: links, between, ?_, hheld, ?_, ?_⟩
    · exact (hopen.chainTrivia_pass ((h.rest_eq hh).trans ht) hl.1 hk).trans hrun
    · have hrest : reader.round.cursor.rest = _ := (h.rest_eq hh).trans ht
      have hraw := nextLink_raw hrest link.kind
      rw [List.map_cons, List.map_cons, hlexemes]
      exact congrArg (· :: _) (Prod.ext rfl (String.toList_inj.1 hraw))
    · rwa [List.append_assoc, List.singleton_append] at hat

/-- Blanks and comments are chained up to where neither of them begins. -/
theorem chainTrivia_clear (h : reader.At source done text) (hh : reader.held = none)
    (hgap : LeadingGap text gap rest) :
    ∃ links after, chainTrivia reader = .ok () after ∧ after.held = none ∧
      links.map Link.lexeme = gap.map Link.lexeme ∧ after.At source (done ++ links) rest := by
  obtain ⟨links, between, hrun, hheld, hlexemes, hat⟩ :=
    h.chainTrivia_eq hh hgap.text_eq hgap.trivia hgap.lexed
  have hend := skipTrivia_of_rest hheld (by rw [hat.rest_eq hheld]; exact hgap.clear)
  rw [skipTrivia_of_none hheld] at hend
  exact ⟨links, between.round, hrun.trans hend, hheld, hlexemes, hat.round⟩

/-- A comment that is left open is met where it begins. -/
theorem chainTrivia_open (h : reader.At source done text) (hh : reader.held = none)
    (ht : text = Link.spelled gap ++ rest) (hgap : Link.IsGap gap) (hl : Link.Lexed gap rest)
    (hopen : OpensComment rest) :
    ∃ (links : List Link) (last : Reader) (n : Nat), chainTrivia reader =
        .error (.lexical .unterminatedComment last.cursor.location) (last.drop n) ∧ last.held = none ∧
      links.map Link.lexeme = gap.map Link.lexeme ∧ last.At source (done ++ links) rest := by
  obtain ⟨links, between, hrun, hheld, hlexemes, hat⟩ := h.chainTrivia_eq hh ht hgap hl
  have hrest := hat.rest_eq hheld
  have hn := (hat.isOpen hheld (ne_nil_of_startsTrivia hopen.startsTrivia)).ending
  obtain ⟨n, hscan, -⟩ :=
    scan_of_fault (show between.round.chain.ending? = none from hn) (hrest ▸ hopen)
  refine ⟨links, between.round, n, ?_, hheld, hlexemes, hat.round⟩
  have hstarts : startsTrivia between.round.cursor.rest = true := by
    rw [cursor_round, hrest]
    exact hopen.startsTrivia
  have hstep : triviaStep between.round =
      .error (.lexical .unterminatedComment between.cursor.location) (between.round.drop n) := by
    rw [triviaStep, get_bind, if_pos hstarts]
    exact map_eq_error.2 hscan
  rw [hrun, Parse.chainTrivia_eq]
  refine map_eq_error.2 ?_
  rw [repeatUntil_apply, hstep]
  rfl

/-- Blanks and comments are passed over, and one that was put back with them. A significant token that
was put back stays. -/
theorem skipTrivia_clear (h : reader.At source done text) (hgap : LeadingGap text gap rest) :
    ∃ links after, skipTrivia reader = .ok () after ∧ links.map Link.lexeme = gap.map Link.lexeme ∧
      after.At source (done ++ links) rest ∧
      ∀ link ∈ after.held, reader.held = some link ∧ link.kind.isTrivia = false := by
  cases hh : reader.held with
  | none =>
    obtain ⟨links, after, hrun, hheld, hlexemes, hat⟩ := h.chainTrivia_clear hh hgap
    exact ⟨links, after, (skipTrivia_of_none hh).trans hrun, hlexemes, hat, by simp [hheld]⟩
  | some link =>
    have hl := h.held_lexeme link hh
    have ht : text = link.raw.toList ++ reader.cursor.rest := by
      rw [h.text_eq, hh]
      simp
    rw [skipTrivia_of_held hh (h.sound.held_mem link hh)]
    split
    · rename_i hk
      obtain ⟨first, links, rfl, hkind, hraw, hgap⟩ := (ht ▸ hgap).eq_cons hl hk
      obtain ⟨links', after, hrun, hheld, hlexemes, hat⟩ :=
        (h.release hh).chainTrivia_clear rfl hgap
      refine ⟨link :: links', after, hrun, ?_, ?_, by simp [hheld]⟩
      · rw [List.map_cons, List.map_cons, hlexemes]
        exact congrArg (· :: _) (Prod.ext hkind.symm (String.toList_inj.1 hraw.symm))
      · rwa [List.append_assoc, List.singleton_append] at hat
    · rename_i hk
      rw [Bool.not_eq_true] at hk
      obtain ⟨rfl, rfl⟩ := hgap.eq_nil (by rw [ht, hl.startsTrivia_eq, hk])
      refine ⟨[], reader, rfl, rfl, by rwa [List.append_nil], fun other ho => ?_⟩
      rw [hh] at ho
      cases ho
      exact ⟨rfl, hk⟩

end At

/-! ## The next token -/

open Parse

/-- A blank or a comment that was put back is dropped. -/
theorem skipTrivia_idle (hs : reader.Sound) (hh : ∀ link ∈ reader.held, link.kind.isTrivia = true) :
    skipTrivia reader = chainTrivia reader.release := by
  cases hheld : reader.held with
  | none =>
    have hself : reader.release = reader := by
      cases reader
      cases hheld
      rfl
    rw [skipTrivia_of_none hheld, hself]
  | some link =>
    rw [skipTrivia_of_held hheld (hs.held_mem link hheld), if_pos (hh link hheld)]

/-- What comes of taking the token at the front of `text`: the one that was put back or else the first
lexeme, the end of the input once more, or a fault. -/
inductive Takes (reader : Reader) (source : List Char) (done : List Link) (text : List Char) :
    Parse.Result Link → Prop
  | token {link : Link} {after : Reader} {tail : List Char}
      (hfrom : reader.held = some link ∨
        reader.held = none ∧ first text = .ok (link.kind, link.raw.toList.length))
      (ht : text = link.raw.toList ++ tail) (hl : IsLexeme link.kind link.raw.toList tail)
      (hheld : after.held = none) (hat : after.At source (done ++ [link]) tail) :
      Takes reader source done text (.ok link after)
  | again {link : Link} (hh : reader.held = none) (ht : text = []) (hlast : done.getLast? = some link)
      (hk : link.kind = .endOfInput) : Takes reader source done text (.ok link reader)
  | fault {fault : Fault} {n : Nat} (hh : reader.held = none) (hfault : first text = .error fault) :
      Takes reader source done text
        (.error (.lexical fault reader.cursor.location) (reader.drop n))

theorem At.take_takes (h : reader.At source done text) :
    reader.Takes source done text (take reader) := by
  cases hh : reader.held with
  | some link =>
    rw [take_of_held hh (h.sound.held_mem link hh)]
    refine .token (.inl hh) ?_ (h.held_lexeme link hh) rfl (h.release hh)
    rw [h.text_eq, hh]
    simp
  | none =>
    have hrest := h.rest_eq hh
    rw [take_of_none hh]
    have hfinds := scan_finds hh
    generalize scan reader = result at hfinds ⊢
    cases hfinds with
    | @again link hend =>
      obtain ⟨hlast, hk⟩ := ending?_eq_some hend
      refine .again hh ?_ (h.chain_eq hh ▸ hlast) hk
      rw [← hrest, (h.sound.ended link (List.mem_of_getLast? hlast) hk).2]
    | @lexeme kind raw tail hend ht hl hp =>
      have hraw := nextLink_raw ht kind
      rw [hrest] at ht
      refine .token (.inr ⟨hh, ?_⟩) ?_ ?_ hh (h.pass hh hend ht hl)
      · rw [hraw, ht]
        exact first_of_isLexeme hl hp
      · rw [hraw, ht]
      · rw [hraw]
        exact hl
    | fault _ hfirst => exact .fault hh (hrest ▸ hfirst)

end Reader

theorem Request.session_sound (text : String) (requests : List Request) :
    (session text requests).2.Sound :=
  (answer_follows requests (Reader.sound_ofText text.toList)).sound (Reader.sound_ofText text.toList)

end ThriftSyntax
