import ThriftSyntax.Parse
import ThriftSyntax.Proofs.Coupling.Definition
import ThriftSyntax.Proofs.Errors.Exchange

/-!
# Errors do not depend on blanks and comments

Where a text is refused, other blanks and comments may stand in the place of those before the error: the
text is refused for the same reason, as much later or earlier as the new ones are longer or shorter.
-/

namespace ThriftSyntax

open Parse Lexeme

/-- The same error at another place. -/
def Error.moveTo (place : Location) : Error → Error
  | .lexical fault _ => .lexical fault place
  | .unexpectedToken found expected _ => .unexpectedToken found expected place
  | .namedTypedef name _ => .namedTypedef name place
  | .invalidInteger found _ => .invalidInteger found place
  | .notUtf8 => .notUtf8
  | .slotOccupied id => .slotOccupied id
  | .stalled => .stalled

/-- Tokens that are spelled alike are refused alike. -/
theorem Error.unexpected_moveTo {l m : Link} (hkind : l.kind = m.kind) (hraw : l.raw = m.raw)
    (expected : Expectation) :
    Error.unexpected l expected = (Error.unexpected m expected).moveTo l.location := by
  have hdescribe : l.token.describe = m.token.describe := by
    have hkind : l.token.kind = m.token.kind := hkind
    have hraw : l.token.raw = m.token.raw := hraw
    rw [Token.describe, Token.describe, hkind, hraw]
  rw [Error.unexpected, Error.unexpected, hdescribe]
  rfl

/-! ## The coupling of the two texts -/

namespace Exchange

variable (E : Exchange)

/-- Nothing is said of an error before the gap has been read. -/
def coupling : Coupling where
  errors error error' := ∃ place, error' = error.moveTo place ∧
    ∀ location ∈ error.location?, E.Shifted location place
  failed _ := True
  gone := E.Gone
  exempt error reader := error = .stalled ∨ reader.chain.size < (E.front ++ E.gap).length
  gone_onward h hgone := fun hprefix => hgone (h.links.trans hprefix)
  exempt_stalled _ := .inl rfl

/-- Both readers are before the gap, or both are behind it. -/
inductive Side (r s : Reader) : Prop
  | before {ahead : List Link} (h : E.Before ahead r s)
  | behind (h : E.Behind r s)

/-- The readers may also be in the gaps. -/
inductive Amid (r s : Reader) : Prop
  | side (h : E.Side r s)
  | within {xs ys : List Link} (h : E.Within xs ys r s)

variable {E} {r s : Reader} {ahead xs ys : List Link}

theorem Side.freed (h : E.Side r s) : r.held = none ∧ s.held = none := by
  cases h with
  | before h => exact ⟨h.left.held, h.right.held⟩
  | behind h => exact h.freed

theorem Side.round (h : E.Side r s) : E.Side r.round s.round := by
  cases h with
  | before h => exact .before h.round
  | behind h => exact .behind h.round

theorem Amid.freed (h : E.Amid r s) : r.held = none ∧ s.held = none := by
  cases h with
  | side h => exact h.freed
  | within h => exact ⟨h.left.held, h.right.held⟩

theorem Amid.round (h : E.Amid r s) : E.Amid r.round s.round := by
  cases h with
  | side h => exact .side h.round
  | within h => exact .within h.round

theorem Behind.errors (h : E.Behind r s) (fault : Fault) :
    E.coupling.errors (.lexical fault r.cursor.location) (.lexical fault s.cursor.location) := by
  refine ⟨s.cursor.location, rfl, ?_⟩
  rintro _ ⟨⟩
  exact h.shifted

theorem Before.exempt (h : E.Before ahead r s) (error : Error) (n : Nat) :
    E.coupling.exempt error (r.drop n) := .inr h.size_lt

theorem Behind.chainTrivia_couples : E.coupling.Couples E.Behind chainTrivia chainTrivia
    fun _ _ r s => E.Behind r s ∧ startsTrivia r.cursor.rest = false :=
  Reader.Abreast.chainTrivia_couples (fun h => h.toAbreast) (fun h => h.round)
    (fun h hn ht hl => (h.read hn ht hl).2.2) fun fault h => ⟨fun _ => trivial, h.errors fault⟩

/-- Before a token that the gap comes after, the blanks and comments are the same ones. -/
theorem Before.chainTrivia_couples : E.coupling.Couples
    (fun r s => ∃ ahead, E.Before ahead r s ∧ ∃ link ∈ ahead, link.kind.isTrivia = false)
    chainTrivia chainTrivia
    fun _ _ r s => (∃ ahead, E.Before ahead r s ∧ ∃ link ∈ ahead, link.kind.isTrivia = false) ∧
      startsTrivia r.cursor.rest = false := by
  have hcons : ∀ {ahead : List Link}, (∃ link ∈ ahead, link.kind.isTrivia = false) →
      ∃ link links, ahead = link :: links := fun ⟨link, hl, _⟩ =>
    List.exists_cons_of_ne_nil (List.ne_nil_of_mem hl)
  refine Parse.chainTrivia_couples (fun ⟨_, h, _⟩ => ⟨h.left.held, h.right.held⟩)
    (fun ⟨ahead, h, hk⟩ => ⟨ahead, h.round, hk⟩) ?_ ?_ ?_ ?_
  · rintro r s ⟨ahead, h, hk⟩
    obtain ⟨link, links, rfl⟩ := hcons hk
    rw [h.startsTrivia_eq.1, h.startsTrivia_eq.2]
  · rintro r s ⟨ahead, h, -⟩ -
    exact ⟨h.left.ending, h.right.ending⟩
  · rintro r s kind raw tail ⟨ahead, h, hlater⟩ ht hl hk
    obtain ⟨link, links, rfl⟩ := hcons hlater
    refine (h.read ht hl).imp_right fun ⟨hkind, tail', ht', hl', _, hpass⟩ =>
      ⟨tail', ht', hl', links, hpass, ?_⟩
    obtain ⟨later, hmem, hlk⟩ := hlater
    obtain rfl | hmem := List.mem_cons.1 hmem
    · rw [hkind, hk] at hlk
      cases hlk
    · exact ⟨later, hmem, hlk⟩
  · rintro r s fault ⟨ahead, h, -⟩ -
    exact .inl fun n => h.exempt _ n

/-- Whatever is left of the gaps, chaining it leads behind them. -/
theorem Within.exists_behind (h : E.Within xs ys r s) : ∃ r' s' : Reader,
    chainTrivia r = chainTrivia r' ∧ chainTrivia s = chainTrivia s' ∧ E.Behind r' s' := by
  have hgap : Link.IsGap xs := fun link hl => E.gap_trivia link (h.gap.subset hl)
  have hother : Link.IsGap ys := fun link hl => E.other_trivia link (h.other.subset hl)
  obtain ⟨front, hfront⟩ := h.gap
  obtain ⟨front', hfront'⟩ := h.other
  have hlexed := E.lexed_gap
  have hlexed' := E.lexed_exchanged
  rw [← hfront, Link.lexed_append] at hlexed
  rw [← hfront', Link.lexed_append] at hlexed'
  obtain ⟨r', hr, hopen, hrest, -, hplace⟩ := h.left.chainTrivia_eq hgap hlexed.2 h.rest_left
  obtain ⟨s', hs, hopen', hrest', -, hplace'⟩ := h.right.chainTrivia_eq hother hlexed'.2 h.rest_right
  have hoffset := congrArg Location.offset hplace
  have hoffset' := congrArg Location.offset hplace'
  rw [Location.offset_advance] at hoffset hoffset'
  have hstop := h.offset_left
  have hstop' := h.offset_right
  exact ⟨r', s', hr, hs, hopen.abreast hopen' (hrest.trans hrest'.symm), by omega, fun _ => by omega⟩

theorem Amid.chainTrivia_couples : E.coupling.Couples E.Amid chainTrivia chainTrivia
    fun _ _ r s => E.Side r s ∧ startsTrivia r.cursor.rest = false := by
  refine ⟨onward_chainTrivia, onward_chainTrivia, fun {r s} h => ?_⟩
  have hbehind : ∀ {r s}, E.Behind r s →
      E.coupling.Outcome (fun _ _ r s => E.Side r s ∧ startsTrivia r.cursor.rest = false)
        (chainTrivia r) (chainTrivia s) := fun h =>
    (Behind.chainTrivia_couples.outcome h).mono fun h => ⟨.behind h.1, h.2⟩
  have hwithin : ∀ {xs ys r s}, E.Within xs ys r s →
      E.coupling.Outcome (fun _ _ r s => E.Side r s ∧ startsTrivia r.cursor.rest = false)
        (chainTrivia r) (chainTrivia s) := fun h => by
    obtain ⟨r', s', hr, hs, h⟩ := h.exists_behind
    rw [hr, hs]
    exact hbehind h
  cases h with
  | within h => exact hwithin h
  | side h =>
    cases h with
    | behind h => exact hbehind h
    | @before ahead h =>
      cases ahead using List.reverseRecOn with
      | nil => exact hwithin h.within
      | append_singleton links last =>
        have hlast : last.kind.isTrivia = false := E.significant last <| by
          rw [h.links, ← List.append_assoc, List.getLast?_concat]
          rfl
        exact (Before.chainTrivia_couples.outcome ⟨_, h, last, by simp, hlast⟩).mono
          fun ⟨⟨_, h, _⟩, hrest⟩ => ⟨.before h, hrest⟩

theorem errors_unexpected {l m : Link} (h : E.Links l m) (expected : Expectation) :
    E.coupling.errors (.unexpected l expected) (.unexpected m expected) := by
  refine ⟨m.location, Error.unexpected_moveTo h.kind_eq.symm h.raw_eq.symm expected, ?_⟩
  rintro _ ⟨⟩
  exact h.shifted

theorem text_eq {a b : DottedName} (h : List.Forall₂ E.Links a.links b.links) : a.text = b.text :=
  DottedName.text_eq_of_raw (h.imp fun _ _ hl => hl.raw_eq)

variable (E) in
def tokenCoupling : TokenCoupling where
  toCoupling := E.coupling
  left _ := 0
  right _ := 0
  links := E.Links
  words := List.Forall₂ E.Links
  trail xs ys r s := List.Forall₂ E.Links xs ys ∧ E.Side r s
  amid := E.Amid
  kind_eq h := h.kind_eq
  raw_eq h := h.raw_eq
  id_eq _ := rfl
  links_of_words h := h
  words_of_trail h := h.1
  freed h := h.2.freed
  free_of_trail h := ⟨.nil, h.2⟩
  trail_round h := ⟨h.1, h.2.round⟩
  amid_round h := h.round
  amid_freed h := h.freed
  amid_of_free h := .side h.2
  dot_iff := by
    rintro _ _ r s ⟨-, h | h⟩
    · exact h.dot_iff
    · rw [Cursor.peek?, Cursor.peek?, h.rest]
  peek_eq := by
    rintro r s ⟨-, h | h⟩ hrest
    · obtain ⟨link, links, rfl⟩ := h.exists_cons hrest
      exact h.peek_eq
    · rw [Cursor.peek?, Cursor.peek?, h.rest]
  signed_eq := by
    rintro r s ⟨-, h | h⟩ hrest
    · obtain ⟨link, links, rfl⟩ := h.exists_cons hrest
      exact h.signed_eq
    · rw [h.rest]
  ending := by
    rintro xs ys r s ⟨hwords, h⟩
    have hside := h
    cases h with
    | before h => exact .inl ⟨h.left.ending, h.right.ending⟩
    | behind h =>
      have hending := h.ending
      generalize r.chain.ending? = a at hending ⊢
      generalize s.chain.ending? = b at hending ⊢
      cases hending with
      | none => exact .inl ⟨rfl, rfl⟩
      | some hlinks => exact .inr ⟨_, _, rfl, rfl, hlinks,
          List.rel_append hwords (.cons hlinks .nil), hside⟩
  read := by
    rintro xs ys r s kind raw tail ⟨hwords, h | h⟩ hn ht hl hk
    · have hrest : startsTrivia r.cursor.rest = false := by rw [ht, hl.startsTrivia_eq, hk]
      obtain ⟨link, links, rfl⟩ := h.exists_cons hrest
      refine (h.read ht hl).imp_right fun ⟨_, tail', ht', hl', hlinks, hpass⟩ =>
        ⟨tail', ht', hl', hlinks, List.rel_append hwords (.cons hlinks .nil), .before hpass⟩
    · obtain ⟨ht', hlinks, hpass⟩ := h.read hn ht hl
      exact .inr ⟨tail, ht', hl, hlinks, List.rel_append hwords (.cons hlinks .nil), .behind hpass⟩
  readTrivia := by
    rintro r s kind raw tail ⟨-, h | h⟩ ht hl hk
    · rename_i ahead
      cases ahead with
      | nil =>
        obtain ⟨l, xs, hgap⟩ := List.exists_cons_of_ne_nil E.gap_ne
        obtain ⟨m, ys, hother⟩ := List.exists_cons_of_ne_nil E.other_ne
        have hwithin := h.within
        rw [hgap, hother] at hwithin
        obtain ⟨kind', raw', tail', ht', hl', hk', hpass⟩ := hwithin.read ht hl hk
        exact .inr ⟨kind', raw', tail', ht', hl', hk', .within hpass⟩
      | cons link links =>
        exact (h.read ht hl).imp_right fun ⟨_, tail', ht', hl', _, hpass⟩ =>
          ⟨kind, raw, tail', ht', hl', hk, .side (.before hpass)⟩
    · have hne := hl.spells.ne_nil (ne_endOfInput_of_trivia hk)
      obtain ⟨ht', -, hpass⟩ := h.read (absurd · hne) ht hl
      exact .inr ⟨kind, raw, tail, ht', hl, hk, .side (.behind hpass)⟩
  chainTrivia := Amid.chainTrivia_couples.weaken fun h => ⟨⟨.nil, h.1⟩, h.2⟩
  fault := by
    rintro r s fault ⟨-, h | h⟩ hfirst
    · exact .inl fun n => h.exempt _ n
    · exact .inr ⟨h.rest ▸ hfirst, fun _ => trivial, h.errors fault⟩
  unclosed := by
    rintro r s quote body length ⟨-, h | h⟩ ht hq hstring
    · exact .inl fun n => h.exempt _ n
    · exact .inr ⟨body, length, h.rest ▸ ht, hstring, fun _ => trivial, h.errors _⟩
  failed_of_free _ := trivial
  failed_hold _ _ _ := trivial
  failed_trivia _ _ := trivial
  unexpected h expected := errors_unexpected h expected
  invalid := by
    rintro l m h -
    refine ⟨m.location, by rw [h.raw_eq]; rfl, ?_⟩
    rintro _ ⟨⟩
    exact h.shifted
  misplaced := by
    rintro a b h -
    refine ⟨b.head.location, by rw [text_eq h]; rfl, ?_⟩
    rintro _ ⟨⟩
    exact (List.forall₂_cons.1 h).1.shifted
  named := by
    rintro a b h -
    refine ⟨b.head.location, by rw [text_eq h]; rfl, ?_⟩
    rintro _ ⟨⟩
    exact (List.forall₂_cons.1 h).1.shifted

end Exchange

/-! ## The tokens of a run are cut from its text -/

namespace Reader

variable {reader after : Reader}

theorem Move.lexed (h : Move reader after) (hl : Link.Lexed reader.chain.links reader.cursor.rest) :
    Link.Lexed after.chain.links after.cursor.rest := by
  cases h with
  | @lexeme kind raw tail hh hn ht hlexeme =>
    have hraw := nextLink_raw ht kind
    rw [links_pass, rest_pass ht, Link.lexed_append]
    refine ⟨?_, ?_, trivial⟩
    · rwa [Link.spelled_cons, hraw, Link.spelled_nil, List.append_nil, ← ht]
    · rwa [hraw]
  | round => exact hl
  | release => exact hl
  | hold => exact hl

theorem Moves.lexed (h : Moves reader after)
    (hl : Link.Lexed reader.chain.links reader.cursor.rest) :
    Link.Lexed after.chain.links after.cursor.rest := by
  induction h with
  | refl => exact hl
  | tail _ hmove ih => exact hmove.lexed ih

/-- Where a run fails, its tokens are cut from the text, whether or not the failure has read more. -/
theorem Fails.exists_rest {text : List Char} {error : Error} {cost : Int}
    (h : (Reader.ofText text).Fails cost error after) :
    ∃ rest, text = Link.spelled after.chain.links ++ rest ∧ Link.Lexed after.chain.links rest := by
  obtain ⟨-, between, hleads, hafter⟩ := h
  have hchain : after.chain = between.chain := by
    rcases hafter with rfl | ⟨-, n, rfl⟩ <;> rfl
  have hkeeps := hleads.moves.keeps (keeps_ofText text)
  rw [Keeps, Link.toList_source] at hkeeps
  rw [hchain]
  exact ⟨_, hkeeps.symm, hleads.moves.lexed trivial⟩

end Reader

namespace SyntaxTree

variable {text : String} {options : Options} {error : Error} {after : Reader}

/-- In a text that is refused, let `gap` be the blanks and comments behind a token, or those that the text
begins with, up to a place that is not behind the error. Whatever other blanks and comments stand in
their place, the text is refused in the same way, at a place as much later as they are longer. -/
theorem ofText_error_of_gap (h : Grammar.document options (.ofText text.toList) = .error error after)
    {front gap back : List Link} (hlinks : after.chain.links = front ++ (gap ++ back))
    (hgap : Link.IsGap gap) (hne : gap ≠ [])
    (hfront : ∀ link ∈ front.getLast?, link.kind.isTrivia = false) {location : Location}
    (hlocation : error.location? = some location)
    (hbefore : byteSize (Link.spelled (front ++ gap)) ≤ location.offset) :
    ∃ rest, text.toList = Link.spelled (front ++ gap) ++ rest ∧ ∀ (trivia : List Char) (text' : String),
      IsTrivia trivia → trivia ≠ [] → text'.toList = Link.spelled front ++ (trivia ++ rest) →
      ∃ place, ofText text' options = .error (error.moveTo place) ∧
        place.offset + byteSize (Link.spelled gap) = location.offset + byteSize trivia := by
  have hrun : (Call.document options).run (.ofText text.toList) = .error error after :=
    map_eq_error.2 h
  have hsteady := Reader.steady_ofText text.toList
  obtain ⟨rest, htext, hlexed⟩ := (((Call.document options).run_runs hsteady).error _ _ hrun).exists_rest
  rw [hlinks, ← List.append_assoc, Link.spelled_append, List.append_assoc] at htext
  rw [hlinks, ← List.append_assoc, Link.lexed_append] at hlexed
  refine ⟨_, htext, fun trivia text' htrivia htrivia_ne htext' => ?_⟩
  obtain ⟨E, rfl, rfl, rfl, hrest, hother⟩ :=
    Exchange.exists_of_trivia back hlexed.1 hgap hne hfront htrivia htrivia_ne
  rw [← hrest, ← hother] at htext'
  rw [← hrest, Link.spelled_append, List.append_assoc] at htext
  have hsteady' := Reader.steady_ofText text'.toList
  have hstart : E.Before E.front (.ofText text.toList) (.ofText text'.toList) :=
    ⟨⟨hsteady.toSound, rfl, rfl⟩, ⟨hsteady'.toSound, rfl, rfl⟩, rfl, htext, htext', rfl, rfl⟩
  have hcouples := (Call.run_couples (S := E.tokenCoupling) (.document options)).outcome
    (.free ⟨.nil, .before hstart⟩)
  have hstalled' := fun after =>
    @Call.ne_stalled (.document options) _ after .stalled hsteady'
  rw [hrun] at hcouples
  generalize hrun' : (Call.document options).run (.ofText text'.toList) = result at hcouples
  cases hcouples with
  | error herrors =>
    obtain ⟨place, rfl, hshifted⟩ := herrors
    refine ⟨place, by rw [ofText, map_eq_error.1 hrun'], ?_⟩
    rw [← hother]
    exact hshifted location hlocation hbefore
  | gone hgone => exact (hgone (hlinks ▸ List.prefix_refl _)).elim
  | exempt h =>
    rcases h with rfl | hlt
    · cases hlocation
    · have hsize : after.chain.links.length < (E.front ++ E.gap).length := by
        rwa [TokenChain.length_links]
      rw [hlinks, ← List.append_assoc, List.length_append] at hsize
      omega
  | stalled => exact (hstalled' _ hrun' rfl).elim

/-- A line break in the place of a comment and a blank, before a word that begins no definition. -/
theorem ofText_error_of_gap_words :
    ∃ error after front gap back location,
      Grammar.document {} (.ofText "/*a*/ i32 x".toList) = .error error after ∧
      after.chain.links = front ++ (gap ++ back) ∧ Link.IsGap gap ∧ gap ≠ [] ∧
      (∀ link ∈ front.getLast?, link.kind.isTrivia = false) ∧ error.location? = some location ∧
      byteSize (Link.spelled (front ++ gap)) ≤ location.offset ∧
      ∃ place, ofText "\ni32 x" {} = .error (error.moveTo place) ∧ place.offset + 6 = 6 + 1 := by
  let run : Parse.Result Document := Grammar.document {} (.ofText "/*a*/ i32 x".toList)
  let gap : List Link := [⟨0, .comment, "/*a*/", ⟨0, 1, 1⟩⟩, ⟨1, .blank .space, " ", ⟨5, 1, 6⟩⟩]
  have h : run = .error (.unexpectedToken "i32" .definition ⟨6, 1, 7⟩) run.final :=
    Result.eq_error (by decide +kernel)
  have hlinks : run.final.chain.links = [] ++ (gap ++ [⟨2, .ident, "i32", ⟨6, 1, 7⟩⟩]) := by
    decide +kernel
  have hgap : Link.IsGap gap := Link.isGap_cons.2 ⟨rfl, Link.isGap_cons.2 ⟨rfl, Link.isGap_nil⟩⟩
  have hbefore : byteSize (Link.spelled ([] ++ gap)) ≤ 6 := by decide
  obtain ⟨rest, htext, hmoved⟩ := ofText_error_of_gap h hlinks hgap (by simp [gap]) (by simp) rfl hbefore
  obtain rfl : rest = "i32 x".toList := List.append_cancel_left (htext.symm.trans rfl)
  obtain ⟨place, htext', hplace⟩ := hmoved ['\n'] "\ni32 x" (.blank .lineFeed .nil) (by simp) rfl
  exact ⟨_, _, [], gap, _, _, h, hlinks, hgap, by simp [gap], by simp, rfl, hbefore, place, htext', hplace⟩

end SyntaxTree

end ThriftSyntax
