import ThriftSyntax.Parse
import ThriftSyntax.Proofs.Coupling.Definition
import ThriftSyntax.Proofs.Lexeme.Fault

/-!
# Errors point at the offending text

Every error of a parse names a place of the text, and what it says of the text is what stands there. A
run is coupled with itself to show this: what it keeps is that its tokens stand in the text, that a name
is a stretch of it, and that a token that was put back ends at the cursor.
-/

namespace ThriftSyntax

open Lexeme

/-- The text from the place on is `rest`, and the place counts what stands before it. -/
def Location.Shows (place : Location) (text rest : List Char) : Prop :=
  ∃ front, text = front ++ rest ∧ place.offset = byteSize front ∧
    place = Location.start.advance front.length text

/-- What a fault says of the text at its place. -/
def Fault.Stands (rest : List Char) : Fault → Prop
  | .unexpectedCharacter c =>
    rest.head? = some c ∧ ∀ kind raw, raw <+: rest → Spells kind raw → raw = []
  | .unterminatedComment => ∃ body, rest = '/' :: '*' :: body ∧ ¬ ['*', '/'] <:+: body
  | .unterminatedString => ∃ quote body, rest = quote :: body ∧ (quote = '"' ∨ quote = '\'') ∧
    quote ∉ body.takeWhile (!isLineBreak ·)

/-- What an error says of a text is so: a token that it names stands at its place, and there is neither
a blank nor a comment; the end of the file is the end of the text. -/
def Error.PointsInto (text : List Char) : Error → Prop
  | .lexical fault place => ∃ rest, place.Shows text rest ∧ fault.Stands rest
  | .unexpectedToken found _ place => ∃ rest, place.Shows text rest ∧
    (found = "end of file" ∧ rest = [] ∨
      found ≠ "" ∧ found.toList <+: rest ∧ startsTrivia rest = false)
  | .namedTypedef found place | .invalidInteger found place => ∃ rest, place.Shows text rest ∧
    found ≠ "" ∧ found.toList <+: rest
  | .notUtf8 | .slotOccupied _ | .stalled => False

/-! ## Where lexemes fail -/

namespace Lexeme

theorem stands_of_first {rest : List Char} {fault : Fault} (h : first rest = .error fault) :
    fault.Stands rest := by
  rcases first_eq_error h with ⟨c, rfl, hstray⟩ | ⟨rfl, hbody⟩
  · exact ⟨hstray.head, fun _ _ hraw hs => hstray.eq_nil hraw hs⟩
  · exact hbody

theorem stands_of_string {quote : Char} {body : List Char} {n : Nat}
    (hq : quote = '"' ∨ quote = '\'') (h : string quote body = (n, false)) :
    Fault.Stands (quote :: body) .unterminatedString := by
  obtain ⟨front, rest, rfl, hall, hend⟩ :=
    exists_run (fun c => c != quote && !isLineBreak c) body
  unfold string at h
  simp only [run_append hall hend, Prod.mk.injEq, List.getElem?_append_right (Nat.le_refl _),
    Nat.sub_self] at h
  refine ⟨quote, front ++ rest, rfl, hq, fun hmem => ?_⟩
  -- The line goes on at most to where the search for the quote has stopped.
  have hfront : ∀ c ∈ front, (!isLineBreak c) = true := fun c hc => by
    have := hall c hc
    simp_all
  rw [List.takeWhile_append_of_pos hfront, List.mem_append] at hmem
  rcases hmem with hmem | hmem
  · simpa using hall quote hmem
  · cases rest with
    | nil => cases hmem
    | cons c rest =>
      by_cases hc : isLineBreak c = true
      · simp [hc] at hmem
      · have := hend c rfl
        simp_all

end Lexeme

/-! ## What a run keeps -/

variable {text rest : List Char}

theorem Location.shows_of_eq {front : List Char} (h : text = front ++ rest) :
    (Location.start.advance front.length text).Shows text rest := by
  refine ⟨front, h, ?_, rfl⟩
  rw [h, Location.offset_advance]
  exact Nat.zero_add _

/-- The token stands in the text, where it is neither a blank nor a comment; the end of the input stands
at the end. -/
structure Link.PointsInto (text : List Char) (link : Link) : Prop where
  spells : Spells link.kind link.raw.toList
  significant : link.kind.isTrivia = false
  shows : ∃ rest, link.location.Shows text (link.raw.toList ++ rest)
  ended : link.kind = .endOfInput → link.location.Shows text []

/-- The tokens are a stretch of the text with `rest` behind it, which begins where the first of them
says. -/
structure Link.Adjoin (text : List Char) (links : List Link) (rest : List Char) : Prop where
  suffix : spelled links ++ rest <:+ text
  shows : ∀ head ∈ links.head?, head.location.Shows text (spelled links ++ rest)

namespace Reader

/-- A reader with nothing put back, whose tokens and whose cursor stand in the text. -/
structure Tracks (reader : Reader) (text : List Char) : Prop where
  held : reader.held = none
  sound : reader.Sound
  standsIn : reader.StandsIn text
  ended : ∀ link ∈ reader.chain.links, link.kind = .endOfInput → link.location.Shows text []

/-- The reader is right behind `links`. -/
structure Trails (reader : Reader) (text : List Char) (links : List Link) : Prop
    extends reader.Tracks text where
  points : ∀ link ∈ links, link.PointsInto text
  adjoin : Link.Adjoin text links reader.cursor.rest

/-- A reader from which reading may go on, whether or not a token was put back. -/
structure Ready (reader : Reader) (text : List Char) : Prop where
  tracks : reader.release.Tracks text
  held : ∀ link, reader.held = some link → link.kind.isTrivia = true ∨
    link ∈ reader.chain.links ∧ reader.release.Trails text [link]

variable {reader : Reader} {kind : Kind} {raw tail : List Char} {links : List Link} {link : Link}

theorem release_eq (h : reader.held = none) : reader.release = reader := by
  cases reader
  cases h
  rfl

theorem tracks_ofText (text : List Char) : (Reader.ofText text).Tracks text where
  held := rfl
  sound := sound_ofText text
  standsIn := standsIn_ofText text
  ended _ h := absurd h List.not_mem_nil

namespace Tracks

theorem shows (h : reader.Tracks text) : reader.cursor.location.Shows text reader.cursor.rest := by
  obtain ⟨front, htext, hplace⟩ := h.standsIn.passed
  rw [hplace]
  exact Location.shows_of_eq htext

theorem pass (h : reader.Tracks text) (hn : raw = [] → reader.chain.ending? = none)
    (ht : reader.cursor.rest = raw ++ tail) (hl : IsLexeme kind raw tail) :
    (reader.pass kind raw.length).Tracks text := by
  have hmove := h.sound.lexeme h.held hn ht hl
  refine ⟨h.held, hmove.sound h.sound, hmove.standsIn h.standsIn, fun link hmem hk => ?_⟩
  rw [links_pass, List.mem_append, List.mem_singleton] at hmem
  obtain hmem | rfl := hmem
  · exact h.ended link hmem hk
  · obtain rfl : kind = .endOfInput := hk
    have hrest : reader.cursor.rest = [] := by
      rw [ht, hl.spells.eq_nil, show tail = [] from hl.ends]
      rfl
    exact hrest ▸ h.shows

theorem drop (h : reader.Tracks text) (n : Nat) : (reader.drop n).Tracks text :=
  ⟨h.held, h.sound.drop n, h.standsIn.drop n, h.ended⟩

theorem round (h : reader.Tracks text) : reader.round.Tracks text :=
  ⟨h.held, (Move.round reader).sound h.sound, (Move.round reader).standsIn h.standsIn, h.ended⟩

theorem trails (h : reader.Tracks text) : reader.Trails text [] := by
  obtain ⟨front, htext, -⟩ := h.shows
  exact ⟨h, by simp, ⟨front, htext.symm⟩, by simp⟩

theorem ready (h : reader.Tracks text) : reader.Ready text :=
  ⟨(release_eq h.held).symm ▸ h, fun link hl => by rw [h.held] at hl; cases hl⟩

theorem pointsInto_nextLink (h : reader.Tracks text) (ht : reader.cursor.rest = raw ++ tail)
    (hl : IsLexeme kind raw tail) (hk : kind.isTrivia = false) :
    (reader.nextLink kind raw.length).PointsInto text := by
  have hraw := nextLink_raw ht kind
  refine ⟨hraw.symm ▸ hl.spells, hk, ⟨tail, ?_⟩, ?_⟩
  · rw [hraw, ← ht]
    exact h.shows
  · rintro rfl
    have hrest : reader.cursor.rest = [] := by
      rw [ht, hl.spells.eq_nil, show tail = [] from hl.ends]
      rfl
    exact hrest ▸ h.shows

/-- The end of the input was read before. -/
theorem pointsInto_ending (h : reader.Tracks text) (hend : reader.chain.ending? = some link) :
    link.PointsInto text ∧ link.raw.toList = [] ∧ reader.cursor.rest = [] := by
  obtain ⟨hlast, hk⟩ := ending?_eq_some hend
  have hmem := List.mem_of_getLast? hlast
  have hraw := h.sound.raw_eq_nil hmem hk
  have hshows := h.ended link hmem hk
  refine ⟨⟨h.sound.spells link hmem, by rw [hk]; rfl, ⟨[], ?_⟩, fun _ => hshows⟩, hraw,
    (h.sound.ended link hmem hk).2⟩
  rw [hraw]
  exact hshows

end Tracks

namespace Trails

theorem append (h : reader.Trails text links) (hl : link.PointsInto text)
    {after : Reader} (ha : after.Tracks text)
    (hrest : reader.cursor.rest = link.raw.toList ++ after.cursor.rest)
    (hplace : link.location.Shows text reader.cursor.rest) : after.Trails text (links ++ [link]) := by
  have hspelled : Link.spelled (links ++ [link]) ++ after.cursor.rest =
      Link.spelled links ++ reader.cursor.rest := by
    rw [hrest, Link.spelled_append, List.append_assoc]
    simp
  refine ⟨ha, ?_, hspelled ▸ h.adjoin.suffix, fun head hhead => ?_⟩
  · exact List.forall_mem_append.2 ⟨h.points, by simpa using hl⟩
  · rw [hspelled]
    cases links with
    | nil =>
      cases hhead
      exact hplace
    | cons first links => exact h.adjoin.shows head hhead

theorem read (h : reader.Trails text links) (hn : raw = [] → reader.chain.ending? = none)
    (ht : reader.cursor.rest = raw ++ tail) (hl : IsLexeme kind raw tail) (hk : kind.isTrivia = false) :
    (reader.pass kind raw.length).Trails text (links ++ [reader.nextLink kind raw.length]) := by
  refine h.append (h.pointsInto_nextLink ht hl hk) (h.pass hn ht hl) ?_ h.shows
  rw [nextLink_raw ht, rest_pass ht, ht]

theorem ending (h : reader.Trails text links) (hend : reader.chain.ending? = some link) :
    reader.Trails text (links ++ [link]) := by
  obtain ⟨hpoints, hraw, hrest⟩ := h.pointsInto_ending hend
  refine h.append hpoints h.toTracks (by rw [hraw]; rfl) ?_
  rw [hrest]
  obtain ⟨hlast, hk⟩ := ending?_eq_some hend
  exact h.ended link (List.mem_of_getLast? hlast) hk

end Trails

end Reader

/-! ## The coupling of a run with itself -/

namespace Link

variable {link : Link}

theorem PointsInto.describe (h : link.PointsInto text) (expected : Expectation) :
    (Error.unexpected link expected).PointsInto text := by
  by_cases hk : link.kind = .endOfInput
  · refine ⟨[], h.ended hk, .inl ⟨?_, rfl⟩⟩
    rw [Token.describe, show link.token.kind = _ from hk]
  · obtain ⟨rest, hshows⟩ := h.shows
    have hdescribe : link.token.describe = link.raw := by
      unfold Token.describe
      split
      · exact absurd ‹_› hk
      · rfl
    refine ⟨_, hshows, .inr ⟨?_, ?_, h.spells.startsTrivia_eq_false h.significant hk rest⟩⟩
    · rw [hdescribe]
      exact fun hnil => h.spells.ne_nil hk (by rw [hnil]; rfl)
    · rw [hdescribe]
      exact List.prefix_append _ _

end Link

/-- A name that is a stretch of the text is found there. -/
theorem DottedName.shows_text {name : DottedName} (hpoints : ∀ link ∈ name.links, link.PointsInto text)
    (hadjoin : Link.Adjoin text name.links rest) (hk : name.head.kind ≠ .endOfInput) :
    ∃ rest, name.head.location.Shows text rest ∧ name.text ≠ "" ∧ name.text.toList <+: rest ∧
      startsTrivia rest = false := by
  have hhead := hpoints name.head List.mem_cons_self
  have htext : name.text.toList = Link.spelled name.links := (Link.spelled_eq name.links).symm
  have hspelled : Link.spelled name.links = name.head.raw.toList ++ Link.spelled name.tail := rfl
  refine ⟨_, hadjoin.shows name.head rfl, fun hnil => ?_, ?_, ?_⟩
  · rw [hnil, hspelled] at htext
    exact hhead.spells.ne_nil hk (List.append_eq_nil_iff.1 htext.symm).1
  · rw [htext]
    exact List.prefix_append _ _
  · rw [hspelled, List.append_assoc]
    exact hhead.spells.startsTrivia_eq_false hhead.significant hk _

open Parse Reader

/-- What is known of the first error of a run that goes on from a reader that stands in the text. -/
def pointing (text : List Char) : TokenCoupling where
  errors error _ := error.PointsInto text
  failed reader := reader.Ready text
  gone _ := False
  exempt error _ := error = .stalled
  gone_onward _ h := h
  exempt_stalled _ := rfl
  left := id
  right := id
  links l m := l = m ∧ l.PointsInto text
  words xs ys := xs = ys ∧ (∀ link ∈ xs, link.PointsInto text) ∧ ∃ rest, Link.Adjoin text xs rest
  trail xs ys r s := r = s ∧ xs = ys ∧ r.Trails text xs
  amid r s := r = s ∧ r.Tracks text
  kind_eq h := congrArg Link.kind h.1
  raw_eq h := congrArg Link.raw h.1
  id_eq h := congrArg Link.id h.1
  links_of_words := by
    rintro xs _ ⟨rfl, hpoints, -⟩
    exact List.forall₂_same.2 fun link hl => ⟨rfl, hpoints link hl⟩
  words_of_trail h := ⟨h.2.1, h.2.2.points, _, h.2.2.adjoin⟩
  freed := by
    rintro _ _ r _ ⟨rfl, -, h⟩
    exact ⟨h.held, h.held⟩
  free_of_trail h := ⟨h.1, rfl, h.2.2.toTracks.trails⟩
  trail_round := by
    rintro _ _ r _ ⟨rfl, rfl, h⟩
    exact ⟨rfl, rfl, h.toTracks.round, h.points, h.adjoin⟩
  amid_round := by
    rintro r _ ⟨rfl, h⟩
    exact ⟨rfl, h.round⟩
  amid_freed := by
    rintro r _ ⟨rfl, h⟩
    exact ⟨h.held, h.held⟩
  amid_of_free h := ⟨h.1, h.2.2.toTracks⟩
  dot_iff h := by rw [h.1]
  peek_eq h _ := by rw [h.1]
  signed_eq h _ := by rw [h.1]
  ending := by
    rintro xs _ r _ ⟨rfl, rfl, h⟩
    cases hend : r.chain.ending? with
    | none => exact .inl ⟨rfl, rfl⟩
    | some link => exact .inr ⟨link, link, rfl, rfl, ⟨rfl, (h.pointsInto_ending hend).1⟩, rfl, rfl,
        h.ending hend⟩
  read := by
    rintro xs _ r _ kind raw tail ⟨rfl, rfl, h⟩ hn ht hl hk
    exact .inr ⟨tail, ht, hl, ⟨rfl, h.pointsInto_nextLink ht hl hk⟩, rfl, rfl, h.read hn ht hl hk⟩
  readTrivia := by
    rintro r _ kind raw tail ⟨rfl, -, h⟩ ht hl hk
    exact .inr ⟨kind, raw, tail, ht, hl, hk, rfl,
      h.pass (absurd · (hl.spells.ne_nil (ne_endOfInput_of_trivia hk))) ht hl⟩
  chainTrivia := by
    refine (chainTrivia_couples (P := fun r s => r = s ∧ r.Tracks text) ?_ ?_ ?_ ?_ ?_ ?_).weaken
      fun h => ⟨⟨h.1.1, rfl, h.1.2.trails⟩, h.2⟩
    · rintro r _ ⟨rfl, h⟩
      exact ⟨h.held, h.held⟩
    · rintro r _ ⟨rfl, h⟩
      exact ⟨rfl, h.round⟩
    · rintro r _ ⟨rfl, -⟩
      rfl
    · rintro r _ ⟨rfl, h⟩ hrest
      have hn := h.sound.ending?_eq_none (ne_nil_of_startsTrivia hrest)
      exact ⟨hn, hn⟩
    · rintro r _ kind raw tail ⟨rfl, h⟩ ht hl hk
      exact .inr ⟨tail, ht, hl, rfl,
        h.pass (absurd · (hl.spells.ne_nil (ne_endOfInput_of_trivia hk))) ht hl⟩
    · rintro r _ fault ⟨rfl, h⟩ hfirst
      exact .inr ⟨hfirst, fun n => (h.drop n).ready, _, h.shows, stands_of_first hfirst⟩
  fault := by
    rintro r _ fault ⟨rfl, -, h⟩ hfirst
    exact .inr ⟨hfirst, fun n => (h.toTracks.drop n).ready, _, h.shows, stands_of_first hfirst⟩
  unclosed := by
    rintro r _ quote body length ⟨rfl, -, h⟩ ht hq hstring
    refine .inr ⟨body, length, ht, hstring, fun n => (h.toTracks.drop n).ready, _, h.shows, ?_⟩
    rw [ht]
    exact stands_of_string hq hstring
  failed_of_free h := h.2.2.toTracks.ready
  failed_hold := by
    rintro l _ r _ ⟨rfl, -⟩ hmem ⟨rfl, -, h⟩
    rw [← release_hold h.held] at h
    refine ⟨h.toTracks, fun link hl => ?_⟩
    cases hl
    exact .inr ⟨hmem, h⟩
  failed_trivia := by
    rintro l r _ hk ⟨rfl, h⟩
    rw [← release_hold h.held] at h
    refine ⟨h, fun link hl => ?_⟩
    cases hl
    exact .inl hk
  unexpected h expected := h.2.describe expected
  invalid := by
    rintro l _ ⟨rfl, h⟩ hk
    obtain ⟨rest, hshows⟩ := h.shows
    exact ⟨_, hshows, fun hnil => h.spells.ne_nil (by simp [hk]) (by rw [hnil]; rfl),
      List.prefix_append _ _⟩
  misplaced := by
    rintro a b ⟨-, hpoints, _, hadjoin⟩ hk
    obtain ⟨rest, hshows, hne, hprefix, hrest⟩ := DottedName.shows_text hpoints hadjoin hk
    exact ⟨rest, hshows, .inr ⟨hne, hprefix, hrest⟩⟩
  named := by
    rintro a b ⟨-, hpoints, _, hadjoin⟩ hk
    obtain ⟨rest, hshows, hne, hprefix, -⟩ := DottedName.shows_text hpoints hadjoin hk
    exact ⟨rest, hshows, hne, hprefix⟩

theorem Reader.Ready.readers {reader : Reader} (h : reader.Ready text) (hs : reader.Sound) :
    (pointing text).readers reader reader := by
  cases hh : reader.held with
  | none =>
    have htracks := h.tracks
    rw [release_eq hh] at htracks
    exact .free ⟨rfl, rfl, htracks.trails⟩
  | some link =>
    rw [← hold_release hh]
    have hl : link ∈ reader.release.chain.links := hs.held_mem link hh
    rcases h.held link hh with hk | ⟨hmem, htrails⟩
    · exact .trivia hk hk hl hl ⟨rfl, h.tracks⟩
    · exact .held ⟨⟨rfl, htrails.points link List.mem_cons_self⟩, hmem, hmem, rfl, rfl, htrails⟩

namespace Call

variable {reader after : Reader}

/-- Whether a call succeeds or fails, reading may go on after it. -/
theorem run_ready (call : Call) (hs : reader.Steady) (h : reader.Ready text) :
    (∀ nodes after, call.run reader = .ok nodes after → after.Ready text) ∧
    ∀ error after, call.run reader = .error error after →
      after.Ready text ∧ error.PointsInto text := by
  have hrun := (call.run_couples (S := pointing text)).outcome (h.readers hs.toSound)
  refine ⟨fun nodes after ha => ?_, fun error after ha => ?_⟩
  · rw [ha] at hrun
    cases hrun with
    | ok hreaders => exact hreaders.failed
    | gone hgone => exact hgone.elim
  · have hstalled := call.ne_stalled hs ha
    rw [ha] at hrun
    cases hrun with
    | error herrors hready => exact ⟨hready, herrors⟩
    | gone hgone => exact hgone.elim
    | exempt h => exact absurd h hstalled
    | stalled => exact absurd rfl hstalled

theorem resume_ready (calls : List Call) (hs : reader.Steady) (h : reader.Ready text) :
    (resume calls reader).Ready text := by
  induction calls generalizing reader with
  | nil => exact h
  | cons call calls ih =>
    have hrun := call.run_ready hs h
    have hsteady := resume_steady [call] hs
    unfold resume at hsteady ⊢
    cases hres : call.run reader with
    | ok nodes after =>
      rw [hres] at hsteady
      exact ih hsteady (hrun.1 nodes after hres)
    | error error after =>
      rw [hres] at hsteady
      exact ih hsteady (hrun.2 error after hres).1

/-- Whatever was called upon a text before, the error of a call points into the text; and so does every
error in a text, also in one that is read from bytes. -/
theorem resume_pointsInto (text : String) :
    (∀ calls call error after, Call.run call (resume calls (.ofText text.toList)) = .error error after →
      error.PointsInto text.toList) ∧
    (∀ options error, SyntaxTree.ofText text options = .error error →
      error.PointsInto text.toList) ∧
    ∀ bytes error, String.fromUTF8? bytes = some text → SyntaxTree.ofBytes bytes = .error error →
      error.PointsInto text.toList := by
  have hcalls : ∀ calls call error after,
      Call.run call (resume calls (.ofText text.toList)) = .error error after →
        error.PointsInto text.toList := fun calls call error after h =>
    ((call.run_ready (resume_steady calls (steady_ofText text.toList))
      (resume_ready calls (steady_ofText _) (tracks_ofText _).ready)).2 error after h).2
  have htext : ∀ options error, SyntaxTree.ofText text options = .error error →
      error.PointsInto text.toList := by
    intro options error h
    unfold SyntaxTree.ofText at h
    split at h
    · cases h
    · rename_i after hrun
      cases h
      exact hcalls [] (.document options) error after (map_eq_error.2 hrun)
  refine ⟨hcalls, htext, fun bytes error hbytes h => htext {} error ?_⟩
  rwa [SyntaxTree.ofBytes, hbytes] at h

/-- A name that ends with a dot is no constant, and leaves the blank behind it put back; what follows the
blank is a comment that goes on to the end. -/
theorem resume_pointsInto_comment :
    ∃ after, annotations.run (resume [constValue] (.ofText "a. /*".toList)) =
        .error (.lexical .unterminatedComment ⟨3, 1, 4⟩) after ∧
      Error.PointsInto "a. /*".toList (.lexical .unterminatedComment ⟨3, 1, 4⟩) := by
  let run : Parse.Result (List Node) := annotations.run (resume [constValue] (.ofText "a. /*".toList))
  have h : run = .error (.lexical .unterminatedComment ⟨3, 1, 4⟩) run.final :=
    Result.eq_error (by decide +kernel)
  exact ⟨_, h, (resume_pointsInto "a. /*").1 [constValue] annotations _ _ h⟩

end Call

end ThriftSyntax
