import ThriftSyntax.Proofs.Session.Skipping

/-!
# Looking ahead

The character that is seen ahead is what the next token begins with, and to look ahead chains the blanks
and comments before that token and nothing else, whatever was read or failed or was put back before.
-/

namespace ThriftSyntax

namespace Reader

open Parse Lexeme

/-- What it is to look ahead, from this reader on. -/
structure LooksAhead (reader : Reader) : Prop where
  /-- A character that is seen begins the token that is taken next, or else it begins none. -/
  found : ∀ {c after}, peekSignificant reader = .ok (some c) after →
    (∃ link last, take after = .ok link last ∧ link.kind.isTrivia = false ∧
      link.kind ≠ .endOfInput ∧ link.raw.toList.head? = some c) ∨
    ∃ last, take after = .error (.lexical (.unexpectedCharacter c) after.cursor.location) last
  /-- Where none is seen, the end of the input is taken next. -/
  ended : ∀ {after}, peekSignificant reader = .ok none after →
    ∃ link last, take after = .ok link last ∧ link.kind = .endOfInput
  /-- To look once more sees the same and chains nothing. -/
  again : ∀ {c after}, peekSignificant reader = .ok c after →
    ∃ last, peekSignificant after = .ok c last ∧ last.chain = after.chain ∧
      last.cursor = after.cursor ∧ last.held = after.held
  /-- A significant token that was put back is what is seen. -/
  stays : ∀ {link}, reader.held = some link → link.kind.isTrivia = false →
    peekSignificant reader = .ok link.raw.toList.head? reader
  /-- Otherwise the blanks and comments from the cursor on are chained, up to where neither of them
  begins. -/
  chains : (∀ link ∈ reader.held, link.kind.isTrivia = true) →
    ∀ {c after}, peekSignificant reader = .ok c after → after.held = none ∧
      ∃ gap, LeadingGap reader.cursor.rest gap after.cursor.rest ∧
        after.chain.links = reader.chain.links ++ gap
  /-- It fails only at a comment that is left open, and chains the blanks and comments before it. -/
  fails : ∀ {error after}, peekSignificant reader = .error error after →
    (∀ link ∈ reader.held, link.kind.isTrivia = true) ∧
      ∃ gap rest place, reader.cursor.rest = Link.spelled gap ++ rest ∧ Link.IsGap gap ∧
        OpensComment rest ∧ error = .lexical .unterminatedComment place ∧
        after.chain.links = reader.chain.links ++ gap
  /-- The next significant token is neither a blank nor a comment. -/
  takes : ∀ {link after}, takeSignificant reader = .ok link after → link.kind.isTrivia = false

variable {reader after : Reader} {source text : List Char} {done : List Link} {c : Char}

/-! ## The token after what is seen -/

/-- Where nothing but a token comes next, its first character tells what is taken. -/
theorem At.take_of_head (h : reader.At source done text) (hclear : startsTrivia text = false)
    (hc : text.head? = some c) :
    (∃ link last, take reader = .ok link last ∧ link.kind.isTrivia = false ∧
      link.kind ≠ .endOfInput ∧ link.raw.toList.head? = some c) ∨
    ∃ last, take reader = .error (.lexical (.unexpectedCharacter c) reader.cursor.location) last := by
  have htakes := h.take_takes
  generalize take reader = result at htakes
  cases htakes with
  | @token link last tail hfrom ht hl =>
    have hk : link.kind ≠ .endOfInput := by
      intro hk
      have hends := hk ▸ hl.ends
      obtain rfl : tail = [] := hends
      rw [ht, (show Spells .endOfInput link.raw.toList from hk ▸ hl.spells).eq_nil] at hc
      cases hc
    refine .inl ⟨link, last, rfl, ?_, hk, ?_⟩
    · rw [← hl.startsTrivia_eq, ← ht, hclear]
    · obtain ⟨d, front, hraw⟩ := List.exists_cons_of_ne_nil (hl.spells.ne_nil hk)
      rw [ht, hraw] at hc
      rw [hraw]
      exact hc
  | again _ ht =>
    rw [ht] at hc
    cases hc
  | @fault fault n _ hfault =>
    refine .inr ⟨reader.drop n, ?_⟩
    rcases first_eq_error hfault with ⟨d, rfl, hstray⟩ | ⟨rfl, -⟩
    · obtain rfl := Option.some.inj (hc.symm.trans hstray.head)
      rfl
    · cases hclear.symm.trans (OpensComment.startsTrivia hfault)

theorem At.take_of_nil (h : reader.At source done []) :
    ∃ link last, take reader = .ok link last ∧ link.kind = .endOfInput := by
  have htakes := h.take_takes
  generalize take reader = result at htakes
  cases htakes with
  | @token link last tail hfrom ht hl =>
    refine ⟨link, last, rfl, ?_⟩
    by_contra hk
    exact hl.spells.ne_nil hk (List.append_eq_nil_iff.1 ht.symm).1
  | @again link _ _ _ hk => exact ⟨link, reader, rfl, hk⟩
  | fault _ hfault => cases hfault

theorem At.isTrivia_of_take {link : Link} (h : reader.At source done text)
    (hclear : startsTrivia text = false) (htake : take reader = .ok link after) :
    link.kind.isTrivia = false := by
  have htakes := h.take_takes
  rw [htake] at htakes
  cases htakes with
  | token _ ht hl => rw [← hl.startsTrivia_eq, ← ht, hclear]
  | again _ _ _ hk => rw [hk]; rfl

/-! ## What is seen -/

theorem peek_of_skipTrivia (hs : reader.Sound) (hskip : skipTrivia reader = .ok () after) :
    peek after = .ok after.next? after :=
  peek_eq (((skipTrivia_runs hs).ok _ _ hskip).1.sound hs).held_mem

theorem peekSignificant_eq_ok (hs : reader.Sound) {seen : Option Char} :
    peekSignificant reader = .ok seen after ↔
      skipTrivia reader = .ok () after ∧ after.next? = seen := by
  rw [peekSignificant, unit_bind_eq_ok]
  constructor
  · rintro ⟨between, hskip, hpeek⟩
    cases (peek_of_skipTrivia hs hskip).symm.trans hpeek
    exact ⟨hskip, rfl⟩
  · rintro ⟨hskip, rfl⟩
    exact ⟨after, hskip, peek_of_skipTrivia hs hskip⟩

theorem skipTrivia_fails (hs : reader.Sound) {error : Error}
    (h : peekSignificant reader = .error error after) : skipTrivia reader = .error error after := by
  rcases bind_eq_error.1 h with hskip | ⟨_, between, hskip, hpeek⟩
  · exact hskip
  · cases (peek_of_skipTrivia hs hskip).symm.trans hpeek

/-- What is passed over where no significant token was put back. -/
theorem skipTrivia_outcome (hs : reader.Sound) (hl : reader.Lexes source)
    (hh : ∀ link ∈ reader.held, link.kind.isTrivia = true) :
    (∃ gap rest after, skipTrivia reader = .ok () after ∧ after.held = none ∧
      LeadingGap reader.cursor.rest gap rest ∧
      after.At source (reader.chain.links ++ gap) rest) ∨
    ∃ (gap : List Link) (rest : List Char) (last : Reader) (n : Nat), skipTrivia reader =
        .error (.lexical .unterminatedComment last.cursor.location) (last.drop n) ∧
      reader.cursor.rest = Link.spelled gap ++ rest ∧ Link.IsGap gap ∧ OpensComment rest ∧
      last.chain.links = reader.chain.links ++ gap := by
  have hat : reader.release.At source reader.chain.links reader.cursor.rest :=
    at_self (Move.release.sound hs) ⟨hl.shows, hl.tokens⟩ rfl
  rw [skipTrivia_idle hs hh]
  obtain ⟨gap, rest, ht, hgap, hlexed, hrest | hopen⟩ := exists_leadingGap reader.cursor.rest
  · have hleading : LeadingGap reader.cursor.rest gap rest := ⟨ht, hgap, hlexed, hrest⟩
    obtain ⟨links, after, hskip, hheld, hlexemes, hat⟩ := hat.chainTrivia_clear rfl hleading
    exact .inl ⟨links, rest, after, hskip, hheld, hleading.congr hlexemes, hat⟩
  · obtain ⟨links, last, n, hskip, hheld, hlexemes, hat⟩ :=
      hat.chainTrivia_open rfl ht hgap hlexed hopen
    refine .inr ⟨links, rest, last, n, hskip, ?_, hgap.congr hlexemes, hopen, hat.chain_eq hheld⟩
    rw [ht, Link.spelled_congr hlexemes]

theorem skipTrivia_significant (hs : reader.Sound) {link : Link} (hh : reader.held = some link)
    (hk : link.kind.isTrivia = false) : skipTrivia reader = .ok () reader := by
  rw [skipTrivia_of_held hh (hs.held_mem link hh), if_neg (by simp [hk])]

/-- Whether all that was put back is a blank or a comment, if anything, or a significant token. -/
theorem held_cases (reader : Reader) : (∀ link ∈ reader.held, link.kind.isTrivia = true) ∨
    ∃ link, reader.held = some link ∧ link.kind.isTrivia = false := by
  cases hh : reader.held with
  | none => exact .inl (by simp)
  | some link =>
    cases hk : link.kind.isTrivia with
    | true => exact .inl (by simp [hk])
    | false => exact .inr ⟨link, rfl, hk⟩

/-- What was passed over: nothing before a significant token that was put back, and the gap at the cursor
before any other. -/
theorem skipTrivia_cases (hs : reader.Sound) (hl : reader.Lexes source)
    (hskip : skipTrivia reader = .ok () after) :
    (∃ link, reader.held = some link ∧ link.kind.isTrivia = false ∧ after = reader) ∨
    (∀ link ∈ reader.held, link.kind.isTrivia = true) ∧ after.held = none ∧
      ∃ gap, LeadingGap reader.cursor.rest gap after.cursor.rest ∧
        after.At source (reader.chain.links ++ gap) after.cursor.rest := by
  rcases held_cases reader with hh | ⟨link, hh, hk⟩
  · refine .inr ⟨hh, ?_⟩
    rcases skipTrivia_outcome hs hl hh with
      ⟨gap, rest, between, hrun, hheld, hgap, hat⟩ | ⟨gap, rest, last, n, hrun, -⟩
    · cases hskip.symm.trans hrun
      obtain rfl := hat.rest_eq hheld
      exact ⟨hheld, gap, hgap, hat⟩
    · cases hskip.symm.trans hrun
  · cases hskip.symm.trans (skipTrivia_significant hs hh hk)
    exact .inl ⟨link, hh, hk, rfl⟩

/-- From any sound reader of a text looking ahead is faithful. -/
theorem Sound.looksAhead (hs : reader.Sound) (hl : reader.Lexes source) : reader.LooksAhead where
  found {c after} hpeek := by
    obtain ⟨hskip, hnext⟩ := (peekSignificant_eq_ok hs).1 hpeek
    rcases skipTrivia_cases hs hl hskip with ⟨link, hh, hk, rfl⟩ | ⟨-, hh, gap, hgap, hat⟩
    · have hc : link.raw.toList.head? = some c := by rwa [next?, hh] at hnext
      refine .inl ⟨link, after.release, take_of_held hh (hs.held_mem link hh), hk, fun hend => ?_, hc⟩
      rw [hs.raw_eq_nil (hs.held_mem link hh) hend] at hc
      cases hc
    · exact hat.take_of_head hgap.clear (by rwa [next?, hh] at hnext)
  ended {after} hpeek := by
    obtain ⟨hskip, hnext⟩ := (peekSignificant_eq_ok hs).1 hpeek
    rcases skipTrivia_cases hs hl hskip with ⟨link, hh, -, rfl⟩ | ⟨-, hh, gap, -, hat⟩
    · refine ⟨link, after.release, take_of_held hh (hs.held_mem link hh), ?_⟩
      by_contra hk
      rw [next?, hh] at hnext
      exact hs.raw_ne_nil (hs.held_mem link hh) hk (List.head?_eq_none_iff.1 hnext)
    · rw [next?, hh] at hnext
      rw [List.head?_eq_none_iff.1 hnext] at hat
      exact hat.take_of_nil
  again {seen after} hpeek := by
    obtain ⟨hskip, hnext⟩ := (peekSignificant_eq_ok hs).1 hpeek
    rcases skipTrivia_cases hs hl hskip with ⟨link, -, -, rfl⟩ | ⟨-, hh, gap, hgap, -⟩
    · exact ⟨after, hpeek, rfl, rfl, rfl⟩
    · have hs' := ((skipTrivia_runs hs).ok _ _ hskip).1.sound hs
      exact ⟨after.round, (peekSignificant_eq_ok hs').2 ⟨skipTrivia_of_rest hh hgap.clear, hnext⟩,
        rfl, rfl, rfl⟩
  stays hh hk := by
    refine (peekSignificant_eq_ok hs).2 ⟨skipTrivia_significant hs hh hk, ?_⟩
    rw [next?, hh]
    rfl
  chains hh {seen after} hpeek := by
    obtain ⟨hskip, -⟩ := (peekSignificant_eq_ok hs).1 hpeek
    rcases skipTrivia_cases hs hl hskip with ⟨link, hlink, hk, -⟩ | ⟨-, hheld, gap, hgap, hat⟩
    · cases hk.symm.trans (hh link hlink)
    · exact ⟨hheld, gap, hgap, hat.chain_eq hheld⟩
  fails {error after} hpeek := by
    have hskip := skipTrivia_fails hs hpeek
    rcases held_cases reader with hh | ⟨link, hh, hk⟩
    · rcases skipTrivia_outcome hs hl hh with
        ⟨gap, rest, between, hrun, -⟩ | ⟨gap, rest, last, n, hrun, ht, hgap, hopen, hlinks⟩
      · cases hskip.symm.trans hrun
      · cases hskip.symm.trans hrun
        exact ⟨hh, gap, rest, _, ht, hgap, hopen, rfl, hlinks⟩
    · cases hskip.symm.trans (skipTrivia_significant hs hh hk)
  takes {link after} htake := by
    obtain ⟨_, between, hskip, htaken⟩ := bind_eq_ok.1 htake
    rcases skipTrivia_cases hs hl hskip with ⟨other, hh, hk, rfl⟩ | ⟨-, hh, gap, hgap, hat⟩
    · cases (take_of_held hh (hs.held_mem other hh)).symm.trans htaken
      exact hk
    · exact hat.isTrivia_of_take hgap.clear htaken

end Reader

/-- Whatever was asked of a reader or called upon a parser, also after errors, and whichever token of the
chain was put back: looking ahead is faithful. -/
theorem session_looksAhead (text : String) :
    (∀ requests, (Request.session text requests).2.LooksAhead) ∧
      ∀ calls, (Call.resume calls (.ofText text.toList)).LooksAhead := by
  refine ⟨fun requests => ?_, fun calls => ?_⟩
  · exact (Request.session_sound text requests).looksAhead (Request.session_lexes text requests).1
  · exact (Call.resume_steady calls (Reader.steady_ofText text.toList)).toSound.looksAhead
      (Call.resume_lexes text calls)

/-- A token is put back behind a blank. Once it was taken again a comment is passed over, and the
character behind that begins no token. -/
theorem session_looksAhead_percent :
    let reader := (Request.session "ab /*c*/%" [.take, .take, .putBack 0]).2
    let next := (Request.session "ab /*c*/%" [.take, .take, .putBack 0, .take]).2
    Parse.peekSignificant reader = .ok (some 'a') reader ∧
    ∃ after last gap, Parse.peekSignificant next = .ok (some '%') after ∧
      Parse.take after = .error (.lexical (.unexpectedCharacter '%') after.cursor.location) last ∧
      LeadingGap "/*c*/%".toList gap after.cursor.rest ∧
      after.chain.links = next.chain.links ++ gap := by
  intro reader next
  have hlooks := (session_looksAhead "ab /*c*/%").1
  constructor
  · have hheld : reader.held = some ⟨0, .ident, "ab", .start⟩ := by decide
    exact (hlooks _).stays hheld rfl
  · obtain ⟨after, hpeek⟩ := Parse.exists_of_run'
      (show Parse.peekSignificant.run' next = some (some '%') by decide +kernel)
    have hnone : (Parse.peekSignificant >>= fun _ => Parse.take).run' next = none := by decide +kernel
    have hidle : ∀ link ∈ next.held, link.kind.isTrivia = true := by
      rw [show next.held = none by decide]
      simp
    have hrest : next.cursor.rest = "/*c*/%".toList := by decide
    obtain ⟨-, gap, hgap, hlinks⟩ := (hlooks _).chains hidle hpeek
    rcases (hlooks _).found hpeek with ⟨link, last, htake, -⟩ | ⟨last, htake⟩
    · cases hnone.symm.trans (Parse.run'_of_ok (Parse.bind_eq_ok.2 ⟨_, after, hpeek, htake⟩))
    · exact ⟨after, last, gap, hpeek, htake, hrest ▸ hgap, hlinks⟩

end ThriftSyntax
