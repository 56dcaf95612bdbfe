import ThriftSyntax.Proofs.Reader.Position
import ThriftSyntax.Proofs.Success
import ThriftSyntax.Reader.Token

/-!
# Reading one token

What the actions on single tokens do to the position of a reader, each said twice: what a successful
run has read, and that a run succeeds where the right token comes next.
-/

namespace ThriftSyntax

namespace Reader

/-- From `reader` to `after`, exactly `links` are passed over. -/
def Passes (reader : Reader) (links : List Link) (after : Reader) : Prop :=
  ∀ all rest ahead, after.Before all rest ahead → reader.Before all rest (links ++ ahead)

theorem Passes.refl (reader : Reader) : reader.Passes [] reader := fun _ _ _ h => h

theorem Passes.trans {reader between after : Reader} {xs ys : List Link}
    (h : reader.Passes xs between) (h' : between.Passes ys after) :
    reader.Passes (xs ++ ys) after := by
  intro all rest ahead ha
  rw [List.append_assoc]
  exact h _ _ _ (h' _ _ _ ha)

/-- `after` is `reader` once it has read `link`. The end of the input may have been read with it, so
`after` need not be valid. -/
structure Took (reader : Reader) (link : Link) (after : Reader) : Prop where
  spells : Lexeme.Spells link.kind link.raw.toList
  held : after.held = none
  last : after.chain.links.getLast? = some link
  ended : ∀ other ∈ after.chain.links, other.kind = .endOfInput → other = link
  passes : reader.Passes [link] after

variable {reader after : Reader} {link : Link}

theorem Took.valid (h : reader.Took link after) (hk : link.kind ≠ .endOfInput) : after.Valid where
  held_last _ hh := by
    rw [h.held] at hh
    cases hh
  held_plain _ hh := by
    rw [h.held] at hh
    cases hh
  ended other ho hk' := by
    rw [h.ended other ho hk'] at hk'
    exact absurd hk' hk

/-- A token that was read may be put back. -/
theorem Took.valid_hold (h : reader.Took link after) (hp : link.Plain) :
    (after.hold link).Valid where
  held_last other hh := by
    cases hh
    exact h.last
  held_plain other hh := by
    cases hh
    exact hp
  ended other ho hk := by rw [h.ended other ho hk]; rfl

theorem Took.passes_hold (h : reader.Took link after) : reader.Passes [] (after.hold link) := by
  intro all rest ahead ha
  obtain ⟨done, tail, -, -, rfl, -, -⟩ := id ha
  exact h.passes _ _ _ ((before_hold h.last h.held).1 ha)

/-- A reader that has nothing put back stands before nothing of what it has read so far. -/
theorem before_self (hh : reader.held = none) :
    reader.Before reader.chain.links reader.cursor.rest [] :=
  ⟨reader.chain.links, [], by simp [hh], by simp, by simp [hh], rfl, trivial⟩

/-- A reader stands before the token that is put back, if anything. -/
theorem Valid.before_held (hr : reader.Valid) :
    reader.Before reader.chain.links reader.cursor.rest reader.held.toList := by
  cases hh : reader.held with
  | none => exact before_self hh
  | some link =>
    obtain ⟨front, hfront⟩ := List.getLast?_eq_some_iff.1 (hr.held_last link hh)
    exact ⟨front, [], by simp [hfront, hh], hfront, by simp [hh], rfl, trivial⟩

theorem Took.exists_before (h : reader.Took link after) :
    ∃ all rest, reader.Before all rest [link] :=
  ⟨_, _, h.passes _ _ _ (before_self h.held)⟩

theorem took_pass {kind : Kind} {raw tail : List Char} (hr : reader.Valid)
    (hh : reader.held = none) (ht : reader.cursor.rest = raw ++ tail)
    (hl : Lexeme.IsLexeme kind raw tail) :
    reader.Took (reader.nextLink kind raw.length) (reader.pass kind raw.length) where
  spells := by
    rw [nextLink_raw ht]
    exact hl.spells
  held := hh
  last := by simp [links_pass]
  ended other ho hk := by
    rw [links_pass, List.mem_append, List.mem_singleton] at ho
    rcases ho with ho | ho
    · have := hr.ended other ho hk
      rw [hh] at this
      cases this
    · exact ho
  passes _ _ _ h := before_of_pass hh ht hl h

theorem took_release (hr : reader.Valid) (hh : reader.held = some link) :
    reader.Took link reader.release where
  spells := (hr.held_plain link hh).spells
  held := rfl
  last := hr.held_last link hh
  ended other ho hk := by
    have := hr.ended other ho hk
    rw [hh] at this
    exact (Option.some.inj this).symm
  passes _ _ _ h := (before_release (hr.held_last link hh) hh).1 h

variable {all ahead : List Link} {rest : List Char}

/-- The held token comes next. -/
theorem held_eq (hh : reader.held = some link) {other : Link}
    (h : reader.Before all rest (other :: ahead)) : other = link := by
  obtain ⟨done, tail, -, -, hlinks, -, -⟩ := h
  rw [hh] at hlinks
  exact (List.cons.inj hlinks).1

/-- The reader stands before a token that is no trivia. -/
structure AtToken (reader : Reader) : Prop where
  held : ∀ link, reader.held = some link → link.kind.isTrivia = false
  rest : reader.held = none → Lexeme.startsTrivia reader.cursor.rest = false

theorem AtToken.not_trivia (ha : AtToken reader) (h : reader.Before all rest (link :: ahead)) :
    link.kind.isTrivia = false := by
  cases hh : reader.held with
  | some other =>
    obtain rfl := held_eq hh h
    exact ha.held link hh
  | none =>
    obtain ⟨ht, hl, -, -⟩ := pass_of_before hh h
    rw [← hl.startsTrivia_eq, ← ht]
    exact ha.rest hh

end Reader

namespace Parse

open Reader

variable {reader after : Reader} {link : Link} {all ahead : List Link} {rest : List Char}

/-! ## Looking tokens up -/

theorem token_eq (h : link ∈ reader.chain.links) : token link.id reader = .ok link reader := by
  rw [token, get_bind, TokenChain.link?_of_mem h]
  rfl

theorem token_or (id : Nat) (reader : Reader) :
    (∃ link ∈ reader.chain.links, link.id = id ∧ token id reader = .ok link reader) ∨
      token id reader = .error .stalled reader := by
  rw [token, get_bind]
  cases h : reader.chain.link? id with
  | none => exact .inr rfl
  | some link =>
    obtain ⟨hl, hid⟩ := TokenChain.mem_of_link? h
    exact .inl ⟨link, hl, hid, rfl⟩

/-- What comes of looking up the held token. -/
inductive FindsHeld (reader : Reader) : Result (Option Link) → Prop
  | free (hh : reader.held = none) : FindsHeld reader (.ok none reader)
  | found {waiting link : Link} (hh : reader.held = some waiting) (hl : link ∈ reader.chain.links)
      (hid : link.id = waiting.id) : FindsHeld reader (.ok (some link) reader)
  | missing {waiting : Link} (hh : reader.held = some waiting)
      (hl : waiting ∉ reader.chain.links) : FindsHeld reader (.error .stalled reader)

theorem held?_finds (reader : Reader) : FindsHeld reader (held? reader) := by
  rw [held?, get_bind]
  cases hh : reader.held with
  | none => exact .free hh
  | some waiting =>
    show FindsHeld reader ((some <$> token waiting.id) reader)
    rw [token, map_bind, get_bind]
    cases hlink : reader.chain.link? waiting.id with
    | none =>
      refine .missing hh fun hl => ?_
      rw [TokenChain.link?_of_mem hl] at hlink
      cases hlink
    | some link =>
      obtain ⟨hmem, hid⟩ := TokenChain.mem_of_link? hlink
      exact .found hh hmem hid

theorem held?_eq (h : ∀ link ∈ reader.held, link ∈ reader.chain.links) :
    held? reader = .ok reader.held reader := by
  rw [held?, get_bind]
  cases hh : reader.held with
  | none => rfl
  | some link => exact map_eq_ok.2 ⟨link, token_eq (h link hh), rfl⟩

theorem held?_of_none (hh : reader.held = none) : held? reader = .ok none reader := by
  rw [held?_eq (by simp [hh]), hh]

theorem held?_of_held (hh : reader.held = some link) (hl : link ∈ reader.chain.links) :
    held? reader = .ok (some link) reader := by
  rw [held?_eq (by simpa [hh] using hl), hh]

theorem chainLexeme_eq (hh : reader.held = none) (kind : Kind) (length : Nat) :
    chainLexeme kind length reader =
      .ok (reader.nextLink kind length) (reader.pass kind length) := by
  rw [chainLexeme, get_bind, if_pos hh]
  exact token_eq (reader.nextLink_mem kind length)

/-! ## Scanning -/

theorem scan_of_ending (h : reader.chain.ending? = some link) : scan reader = .ok link reader := by
  rw [scan, get_bind, h]
  rfl

theorem scan_of_first {kind : Kind} {length : Nat} (hh : reader.held = none)
    (hn : reader.chain.ending? = none)
    (h : Lexeme.first reader.cursor.rest = .ok (kind, length)) :
    scan reader = .ok (reader.nextLink kind length) (reader.pass kind length) := by
  rw [scan, get_bind, hn]
  dsimp only
  rw [h]
  exact chainLexeme_eq hh kind length

/-- Only a comment without an end is dropped. -/
theorem scan_of_fault {fault : Fault} (hn : reader.chain.ending? = none)
    (h : Lexeme.first reader.cursor.rest = .error fault) :
    ∃ n, scan reader = .error (.lexical fault reader.cursor.location) (reader.drop n) ∧
      (fault ≠ .unterminatedComment → n = 0) := by
  rw [scan, get_bind, hn]
  dsimp only
  rw [h]
  cases fault with
  | unterminatedComment => exact ⟨_, rfl, fun hne => absurd rfl hne⟩
  | unexpectedCharacter | unterminatedString => exact ⟨0, rfl, fun _ => rfl⟩

/-- What comes of scanning, if no lexeme is chained while a token is held: the end of the input again, or
the lexeme at the cursor, or the fault there. -/
inductive FindsLexeme (reader : Reader) : Result Link → Prop
  | again {link : Link} (h : reader.chain.ending? = some link) :
      FindsLexeme reader (.ok link reader)
  | lexeme {kind : Kind} {raw tail : List Char} (hn : reader.chain.ending? = none)
      (ht : reader.cursor.rest = raw ++ tail) (hl : Lexeme.IsLexeme kind raw tail)
      (hp : Lexeme.Plain kind raw) :
      FindsLexeme reader (.ok (reader.nextLink kind raw.length) (reader.pass kind raw.length))
  | fault {fault : Fault} {n : Nat} (hn : reader.chain.ending? = none)
      (hfirst : Lexeme.first reader.cursor.rest = .error fault)
      (hdrop : fault ≠ .unterminatedComment → n = 0) :
      FindsLexeme reader (.error (.lexical fault reader.cursor.location) (reader.drop n))

theorem scan_or (reader : Reader) : FindsLexeme reader (scan reader) ∨
    reader.held ≠ none ∧ scan reader = .error .stalled reader := by
  cases hend : reader.chain.ending? with
  | some link =>
    rw [scan_of_ending hend]
    exact .inl (.again hend)
  | none =>
    cases hfirst : Lexeme.first reader.cursor.rest with
    | error fault =>
      obtain ⟨n, hscan, hdrop⟩ := scan_of_fault hend hfirst
      rw [hscan]
      exact .inl (.fault hend hfirst hdrop)
    | ok result =>
      obtain ⟨kind, length⟩ := result
      by_cases hh : reader.held = none
      · obtain ⟨raw, tail, ht, rfl, hl, hp⟩ := Lexeme.isLexeme_of_first hfirst
        rw [scan_of_first hh hend hfirst]
        exact .inl (.lexeme hend ht hl hp)
      · have hscan : scan reader = chainLexeme kind length reader := by
          rw [scan, get_bind, hend]
          dsimp only
          rw [hfirst]
        rw [hscan, chainLexeme, get_bind, if_neg hh]
        exact .inr ⟨hh, rfl⟩

theorem scan_finds (hh : reader.held = none) : FindsLexeme reader (scan reader) :=
  (scan_or reader).resolve_right fun h => h.1 hh

theorem scan_sound (hr : reader.Valid) (hh : reader.held = none)
    (h : scan reader = .ok link after) : reader.Took link after ∧ link.Plain := by
  have hfinds := scan_finds hh
  rw [h] at hfinds
  cases hfinds with
  | again hend => cases (hr.ending?_eq_none hh).symm.trans hend
  | lexeme _ ht hl hp =>
    refine ⟨took_pass hr hh ht hl, ?_, ?_⟩
    all_goals rw [nextLink_raw ht]
    · exact hl.spells
    · exact hp

theorem scan_complete (hr : reader.Valid) (hh : reader.held = none)
    (hp : Lexeme.Plain link.kind link.raw.toList) (h : reader.Before all rest (link :: ahead)) :
    ∃ after, scan reader = .ok link after ∧ after.Before all rest ahead := by
  obtain ⟨ht, hl, hnext, hbefore⟩ := pass_of_before hh h
  have hfirst : Lexeme.first reader.cursor.rest = .ok (link.kind, link.raw.toList.length) := by
    rw [ht]
    exact Lexeme.first_of_isLexeme hl hp
  exact ⟨_, by rw [scan_of_first hh (hr.ending?_eq_none hh) hfirst, hnext], hbefore⟩

/-! ## Taking and putting back -/

theorem take_of_held (hh : reader.held = some link) (hl : link ∈ reader.chain.links) :
    take reader = .ok link reader.release := by
  rw [take, bind_of_ok (held?_of_held hh hl)]
  rfl

theorem take_of_none (hh : reader.held = none) : take reader = scan reader := by
  rw [take, bind_of_ok (held?_of_none hh)]

theorem take_sound (hr : reader.Valid) (h : take reader = .ok link after) :
    reader.Took link after ∧ link.Plain := by
  cases hh : reader.held with
  | some other =>
    rw [take_of_held hh (hr.held_mem hh)] at h
    cases h
    exact ⟨took_release hr hh, hr.held_plain link hh⟩
  | none =>
    rw [take_of_none hh] at h
    exact scan_sound hr hh h

theorem take_complete (hr : reader.Valid) (hp : Lexeme.Plain link.kind link.raw.toList)
    (h : reader.Before all rest (link :: ahead)) :
    ∃ after, take reader = .ok link after ∧ after.Before all rest ahead := by
  cases hh : reader.held with
  | some other =>
    obtain rfl := held_eq hh h
    exact ⟨reader.release, take_of_held hh (hr.held_mem hh),
      (before_release (hr.held_last link hh) hh).2 h⟩
  | none =>
    rw [take_of_none hh]
    exact scan_complete hr hh hp h

theorem putBack_eq (hh : reader.held = none) (link : Link) :
    putBack link reader = .ok () (reader.hold link) := by
  rw [putBack, get_bind, hh]
  rfl

theorem putBackLast_eq (hh : reader.held = none) (hl : reader.chain.links.getLast? = some link) :
    putBackLast link reader = .ok () (reader.hold link) := by
  rw [putBackLast, get_bind, if_pos ((TokenChain.last?_eq _).trans hl)]
  exact putBack_eq hh link

theorem putBackLast_or (hh : reader.held = none) (link : Link) :
    putBackLast link reader = .ok () (reader.hold link) ∨
      putBackLast link reader = .error .stalled reader := by
  rw [putBackLast, get_bind]
  split
  · exact .inl (putBack_eq hh link)
  · exact .inr rfl

theorem putBackLast_of_took {start : Reader} (h : start.Took link reader) :
    putBackLast link reader = .ok () (reader.hold link) :=
  putBackLast_eq h.held h.last

/-! ## Looking ahead -/

theorem peek_eq (h : ∀ link ∈ reader.held, link ∈ reader.chain.links) :
    peek reader = .ok (reader.held.elim reader.cursor.peek? (·.raw.toList.head?)) reader := by
  rw [peek, bind_of_ok (held?_eq h)]
  cases reader.held <;> rfl

theorem peek_of_before (h : reader.Before all rest (link :: ahead)) :
    peek reader = .ok link.raw.toList.head? reader := by
  rw [peek_eq h.held_mem]
  cases hh : reader.held with
  | some other =>
    obtain rfl := held_eq hh h
    rfl
  | none =>
    obtain ⟨ht, hl, -, -⟩ := pass_of_before hh h
    simp only [Option.elim_none, Cursor.peek?, ht]
    by_cases hk : link.kind = .endOfInput
    · rw [hk] at hl
      have hend := hl.ends
      have hraw := hl.spells
      generalize link.raw.toList = raw at hend hraw ⊢
      cases hraw
      rw [show Link.spelled ahead ++ rest = [] from hend]
      rfl
    · obtain ⟨c, tail, ht⟩ := List.exists_cons_of_ne_nil (hl.spells.ne_nil hk)
      rw [ht]
      rfl

/-! ## Blanks and comments -/

theorem plain_of_trivia {kind : Kind} {raw : List Char} (h : kind.isTrivia = true) :
    Lexeme.Plain kind raw := by
  constructor <;> (rintro rfl; cases h)

theorem ne_endOfInput_of_trivia {kind : Kind} (h : kind.isTrivia = true) :
    kind ≠ .endOfInput := by
  rintro rfl
  cases h

theorem chainTrivia_sound (hr : reader.Valid) (hh : reader.held = none) {u : Unit}
    (h : chainTrivia reader = .ok u after) :
    after.Valid ∧ AtToken after ∧ ∃ gap, Link.IsGap gap ∧ reader.Passes gap after := by
  obtain ⟨⟨gap, last⟩, hrun⟩ := discard_eq_ok.1 h
  suffices after.Valid ∧ AtToken after ∧ Link.IsGap gap ∧ reader.Passes gap after from
    ⟨this.1, this.2.1, gap, this.2.2⟩
  revert hr hh
  refine repeatUntil_induction (motive := fun reader gap _ after => reader.Valid →
    reader.held = none → after.Valid ∧ AtToken after ∧ Link.IsGap gap ∧ reader.Passes gap after)
    (fun h hr hh => h hr.round hh) ?_ ?_ hrun
  · intro reader _ after hs hr hh
    simp only [bind_eq_ok, get_eq_ok] at hs
    obtain ⟨_, _, ⟨rfl, rfl⟩, hs⟩ := hs
    split at hs
    · simp [map_eq_ok] at hs
    · rename_i hrest
      obtain ⟨-, rfl⟩ := pure_eq_ok.1 hs
      refine ⟨hr, ⟨by simp [hh], fun _ => by simpa using hrest⟩, Link.isGap_nil, Passes.refl reader⟩
  · intro reader link between gap _ after hs ih hr hh
    simp only [bind_eq_ok, get_eq_ok] at hs
    obtain ⟨_, _, ⟨rfl, rfl⟩, hs⟩ := hs
    split at hs
    · rename_i hrest
      obtain ⟨link, hscan, heq⟩ := map_eq_ok.1 hs
      cases heq
      obtain ⟨htook, hp⟩ := scan_sound hr hh hscan
      have htrivia : link.kind.isTrivia = true := by
        obtain ⟨all, rest, hb⟩ := htook.exists_before
        obtain ⟨ht, hl, -, -⟩ := pass_of_before hh hb
        rw [← hl.startsTrivia_eq, ← ht, hrest]
      obtain ⟨hafter, hat, hgap, hpasses⟩ :=
        ih (htook.valid (ne_endOfInput_of_trivia htrivia)) htook.held
      refine ⟨hafter, hat, ?_, htook.passes.trans hpasses⟩
      exact Link.isGap_cons.2 ⟨htrivia, hgap⟩
    · simp [pure_eq_ok] at hs

theorem chainTrivia_complete {gap : List Link} (hr : reader.Valid) (hh : reader.held = none)
    (hgap : Link.IsGap gap) (hl : link.kind.isTrivia = false)
    (h : reader.Before all rest (gap ++ link :: ahead)) :
    ∃ after, chainTrivia reader = .ok () after ∧ after.Before all rest (link :: ahead) := by
  suffices ∃ after u, repeatUntil (do
      if Lexeme.startsTrivia (← get).cursor.rest then .inl <$> scan else return .inr ())
      reader = .ok (gap, u) after ∧ after.Before all rest (link :: ahead) by
    obtain ⟨after, u, hrun, hb⟩ := this
    exact ⟨after, discard_eq_ok.2 ⟨_, hrun⟩, hb⟩
  induction gap generalizing reader with
  | nil =>
    refine ⟨reader.round, (), repeatUntil_last ?_, before_round.2 h⟩
    obtain ⟨ht, hlex, -, -⟩ := pass_of_before hh h
    simp only [bind_eq_ok, get_eq_ok]
    refine ⟨reader.round, reader.round, ⟨rfl, rfl⟩, ?_⟩
    rw [cursor_round, ht, hlex.startsTrivia_eq, hl]
    rfl
  | cons blank gap ih =>
    obtain ⟨hb, hgap⟩ := Link.isGap_cons.1 hgap
    rw [List.cons_append] at h
    obtain ⟨between, hscan, hbetween⟩ :=
      scan_complete hr.round hh (plain_of_trivia hb) (before_round.2 h)
    obtain ⟨htook, -⟩ := scan_sound hr.round hh hscan
    have hk := ne_endOfInput_of_trivia hb
    obtain ⟨after, u, hrun, hafter⟩ := ih (htook.valid hk) htook.held
      hgap hbetween
    refine ⟨after, u, repeatUntil_next ?_ ?_ hrun, hafter⟩
    · obtain ⟨ht, hlex, -, -⟩ := pass_of_before hh h
      simp only [bind_eq_ok, get_eq_ok]
      refine ⟨reader.round, reader.round, ⟨rfl, rfl⟩, ?_⟩
      rw [cursor_round, ht, hlex.startsTrivia_eq, hb]
      exact map_eq_ok.2 ⟨blank, hscan, rfl⟩
    · rw [hbetween.unread_eq, h.unread_eq]
      have := List.length_pos_of_ne_nil (htook.spells.ne_nil hk)
      simp only [Link.spelled_cons, List.append_assoc, List.length_append]
      omega

/-! Where something is held, there is nothing to pass over, or else it was the last of the gap. -/

theorem skipTrivia_of_none (hh : reader.held = none) :
    skipTrivia reader = chainTrivia reader := by
  rw [skipTrivia, bind_of_ok (held?_of_none hh)]

theorem skipTrivia_of_held (hh : reader.held = some link) (hl : link ∈ reader.chain.links) :
    skipTrivia reader =
      if link.kind.isTrivia then chainTrivia reader.release else .ok () reader := by
  rw [skipTrivia, bind_of_ok (held?_of_held hh hl)]
  dsimp only
  split <;> rfl

theorem skipTrivia_sound (hr : reader.Valid) {u : Unit} (h : skipTrivia reader = .ok u after) :
    after.Valid ∧ AtToken after ∧ ∃ gap, Link.IsGap gap ∧ reader.Passes gap after := by
  cases hh : reader.held with
  | none =>
    rw [skipTrivia_of_none hh] at h
    exact chainTrivia_sound hr hh h
  | some link =>
    rw [skipTrivia_of_held hh (hr.held_mem hh)] at h
    split at h
    · rename_i hk
      have htook := took_release hr hh
      obtain ⟨hafter, hat, gap, hgap, hpasses⟩ :=
        chainTrivia_sound (htook.valid (ne_endOfInput_of_trivia hk)) rfl h
      refine ⟨hafter, hat, link :: gap, ?_, htook.passes.trans hpasses⟩
      exact Link.isGap_cons.2 ⟨hk, hgap⟩
    · rename_i hk
      cases h
      refine ⟨hr, ⟨?_, by simp [hh]⟩, [], Link.isGap_nil, Passes.refl reader⟩
      intro other ho
      rw [hh] at ho
      cases ho
      simpa using hk

theorem skipTrivia_complete {gap : List Link} (hr : reader.Valid) (hgap : Link.IsGap gap)
    (hl : link.kind.isTrivia = false) (h : reader.Before all rest (gap ++ link :: ahead)) :
    ∃ after, skipTrivia reader = .ok () after ∧ after.Before all rest (link :: ahead) := by
  cases hh : reader.held with
  | none =>
    rw [skipTrivia_of_none hh]
    exact chainTrivia_complete hr hh hgap hl h
  | some other =>
    rw [skipTrivia_of_held hh (hr.held_mem hh)]
    cases gap with
    | nil =>
      obtain rfl := held_eq hh h
      rw [hl]
      exact ⟨reader, rfl, h⟩
    | cons blank gap =>
      obtain rfl := held_eq hh h
      obtain ⟨hb, hgap⟩ := Link.isGap_cons.1 hgap
      rw [hb, if_pos rfl]
      have hvalid := (took_release hr hh).valid (ne_endOfInput_of_trivia hb)
      exact chainTrivia_complete hvalid rfl hgap hl
        ((before_release (hr.held_last blank hh) hh).2 h)

end Parse

end ThriftSyntax
