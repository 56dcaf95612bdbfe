import Mathlib.Data.List.Forall2
import ThriftSyntax.Proofs.Coupling.Basic
import ThriftSyntax.Proofs.Reader.Law
import ThriftSyntax.Proofs.Reader.Name
import ThriftSyntax.Proofs.Session.Token

/-!
# Two runs of the smallest rules

The grammar reads a text by a few actions on tokens only, and it goes by what kind of token comes next
and by how words are spelled. A `TokenCoupling` says what becomes of two readers with nothing put back
when a single lexeme is read. What follows from it holds of the rules for marks, words, names, strings
and numbers: readers that are alike come to tokens that are alike.
-/

namespace ThriftSyntax

namespace Reader

/-- The reader with another count of rounds. -/
def atRound (reader : Reader) (rounds : Nat) : Reader := { reader with rounds }

variable {reader : Reader} {kind : Kind} {raw tail : List Char}

theorem Sound.atRound (hs : reader.Sound) (rounds : Nat) : (reader.atRound rounds).Sound :=
  ⟨hs.held_mem, hs.spells, hs.ended⟩

/-- To read a lexeme is a move, where the end of the input is read only once. -/
theorem Sound.lexeme (hs : reader.Sound) (hh : reader.held = none)
    (hn : raw = [] → reader.chain.ending? = none) (ht : reader.cursor.rest = raw ++ tail)
    (hl : Lexeme.IsLexeme kind raw tail) : Move reader (reader.pass kind raw.length) := by
  refine .lexeme hh ?_ ht hl
  by_cases hraw : raw = []
  · exact hn hraw
  · exact hs.ending?_eq_none (by simp [ht, hraw])

theorem ending?_pass (reader : Reader) (kind : Kind) (n : Nat) :
    (reader.pass kind n).chain.ending? =
      if kind = .endOfInput then some (reader.nextLink kind n) else none := by
  rw [TokenChain.ending?, TokenChain.last?_eq, links_pass, List.getLast?_concat]
  split
  · subst kind
    rfl
  · rename_i hk
    exact if_neg (by rwa [decide_eq_true_eq])

end Reader

/-- The text of a name is that of its words. -/
theorem DottedName.text_eq_of_raw {a b : DottedName}
    (h : List.Forall₂ (fun l m => l.raw = m.raw) a.links b.links) : a.text = b.text := by
  have hraw : a.links.map Link.raw = b.links.map Link.raw := by
    rwa [← List.forall₂_eq_eq_eq, List.forall₂_map_left_iff, List.forall₂_map_right_iff]
  have htext : ∀ name : DottedName, name.text = String.join (name.links.map Link.raw) := fun name => by
    rw [DottedName.text, TokenChain.spell, List.map_map]
    rfl
  rw [htext, htext, hraw]

namespace Parse

open Coupling

/-! ## The actions on tokens lead onward -/

theorem onward_pass (reader : Reader) (kind : Kind) (n : Nat) :
    reader.Onward (reader.pass kind n) := by
  refine ⟨?_, List.drop_suffix n reader.cursor.rest⟩
  rw [Reader.links_pass]
  exact List.prefix_append _ _

theorem onward_drop (reader : Reader) (n : Nat) : reader.Onward (reader.drop n) :=
  ⟨List.prefix_refl _, List.drop_suffix n reader.cursor.rest⟩

theorem law_onward (start : Reader) : Law (start.Onward ·) fun _ after => start.Onward after where
  alike h hcursor hchain := ⟨hchain ▸ h.links, hcursor ▸ h.rest⟩
  placeless _ h := h
  finds h hfinds := by
    cases hfinds with
    | again => exact h
    | lexeme => exact h.trans (onward_pass _ _ _)
    | fault => exact h.trans (onward_drop _ _)

/-- What keeps all that scanning upholds leads onward. -/
theorem onward_of_law {α : Type} {p : Parse α}
    (h : ∀ {I : Reader → Prop} {E : Error → Reader → Prop}, Law I E → Upholds I E p) : Onward p := by
  intro reader
  have hafter := h (law_onward reader) reader (.refl reader)
  cases hrun : p reader <;> rwa [hrun] at hafter

theorem onward_token (id : Nat) : Onward (token id) := onward_of_law fun law => law.token id

theorem onward_scan : Onward scan := onward_of_law Law.scan

theorem onward_take : Onward take := onward_of_law Law.take

theorem onward_putBackLast (link : Link) : Onward (putBackLast link) :=
  onward_of_law fun law => law.putBackLast link

theorem onward_restore (waiting : Option Link) (link : Link) : Onward (restore waiting link) :=
  onward_of_law fun law => law.restore waiting link

theorem onward_peek : Onward peek := onward_of_law Law.peek

theorem onward_chainTrivia : Onward chainTrivia := onward_of_law Law.chainTrivia

theorem onward_skipTrivia : Onward skipTrivia := onward_of_law Law.skipTrivia

theorem onward_stringHere : Onward stringHere := by
  intro reader
  have hfinds := stringHere_finds reader
  generalize stringHere reader = result at hfinds
  cases hfinds with
  | absent => exact .refl reader
  | closed => exact onward_pass _ _ _
  | unclosed => exact onward_drop _ _

theorem onward_numberHere : Onward numberHere := by
  intro reader
  have hfinds := numberHere_finds reader
  generalize numberHere reader = result at hfinds
  cases hfinds with
  | plain => exact onward_take reader
  | signed => exact onward_pass _ _ _

/-! ## A token that was put back -/

theorem take_hold {reader : Reader} {link : Link} (hh : reader.held = none)
    (hl : link ∈ reader.chain.links) : take (reader.hold link) = .ok link reader := by
  have hheld : (reader.hold link).held = some link := rfl
  rw [take_of_held hheld hl, Reader.release_hold hh]

theorem skipTrivia_hold {reader : Reader} {link : Link} (hh : reader.held = none)
    (hl : link ∈ reader.chain.links) : skipTrivia (reader.hold link) =
      if link.kind.isTrivia then chainTrivia reader else .ok () (reader.hold link) := by
  have hheld : (reader.hold link).held = some link := rfl
  rw [skipTrivia_of_held hheld hl, Reader.release_hold hh]

/-- Where nothing but a token comes next, there is nothing to skip. -/
theorem skipTrivia_of_rest {reader : Reader} (hh : reader.held = none)
    (hrest : Lexeme.startsTrivia reader.cursor.rest = false) :
    skipTrivia reader = .ok () reader.round := by
  rw [skipTrivia_of_none hh]
  refine discard_eq_ok.2 ⟨([], ()), repeatUntil_last ?_⟩
  rw [get_bind, if_neg (by simpa using hrest)]
  rfl

/-! ## Blanks and comments -/

/-- Both runs chain the same blanks and comments, where each of them is read by both. -/
theorem chainTrivia_couples {S : Coupling} {P : Reader → Reader → Prop}
    (hfreed : ∀ {r s}, P r s → r.held = none ∧ s.held = none)
    (hround : ∀ {r s}, P r s → P r.round s.round)
    (hstarts : ∀ {r s}, P r s →
      Lexeme.startsTrivia r.cursor.rest = Lexeme.startsTrivia s.cursor.rest)
    (hopen : ∀ {r s}, P r s → Lexeme.startsTrivia r.cursor.rest = true →
      r.chain.ending? = none ∧ s.chain.ending? = none)
    (hread : ∀ {r s kind raw tail}, P r s → r.cursor.rest = raw ++ tail →
      Lexeme.IsLexeme kind raw tail → kind.isTrivia = true →
      S.gone (r.pass kind raw.length) ∨ ∃ tail', s.cursor.rest = raw ++ tail' ∧
        Lexeme.IsLexeme kind raw tail' ∧ P (r.pass kind raw.length) (s.pass kind raw.length))
    (hfault : ∀ {r s fault}, P r s → Lexeme.first r.cursor.rest = .error fault →
      (∀ n, S.exempt (.lexical fault r.cursor.location) (r.drop n)) ∨
        Lexeme.first s.cursor.rest = .error fault ∧ (∀ n, S.failed (r.drop n)) ∧
          S.errors (.lexical fault r.cursor.location) (.lexical fault s.cursor.location)) :
    S.Couples P chainTrivia chainTrivia
      fun _ _ r s => P r s ∧ Lexeme.startsTrivia r.cursor.rest = false := by
  have hscan : S.Couples (fun r s => P r s ∧ Lexeme.startsTrivia r.cursor.rest = true) scan scan
      fun _ _ => P := by
    refine ⟨onward_scan, onward_scan, fun {r s} h => ?_⟩
    obtain ⟨h, hrest⟩ := h
    obtain ⟨hn, hn'⟩ := hopen h hrest
    obtain ⟨hr, hs⟩ := hfreed h
    have hfinds := scan_finds hr
    generalize scan r = result at hfinds
    cases hfinds with
    | again hend => cases hn.symm.trans hend
    | fault _ hfirst =>
      rcases hfault h hfirst with hexempt | ⟨hfirst', hfailed, herrors⟩
      · exact .exempt (hexempt _)
      · obtain ⟨_, hscan, -⟩ := scan_of_fault hn' hfirst'
        rw [hscan]
        exact .error herrors (hfailed _)
    | @lexeme kind raw tail _ ht hl hp =>
      have hk : kind.isTrivia = true := by rw [← hl.startsTrivia_eq, ← ht, hrest]
      rcases hread h ht hl hk with hgone | ⟨tail', ht', hl', h⟩
      · exact .gone hgone
      · rw [scan_of_first hs hn' (by rw [ht']; exact Lexeme.first_of_isLexeme hl' hp)]
        exact .ok h
  have hstep : ∀ xs ys, S.Couples P triviaStep triviaStep (Couples.Round (fun _ _ => P)
      (fun _ _ _ _ r s => P r s ∧ Lexeme.startsTrivia r.cursor.rest = false) xs ys) := by
    refine fun xs ys => Couples.get.bind fun here here' => .ite (fun h => ?_) ?_ ?_
    · obtain ⟨h, rfl, rfl⟩ := h
      rw [hstarts h]
    · refine .map ((hscan.weaken fun h => .item h).strengthen fun h => ?_)
      obtain ⟨⟨h, rfl, rfl⟩, hrest⟩ := h
      exact ⟨h, hrest⟩
    · refine .pure fun h => .last ?_
      obtain ⟨⟨h, rfl, rfl⟩, hrest⟩ := h
      exact ⟨h, by simpa using hrest⟩
  rw [chainTrivia_eq]
  exact .map ((Couples.repeatUntil (P := fun _ _ => P) (Q := fun _ _ _ _ r s =>
    P r s ∧ Lexeme.startsTrivia r.cursor.rest = false) (fun h => hround h) hstep).weaken fun h => h)

end Parse

open Parse Coupling Result

/-- A coupling that reading a lexeme keeps. `trail xs ys` holds of two readers with nothing put back
right behind the tokens `xs` and `ys` of a name, and `words` is what it leaves to be said of a whole
name; with no tokens it says that the readers are alike. `amid` holds of readers amid blanks and
comments, of which there may be more on the one side than on the other. `left` and `right` are new numbers
for the tokens of the two runs, under which tokens that are alike have one number. -/
structure TokenCoupling extends Coupling where
  left : Nat → Nat
  right : Nat → Nat
  links : Link → Link → Prop
  words : List Link → List Link → Prop
  trail : List Link → List Link → Reader → Reader → Prop
  amid : Reader → Reader → Prop
  kind_eq : ∀ {l m}, links l m → l.kind = m.kind
  raw_eq : ∀ {l m}, links l m → l.raw = m.raw
  id_eq : ∀ {l m}, links l m → left l.id = right m.id
  links_of_words : ∀ {xs ys}, words xs ys → List.Forall₂ links xs ys
  words_of_trail : ∀ {xs ys r s}, trail xs ys r s → words xs ys
  freed : ∀ {xs ys r s}, trail xs ys r s → r.held = none ∧ s.held = none
  free_of_trail : ∀ {xs ys r s}, trail xs ys r s → trail [] [] r s
  trail_round : ∀ {xs ys r s}, trail xs ys r s → trail xs ys r.round s.round
  amid_round : ∀ {r s}, amid r s → amid r.round s.round
  amid_freed : ∀ {r s}, amid r s → r.held = none ∧ s.held = none
  amid_of_free : ∀ {r s}, trail [] [] r s → amid r s
  dot_iff : ∀ {xs ys r s}, trail xs ys r s →
    (r.cursor.peek? = some '.' ↔ s.cursor.peek? = some '.')
  peek_eq : ∀ {r s}, trail [] [] r s → Lexeme.startsTrivia r.cursor.rest = false →
    r.cursor.peek? = s.cursor.peek?
  signed_eq : ∀ {r s}, trail [] [] r s → Lexeme.startsTrivia r.cursor.rest = false →
    (Lexeme.signed? r.cursor.rest).isSome = (Lexeme.signed? s.cursor.rest).isSome
  /-- The end of the input was read before. -/
  ending : ∀ {xs ys r s}, trail xs ys r s → r.chain.ending? = none ∧ s.chain.ending? = none ∨
    ∃ l m, r.chain.ending? = some l ∧ s.chain.ending? = some m ∧ links l m ∧
      trail (xs ++ [l]) (ys ++ [m]) r s
  read : ∀ {xs ys r s kind raw tail}, trail xs ys r s → (raw = [] → r.chain.ending? = none) →
    r.cursor.rest = raw ++ tail → Lexeme.IsLexeme kind raw tail → kind.isTrivia = false →
    gone (r.pass kind raw.length) ∨
      ∃ tail', s.cursor.rest = raw ++ tail' ∧ Lexeme.IsLexeme kind raw tail' ∧
        links (r.nextLink kind raw.length) (s.nextLink kind raw.length) ∧
        trail (xs ++ [r.nextLink kind raw.length]) (ys ++ [s.nextLink kind raw.length])
          (r.pass kind raw.length) (s.pass kind raw.length)
  readTrivia : ∀ {r s kind raw tail}, trail [] [] r s → r.cursor.rest = raw ++ tail →
    Lexeme.IsLexeme kind raw tail → kind.isTrivia = true →
    gone (r.pass kind raw.length) ∨
      ∃ kind' raw' tail', s.cursor.rest = raw' ++ tail' ∧ Lexeme.IsLexeme kind' raw' tail' ∧
        kind'.isTrivia = true ∧ amid (r.pass kind raw.length) (s.pass kind' raw'.length)
  chainTrivia : toCoupling.Couples amid chainTrivia chainTrivia
    fun _ _ r s => trail [] [] r s ∧ Lexeme.startsTrivia r.cursor.rest = false
  fault : ∀ {r s fault}, trail [] [] r s → Lexeme.first r.cursor.rest = .error fault →
    (∀ n, exempt (.lexical fault r.cursor.location) (r.drop n)) ∨
      Lexeme.first s.cursor.rest = .error fault ∧ (∀ n, failed (r.drop n)) ∧
        errors (.lexical fault r.cursor.location) (.lexical fault s.cursor.location)
  unclosed : ∀ {r s quote body length}, trail [] [] r s → r.cursor.rest = quote :: body →
    (quote = '"' ∨ quote = '\'') → Lexeme.string quote body = (length, false) →
    (∀ n, exempt (.lexical .unterminatedString r.cursor.location) (r.drop n)) ∨
      ∃ body' length', s.cursor.rest = quote :: body' ∧
        Lexeme.string quote body' = (length', false) ∧ (∀ n, failed (r.drop n)) ∧
        errors (.lexical .unterminatedString r.cursor.location)
          (.lexical .unterminatedString s.cursor.location)
  failed_of_free : ∀ {r s}, trail [] [] r s → failed r
  failed_hold : ∀ {l m r s}, links l m → l ∈ r.chain.links → trail [l] [m] r s → failed (r.hold l)
  failed_trivia : ∀ {l : Link} {r s}, l.kind.isTrivia = true → amid r s → failed (r.hold l)
  unexpected : ∀ {l m}, links l m → ∀ expected, errors (.unexpected l expected) (.unexpected m expected)
  invalid : ∀ {l m}, links l m → l.kind = .number →
    errors (.invalidInteger l.raw l.location) (.invalidInteger m.raw m.location)
  misplaced : ∀ {a b : DottedName}, words a.links b.links → a.head.kind ≠ .endOfInput →
    errors (.unexpectedToken a.text .constValue a.head.location)
      (.unexpectedToken b.text .constValue b.head.location)
  named : ∀ {a b : DottedName}, words a.links b.links → a.head.kind ≠ .endOfInput →
    errors (.namedTypedef a.text a.head.location) (.namedTypedef b.text b.head.location)

namespace TokenCoupling

variable (S : TokenCoupling)

/-- Both runs have just taken a token, and may put it back. -/
structure TakenBy (l m : Link) (r s : Reader) : Prop where
  alike : S.links l m
  left : l ∈ r.chain.links
  right : m ∈ s.chain.links
  trail : S.trail [l] [m] r s

/-- A word was put back in the first run, and it comes next in the text of the second. How many rounds
there were does not matter. -/
structure Ahead (l : Link) (r s : Reader) : Prop where
  word : l.kind.isWord true = true
  held : s.held = none
  ending : s.chain.ending? = none
  rest : ∃ tail, s.cursor.rest = l.raw.toList ++ tail ∧ Lexeme.IsLexeme l.kind l.raw.toList tail
  taken : ∀ m n, S.TakenBy l (s.nextLink l.kind l.raw.toList.length) (r.atRound m)
    ((s.atRound n).pass l.kind l.raw.toList.length)

/-- Readers that are alike before significant tokens. -/
inductive facing : Reader → Reader → Prop
  | free {r s : Reader} (h : S.trail [] [] r s)
      (hrest : Lexeme.startsTrivia r.cursor.rest = false) : facing r s
  | held {l m : Link} {r s : Reader} (h : S.TakenBy l m r s) (hl : l.kind.isTrivia = false) :
      facing (r.hold l) (s.hold m)
  | ahead {l : Link} {r s : Reader} (h : S.Ahead l r s) : facing (r.hold l) s

/-- Readers that are alike: with nothing put back, or with tokens that are alike, or with blanks or
comments of any kind. What one of them alone has yet to skip may also be all that keeps them apart. -/
inductive readers : Reader → Reader → Prop
  | free {r s : Reader} (h : S.trail [] [] r s) : readers r s
  | held {l m : Link} {r s : Reader} (h : S.TakenBy l m r s) : readers (r.hold l) (s.hold m)
  | trivia {l m : Link} {r s : Reader} (hl : l.kind.isTrivia = true) (hm : m.kind.isTrivia = true)
      (hleft : l ∈ r.chain.links) (hright : m ∈ s.chain.links) (h : S.amid r s) :
      readers (r.hold l) (s.hold m)
  | apart {r s : Reader} (h : ∀ m n, S.Outcome (fun _ _ => S.facing) (skipTrivia (r.atRound m))
      (skipTrivia (s.atRound n))) (hr : ∀ m, S.failed (r.atRound m)) : readers r s

/-- The runs from readers that are alike come to readers that are alike; the results do not matter. -/
abbrev Ties {α : Type} (p q : Parse α) : Prop := S.Couples S.readers p q fun _ _ => S.readers

/-- The runs from readers that are alike come to readers that are alike, with results related by `R`. -/
abbrev Relates {α : Type} (p q : Parse α) (R : α → α → Prop) : Prop :=
  S.Couples S.readers p q fun a b r s => S.readers r s ∧ R a b

/-- What both runs have scanned behind the tokens `xs` and `ys`: tokens that are alike, or blanks or
comments. -/
inductive Scanned (xs ys : List Link) (l m : Link) (r s : Reader) : Prop
  | token (h : S.TakenBy l m r s) (ht : S.trail (xs ++ [l]) (ys ++ [m]) r s)
  | trivia (hl : l.kind.isTrivia = true) (hm : m.kind.isTrivia = true) (hleft : l ∈ r.chain.links)
      (hright : m ∈ s.chain.links) (h : S.amid r s)

/-- Both runs have found a word after a dot, or neither has. The tokens of the name so far are `xs` and
`ys`. -/
inductive AfterDot (xs ys : List Link) : Option Link → Option Link → Reader → Reader → Prop
  | word {l m : Link} {r s : Reader} (h : S.links l m) (ht : S.trail (xs ++ [l]) (ys ++ [m]) r s) :
      AfterDot xs ys (some l) (some m) r s
  | none {r s : Reader} (h : S.readers r s) : AfterDot xs ys none none r s

/-- Two names are alike token by token. -/
def SameName (a b : DottedName) : Prop := List.Forall₂ S.links a.links b.links

/-- Two names that are alike, with tokens of the chains. -/
structure Names (a b : DottedName) (r s : Reader) : Prop where
  words : S.words a.links b.links
  left : a.head ∈ r.chain.links
  right : b.head ∈ s.chain.links
  begins : a.head.kind ≠ .endOfInput

variable {S} {a b : DottedName} {r s : Reader} {l m : Link} {xs ys : List Link}

theorem TakenBy.readers (h : S.TakenBy l m r s) : S.readers r s := .free (S.free_of_trail h.trail)

theorem TakenBy.round (h : S.TakenBy l m r s) : S.TakenBy l m r.round s.round :=
  ⟨h.alike, h.left, h.right, S.trail_round h.trail⟩

theorem readers_of_trail (h : S.trail xs ys r s) : S.readers r s := .free (S.free_of_trail h)

theorem Ahead.round (h : S.Ahead l r s) (m n : Nat) : S.Ahead l (r.atRound m) (s.atRound n) :=
  ⟨h.word, h.held, h.ending, h.rest, fun _ _ => h.taken _ _⟩

theorem Ahead.startsTrivia_eq (h : S.Ahead l r s) : Lexeme.startsTrivia s.cursor.rest = false := by
  obtain ⟨tail, ht, hl⟩ := h.rest
  rw [ht, hl.startsTrivia_eq, Kind.not_trivia_of_isWord h.word]

/-- The text of the second run goes on with the first character of the word. -/
theorem Ahead.exists_cons (h : S.Ahead l r s) : ∃ c text, s.cursor.rest = c :: text ∧
    l.raw.toList.head? = some c ∧ Lexeme.startsWord c = true := by
  obtain ⟨tail, ht, hl⟩ := h.rest
  obtain ⟨c, hc, hopens⟩ := hl.spells.exists_opens (Kind.ne_endOfInput_of_isWord h.word)
  obtain ⟨text, hraw⟩ := List.head?_eq_some_iff.1 hc
  exact ⟨c, text ++ tail, by rw [ht, hraw]; rfl, hc, hopens.word_iff.2 h.word⟩

/-- What was put back stands in the chains. -/
theorem facing.held_mem (h : S.facing r s) : (∀ link ∈ r.held, link ∈ r.chain.links) ∧
    ∀ link ∈ s.held, link ∈ s.chain.links := by
  cases h with
  | free h =>
    obtain ⟨hr, hs⟩ := S.freed h
    simp [hr, hs]
  | held h => exact ⟨fun _ hl => Option.some.inj hl ▸ h.left, fun _ hm => Option.some.inj hm ▸ h.right⟩
  | @ahead l r s h =>
    refine ⟨fun _ hl => Option.some.inj hl ▸ (h.taken r.rounds s.rounds).left, ?_⟩
    simp [h.held]

theorem readers_of_facing (h : S.facing r s) : S.readers r s := by
  cases h with
  | free h => exact .free h
  | held h => exact .held h
  | @ahead l r s h =>
    refine .apart (fun m n => ?_) fun m => ?_
    · have hskip : skipTrivia ((r.hold l).atRound m) = .ok () ((r.atRound m).hold l) := by
        have htaken := h.taken m n
        show skipTrivia ((r.atRound m).hold l) = _
        rw [skipTrivia_hold (S.freed htaken.trail).1 htaken.left,
          if_neg (by simp [Kind.not_trivia_of_isWord h.word])]
      rw [hskip, @skipTrivia_of_rest (s.atRound n) h.held h.startsTrivia_eq]
      exact .ok (.ahead (h.round m (n + 1)))
    · have htaken := h.taken m 0
      exact S.failed_hold htaken.alike htaken.left htaken.trail

theorem readers_round (h : S.readers r s) : S.readers r.round s.round := by
  cases h with
  | free h => exact .free (S.trail_round h)
  | held h => exact .held h.round
  | @trivia _ _ r s hl hm hleft hright h =>
    have hround : S.readers (r.round.hold _) (s.round.hold _) :=
      .trivia hl hm hleft hright (S.amid_round h)
    exact hround
  | apart h hr => exact .apart h hr

theorem readers.failed (h : S.readers r s) : S.failed r := by
  cases h with
  | free h => exact S.failed_of_free h
  | held h => exact S.failed_hold h.alike h.left h.trail
  | trivia hl _ _ _ h => exact S.failed_trivia hl h
  | apart _ hr => exact hr r.rounds

theorem Names.same (h : S.Names a b r s) : S.SameName a b := S.links_of_words h.words

namespace SameName

theorem head (h : S.SameName a b) : S.links a.head b.head := (List.forall₂_cons.1 h).1

theorem tail (h : S.SameName a b) : List.Forall₂ S.links a.tail b.tail := (List.forall₂_cons.1 h).2

theorem isEmpty_iff (h : S.SameName a b) : a.tail.isEmpty ↔ b.tail.isEmpty := by
  rw [List.isEmpty_iff_length_eq_zero, List.isEmpty_iff_length_eq_zero, h.tail.length_eq]

theorem text_eq (h : S.SameName a b) : a.text = b.text :=
  DottedName.text_eq_of_raw (h.imp fun _ _ hl => S.raw_eq hl)

theorem last (h : S.SameName a b) : S.links a.last b.last := by
  obtain ⟨head, tail⟩ := a
  obtain ⟨head', tail'⟩ := b
  have hhead := h.head
  have htail := h.tail
  clear h
  dsimp only at hhead htail
  induction htail generalizing head head' with
  | nil => exact hhead
  | cons hnext _ ih =>
    rw [DottedName.last_cons, DottedName.last_cons]
    exact ih _ _ hnext

end SameName

end TokenCoupling

namespace Parse

open TokenCoupling

variable {S : TokenCoupling} {α : Type} {a b : DottedName} {r s : Reader} {l m : Link}
  {xs ys : List Link} {kind : Kind} {raw tail : List Char}

/-! ## Single lexemes -/

/-- A lexeme that is no blank and no comment is read by both runs, whichever way. -/
theorem takenBy_read (h : S.trail xs ys r s) (hn : raw = [] → r.chain.ending? = none)
    (ht : r.cursor.rest = raw ++ tail) (hl : Lexeme.IsLexeme kind raw tail)
    (hk : kind.isTrivia = false) :
    S.gone (r.pass kind raw.length) ∨
      ∃ tail', s.cursor.rest = raw ++ tail' ∧ Lexeme.IsLexeme kind raw tail' ∧
        S.TakenBy (r.nextLink kind raw.length) (s.nextLink kind raw.length)
          (r.pass kind raw.length) (s.pass kind raw.length) ∧
        S.trail (xs ++ [r.nextLink kind raw.length]) (ys ++ [s.nextLink kind raw.length])
          (r.pass kind raw.length) (s.pass kind raw.length) := by
  rcases S.read h hn ht hl hk with hgone | ⟨tail', ht', hl', hlinks, htrail⟩
  · exact .inl hgone
  rcases S.read (S.free_of_trail h) hn ht hl hk with hgone | ⟨_, -, -, -, htaken⟩
  · exact .inl hgone
  exact .inr ⟨tail', ht', hl', ⟨hlinks, r.nextLink_mem _ _, s.nextLink_mem _ _, htaken⟩, htrail⟩

theorem scan_outcome (h : S.trail xs ys r s) :
    S.Outcome (fun l m r' s' => S.Scanned xs ys l m r' s' ∧
        (Lexeme.startsTrivia r.cursor.rest = false → l.kind.isTrivia = false))
      (scan r) (scan s) := by
  rcases S.ending h with ⟨hn, hn'⟩ | ⟨l, m, hl, hm, hlinks, htrail⟩
  · obtain ⟨hr, hs⟩ := S.freed h
    have hscan : ∀ {kind raw tail}, s.cursor.rest = raw ++ tail → Lexeme.IsLexeme kind raw tail →
        Lexeme.Plain kind raw →
        scan s = .ok (s.nextLink kind raw.length) (s.pass kind raw.length) := by
      intro kind raw tail ht hl hp
      exact scan_of_first hs hn' (by rw [ht]; exact Lexeme.first_of_isLexeme hl hp)
    have hfinds := scan_finds hr
    generalize scan r = result at hfinds
    cases hfinds with
    | again hend => cases hn.symm.trans hend
    | fault _ hfirst =>
      rcases S.fault (S.free_of_trail h) hfirst with hexempt | ⟨hfirst', hfailed, herrors⟩
      · exact .exempt (hexempt _)
      · obtain ⟨_, hscan', -⟩ := scan_of_fault hn' hfirst'
        rw [hscan']
        exact .error herrors (hfailed _)
    | @lexeme kind raw tail _ ht hl hp =>
      have hstarts : Lexeme.startsTrivia r.cursor.rest = kind.isTrivia := by
        rw [ht, hl.startsTrivia_eq]
      by_cases hk : kind.isTrivia = true
      · rcases S.readTrivia (S.free_of_trail h) ht hl hk with hgone | ⟨_, _, _, ht', hl', hk', hamid⟩
        · exact .gone hgone
        · rw [hscan ht' hl' (plain_of_trivia hk')]
          exact .ok ⟨.trivia hk hk' (r.nextLink_mem _ _) (s.nextLink_mem _ _) hamid,
            fun h => absurd hk (by simp [← hstarts, h])⟩
      · rw [Bool.not_eq_true] at hk
        rcases takenBy_read h (fun _ => hn) ht hl hk with hgone | ⟨_, ht', hl', htaken, htrail⟩
        · exact .gone hgone
        · rw [hscan ht' hl' hp]
          exact .ok ⟨.token htaken htrail, fun _ => hk⟩
  · rw [scan_of_ending hl, scan_of_ending hm]
    obtain ⟨hlast, hk⟩ := Reader.ending?_eq_some hl
    obtain ⟨hlast', -⟩ := Reader.ending?_eq_some hm
    have htaken : S.TakenBy l m r s := by
      refine ⟨hlinks, List.mem_of_getLast? hlast, List.mem_of_getLast? hlast', ?_⟩
      rcases S.ending (S.free_of_trail h) with ⟨hn, -⟩ | ⟨_, _, hl', hm', -, htrail'⟩
      · cases hn.symm.trans hl
      · cases hl'.symm.trans hl
        cases hm'.symm.trans hm
        exact htrail'
    exact .ok ⟨.token htaken htrail, fun _ => by rw [hk]; rfl⟩

/-! ## Tokens -/

variable {P : Reader → Reader → Prop} {Q : α → α → Reader → Reader → Prop}

theorem skip_couples : S.Couples S.readers skipTrivia skipTrivia fun _ _ => S.facing := by
  refine ⟨onward_skipTrivia, onward_skipTrivia, fun {r s} h => ?_⟩
  have hchain : ∀ {r s}, S.amid r s →
      S.Outcome (fun _ _ => S.facing) (chainTrivia r) (chainTrivia s) := fun h =>
    (S.chainTrivia.outcome h).mono fun h => .free h.1 h.2
  cases h with
  | free h =>
    obtain ⟨hr, hs⟩ := S.freed h
    rw [skipTrivia_of_none hr, skipTrivia_of_none hs]
    exact hchain (S.amid_of_free h)
  | held h =>
    obtain ⟨hr, hs⟩ := S.freed h.trail
    rw [skipTrivia_hold hr h.left, skipTrivia_hold hs h.right, ← S.kind_eq h.alike]
    split
    · exact hchain (S.amid_of_free (S.free_of_trail h.trail))
    · rename_i hl
      exact .ok (.held h (by simpa [S.kind_eq h.alike] using hl))
  | trivia hl hm hleft hright h =>
    obtain ⟨hr, hs⟩ := S.amid_freed h
    rw [skipTrivia_hold hr hleft, skipTrivia_hold hs hright, if_pos hl, if_pos hm]
    exact hchain h
  | apart h => exact h r.rounds s.rounds

theorem take_couples : S.Couples S.facing take take S.TakenBy := by
  refine ⟨onward_take, onward_take, fun {r s} h => ?_⟩
  cases h with
  | free h hrest =>
    obtain ⟨hr, hs⟩ := S.freed h
    rw [take_of_none hr, take_of_none hs]
    refine (scan_outcome h).mono fun h => ?_
    obtain ⟨h | ⟨hl, -, -, -, -⟩, hk⟩ := h
    · exact h
    · exact absurd hl (by simp [hk hrest])
  | held h =>
    obtain ⟨hr, hs⟩ := S.freed h.trail
    rw [take_hold hr h.left, take_hold hs h.right]
    exact .ok h
  | @ahead l r s h =>
    obtain ⟨tail, ht, hl⟩ := h.rest
    have htaken := h.taken r.rounds s.rounds
    have hfirst := Lexeme.first_of_isLexeme hl (Kind.plain_of_isWord h.word)
    rw [← ht] at hfirst
    have hr : r.held = none := (S.freed htaken.trail).1
    rw [take_hold hr htaken.left, take_of_none h.held, scan_of_first h.held h.ending hfirst]
    exact .ok htaken

/-- What comes next decides both runs alike. -/
theorem peekSignificant_couples {f g : Option Char → Parse α} (h : ∀ c, S.Couples S.facing (f c) (g c) Q) :
    S.Couples S.readers (peekSignificant >>= f) (peekSignificant >>= g) Q := by
  have hpeek : S.Couples S.facing peek peek fun c d r s => c = d ∧ S.facing r s := by
    refine ⟨onward_peek, onward_peek, fun {r s} h => ?_⟩
    rw [Parse.peek_eq h.held_mem.1, Parse.peek_eq h.held_mem.2]
    refine .ok ⟨?_, h⟩
    cases h with
    | free h hrest =>
      obtain ⟨hr, hs⟩ := S.freed h
      rw [hr, hs]
      exact S.peek_eq h hrest
    | held h => exact congrArg (fun raw : String => raw.toList.head?) (S.raw_eq h.alike)
    | ahead h =>
      obtain ⟨c, text, ht, hc, -⟩ := h.exists_cons
      rw [h.held]
      show _ = s.cursor.rest.head?
      rw [ht]
      exact hc
  refine (skip_couples.bind fun _ _ => hpeek).bind fun c d => ?_
  exact Couples.cases (F := f) (G := g) (fun h => h.1) (fun k => (h k).strengthen fun h => h.1.2)
    _ rfl _ rfl

theorem takeSignificant_couples : S.Couples S.readers takeSignificant takeSignificant
    S.TakenBy :=
  skip_couples.bind fun _ _ => take_couples

theorem putBackLast_couples : S.Couples (S.TakenBy l m) (putBackLast l) (putBackLast m)
    fun _ _ => S.readers := by
  refine ⟨onward_putBackLast l, onward_putBackLast m, fun {r s} h => ?_⟩
  obtain ⟨hr, hs⟩ := S.freed h.trail
  exact .of_or (putBackLast_or hr l) (putBackLast_or hs m) (.held h)

theorem restore_couples (waiting waiting' : Option Link) : S.Couples (S.TakenBy l m)
    (restore waiting l) (restore waiting' m) fun _ _ => S.readers := by
  refine ⟨onward_restore waiting l, onward_restore waiting' m, fun {r s} h => ?_⟩
  obtain ⟨hr, hs⟩ := S.freed h.trail
  exact .of_or (restore_or hr waiting) (restore_or hs waiting') (.held h)

/-! ## Strings and numbers -/

theorem stringHere_couples : S.Couples S.facing stringHere stringHere
    fun a b r s => S.readers r s ∧ Option.Rel S.links a b := by
  refine ⟨onward_stringHere, onward_stringHere, fun {r s} h => ?_⟩
  cases h with
  | held h =>
    rw [stringHere_of_held rfl, stringHere_of_held rfl]
    exact .ok ⟨.held h, .none⟩
  | ahead h =>
    obtain ⟨c, text, ht, -, hc⟩ := h.exists_cons
    have hquote : ∀ d ∈ (c :: text).head?, d ≠ '"' ∧ d ≠ '\'' := by
      rintro _ ⟨⟩
      constructor <;> (rintro rfl; exact absurd hc (by decide))
    rw [stringHere_of_held rfl, stringHere_of_none fun _ => ht ▸ hquote]
    exact .ok ⟨readers_of_facing (.ahead h), .none⟩
  | @free r s h hrest =>
    have hs := (S.freed h).2
    have hfinds := stringHere_finds r
    generalize stringHere r = result at hfinds
    cases hfinds with
    | absent hnot =>
      have hpeek : r.cursor.rest.head? = s.cursor.rest.head? := S.peek_eq h hrest
      rw [stringHere_of_none fun _ => hpeek ▸ hnot (S.freed h).1]
      exact .ok ⟨.free h, .none⟩
    | closed hh ht hl =>
      have hne := hl.spells.ne_nil (by decide)
      rcases takenBy_read h (absurd · hne) ht hl rfl with hgone | ⟨tail', ht', hl', htaken, -⟩
      · exact .gone hgone
      · rw [stringHere_of_isLexeme hs ht' hl']
        exact .ok ⟨htaken.readers, .some htaken.alike⟩
    | @unclosed quote body length hh ht hq hstring =>
      rcases S.unclosed h ht hq hstring with hexempt | ⟨_, _, ht', hstring', hfailed, herrors⟩
      · exact .exempt (hexempt length)
      · rw [stringHere_of_quote hs ht' hq hstring']
        exact .error herrors (hfailed length)

theorem takeString?_couples : S.Relates takeString? takeString? (Option.Rel S.links) := by
  rw [takeString?_eq]
  exact skip_couples.bind fun _ _ => stringHere_couples

theorem numberHere_couples : S.Couples S.facing numberHere numberHere
    fun l m r s => S.readers r s ∧ S.links l m := by
  refine ⟨onward_numberHere, onward_numberHere, fun {r s} h => ?_⟩
  have htake : S.Outcome (fun l m r s => S.readers r s ∧ S.links l m) (take r) (take s) :=
    (take_couples.outcome h).mono fun h => ⟨h.readers, h.alike⟩
  cases h with
  | held h =>
    rw [numberHere_of_held rfl, numberHere_of_held rfl]
    exact htake
  | ahead h =>
    obtain ⟨c, text, ht, -, hc⟩ := h.exists_cons
    have hsigned : Lexeme.signed? s.cursor.rest = none := by
      rw [ht]
      unfold Lexeme.signed?
      split
      · rename_i heq
        cases heq
        exact absurd hc (by decide)
      · rfl
    rw [numberHere_of_held rfl, numberHere_of_plain fun _ => hsigned]
    exact htake
  | @free r s h hrest =>
    have hfinds := numberHere_finds r
    generalize numberHere r = result at hfinds
    cases hfinds with
    | plain hplain =>
      have hsigned := S.signed_eq h hrest
      rw [hplain (S.freed h).1, Option.isSome_none, eq_comm, Option.isSome_eq_false_iff,
        Option.isNone_iff_eq_none] at hsigned
      rw [numberHere_of_plain fun _ => hsigned]
      exact htake
    | signed hh ht hl hsign =>
      have hne := hl.spells.ne_nil (by decide)
      rcases takenBy_read h (absurd · hne) ht hl rfl with hgone | ⟨tail', ht', hl', htaken, -⟩
      · exact .gone hgone
      · rw [numberHere_of_signed (S.freed h).2 ht' hl' hsign]
        exact .ok ⟨htaken.readers, htaken.alike⟩

theorem takeNumber_couples : S.Relates takeNumber takeNumber S.links := by
  rw [takeNumber_eq]
  exact skip_couples.bind fun _ _ => numberHere_couples

/-! ## Names -/

theorem take_dot_couples (xs ys : List Link) : S.Couples
    (fun r s => S.trail xs ys r s ∧ r.cursor.peek? = some '.') take take
    fun l m => S.trail (xs ++ [l]) (ys ++ [m]) := by
  refine ⟨onward_take, onward_take, fun {r s} h => ?_⟩
  obtain ⟨h, hdot⟩ := h
  obtain ⟨hr, hs⟩ := S.freed h
  obtain ⟨tail, ht⟩ : ∃ tail, r.cursor.rest = '.' :: tail := by
    rwa [Cursor.peek?, List.head?_eq_some_iff] at hdot
  rw [take_of_none hr, take_of_none hs]
  refine (scan_outcome h).mono fun h => ?_
  obtain ⟨⟨-, h⟩ | ⟨hl, -, -, -, -⟩, hk⟩ := h
  · exact h
  · exact absurd hl (by rw [hk (by rw [ht]; rfl)]; decide)

theorem wordAfterDot?_couples (reserved : Bool) (xs ys : List Link) :
    S.Couples (S.trail xs ys) (wordAfterDot? reserved) (wordAfterDot? reserved)
      (S.AfterDot xs ys) := by
  have htake : S.Couples (S.trail xs ys) take take (S.Scanned xs ys) := by
    refine ⟨onward_take, onward_take, fun {r s} h => ?_⟩
    obtain ⟨hr, hs⟩ := S.freed h
    rw [take_of_none hr, take_of_none hs]
    exact (scan_outcome h).mono fun h => h.1
  refine htake.bind fun l m => .ite (fun h => ?_) (.pure fun h => ?_) ?_
  · cases h with
    | token h => rw [S.kind_eq h.alike]
    | trivia hl hm =>
      rw [Kind.not_word_of_isTrivia hl, Kind.not_word_of_isTrivia hm]
  · obtain ⟨⟨h, ht⟩ | ⟨hl, -, -, -, -⟩, hw⟩ := h
    · exact .word h.alike ht
    · exact absurd hw (by simp [Kind.not_word_of_isTrivia hl])
  · refine Couples.bind (Q := fun _ _ => S.readers) ?_ fun _ _ => .pure .none
    refine ⟨onward_putBackLast l, onward_putBackLast m, fun {r s} h => ?_⟩
    obtain ⟨h | ⟨hl, hm, hleft, hright, h⟩, -⟩ := h
    · exact putBackLast_couples.outcome h
    · obtain ⟨hr, hs⟩ := S.amid_freed h
      exact .of_or (putBackLast_or hr l) (putBackLast_or hs m) (.trivia hl hm hleft hright h)

theorem nameSegment_couples (reserved : Bool) (xs ys : List Link) (found found' : List (List Link)) :
    S.Couples (S.trail (xs ++ found.flatten) (ys ++ found'.flatten)) (nameSegment reserved)
      (nameSegment reserved)
      (Couples.Round (fun found found' => S.trail (xs ++ found.flatten) (ys ++ found'.flatten))
        (fun found found' last last' r s => S.readers r s ∧
          S.words (xs ++ (found.flatten ++ last)) (ys ++ (found'.flatten ++ last'))) found found') := by
  refine Couples.get.bind fun here here' => ?_
  refine .ite (c := here.cursor.peek? = some '.') (fun {r s} h => ?_) ?_ ?_
  · obtain ⟨ht, rfl, rfl⟩ := h
    exact S.dot_iff ht
  · refine ((take_dot_couples (xs ++ found.flatten) (ys ++ found'.flatten)).strengthen fun h => ?_).bind
      fun dot dot' => ?_
    · obtain ⟨⟨ht, rfl, rfl⟩, hc⟩ := h
      exact ⟨ht, hc⟩
    -- The dot alone ends a name, so what was read up to it is kept in mind.
    refine Couples.bindOption (((wordAfterDot?_couples reserved _ _).keep
        (F := S.words (xs ++ found.flatten ++ [dot]) (ys ++ found'.flatten ++ [dot']))).strengthen
      fun ht => ⟨ht, S.words_of_trail ht⟩) ?_ ?_ ?_
    · rintro _ _ _ _ ⟨_ | _, -⟩ <;> rfl
    · refine .pure fun h => .last ?_
      obtain ⟨hw, hwords⟩ := h
      cases hw with
      | none h => exact ⟨h, by simpa using hwords⟩
    · refine fun word word' => .pure fun h => .item ?_
      obtain ⟨hw, -⟩ := h
      cases hw with
      | word _ ht => simpa using ht
  · refine .pure fun h => .last ?_
    obtain ⟨⟨ht, -⟩, -⟩ := h
    exact ⟨S.readers_of_trail ht, by simpa using S.words_of_trail ht⟩

theorem nameTail_couples (reserved : Bool) (xs ys : List Link) :
    S.Couples (S.trail xs ys) (nameTail reserved) (nameTail reserved)
      fun tail tail' r s => S.readers r s ∧ S.words (xs ++ tail) (ys ++ tail') := by
  have hrepeat := Couples.repeatUntil (S := S.toCoupling)
    (P := fun found found' => S.trail (xs ++ found.flatten) (ys ++ found'.flatten))
    (fun h => S.trail_round h) fun found found' => nameSegment_couples reserved xs ys found found'
  exact (hrepeat.strengthen fun ht => by simpa using ht).bind fun _ _ => .pure fun h => h

theorem takeName?_couples (reserved : Bool) :
    S.Couples S.readers (takeName? reserved) (takeName? reserved)
      fun a b r s => S.readers r s ∧ Option.Rel (fun a b => S.Names a b r s) a b := by
  have hword : ∀ (l m : Link) (xs ys : List Link), S.Couples
      (fun r s => (S.trail (l :: xs) (m :: ys) r s ∧ l ∈ r.chain.links ∧ m ∈ s.chain.links) ∧
        l.kind ≠ .endOfInput)
      (do return some ⟨l, xs ++ (← nameTail reserved)⟩)
      (do return some ⟨m, ys ++ (← nameTail reserved)⟩)
      fun a b r s => S.readers r s ∧ Option.Rel (fun a b => S.Names a b r s) a b := by
    intro l m xs ys
    refine (nameTail_couples reserved _ _).remember.keep.bind fun tail tail' => .pure fun h => ?_
    obtain ⟨⟨⟨hreaders, hwords⟩, hl, hm⟩, hk⟩ := h
    exact ⟨hreaders, .some ⟨hwords, hl, hm, hk⟩⟩
  refine (Couples.get.bind fun here here' => .strengthen ?_ fun h => h.1)
  refine takeSignificant_couples.bind fun l m => ?_
  refine .ite (fun h => by rw [S.kind_eq h.alike]) ((hword l m [] []).strengthen fun h => ?_) ?_
  · exact ⟨⟨h.1.trail, h.1.left, h.1.right⟩, Kind.ne_endOfInput_of_isWord h.2⟩
  refine .ite (fun h => by rw [S.kind_eq h.1.alike]) ?_ ?_
  · refine Couples.bindOption ((((wordAfterDot?_couples reserved [l] [m]).remember (l := l) (m := m)).keep
        (F := S.words [l] [m] ∧ l.kind ≠ .endOfInput)).strengthen fun h => ?_) ?_ ?_ ?_
    · obtain ⟨⟨htaken, -⟩, hdot⟩ := h
      exact ⟨⟨htaken.trail, htaken.left, htaken.right⟩, S.words_of_trail htaken.trail, by simp [hdot]⟩
    · rintro _ _ _ _ ⟨⟨_ | _, -⟩, -⟩ <;> rfl
    · refine .pure fun h => ?_
      obtain ⟨⟨hw, hl, hm⟩, hwords, hk⟩ := h
      cases hw with
      | none h => exact ⟨h, .some ⟨hwords, hl, hm, hk⟩⟩
    · intro word word'
      refine (hword l m [word] [word']).strengthen fun h => ?_
      obtain ⟨⟨hw, hl, hm⟩, -, hk⟩ := h
      cases hw with
      | word _ ht => exact ⟨⟨ht, hl, hm⟩, hk⟩
  · exact ((restore_couples here.held here'.held).strengthen fun h => h.1.1).bind
      fun _ _ => .pure fun h => ⟨h, .none⟩

end Parse

end ThriftSyntax
