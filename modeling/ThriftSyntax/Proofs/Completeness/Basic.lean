import ThriftSyntax.Proofs.Completeness.Setting
import ThriftSyntax.Proofs.Soundness.Basic

/-!
# Completeness of the smallest rules

Where the terminals of a phrase come next, its rule reads them. A rule for something that may be
missing reads nothing where the terminal that comes next cannot begin it.
-/

namespace ThriftSyntax

open Parse Reader

variable {s : Setting} {α β : Type} {P : α → Prop} {Q : β → Prop}
variable {x : Terminal} {xs ys zs : List Terminal} {reader : Reader}

/-! ## What may follow -/

/-- Some terminal comes next, and the kind of its first token satisfies `P`. -/
def Next (P : Kind → Prop) (xs : List Terminal) : Prop := ∃ x tail, xs = x :: tail ∧ P x.head.kind

/-- A token of this kind begins none of the clauses that a phrase may end with. -/
structure Kind.Fresh (kind : Kind) : Prop where
  parenthesis : kind ≠ .punct .leftParen
  equals : kind ≠ .punct .equals
  comma : kind ≠ .punct .comma
  semicolon : kind ≠ .punct .semicolon

theorem Kind.Fresh.of_isWord {kind : Kind} {reserved : Bool} (h : kind.isWord reserved = true) :
    kind.Fresh := by
  constructor <;> (rintro rfl; cases h)

/-- Such a token may begin an item of a run that `close` ends. -/
structure Kind.Begins (close : Punct) (kind : Kind) : Prop where
  fresh : kind.Fresh
  unclosed : kind ≠ .punct close
  unended : kind ≠ .endOfInput

theorem Kind.Begins.of_isWord {close : Punct} {kind : Kind} {reserved : Bool}
    (h : kind.isWord reserved = true) : kind.Begins close where
  fresh := .of_isWord h
  unclosed := by
    rintro rfl
    cases h
  unended := Kind.ne_endOfInput_of_isWord h

theorem Kind.Begins.punct {close mark : Punct} (h : (Kind.punct mark).Fresh) (hne : mark ≠ close) :
    (Kind.punct mark).Begins close where
  fresh := h
  unclosed := by simpa using hne
  unended := by simp

/-- A name may begin with such a token. -/
def Kind.StartsName (kind : Kind) : Prop := kind = .punct .dot ∨ kind.isWord true = true

namespace Kind.StartsName

variable {kind : Kind}

theorem of_isWord {reserved : Bool} (h : kind.isWord reserved = true) : kind.StartsName := by
  refine .inr ?_
  cases kind <;> first | rfl | cases h

theorem begins {close : Punct} (h : kind.StartsName) (hne : .dot ≠ close) : kind.Begins close := by
  rcases h with rfl | hw
  · exact .punct (by constructor <;> simp) hne
  · exact .of_isWord hw

theorem plain {raw : List Char} (h : kind.StartsName) : Lexeme.Plain kind raw := by
  rcases h with rfl | hw
  · exact plain_punct .dot raw
  · exact Kind.plain_of_isWord hw

theorem fresh (h : kind.StartsName) : kind.Fresh :=
  (h.begins (show Punct.dot ≠ .comma by decide)).fresh

theorem ne_endOfInput (h : kind.StartsName) : kind ≠ .endOfInput :=
  (h.begins (show Punct.dot ≠ .comma by decide)).unended

end Kind.StartsName

theorem Phrase.Name.starts {reserved : Bool} (name : Phrase.Name reserved) :
    name.words.head.kind.StartsName := by
  obtain ⟨⟨head, tail⟩, hshaped⟩ := name
  rcases hshaped.shape with h | ⟨hw, -⟩
  · cases h with
    | dot hd => exact .inl hd
    | word hd => exact .inl hd
  · exact .of_isWord hw

/-! ## At a token -/

namespace Parse

/-- The same as `Accepts`, for a reader that stands before a token that is no trivia. -/
def AcceptsAt (s : Setting) (p : Parse α) (xs ys : List Terminal) (P : α → Prop) : Prop :=
  ∀ reader, reader.Awaits s xs → AtToken reader →
    Attains (fun a after => P a ∧ after.Awaits s ys) (p reader)

theorem Accepts.atToken {p : Parse α} (h : Accepts s p xs ys P) : AcceptsAt s p xs ys P :=
  fun reader hr _ => h reader hr

theorem AcceptsAt.bind {p : Parse α} {f : α → Parse β} (hp : AcceptsAt s p xs ys P)
    (hf : ∀ a, P a → Accepts s (f a) ys zs Q) : AcceptsAt s (p >>= f) xs zs Q :=
  fun reader hr hat => (hp reader hr hat).bind fun _ ⟨ha, hbetween⟩ => hf _ ha _ hbetween

theorem AcceptsAt.map {p : Parse α} {f : α → β} (hp : AcceptsAt s p xs ys P)
    (hf : ∀ a, P a → Q (f a)) : AcceptsAt s (f <$> p) xs ys Q :=
  fun reader hr hat => (hp reader hr hat).map (.imp_left (hf _))

/-- What is peeked is the first character of the terminal that comes next. -/
theorem accepts_peek {f : Option Char → Parse β}
    (h : AcceptsAt s (f x.head.raw.toList.head?) (x :: xs) ys Q) :
    Accepts s (peekSignificant >>= f) (x :: xs) ys Q := by
  intro reader hr
  obtain ⟨found, halike, hf⟩ := hr.faces
  obtain ⟨y, _, hy, htail, rfl⟩ := List.forall₂_cons_left_iff.1 halike
  obtain ⟨between, hpeek, hv, hat, hbetween⟩ := peekSignificant_faces hr.valid hf
  rw [hy.head.raw] at hpeek
  rw [bind_of_ok hpeek]
  exact h between ⟨hv, _, halike, hbetween⟩ hat

theorem acceptsAt_take {link : Link} (hp : Lexeme.Plain link.kind link.raw.toList)
    (hk : link.kind ≠ .endOfInput) :
    AcceptsAt s take (.token link :: xs) xs (link.Alike s) := by
  intro reader hr hat
  obtain ⟨found, halike, hf⟩ := hr.faces
  obtain ⟨_, _, hy, htail, rfl⟩ := List.forall₂_cons_left_iff.1 halike
  cases hy with
  | @token _ other hother =>
    obtain ⟨ahead, hb, -, -, hlaid⟩ := hat.exists_before hf
    rw [Terminal.links_token, List.singleton_append] at hb
    obtain ⟨after, htake, hafter⟩ :=
      take_complete hr.valid (by rw [hother.kind, hother.raw]; exact hp) hb
    have htook := (take_sound hr.valid htake).1
    exact .of_eq_ok htake ⟨hother, htook.valid (hother.kind ▸ hk), _, htail, ahead, hafter, hlaid⟩

/-- The reader has taken the first token of `x`, and may put it back. -/
structure Passed (s : Setting) (x : Terminal) (xs : List Terminal) (found : Link)
    (reader : Reader) : Prop where
  alike : x.head.Alike s found
  held : reader.held = none
  last : reader.chain.links.getLast? = some found
  hold : (reader.hold found).Awaits s (x :: xs)
  passes : ∀ link, x = .token link → reader.Awaits s xs

theorem take_passed (hr : reader.Awaits s (x :: xs)) (hat : AtToken reader)
    (hp : Lexeme.Plain x.head.kind x.head.raw.toList) (hk : x.head.kind ≠ .endOfInput) :
    ∃ found after, take reader = .ok found after ∧ Passed s x xs found after := by
  obtain ⟨_, halike, hf⟩ := hr.faces
  obtain ⟨y, _, hy, htail, rfl⟩ := List.forall₂_cons_left_iff.1 halike
  obtain ⟨ahead, hb, hx, hends, hlaid⟩ := hat.exists_before hf
  obtain ⟨after, htake, hafter⟩ :=
    take_complete hr.valid (by rw [hy.head.kind, hy.head.raw]; exact hp) hb
  obtain ⟨htook, hplain⟩ := take_sound hr.valid htake
  refine ⟨y.head, after, htake, hy.head, htook.held, htook.last, ?_, ?_⟩
  · exact ⟨htook.valid_hold hplain, _, halike, _, (before_hold htook.last htook.held).2 hafter,
      .terminal hx hends hlaid⟩
  · rintro link rfl
    cases hy with
    | token h => exact ⟨htook.valid (h.kind ▸ hk), _, htail, ahead, hafter, hlaid⟩

theorem takeSignificant_passed (hr : reader.Awaits s (x :: xs))
    (hp : Lexeme.Plain x.head.kind x.head.raw.toList) (hk : x.head.kind ≠ .endOfInput) :
    ∃ found after, takeSignificant reader = .ok found after ∧ Passed s x xs found after := by
  obtain ⟨found, halike, hf⟩ := hr.faces
  obtain ⟨y, _, hy, htail, rfl⟩ := List.forall₂_cons_left_iff.1 halike
  obtain ⟨between, hskip, hv, hat, hbetween⟩ := skipTrivia_faces hr.valid hf
  obtain ⟨other, after, htake, hafter⟩ := take_passed ⟨hv, _, halike, hbetween⟩ hat hp hk
  exact ⟨other, after, bind_eq_ok.2 ⟨(), between, hskip, htake⟩, hafter⟩

/-- A token that is asked for by its own terminal is simply read. -/
theorem accepts_takeSignificant {link : Link} (hp : Lexeme.Plain link.kind link.raw.toList)
    (hk : link.kind ≠ .endOfInput) :
    Accepts s takeSignificant (.token link :: xs) xs (link.Alike s) := by
  intro reader hr
  obtain ⟨found, after, htake, hafter⟩ := takeSignificant_passed hr hp hk
  exact .of_eq_ok htake ⟨hafter.alike, hafter.passes link rfl⟩

end Parse

/-- A mark's token is one character. -/
theorem Phrase.Leaf.spelled_mark {mark : Punct} (leaf : Mark mark) :
    leaf.link.raw.toList = [mark.char] := by
  have hspells := leaf.spells
  rw [leaf.fits] at hspells
  generalize leaf.link.raw.toList = raw at hspells
  cases hspells
  rfl

/-- A reserved word's token spells it. -/
theorem Phrase.Leaf.spelled_word {word : Keyword} (leaf : Word word) : leaf.link.raw = word.text := by
  have hspells := leaf.spells
  rw [leaf.fits] at hspells
  generalize hraw : leaf.link.raw.toList = raw at hspells
  cases hspells
  exact String.toList_inj.1 hraw

namespace Grammar

open Phrase

theorem plain_mark {mark : Punct} (leaf : Mark mark) :
    Lexeme.Plain leaf.link.kind leaf.link.raw.toList := by
  rw [leaf.fits]
  exact plain_punct mark _

theorem head_mark {mark : Punct} (leaf : Mark mark) :
    leaf.link.raw.toList.head? = some mark.char := by
  rw [leaf.spelled_mark]
  rfl

theorem mark_accepts {mark : Punct} (leaf : Mark mark) :
    Accepts s (Grammar.mark mark) (leaf.terminals ++ xs) xs (leaf.link.Alike s) := by
  refine (accepts_takeSignificant (plain_mark leaf) (by simp [leaf.fits])).bind fun link hlink => ?_
  rw [if_pos (hlink.kind.trans leaf.fits)]
  exact .pure hlink

theorem mark?_some {mark : Punct} (leaf : Mark mark) :
    Accepts s (mark? mark) (leaf.terminals ++ xs) xs
      fun found => ∃ link, found = some link ∧ leaf.link.Alike s link := by
  refine accepts_peek (x := .token leaf.link) ?_
  rw [Terminal.head_token, head_mark, if_pos rfl]
  exact (acceptsAt_take (plain_mark leaf) (by simp [leaf.fits])).map
    fun link hlink => ⟨link, rfl, hlink⟩

theorem accepts_of_spells {p : Parse α}
    (h : Lexeme.Spells x.head.kind x.head.raw.toList → Accepts s p (x :: xs) ys P) :
    Accepts s p (x :: xs) ys P :=
  fun reader hr => h hr.spells reader hr

theorem mark?_none {mark : Punct} (hm : Lexeme.IsLone mark) (hxs : Next (· ≠ .punct mark) xs) :
    Accepts s (mark? mark) xs xs (· = none) := by
  obtain ⟨x, xs, rfl, hk⟩ := hxs
  refine accepts_of_spells fun hs => accepts_peek ?_
  rw [if_neg fun hc => hk ((hs.opens hc).eq_punct hm)]
  exact (Accepts.pure (P := (· = none)) rfl).atToken

theorem name_accepts {reserved : Bool} (name : Name reserved) :
    Accepts s (Grammar.name reserved) (name.terminals ++ xs) xs (name.words.Alike s) := by
  intro reader hr
  obtain ⟨found, halike, hf⟩ := hr.faces
  obtain ⟨y, _, hy, htail, rfl⟩ := List.forall₂_cons_left_iff.1 halike
  cases hy with
  | @name _ _ found hname =>
    obtain ⟨after, htake, hv, hafter⟩ :=
      takeName?_complete hr.valid (name.shaped.of_alike hname) hf
    exact .of_eq_ok (bind_eq_ok.2 ⟨some found, after, htake, rfl⟩) ⟨hname, hv, _, htail, hafter⟩

theorem string_accepts (literal : Literal) :
    Accepts s Grammar.string (literal.terminals ++ xs) xs (literal.link.Alike s) := by
  intro reader hr
  obtain ⟨found, halike, hf⟩ := hr.faces
  obtain ⟨y, _, hy, htail, rfl⟩ := List.forall₂_cons_left_iff.1 halike
  cases hy with
  | @token _ found hlink =>
    obtain ⟨after, htake, hv, hafter⟩ :=
      takeString?_complete hr.valid (hlink.kind.trans literal.fits) hf
    exact .of_eq_ok (bind_eq_ok.2 ⟨some found, after, htake, rfl⟩) ⟨hlink, hv, _, htail, hafter⟩

theorem takeNumber_accepts {link : Link} (hk : link.kind = .number) :
    Accepts s takeNumber (.token link :: xs) xs (link.Alike s) := by
  intro reader hr
  obtain ⟨found, halike, hf⟩ := hr.faces
  obtain ⟨y, _, hy, htail, rfl⟩ := List.forall₂_cons_left_iff.1 halike
  cases hy with
  | @token _ found hlink =>
    obtain ⟨after, htake, hv, hafter⟩ := takeNumber_complete hr.valid (hlink.kind.trans hk) hf
    exact .of_eq_ok htake ⟨hlink, hv, _, htail, hafter⟩

theorem integer_accepts (number : Integer) :
    Accepts s Grammar.integer (number.terminals ++ xs) xs
      fun found => number.link.Alike s found.1 ∧ found.2 = number.value := by
  refine (takeNumber_accepts number.fits.1).bind fun link hlink => ?_
  obtain ⟨value, hvalue⟩ := Option.isSome_iff_exists.1 number.fits.2
  rw [if_pos (hlink.kind.trans number.fits.1), hlink.raw, hvalue]
  exact .pure ⟨hlink, by simp [Integer.value, hvalue]⟩

theorem separator?_some (separator : Separator) :
    Accepts s separator? (separator.terminals ++ xs) xs
      fun found => ∃ link, found = some link ∧ separator.link.Alike s link := by
  have htake : ∀ {mark : Punct}, (mark = .comma ∨ mark = .semicolon) →
      separator.link.kind = .punct mark → Accepts s separator? (separator.terminals ++ xs) xs
        fun found => ∃ link, found = some link ∧ separator.link.Alike s link := by
    intro mark hm hk
    rw [separator?_eq]
    refine accepts_peek (x := .token separator.link) ?_
    rw [Terminal.head_token, head_mark ⟨separator.link, separator.spells, hk⟩,
      if_pos (by rcases hm with rfl | rfl <;> simp)]
    exact (acceptsAt_take (hk ▸ plain_punct mark _) (by simp [hk])).map
      fun link hlink => ⟨link, rfl, hlink⟩
  rcases separator.fits with hk | hk
  · exact htake (.inl rfl) hk
  · exact htake (.inr rfl) hk

theorem separator?_none (hxs : Next Kind.Fresh xs) :
    Accepts s separator? xs xs (· = none) := by
  obtain ⟨x, xs, rfl, hk⟩ := hxs
  rw [separator?_eq]
  refine accepts_of_spells fun hs => accepts_peek ?_
  have hne : ∀ {mark : Punct}, Lexeme.IsLone mark → x.head.kind ≠ .punct mark →
      x.head.raw.toList.head? ≠ some mark.char :=
    fun hm hk hc => hk ((hs.opens hc).eq_punct hm)
  rw [if_neg (not_or.2 ⟨hne (by decide) hk.comma, hne (by decide) hk.semicolon⟩)]
  exact (Accepts.pure (P := (· = none)) rfl).atToken

theorem separator?_accepts (separator : Option Separator) (hxs : Next Kind.Fresh xs) :
    Accepts s separator? (optional Leaf.terminals separator ++ xs) xs
      (Option.Rel (fun leaf link => leaf.link.Alike s link) separator) := by
  cases separator with
  | none =>
    refine (separator?_none hxs).mono fun found h => ?_
    rw [h]
    exact .none
  | some separator =>
    refine (separator?_some separator).mono fun found h => ?_
    obtain ⟨link, rfl, hlink⟩ := h
    exact .some hlink

/-! ## Putting a node together -/

theorem span_accepts {first last : Nat} {build : Span → α} (h : P (build ⟨first, last⟩)) :
    Accepts s (Grammar.span first last >>= fun span => pure (build span)) xs xs P :=
  (Accepts.of_still (span_or first last) rfl).bind fun _ hspan => .pure (hspan ▸ h)

theorem index_accepts {span : α → Span} {name : α → String} {items : List α} {build : Children α → β}
    (h : ∀ chain, Q (build (.ofItems chain span name items))) :
    Accepts s (index span name items >>= fun children => pure (build children)) xs xs Q := by
  intro reader hr
  obtain hrun | hrun := index_or span name items reader
  · exact .of_eq_ok (bind_eq_ok.2 ⟨_, reader, hrun, rfl⟩) ⟨h _, hr⟩
  · exact .of_eq_stalled (bind_eq_error.2 (.inl hrun))

/-! ## Words that begin a clause -/

/-- A word that is put back if it is not the one that is looked for. -/
theorem word?_passed (hw : x.head.kind.isWord true = true) (hr : reader.Awaits s (x :: xs)) :
    ∃ word after, word? reader = .ok (some word) after ∧ Passed s x xs word after := by
  obtain ⟨found, halike, hf⟩ := hr.faces
  obtain ⟨y, _, hy, htail, rfl⟩ := List.forall₂_cons_left_iff.1 halike
  obtain ⟨between, hpeek, hv, hat, hbetween⟩ := peekSignificant_faces hr.valid hf
  have hspells := hf.spells hr.valid
  have hword : y.head.kind.isWord true = true := hy.head.kind ▸ hw
  obtain ⟨c, hc, ho⟩ := hspells.exists_opens (Kind.ne_endOfInput_of_isWord hword)
  obtain ⟨word, after, htake, hafter⟩ := take_passed ⟨hv, _, halike, hbetween⟩ hat
    (Kind.plain_of_isWord hw) (Kind.ne_endOfInput_of_isWord hw)
  refine ⟨word, after, bind_eq_ok.2 ⟨_, between, hpeek, ?_⟩, hafter⟩
  rw [hc]
  dsimp only
  rw [if_pos (ho.word_iff.2 hword)]
  exact map_eq_ok.2 ⟨word, htake, rfl⟩

theorem word?_accepts {link : Link} (hw : link.kind.isWord true = true) :
    Accepts s word? (.token link :: xs) xs
      fun found => ∃ word, found = some word ∧ link.Alike s word := by
  intro reader hr
  obtain ⟨word, after, hrun, hafter⟩ := word?_passed (x := .token link) hw hr
  exact .of_eq_ok hrun ⟨⟨word, rfl, hafter.alike⟩, hafter.passes link rfl⟩

theorem word?_absent (hxs : Next (·.isWord true = false) xs) :
    Accepts s word? xs xs (· = none) := by
  obtain ⟨x, xs, rfl, hk⟩ := hxs
  refine accepts_of_spells fun hs => accepts_peek ?_
  have hpure : AcceptsAt s (pure none : Parse (Option Link)) (x :: xs) (x :: xs) (· = none) :=
    (Accepts.pure (P := (· = none)) rfl).atToken
  cases hc : x.head.raw.toList.head? with
  | none => exact hpure
  | some c =>
    dsimp only
    rw [if_neg fun hd => ?_]
    · exact hpure
    · rw [(hs.opens hc).word_iff.1 hd] at hk
      cases hk

/-- A word that is not the one that is looked for is put back. -/
theorem word?_unclaimed {f : Option Link → Parse β} {b : β} (hnone : f none = pure b)
    (hsome : ∀ word : Link, x.head.Alike s word → f (some word) = do putBackLast word; return b)
    (hb : Q b) : Accepts s (word? >>= f) (x :: xs) (x :: xs) Q := by
  by_cases hw : x.head.kind.isWord true = true
  · intro reader hr
    obtain ⟨word, after, hrun, hafter⟩ := word?_passed hw hr
    rw [bind_of_ok hrun, hsome word hafter.alike, bind_of_ok (putBackLast_eq hafter.held hafter.last)]
    exact .ok ⟨hb, hafter.hold⟩
  · refine (word?_absent ⟨x, xs, rfl, by simpa using hw⟩).bind fun found h => ?_
    rw [h, hnone]
    exact .pure hb

/-! ## Items up to a closing mark -/

/-- A run of items is read if each item is, whatever of the run comes after it. -/
theorem itemsUntil_accepts {γ δ : Type} {item : Parse α} {close : Punct}
    (hclose : Lexeme.IsLone close) (hfresh : (Kind.punct close).Fresh)
    {terminals : γ → List Terminal} (Stops : γ → Link → Prop)
    (value : γ → δ) (value' : α → δ) {phrases : List γ} (leaf : Mark close) {all : List Terminal}
    (hall : phrases.flatMap terminals ++ (leaf.terminals ++ xs) <:+ all)
    (hitem : ∀ phrase ∈ phrases, ∀ x zs, terminals phrase ++ x :: zs <:+ all →
      x.head.kind.Fresh → Stops phrase x.head → Accepts s item (terminals phrase ++ x :: zs)
        (x :: zs) fun a => value' a = value phrase)
    (hfirst : ∀ phrase ∈ phrases, Next (Kind.Begins close) (terminals phrase))
    (hchain : phrases.IsChain fun p q => ∀ x ∈ (terminals q).head?, Stops p x.head)
    (hlast : ∀ p ∈ phrases.getLast?, Stops p leaf.link) :
    Accepts s (itemsUntil close item) (phrases.flatMap terminals ++ (leaf.terminals ++ xs)) xs
      fun result => result.1.map value' = phrases.map value ∧ leaf.link.Alike s result.2 := by
  induction phrases with
  | nil =>
    refine (Accepts.last (Q := leaf.link.Alike s) ?_).mono fun result h => by simp [h]
    refine (mark?_some leaf).bind fun found h => ?_
    obtain ⟨link, rfl, hlink⟩ := h
    exact .pure ⟨link, rfl, hlink⟩
  | cons phrase phrases ih =>
    rw [List.flatMap_cons, List.append_assoc] at hall ⊢
    obtain ⟨x, tail, hx, hk⟩ := hfirst phrase List.mem_cons_self
    -- What follows the item is the first terminal of the next one, or else the closing mark.
    obtain ⟨y, zs, hy, hfollow, hstops⟩ : ∃ y zs,
        phrases.flatMap terminals ++ (leaf.terminals ++ xs) = y :: zs ∧ y.head.kind.Fresh ∧
          Stops phrase y.head := by
      cases phrases with
      | nil =>
        refine ⟨.token leaf.link, _, rfl, ?_, hlast phrase rfl⟩
        rw [Terminal.head_token, leaf.fits]
        exact hfresh
      | cons next phrases =>
        obtain ⟨y, ys, hy, hbegins⟩ := hfirst next (by simp)
        refine ⟨y, _, by rw [List.flatMap_cons, hy]; rfl, hbegins.fresh, ?_⟩
        exact (List.isChain_cons_cons.1 hchain).1 y (by simp [hy])
    have hrest := ih ((List.suffix_append _ _).trans hall)
      (fun p hp => hitem p (List.mem_cons_of_mem _ hp))
      (fun p hp => hfirst p (List.mem_cons_of_mem _ hp)) hchain.of_cons fun p hp => by
        cases phrases with
        | nil => cases hp
        | cons next phrases => exact hlast p hp
    have hhead := hitem phrase List.mem_cons_self y zs (hy ▸ hall) hfollow hstops
    rw [hy] at hrest ⊢
    rw [hx, List.cons_append] at hhead ⊢
    refine accepts_of_spells fun hs => ?_
    refine (Accepts.next (P := fun a => value' a = value phrase)
      (R := fun items => items.map value' = phrases.map value) (Q := leaf.link.Alike s)
      (fun hraw => ?_) ?_ hrest).mono ?_
    · exact hs.ne_nil hk.unended (by rw [hraw]; rfl)
    · refine (mark?_none hclose ⟨x, _, rfl, hk.unclosed⟩).bind fun found h => ?_
      rw [h]
      exact hhead.map fun a ha => ⟨a, rfl, ha⟩
    · rintro ⟨items, closing⟩ ⟨⟨a, rest, rfl, ha, hitems⟩, hclosing⟩
      exact ⟨by rw [List.map_cons, List.map_cons, ha, hitems], hclosing⟩

/-- Items that may stand before anything that may begin an item. -/
theorem freshItemsUntil_accepts {γ δ : Type} {item : Parse α} {close : Punct}
    (hclose : Lexeme.IsLone close) (hfresh : (Kind.punct close).Fresh)
    {terminals : γ → List Terminal} (value : γ → δ) (value' : α → δ) {phrases : List γ}
    (leaf : Mark close) {all : List Terminal}
    (hall : phrases.flatMap terminals ++ (leaf.terminals ++ xs) <:+ all)
    (hfirst : ∀ phrase ∈ phrases, Next (Kind.Begins close) (terminals phrase))
    (hitem : ∀ phrase ∈ phrases, ∀ x zs, terminals phrase ++ x :: zs <:+ all →
      x.head.kind.Fresh → Accepts s item (terminals phrase ++ x :: zs)
        (x :: zs) fun a => value' a = value phrase) :
    Accepts s (itemsUntil close item) (phrases.flatMap terminals ++ (leaf.terminals ++ xs)) xs
      fun result => result.1.map value' = phrases.map value ∧ leaf.link.Alike s result.2 := by
  refine itemsUntil_accepts hclose hfresh (fun _ _ => True) value value' leaf hall
    (fun phrase hp x zs hz hx _ => hitem phrase hp x zs hz hx) hfirst
    (List.Pairwise.isChain ?_) fun p _ => trivial
  exact List.pairwise_of_forall fun p q x _ => trivial

end Grammar

end ThriftSyntax
