import ThriftSyntax.Proofs.Errors.Trivia
import ThriftSyntax.Proofs.Session.Lexeme

/-!
# A text behind the tokens of another one

A text is read by itself, and as the last part of a whole text of which tokens were read before. The two
runs go on in step: their tokens are spelled alike, the ids differ by the number of the tokens before, and
the places show the same rest of the text.
-/

namespace ThriftSyntax

open Parse Lexeme

/-- The same place of a text, in the whole text and in its last part. -/
def Location.Corresponds (whole text : List Char) (place place' : Location) : Prop :=
  ∃ rest, place.Shows whole rest ∧ place'.Shows text rest

/-- What is before the part comes in addition. -/
theorem Location.Corresponds.offset_eq {front text : List Char} {place place' : Location}
    (h : place.Corresponds (front ++ text) text place') :
    place.offset = byteSize front + place'.offset := by
  obtain ⟨rest, ⟨before, hwhole, hoffset, -⟩, ⟨inside, htext, hoffset', -⟩⟩ := h
  rw [htext, ← List.append_assoc] at hwhole
  rw [hoffset, hoffset', ← List.append_cancel_right hwhole, byteSize_append]

variable {whole text : List Char} {n : Nat} {r s : Reader} {kind : Kind} {raw tail : List Char}

/-- A token of the whole text, where `n` tokens are before the part, and the same token of the part. -/
structure Link.Shifted (whole text : List Char) (n : Nat) (l m : Link) : Prop where
  kind_eq : l.kind = m.kind
  raw_eq : l.raw = m.raw
  id_eq : l.id = m.id + n
  places : l.location.Corresponds whole text m.location

namespace Reader

/-- Both readers have come equally far in the part. -/
structure InStep (whole text : List Char) (n : Nat) (r s : Reader) : Prop
    extends r.Abreast (Link.Shifted whole text n) s where
  size : r.chain.size = s.chain.size + n
  left : r.cursor.location.Shows whole r.cursor.rest
  right : s.cursor.location.Shows text s.cursor.rest

namespace InStep

theorem atRound (h : InStep whole text n r s) (i j : Nat) :
    InStep whole text n (r.atRound i) (s.atRound j) :=
  ⟨h.toAbreast.atRound i j, h.size, h.left, h.right⟩

theorem places (h : InStep whole text n r s) :
    r.cursor.location.Corresponds whole text s.cursor.location :=
  ⟨_, h.left, h.rest ▸ h.right⟩

theorem read (h : InStep whole text n r s) (hn : raw = [] → r.chain.ending? = none)
    (ht : r.cursor.rest = raw ++ tail) (hl : IsLexeme kind raw tail) :
    s.cursor.rest = raw ++ tail ∧
      (r.nextLink kind raw.length).Shifted whole text n (s.nextLink kind raw.length) ∧
      InStep whole text n (r.pass kind raw.length) (s.pass kind raw.length) := by
  have ht' : s.cursor.rest = raw ++ tail := h.rest ▸ ht
  have hlinks : (r.nextLink kind raw.length).Shifted whole text n (s.nextLink kind raw.length) := by
    refine ⟨rfl, ?_, h.size, h.places⟩
    rw [← String.toList_inj, nextLink_raw ht, nextLink_raw ht']
  refine ⟨ht', hlinks, h.toAbreast.pass hn ht hl hlinks, ?_, ?_, ?_⟩
  · rw [pass, pass, TokenChain.size_push, TokenChain.size_push, h.size, Nat.add_right_comm]
  · rw [rest_pass ht, pass, Cursor.location_advance, ht]
    exact (ht ▸ h.left).advance
  · rw [rest_pass ht', pass, Cursor.location_advance, ht']
    exact (ht' ▸ h.right).advance

end InStep

end Reader

/-- An error in the whole text, and the same error in the part. -/
def Error.Shifted (whole text : List Char) (error error' : Error) : Prop :=
  ∃ place, error = error'.moveTo place ∧
    ∀ place' ∈ error'.location?, place.Corresponds whole text place'

theorem Error.shifted_of_moveTo {error error' : Error} {place place' : Location}
    (h : place.Corresponds whole text place') (herror : error = error'.moveTo place)
    (hplace : error'.location? = some place') : error.Shifted whole text error' := by
  refine ⟨place, herror, fun other hother => ?_⟩
  rw [hplace] at hother
  cases hother
  exact h

theorem Reader.InStep.errors (h : InStep whole text n r s) (fault : Fault) :
    (Error.lexical fault r.cursor.location).Shifted whole text (.lexical fault s.cursor.location) :=
  Error.shifted_of_moveTo h.places rfl rfl

/-- The runs of the whole text, behind `n` tokens, and of its last part. -/
def shifting (whole text : List Char) (n : Nat) : TokenCoupling where
  errors := Error.Shifted whole text
  failed _ := True
  gone _ := False
  exempt error _ := error = .stalled
  gone_onward _ h := h
  exempt_stalled _ := rfl
  left := id
  right := (· + n)
  links := Link.Shifted whole text n
  words := List.Forall₂ (Link.Shifted whole text n)
  trail xs ys r s := List.Forall₂ (Link.Shifted whole text n) xs ys ∧ Reader.InStep whole text n r s
  amid := Reader.InStep whole text n
  kind_eq h := h.kind_eq
  raw_eq h := h.raw_eq
  id_eq h := h.id_eq
  links_of_words h := h
  words_of_trail h := h.1
  freed h := h.2.freed
  free_of_trail h := ⟨.nil, h.2⟩
  trail_round h := ⟨h.1, h.2.atRound _ _⟩
  amid_round h := h.atRound _ _
  amid_freed h := h.freed
  amid_of_free h := h.2
  dot_iff h := by rw [Cursor.peek?, Cursor.peek?, h.2.rest]
  peek_eq h _ := by rw [Cursor.peek?, Cursor.peek?, h.2.rest]
  signed_eq h _ := by rw [h.2.rest]
  ending := by
    rintro xs ys r s ⟨hwords, h⟩
    have hending := h.ending
    generalize r.chain.ending? = a at hending ⊢
    generalize s.chain.ending? = b at hending ⊢
    cases hending with
    | none => exact .inl ⟨rfl, rfl⟩
    | some hlinks => exact .inr ⟨_, _, rfl, rfl, hlinks,
        List.rel_append hwords (.cons hlinks .nil), h⟩
  read := by
    rintro xs ys r s kind raw tail ⟨hwords, h⟩ hn ht hl -
    obtain ⟨ht', hlinks, hpass⟩ := h.read hn ht hl
    exact .inr ⟨tail, ht', hl, hlinks, List.rel_append hwords (.cons hlinks .nil), hpass⟩
  readTrivia := by
    rintro r s kind raw tail ⟨-, h⟩ ht hl hk
    have hne := hl.spells.ne_nil (ne_endOfInput_of_trivia hk)
    obtain ⟨ht', -, hpass⟩ := h.read (absurd · hne) ht hl
    exact .inr ⟨kind, raw, tail, ht', hl, hk, hpass⟩
  chainTrivia :=
    (Reader.Abreast.chainTrivia_couples (P := Reader.InStep whole text n) (fun h => h.toAbreast)
      (fun h => h.atRound _ _) (fun h hn ht hl => (h.read hn ht hl).2.2)
      fun fault h => ⟨fun _ => trivial, h.errors fault⟩).weaken
        fun h => ⟨⟨.nil, h.1⟩, h.2⟩
  fault := by
    rintro r s fault ⟨-, h⟩ hfirst
    exact .inr ⟨h.rest ▸ hfirst, fun _ => trivial, h.errors fault⟩
  unclosed := by
    rintro r s quote body length ⟨-, h⟩ ht hq hstring
    exact .inr ⟨body, length, h.rest ▸ ht, hstring, fun _ => trivial, h.errors _⟩
  failed_of_free _ := trivial
  failed_hold _ _ _ := trivial
  failed_trivia _ _ := trivial
  unexpected h expected :=
    Error.shifted_of_moveTo h.places (Error.unexpected_moveTo h.kind_eq h.raw_eq expected) rfl
  invalid h _ := Error.shifted_of_moveTo h.places (by rw [h.raw_eq]; rfl) rfl
  misplaced h _ := Error.shifted_of_moveTo (List.forall₂_cons.1 h).1.places
    (by rw [DottedName.text_eq_of_raw (h.imp fun _ _ hl => hl.raw_eq)]; rfl) rfl
  named h _ := Error.shifted_of_moveTo (List.forall₂_cons.1 h).1.places
    (by rw [DottedName.text_eq_of_raw (h.imp fun _ _ hl => hl.raw_eq)]; rfl) rfl

end ThriftSyntax
