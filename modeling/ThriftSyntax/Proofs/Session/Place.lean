import ThriftSyntax.Proofs.Reader.Counting
import ThriftSyntax.Proofs.Session.Lexeme

/-!
# The places that a session names

Tokens and errors say where they stand. After any session, and whatever errors it met, the offset, the
line and the column are those that counting in the text gives for the character that the token begins
with, or that the error is about.
-/

namespace ThriftSyntax

/-- The text of the token is at the character `n`, and its place is that of this character; the end of
the input is at the end of the text. -/
structure Token.StandsAt (token : Token) (text : List Char) (n : Nat) : Prop where
  le : n ≤ text.length
  raw : token.raw.toList <+: text.drop n
  counts : token.location.Counts text n
  ended : token.kind = .endOfInput → n = text.length

/-- What the error is about begins where `rest` does. -/
def Error.Begins (rest : List Char) : Error → Prop
  | .lexical fault _ => fault.Stands rest
  | .unexpectedToken found _ _ =>
    found = "end of file" ∧ rest = [] ∨ found ≠ "" ∧ found.toList <+: rest
  | .namedTypedef found _ | .invalidInteger found _ => found ≠ "" ∧ found.toList <+: rest
  | .notUtf8 | .slotOccupied _ | .stalled => False

/-- The error is about what begins with the character `n`, and its place is that of this character. -/
structure Error.StandsAt (error : Error) (text : List Char) (n : Nat) : Prop where
  le : n ≤ text.length
  begins : error.Begins (text.drop n)
  counts : ∃ place, error.location? = some place ∧ place.Counts text n

variable {text rest : List Char} {place : Location}

/-- A place that shows the end of a text is that of the character with which this end begins. -/
theorem Location.Shows.counts (h : place.Shows text rest) :
    ∃ n, n ≤ text.length ∧ text.drop n = rest ∧ place.Counts text n := by
  obtain ⟨front, htext, -, hplace⟩ := h
  have hle : front.length ≤ text.length := by simp [htext]
  refine ⟨front.length, hle, by rw [htext, List.drop_left], ?_⟩
  rw [hplace]
  exact counts_advance hle

theorem Token.IsLexemeOf.standsAt {token : Token} (h : token.IsLexemeOf text) :
    ∃ n, token.StandsAt text n := by
  obtain ⟨rest, hshows, hl⟩ := h
  obtain ⟨n, hle, hdrop, hcounts⟩ := hshows.counts
  refine ⟨n, hle, hdrop ▸ List.prefix_append _ _, hcounts, fun hk => ?_⟩
  rw [hk] at hl
  rw [hl.spells.eq_nil, show rest = [] from hl.ends, List.append_nil, List.drop_eq_nil_iff] at hdrop
  exact hle.antisymm hdrop

theorem Error.PointsInto.standsAt {error : Error} (h : error.PointsInto text) :
    ∃ n, error.StandsAt text n := by
  have hat : ∀ {place rest}, place.Shows text rest → error.location? = some place →
      error.Begins rest → ∃ n, error.StandsAt text n := fun hshows hplace hbegins => by
    obtain ⟨n, hle, hdrop, hcounts⟩ := hshows.counts
    exact ⟨n, hle, hdrop ▸ hbegins, _, hplace, hcounts⟩
  cases error with
  | lexical fault place =>
    obtain ⟨rest, hshows, hstands⟩ := h
    exact hat hshows rfl hstands
  | unexpectedToken found expected place =>
    obtain ⟨rest, hshows, hfound⟩ := h
    exact hat hshows rfl (hfound.imp_right fun ⟨hne, hprefix, _⟩ => ⟨hne, hprefix⟩)
  | namedTypedef found place =>
    obtain ⟨rest, hshows, hfound⟩ := h
    exact hat hshows rfl hfound
  | invalidInteger found place =>
    obtain ⟨rest, hshows, hfound⟩ := h
    exact hat hshows rfl hfound
  | _ => exact h.elim

theorem Reader.Lexes.standsAt {reader : Reader} (h : reader.Lexes text) :
    ∀ token ∈ reader.chain.toList, ∃ n, token.StandsAt text n :=
  fun token hmem => (h.tokens token hmem).standsAt

/-- Whatever is asked of a reader or called upon a parser, and whatever came of it: each token of the
chain and each error names the offset, the line and the column of its first character. -/
theorem places_counted (text : String) :
    (∀ requests, (∀ token ∈ (Request.session text requests).2.chain.toList,
        ∃ n, token.StandsAt text.toList n) ∧
      ∀ error ∈ (Request.session text requests).1, ∃ n, error.StandsAt text.toList n) ∧
    ∀ calls, (∀ token ∈ (Call.resume calls (.ofText text.toList)).chain.toList,
        ∃ n, token.StandsAt text.toList n) ∧
      ∀ call, ∀ error ∈ Parse.Result.error? (Call.run call (Call.resume calls (.ofText text.toList))),
        ∃ n, error.StandsAt text.toList n := by
  refine ⟨fun requests => ?_, fun calls => ⟨(Call.resume_lexes text calls).standsAt, fun call => ?_⟩⟩
  · obtain ⟨hlexes, herrors⟩ := Request.session_lexes text requests
    exact ⟨hlexes.standsAt, fun error herror => (herrors error herror).standsAt⟩
  · exact fun error herror => (Call.run_pointsInto text calls call error herror).standsAt

/-- Three lines, of which a carriage return with a line feed and a carriage return alone end the first
two; the first character of the text has two bytes. A character that begins no lexeme is met on the last
line, and the end of the input is read behind a comment over two lines. -/
theorem places_counted_lines :
    (Request.session "é\r\n\r %" (.replicate 6 .take)).1 =
        [.lexical (.unexpectedCharacter '%') ⟨6, 3, 2⟩] ∧
      (∃ n, (Error.lexical (.unexpectedCharacter '%') ⟨6, 3, 2⟩).StandsAt "é\r\n\r %".toList n) ∧
      (Call.resume [.annotations] (.ofText "/*\n*/\r".toList)).chain.toList.getLast? =
        some ⟨.endOfInput, "", ⟨6, 3, 1⟩⟩ ∧
      ∃ n, Token.StandsAt ⟨.endOfInput, "", ⟨6, 3, 1⟩⟩ "/*\n*/\r".toList n := by
  have herrors : (Request.session "é\r\n\r %" (.replicate 6 .take)).1 =
      [.lexical (.unexpectedCharacter '%') ⟨6, 3, 2⟩] := by decide
  have hlast : (Call.resume [.annotations] (.ofText "/*\n*/\r".toList)).chain.toList.getLast? =
      some ⟨.endOfInput, "", ⟨6, 3, 1⟩⟩ := by decide +kernel
  refine ⟨herrors, ?_, hlast, ?_⟩
  · exact ((places_counted "é\r\n\r %").1 (.replicate 6 .take)).2 _ (by rw [herrors]; simp)
  · exact ((places_counted "/*\n*/\r").2 [.annotations]).1 _ (List.mem_of_getLast? hlast)

end ThriftSyntax
