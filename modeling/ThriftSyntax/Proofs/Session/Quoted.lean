import ThriftSyntax.Proofs.Session.Skipping

/-!
# Reading strings exactly

Where a string is asked for, the blanks and comments at the cursor are passed over. A quotation mark
behind them begins a string if the same mark comes again on its line, and the string goes up to that,
whatever stands between the two.
-/

namespace ThriftSyntax

open Lexeme

namespace Lexeme

variable {quote : Char} {body : List Char} {n : Nat}

/-- A string is closed by the first mark of its kind, which comes before the end of the line. -/
theorem exists_of_closed (hq : quote = '"' ∨ quote = '\'') (h : string quote body = (n, true)) :
    ∃ inner tail, body = inner ++ quote :: tail ∧ (∀ c ∈ inner, c ≠ quote ∧ isLineBreak c = false) ∧
      n = (quote :: (inner ++ [quote])).length ∧
        IsLexeme .string (quote :: (inner ++ [quote])) tail := by
  obtain ⟨raw, tail, htext, rfl, hl⟩ := isLexeme_of_string hq h
  cases hl.spells with
  | @string mark inner hmark hb =>
    obtain ⟨rfl, hbody⟩ := List.cons.inj htext
    exact ⟨inner, tail, by simpa using hbody, hb, rfl, hl⟩

theorem mem_of_closed (hq : quote = '"' ∨ quote = '\'') (h : string quote body = (n, true)) :
    quote ∈ body.takeWhile (!isLineBreak ·) := by
  obtain ⟨inner, tail, rfl, hinner, -⟩ := exists_of_closed hq h
  have hquote : isLineBreak quote = false := by rcases hq with rfl | rfl <;> rfl
  rw [List.takeWhile_append_of_pos fun c hc => by simp [hinner c hc],
    List.takeWhile_cons_of_pos (by simp [hquote])]
  simp

theorem notMem_of_unclosed (hq : quote = '"' ∨ quote = '\'') (h : string quote body = (n, false)) :
    quote ∉ body.takeWhile (!isLineBreak ·) := by
  obtain ⟨mark, text, htext, -, hnot⟩ : Fault.Stands (quote :: body) .unterminatedString :=
    stands_of_string hq h
  obtain ⟨rfl, rfl⟩ := List.cons.inj htext
  exact hnot

end Lexeme

namespace Reader

open Parse

/-- What it is to ask for a string, where the blanks and comments `gap` and then `rest` come next in the
text `source`. -/
structure ReadsString (reader : Reader) (source : List Char) (gap : List Link) (rest : List Char) :
    Prop where
  /-- Without a quotation mark nothing but the gap is chained. -/
  absent : (∀ c ∈ rest.head?, c ≠ '"' ∧ c ≠ '\'') → ∃ links after,
    takeString? reader = .ok none after ∧ after.held = none ∧ after.cursor.rest = rest ∧
      links.map Link.lexeme = gap.map Link.lexeme ∧ after.chain.links = reader.chain.links ++ links
  /-- A mark that comes again before the end of the line encloses the value of a string with the first
  mark of its kind. This string is chained behind the gap. -/
  closed : ∀ {quote body}, rest = quote :: body → quote = '"' ∨ quote = '\'' →
    quote ∈ body.takeWhile (!isLineBreak ·) → ∃ inner tail links link after,
      body = inner ++ quote :: tail ∧ quote ∉ inner ∧ takeString? reader = .ok (some link) after ∧
        link.kind = .string ∧ link.raw.toList = quote :: (inner ++ [quote]) ∧
        link.token.value.toList = inner ∧ link.location.Shows source rest ∧
        after.held = none ∧ after.cursor.rest = tail ∧
        links.map Link.lexeme = gap.map Link.lexeme ∧
        after.chain.links = reader.chain.links ++ (links ++ [link])
  /-- Any other mark is an error at its place, and nothing but the gap is chained. -/
  unclosed : ∀ {quote body}, rest = quote :: body → quote = '"' ∨ quote = '\'' →
    quote ∉ body.takeWhile (!isLineBreak ·) → ∃ links place last,
      takeString? reader = .error (.lexical .unterminatedString place) last ∧ place.Shows source rest ∧
        links.map Link.lexeme = gap.map Link.lexeme ∧ last.chain.links = reader.chain.links ++ links

variable {reader : Reader} {source text rest body : List Char} {done gap : List Link} {quote : Char}
  {n : Nat}

theorem At.readsString (h : reader.At source reader.chain.links text) (hh : reader.held = none)
    (hgap : LeadingGap text gap rest) : reader.ReadsString source gap rest := by
  obtain ⟨links, between, hskip, hlexemes, hat, hheld⟩ := h.skipTrivia_clear hgap
  replace hheld : between.held = none := by
    cases hbetween : between.held with
    | none => rfl
    | some link => cases hh.symm.trans (hheld link hbetween).1
  have hrest := hat.rest_eq hheld
  have hrun : takeString? reader = stringHere between := by
    rw [takeString?_eq, bind_of_ok hskip]
  constructor
  · intro hnone
    exact ⟨links, between, hrun.trans (stringHere_of_none fun _ => hrest ▸ hnone), hheld, hrest,
      hlexemes, hat.chain_eq hheld⟩
  · intro quote body ht hq hmem
    cases hstring : string quote body with
    | mk n closed =>
      cases closed with
      | false => exact absurd hmem (notMem_of_unclosed hq hstring)
      | true =>
        obtain ⟨inner, tail, hbody, hinner, rfl, hl⟩ := exists_of_closed hq hstring
        have hfront : rest = (quote :: (inner ++ [quote])) ++ tail := by simp [ht, hbody]
        have hraw := nextLink_raw (hrest.trans hfront) .string
        have hnext := hat.pass hheld (hat.isOpen hheld (by simp [ht])).ending hfront hl
        refine ⟨inner, tail, links, _, _, hbody, fun hm => (hinner quote hm).1 rfl,
          hrun.trans (stringHere_of_quote hheld (hrest.trans ht) hq hstring), rfl, hraw, ?_,
          hrest ▸ hat.lexes.shows, hheld, hnext.rest_eq hheld, hlexemes, ?_⟩
        · show (String.ofList _).toList = inner
          rw [String.toList_ofList, show (between.nextLink .string _).token.raw.toList = _ from hraw,
            List.tail_cons, List.dropLast_concat]
        · rw [hnext.chain_eq hheld, List.append_assoc]
  · intro quote body ht hq hnot
    cases hstring : string quote body with
    | mk n closed =>
      cases closed with
      | true => exact absurd (mem_of_closed hq hstring) hnot
      | false =>
        exact ⟨links, _, _, hrun.trans (stringHere_of_quote hheld (hrest.trans ht) hq hstring),
          hrest ▸ hat.lexes.shows, hlexemes, hat.chain_eq hheld⟩

end Reader

/-- In any session, also after errors: with nothing put back and no comment left open behind the cursor,
asking for a string reads just what is quoted there. -/
theorem session_readsString {text : String} {requests : List Request} {gap : List Link}
    {rest : List Char} (hheld : (Request.session text requests).2.held = none)
    (hgap : LeadingGap (Request.session text requests).2.cursor.rest gap rest) :
    (Request.session text requests).2.ReadsString text.toList gap rest := by
  have hat := Reader.at_self (Request.session_sound text requests)
    (Request.session_lexes text requests).1 hheld
  exact hat.readsString hheld hgap

/-- Slashes, a backslash and the other mark stand within a string like any character, and its own mark on
another line does not close it. -/
theorem session_readsString_slashes :
    (∃ link after, Parse.takeString? (Request.session " 'a//\"\\é'b" []).2 = .ok (some link) after ∧
      link.raw = "'a//\"\\é'" ∧ link.token.value = "a//\"\\é" ∧ after.cursor.rest = ['b']) ∧
    ∃ place last, Parse.takeString? (Request.session "a'b\n'" [.take]).2 =
        .error (.lexical .unterminatedString place) last ∧
      place.Shows "a'b\n'".toList ['\'', 'b', '\n', '\''] ∧
      last.chain.source = "a" := by
  constructor
  · have hgap : LeadingGap (Request.session " 'a//\"\\é'b" []).2.cursor.rest
        [⟨0, .blank .space, " ", .start⟩] ['\'', 'a', '/', '/', '"', '\\', 'é', '\'', 'b'] :=
      ⟨by decide, by simp [Link.IsGap, Link.kind, Kind.isTrivia],
        ⟨⟨.blank .space, trivial⟩, trivial⟩, by decide⟩
    obtain ⟨after, hrun⟩ := Parse.exists_of_run'
      (show Parse.takeString?.run' (Request.session " 'a//\"\\é'b" []).2 =
        some (some ⟨1, .string, "'a//\"\\é'", ⟨1, 1, 2⟩⟩) by decide +kernel)
    obtain ⟨inner, tail, links, link, last, hbody, -, hlast, -, -, hvalue, -, -, hrest, -⟩ :=
      (session_readsString rfl hgap).closed rfl (.inr rfl) (by decide)
    cases hrun.symm.trans hlast
    have hinner : inner = ['a', '/', '/', '"', '\\', 'é'] := by
      rw [← hvalue]
      decide
    rw [hinner] at hbody
    refine ⟨_, after, hrun, rfl, by decide, hrest.trans ?_⟩
    simpa using hbody.symm
  · have hgap : LeadingGap (Request.session "a'b\n'" [.take]).2.cursor.rest []
        ['\'', 'b', '\n', '\''] := ⟨by decide, Link.isGap_nil, trivial, by decide⟩
    have hheld : (Request.session "a'b\n'" [.take]).2.held = none := by decide
    obtain ⟨links, place, last, hrun, hplace, hlinks, hchain⟩ :=
      (session_readsString hheld hgap).unclosed rfl (.inr rfl) (by decide)
    obtain rfl := List.map_eq_nil_iff.1 hlinks
    have hlast : last.chain.source = "a" := by
      rw [← String.toList_inj, Link.toList_source, hchain, List.append_nil, ← Link.toList_source]
      decide
    exact ⟨place, last, hrun, hplace, hlast⟩

end ThriftSyntax
