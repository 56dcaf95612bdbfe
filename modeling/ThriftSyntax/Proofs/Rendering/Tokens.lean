import ThriftSyntax.Proofs.Completeness.ConstValue
import ThriftSyntax.Proofs.Fragment
import ThriftSyntax.Proofs.Rendering.Basic

/-!
# Tokens of a rendering

The tokens of a constant value spell a rendering of it, and a rendering is cut into the tokens of such a
value.
-/

namespace ThriftSyntax

open Lexeme

/-- The tokens of the span spell `raw`, which stands in `text` where `rest` follows. -/
def TokenChain.Spans (chain : TokenChain) (text : List Char) (span : Span) (raw rest : List Char) :
    Prop :=
  (chain.text span).toList = raw ∧
    text = Link.spelled (chain.links.take span.first) ++ (raw ++ rest)

/-! ## From tokens to a text -/

variable {chain : TokenChain} {text rest : List Char} {front links own tail : List Link}
  {x : Terminal} {xs : List Terminal}

theorem TokenChain.id_eq {link : Link} (h : chain.links = front ++ link :: tail) :
    link.id = front.length := by
  have hmem : link ∈ chain.links := by simp [h]
  obtain ⟨id, hid, rfl⟩ := List.mem_mapIdx.1 hmem
  have hget : chain.links[front.length]? = some ⟨id, chain.toList[id]⟩ := by simp [h]
  rw [links, List.getElem?_mapIdx] at hget
  simp only [Option.map_eq_some_iff, Link.mk.injEq] at hget
  obtain ⟨-, -, heq, -⟩ := hget
  exact heq.symm

/-- Tokens one after the other are those of the span from the first to the last of them. -/
theorem TokenChain.spans_mid (htext : text = Link.spelled chain.links ++ rest)
    (h : chain.links = front ++ (own ++ tail)) {first last : Link} (hfirst : own.head? = some first)
    (hlast : own.getLast? = some last) :
    chain.Spans text ⟨first.id, last.id⟩ (Link.spelled own) (Link.spelled tail ++ rest) := by
  have hf : first.id = front.length := by
    obtain ⟨ys, rfl⟩ := List.head?_eq_some_iff.1 hfirst
    exact id_eq h
  obtain ⟨ys, rfl⟩ := List.getLast?_eq_some_iff.1 hlast
  have hl : last.id = front.length + (ys ++ [last]).length - 1 := by
    have hsplit : chain.links = (front ++ ys) ++ last :: tail := by simp [h]
    rw [id_eq hsplit, List.length_append, List.length_append]
    simp
  refine ⟨?_, ?_⟩
  · rw [hf, hl, toList_text_mid h (by simp)]
  · rw [htext, hf, h, List.take_left, Link.spelled_append, Link.spelled_append, List.append_assoc,
      List.append_assoc]

theorem TokenChain.spans_single (htext : text = Link.spelled chain.links ++ rest) {link : Link}
    (h : chain.links = front ++ link :: tail) :
    chain.Spans text (.single link.id) link.raw.toList (Link.spelled tail ++ rest) := by
  have hmid : chain.links = front ++ ([link] ++ tail) := h
  have hspan := spans_mid htext hmid rfl rfl
  rwa [Link.spelled_cons, Link.spelled_nil, List.append_nil] at hspan

/-- The first of the terminals that are laid out stands behind trivia. -/
theorem Laid.exists_front (h : Laid rest (x :: xs) links) (hlexed : Link.Lexed links rest)
    (hx : x.head.kind ≠ .endOfInput) : ∃ gap tail, links = gap ++ (x.links ++ tail) ∧
      IsTrivia (Link.spelled gap) ∧ Link.Lexed (x.links ++ tail) rest ∧ x.Ends tail rest ∧
      Laid rest xs tail := by
  obtain ⟨gap, tail, rfl, hgap, hsignificant, hends, hlaid⟩ := h.exists_gap
  obtain ⟨hlexed, hrest⟩ := Link.lexed_append.1 hlexed
  refine ⟨gap, tail, rfl, hlexed.isTrivia hgap ?_, hrest, hends, hlaid⟩
  obtain ⟨c, hc, hopens⟩ := hrest.1.spells.exists_opens hx
  obtain ⟨hblank, -, -⟩ := hopens.not_trivia (hsignificant x.head List.mem_cons_self)
  refine ⟨c, by simp [Terminal.links, hc], ?_⟩
  simpa [isLineBreak, Blank.char] using ⟨(hblank .lineFeed).symm, (hblank .carriageReturn).symm⟩

theorem Laid.exists_token {link : Link} (h : Laid rest (.token link :: xs) links)
    (hlexed : Link.Lexed links rest) (hend : link.kind ≠ .endOfInput) :
    ∃ gap tail, links = gap ++ link :: tail ∧ IsTrivia (Link.spelled gap) ∧
      IsLexeme link.kind link.raw.toList (Link.spelled tail ++ rest) ∧ Link.Lexed tail rest ∧
      Laid rest xs tail := by
  obtain ⟨gap, tail, rfl, hgap, hlexed, -, hlaid⟩ := h.exists_front hlexed hend
  exact ⟨gap, tail, rfl, hgap, hlexed.1, hlexed.2, hlaid⟩

namespace Phrase

theorem isSeparator {separator : Option Separator} (hlexed : Link.Lexed links rest)
    (h : Laid rest (optional Leaf.terminals separator ++ xs) links) :
    ∃ own tail, links = own ++ tail ∧ IsSeparator (Link.spelled own) ∧ Link.Lexed tail rest ∧
      Laid rest xs tail := by
  cases separator with
  | none => exact ⟨[], links, rfl, .absent, hlexed, h⟩
  | some leaf =>
    have hspells := leaf.spells
    have hc : ∃ c, leaf.link.raw.toList = [c] ∧ (c = ',' ∨ c = ';') := by
      rcases leaf.fits with hk | hk <;> rw [hk] at hspells <;>
        generalize leaf.link.raw.toList = raw at hspells <;> cases hspells <;> exact ⟨_, rfl, by decide⟩
    have hend : leaf.link.kind ≠ .endOfInput := by rcases leaf.fits with hk | hk <;> simp [hk]
    obtain ⟨gap, tail, rfl, hgap, -, hlexed, hlaid⟩ := Laid.exists_token h hlexed hend
    obtain ⟨c, hraw, hc⟩ := hc
    refine ⟨gap ++ [leaf.link], tail, by simp, ?_, hlexed, hlaid⟩
    rw [Link.spelled_append, Link.spelled_cons, hraw]
    exact .mark hgap hc

end Phrase

/-- A string is what is between its quotes. -/
theorem Phrase.Leaf.exists_quoted (literal : Phrase.Literal) :
    ∃ (quote : Char) (body : List Char), (quote = '"' ∨ quote = '\'') ∧
      (∀ c ∈ body, c ≠ quote ∧ isLineBreak c = false) ∧
      literal.link.raw.toList = quote :: (body ++ [quote]) ∧
      literal.link.token.value = String.ofList body := by
  have hvalue : literal.link.token.value =
      String.ofList literal.link.raw.toList.tail.dropLast := by
    rw [Token.value, show literal.link.token.kind = .string from literal.fits]
    rfl
  have hspells := literal.spells
  rw [literal.fits] at hspells
  rw [hvalue]
  generalize literal.link.raw.toList = raw at hspells
  cases hspells with
  | string hq hb => exact ⟨_, _, hq, hb, rfl, by simp⟩

namespace DottedName

/-- The words and dots after a word that is not reserved. -/
theorem Tail.isReference {word : Link} {tail : List Link} (h : Tail false tail)
    (hw : Spells .ident word.raw.toList) (hs : ∀ link ∈ tail, Spells link.kind link.raw.toList)
    (hlast : (DottedName.mk word tail).last.kind = .ident) :
    IsReference (Link.spelled (word :: tail)) := by
  induction h generalizing word with
  | nil => simpa using IsReference.word hw
  | dot hd =>
    rw [last_cons] at hlast
    exact absurd (hlast.symm.trans hd) (by simp)
  | @word dot next tail hd hnext _ ih =>
    obtain ⟨hsdot, hs⟩ := List.forall_mem_cons.1 hs
    obtain ⟨hsnext, hs⟩ := List.forall_mem_cons.1 hs
    have hident : next.kind = .ident := by
      cases hk : next.kind <;> rw [hk] at hnext <;> first | rfl | cases hnext
    rw [hident] at hsnext
    rw [last_cons, last_cons] at hlast
    rw [Link.spelled_cons, Link.spelled_cons, Parse.head_dot hd hsdot]
    exact .dotted hw (ih hsnext hs hlast)

theorem Shaped.isReference {name : DottedName} (h : name.Shaped false)
    (hproper : name.head.kind = .ident ∧ name.last.kind = .ident) :
    IsReference (Link.spelled name.links) := by
  obtain ⟨head, tail⟩ := name
  obtain ⟨hhead, hs⟩ := List.forall_mem_cons.1 h.spells
  rw [hproper.1] at hhead
  refine Tail.isReference ?_ hhead hs hproper.2
  rcases h.shape with ht | ⟨-, ht⟩
  · -- A name that begins with a dot does not begin with a word.
    cases ht with
    | dot hd | word hd => exact absurd (hproper.1.symm.trans hd) (by simp)
  · exact ht

/-- The last word of a name is cut off where the name is. -/
theorem ends_of_lexed {name : DottedName} (hlexed : Link.Lexed (name.links ++ tail) rest)
    (hlast : name.last.kind = .ident) (hends : (Terminal.name false name).Ends tail rest) :
    ∀ c ∈ (Link.spelled tail ++ rest).head?, continuesWord c = false ∧ c ≠ '.' := by
  obtain ⟨front, hfront⟩ := List.getLast?_eq_some_iff.1 name.getLast?_links
  rw [hfront, List.append_assoc] at hlexed
  have hword := (Link.lexed_append.1 hlexed).2.1.ends
  rw [hlast] at hword
  simp only [Terminal.Ends, hlast, reduceCtorEq, if_false] at hends
  refine fun c hc => ⟨hword c hc, ?_⟩
  rintro rfl
  exact hends hc

end DottedName

namespace Phrase.ConstValue

/-- Wherever among the tokens of the text those of the value stand, they spell a rendering of it. -/
def Rendered (chain : TokenChain) (text rest : List Char) (value : ConstValue) : Prop :=
  ∀ {front links : List Link} {xs : List Terminal}, chain.links = front ++ links →
    Link.Lexed links rest → Laid rest (value.terminals ++ xs) links →
    ∃ gap own tail, links = gap ++ (own ++ tail) ∧ IsTrivia (Link.spelled gap) ∧
      value.node.RendersWith (chain.Spans text) (Link.spelled own) (Link.spelled tail ++ rest) ∧
      Link.Lexed tail rest ∧ Laid rest xs tail

theorem rendered_items {items : List (Separated ConstValue)} {closing : Mark .rightBracket}
    (hitems : ∀ item ∈ items, item.phrase.Rendered chain text rest)
    (hchain : chain.links = front ++ links) (hlexed : Link.Lexed links rest)
    (hlaid : Laid rest (itemsTerminals items ++ (closing.terminals ++ xs)) links) :
    ∃ own tail, links = own ++ tail ∧ own.getLast? = some closing.link ∧
      ThriftSyntax.ConstValue.RendersItems (chain.Spans text) (itemNodes items) (Link.spelled own)
        (Link.spelled tail ++ rest) ∧ Link.Lexed tail rest ∧ Laid rest xs tail := by
  induction items generalizing front links with
  | nil =>
    obtain ⟨gap, tail, rfl, hgap, -, hlexed, hlaid⟩ :=
      Laid.exists_token hlaid hlexed (by simp [closing.fits])
    refine ⟨gap ++ [closing.link], tail, by simp, by simp, ?_, hlexed, hlaid⟩
    rw [Link.spelled_append, Link.spelled_cons, closing.spelled_mark]
    exact .nil hgap
  | cons item items ih =>
    obtain ⟨value, separator⟩ := item
    obtain ⟨hitem, hitems⟩ := List.forall_mem_cons.1 hitems
    rw [itemsTerminals, List.append_assoc, List.append_assoc] at hlaid
    obtain ⟨gap, own, links, rfl, hgap, hvalue, hlexed, hlaid⟩ := hitem hchain hlexed hlaid
    obtain ⟨mark, links, rfl, hmark, hlexed, hlaid⟩ := isSeparator hlexed hlaid
    have hmark' : chain.links = (front ++ (gap ++ (own ++ mark))) ++ links := by simp [hchain]
    obtain ⟨others, tail, rfl, hlast, hothers, hlexed, hlaid⟩ := ih hitems hmark' hlexed hlaid
    refine ⟨gap ++ (own ++ (mark ++ others)), tail, by simp, ?_, ?_, hlexed, hlaid⟩
    · simp [List.getLast?_append, hlast]
    · simp only [Link.spelled_append, List.append_assoc] at hvalue ⊢
      exact .cons hgap hvalue hmark hothers

theorem rendered_entries {entries : List Entry} {closing : Mark .rightBrace}
    (hentries : ∀ entry ∈ entries, entry.1.Rendered chain text rest ∧
      entry.2.2.phrase.Rendered chain text rest)
    (hchain : chain.links = front ++ links) (hlexed : Link.Lexed links rest)
    (hlaid : Laid rest (entriesTerminals entries ++ (closing.terminals ++ xs)) links) :
    ∃ own tail, links = own ++ tail ∧ own.getLast? = some closing.link ∧
      ThriftSyntax.ConstValue.RendersEntries (chain.Spans text) (entryNodes entries)
        (Link.spelled own) (Link.spelled tail ++ rest) ∧ Link.Lexed tail rest ∧
      Laid rest xs tail := by
  induction entries generalizing front links with
  | nil =>
    obtain ⟨gap, tail, rfl, hgap, -, hlexed, hlaid⟩ :=
      Laid.exists_token hlaid hlexed (by simp [closing.fits])
    refine ⟨gap ++ [closing.link], tail, by simp, by simp, ?_, hlexed, hlaid⟩
    rw [Link.spelled_append, Link.spelled_cons, closing.spelled_mark]
    exact .nil hgap
  | cons entry entries ih =>
    obtain ⟨key, colon, value, separator⟩ := entry
    obtain ⟨⟨hkey, hvalue⟩, hentries⟩ := List.forall_mem_cons.1 hentries
    rw [entriesTerminals, List.append_assoc, List.append_assoc, List.append_assoc,
      List.append_assoc] at hlaid
    obtain ⟨gap, own, links, rfl, hgap, hkey, hlexed, hlaid⟩ := hkey hchain hlexed hlaid
    obtain ⟨gap', links, rfl, hgap', -, hlexed, hlaid⟩ :=
      Laid.exists_token hlaid hlexed (by simp [colon.fits])
    have hcolon' : chain.links = (front ++ (gap ++ (own ++ (gap' ++ [colon.link])))) ++ links := by
      simp [hchain]
    obtain ⟨gap'', own', links, rfl, hgap'', hvalue, hlexed, hlaid⟩ := hvalue hcolon' hlexed hlaid
    obtain ⟨mark, links, rfl, hmark, hlexed, hlaid⟩ := isSeparator hlexed hlaid
    have hmark' : chain.links =
        (front ++ (gap ++ (own ++ (gap' ++ (colon.link :: (gap'' ++ (own' ++ mark))))))) ++ links := by
      simp [hchain]
    obtain ⟨others, tail, rfl, hlast, hothers, hlexed, hlaid⟩ := ih hentries hmark' hlexed hlaid
    refine ⟨gap ++ (own ++ (gap' ++ (colon.link :: (gap'' ++ (own' ++ (mark ++ others)))))), tail,
      by simp, ?_, ?_, hlexed, hlaid⟩
    · simp [List.getLast?_append, List.getLast?_cons, hlast]
    · have hcolon := colon.spelled_mark
      simp only [Link.spelled_append, Link.spelled_cons, hcolon, List.append_assoc,
        List.cons_append, List.nil_append] at hkey hvalue ⊢
      exact .cons hgap hkey hgap' hgap'' hvalue hmark hothers

section

variable (htext : text = Link.spelled chain.links ++ rest)

include htext

theorem rendered_number (numeral : Number) : (number numeral).Rendered chain text rest := by
  intro front links xs hchain hlexed hlaid
  obtain ⟨gap, tail, rfl, hgap, hlex, hlexed, hlaid⟩ :=
    Laid.exists_token hlaid hlexed (by simp [numeral.fits])
  have hspan := TokenChain.spans_single htext (hchain.trans (List.append_assoc front gap _).symm)
  rw [numeral.fits] at hlex
  have hnumber := ThriftSyntax.ConstValue.RendersWith.number hlex hspan
  refine ⟨gap, [numeral.link], tail, rfl, hgap, ?_, hlexed, hlaid⟩
  rw [String.ofList_toList] at hnumber
  rw [Link.spelled_cons, Link.spelled_nil, List.append_nil, node, hlex.spells.form_eq]
  by_cases hdot : '.' ∈ numeral.link.raw.toList
  · simpa [hdot] using hnumber
  · simpa [hdot] using hnumber

theorem rendered_string (literal : Literal) : (string literal).Rendered chain text rest := by
  intro front links xs hchain hlexed hlaid
  obtain ⟨gap, tail, rfl, hgap, hlex, hlexed, hlaid⟩ :=
    Laid.exists_token hlaid hlexed (by simp [literal.fits])
  have hspan := TokenChain.spans_single htext (hchain.trans (List.append_assoc front gap _).symm)
  obtain ⟨quote, body, hq, hb, hraw, hvalue⟩ := literal.exists_quoted
  refine ⟨gap, [literal.link], tail, rfl, hgap, ?_, hlexed, hlaid⟩
  rw [hraw] at hspan
  rw [Link.spelled_cons, Link.spelled_nil, List.append_nil, node, hvalue, hraw]
  exact .string hq hb hspan

theorem rendered_name (reference : Name false)
    (proper : reference.words.head.kind = .ident ∧ reference.words.last.kind = .ident) :
    (name reference proper).Rendered chain text rest := by
  intro front links xs hchain hlexed hlaid
  obtain ⟨gap, tail, rfl, hgap, hlexed, hends, hlaid⟩ :=
    hlaid.exists_front hlexed (by simp [proper.1])
  have hlast : reference.words.links.getLast? = some reference.words.last := by
    rw [DottedName.links, List.getLast?_cons, ← List.getLastD_eq_getLast?]
    rfl
  have hspan := TokenChain.spans_mid htext (hchain.trans (List.append_assoc front gap _).symm) rfl hlast
  refine ⟨gap, reference.words.links, tail, rfl, hgap, ?_, (Link.lexed_append.1 hlexed).2, hlaid⟩
  rw [node, ← String.ofList_toList (s := reference.words.text), DottedName.toList_text]
  exact .name (reference.shaped.isReference proper)
    (DottedName.ends_of_lexed hlexed proper.2 hends) hspan

/-- The tokens of a value spell a rendering of it. -/
theorem rendered (value : ConstValue) : value.Rendered chain text rest := by
  induction value using induction with
  | number numeral => exact rendered_number htext numeral
  | string literal => exact rendered_string htext literal
  | name reference proper => exact rendered_name htext reference proper
  | list opening items closing ih =>
    intro front links xs hchain hlexed hlaid
    rw [terminals, List.append_assoc, List.append_assoc] at hlaid
    obtain ⟨gap, links, rfl, hgap, -, hlexed, hlaid⟩ :=
      Laid.exists_token hlaid hlexed (by simp [opening.fits])
    have hopening : chain.links = (front ++ (gap ++ [opening.link])) ++ links := by simp [hchain]
    obtain ⟨own, tail, rfl, hlast, hitems, hlexed, hlaid⟩ := rendered_items ih hopening hlexed hlaid
    have hown : chain.links = (front ++ gap) ++ ((opening.link :: own) ++ tail) := by simp [hchain]
    have hspan := TokenChain.spans_mid htext hown rfl (by rw [List.getLast?_cons, hlast])
    refine ⟨gap, opening.link :: own, tail, rfl, hgap, ?_, hlexed, hlaid⟩
    rw [Link.spelled_cons, opening.spelled_mark] at hspan ⊢
    exact .list hitems hspan
  | map opening entries closing ih =>
    intro front links xs hchain hlexed hlaid
    rw [terminals, List.append_assoc, List.append_assoc] at hlaid
    obtain ⟨gap, links, rfl, hgap, -, hlexed, hlaid⟩ :=
      Laid.exists_token hlaid hlexed (by simp [opening.fits])
    have hopening : chain.links = (front ++ (gap ++ [opening.link])) ++ links := by simp [hchain]
    obtain ⟨own, tail, rfl, hlast, hentries, hlexed, hlaid⟩ := rendered_entries ih hopening hlexed hlaid
    have hown : chain.links = (front ++ gap) ++ ((opening.link :: own) ++ tail) := by simp [hchain]
    have hspan := TokenChain.spans_mid htext hown rfl (by rw [List.getLast?_cons, hlast])
    refine ⟨gap, opening.link :: own, tail, rfl, hgap, ?_, hlexed, hlaid⟩
    rw [Link.spelled_cons, opening.spelled_mark] at hspan ⊢
    exact .map hentries hspan

end

end Phrase.ConstValue

end ThriftSyntax
