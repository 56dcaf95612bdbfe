import ThriftSyntax.Proofs.Completeness.Text
import ThriftSyntax.Proofs.Insertion
import ThriftSyntax.Proofs.Layout.Cutting
import ThriftSyntax.Proofs.Reindex

/-!
# Texts one after the other

Two texts that are read as documents make one with a line break between them: the definitions of the
first and then those of the second, and likewise the tokens.

The second text is first moved behind as many line breaks as the first has tokens. Its tokens then
have the numbers that they will have, so one numbering does for the definitions of both.
-/

namespace ThriftSyntax

open Lexeme

/-- What a token is, wherever it stands. -/
def Token.lexeme (token : Token) : Kind × String := (token.kind, token.raw)

namespace Link

/-- A line break, wherever it stands. -/
def lineBreak : Link := ⟨0, .blank .lineFeed, "\n", .start⟩

theorem isGap_lineBreaks (n : Nat) : IsGap (List.replicate n lineBreak) := by
  intro link hl
  rw [List.eq_of_mem_replicate hl]
  rfl

theorem lexed_lineBreaks (n : Nat) (rest : List Char) :
    Lexed (List.replicate n lineBreak) rest := by
  induction n with
  | zero => trivial
  | succ n ih => exact ⟨⟨.blank .lineFeed, trivial⟩, ih⟩

theorem map_lexeme (chain : TokenChain) :
    chain.links.map lexeme = chain.toList.map Token.lexeme := by
  rw [← TokenChain.map_token_links, List.map_map]
  rfl

theorem ext_lexeme {a b : Link} (hid : a.id = b.id) (hlexeme : a.lexeme = b.lexeme)
    (hplace : a.location = b.location) : a = b := by
  obtain ⟨_, _, _, _⟩ := a
  obtain ⟨_, _, _, _⟩ := b
  cases hid
  cases hlexeme
  cases hplace
  rfl

/-- Where a token stands depends on the tokens before it alone, so the same tokens at the front of two
texts stand at the same places. -/
theorem InOrder.eq_of_lexeme {xs xs' ys ys' : List Link} {id : Nat} {place : Location}
    {rest rest' : List Char} (h : InOrder id place (xs ++ xs') rest)
    (h' : InOrder id place (ys ++ ys') rest') (hlexemes : xs.map lexeme = ys.map lexeme)
    (hxs : ∀ link ∈ xs, link.kind ≠ .endOfInput) : xs = ys := by
  induction xs generalizing ys id place with
  | nil => exact (List.map_eq_nil_iff.1 hlexemes.symm).symm
  | cons x xs ih =>
    obtain ⟨y, ys, rfl, hlexeme, htail⟩ := List.map_eq_cons_iff.1 hlexemes.symm
    obtain ⟨-, hxs⟩ := List.forall_mem_cons.1 hxs
    obtain ⟨hid, hplace, -, h⟩ := h
    obtain ⟨hid', hplace', -, h'⟩ := h'
    obtain rfl : x = y := ext_lexeme (hid.trans hid'.symm) hlexeme.symm (hplace.trans hplace'.symm)
    cases xs with
    | nil => rw [List.map_eq_nil_iff.1 htail]
    | cons next xs =>
      obtain ⟨next', ys, rfl, hlexeme', -⟩ := List.map_eq_cons_iff.1 htail
      have hraw' : next'.raw = next.raw := congrArg Prod.snd hlexeme'
      have hne := (h.spells next List.mem_cons_self).ne_nil (hxs next List.mem_cons_self)
      -- Where `next` stands depends on `x` and on the first character of `next`.
      have hnext : (spelled (next :: xs ++ xs') ++ rest).head? =
          (spelled (next' :: ys ++ ys') ++ rest').head? := by
        obtain ⟨c, text, htext⟩ := List.exists_cons_of_ne_nil hne
        simp [spelled_cons, hraw', htext]
      have hplaces : place.advance x.raw.toList.length (spelled (x :: (next :: xs ++ xs')) ++ rest) =
          place.advance x.raw.toList.length (spelled (x :: (next' :: ys ++ ys')) ++ rest') := by
        rw [spelled_cons, spelled_cons, List.append_assoc, List.append_assoc]
        exact Location.advance_congr _ _ hnext
      exact congrArg (x :: ·) (ih h (hplaces ▸ h') htail.symm hxs)

/-- The tokens at the front keep their numbers and places if others follow. -/
theorem InOrder.prefix_arrange {front tail back : List Link} {id : Nat} {place : Location}
    {rest rest' : List Char} (h : InOrder id place (front ++ tail) rest)
    (hlexed : Lexed (front ++ back) rest') (hfront : ∀ link ∈ front, link.kind ≠ .endOfInput) :
    front <+: arrange id place (front ++ back) rest' := by
  have horder : InOrder id place (arrange id place (front ++ back) rest') rest' :=
    inOrder_arrange hlexed
  have hlexemes : (arrange id place (front ++ back) rest').map lexeme =
      front.map lexeme ++ back.map lexeme := by
    rw [map_lexeme_arrange, List.map_append]
  obtain ⟨ys, ys', hsplit, hys, -⟩ := List.map_eq_append_iff.1 hlexemes
  rw [hsplit] at horder ⊢
  rw [h.eq_of_lexeme horder hys.symm hfront]
  exact List.prefix_append _ _

end Link

/-- What stands before the only terminal, which comes last, is a gap. -/
theorem Laid.isGap_of_last {rest : List Char} {gap : List Link} {link : Link}
    (h : Laid rest [.token link] (gap ++ [link])) (hk : link.kind.isTrivia = false) :
    Link.IsGap gap := by
  have hsignificant := h.significant
  rw [List.filter_append, List.filter_singleton, hk] at hsignificant
  have hnil : gap.filter (fun link => !link.kind.isTrivia) = [] := by simpa using hsignificant
  intro other ho
  simpa using List.filter_eq_nil_iff.1 hnil other ho

theorem Phrase.Ending.not_trivia (ending : Phrase.Ending) : ending.link.kind.isTrivia = false := by
  rw [ending.fits]
  rfl

theorem Phrase.Ending.spelled (ending : Phrase.Ending) : Link.spelled [ending.link] = [] := by
  have hspells := ending.spells
  rw [ending.fits] at hspells
  rw [Link.spelled_cons, hspells.eq_nil]
  rfl

namespace Derives

variable {text : List Char} {links back : List Link} {document : Phrase.Document}

/-- The tokens before the end of the input: those of the definitions, and then a gap. -/
theorem exists_front (h : Derives text links document) :
    ∃ front gap, links = front ++ gap ++ [document.ending.link] ∧ Link.IsGap gap ∧
      Link.Fronts (document.definitions.flatMap Phrase.Definition.terminals) front := by
  have hinner : ∀ x ∈ document.definitions.flatMap Phrase.Definition.terminals,
      ∀ link ∈ x.links, link.kind ≠ .endOfInput := fun x hx link hl =>
    (h.mem_inner (List.mem_flatMap.2 ⟨x, hx, hl⟩)).2.2
  obtain ⟨front, back, hlinks, hback, -, -, hfronts⟩ := h.laid.cut
    (fun link hl hk => (h.order.spells link hl).ne_nil hk) hinner
  have hne : back ≠ [] := by
    rintro rfl
    cases hback
  have hlast := h.last
  rw [hlinks, List.getLast?_append_of_ne_nil _ hne] at hlast
  obtain ⟨gap, rfl⟩ := List.getLast?_eq_some_iff.1 hlast
  exact ⟨front, gap, by rw [hlinks, List.append_assoc],
    hback.isGap_of_last (Phrase.Ending.not_trivia document.ending), hfronts⟩

theorem mem_front {front : List Link} (h : Derives text (front ++ [document.ending.link]) document)
    {link : Link} (hl : link ∈ inner document) : link ∈ front := by
  obtain ⟨hmem, -, hk⟩ := h.mem_inner hl
  obtain hmem | hmem := List.mem_append.1 hmem
  · exact hmem
  · rw [List.mem_singleton.1 hmem] at hk
    exact absurd document.ending.fits hk

/-- The indexes of the definitions are kept if other tokens follow. -/
theorem reindex_node {front : List Link} (h : Derives text (front ++ [document.ending.link]) document)
    {chain : TokenChain} (hlinks : chain.links = Link.arrange 0 .start (front ++ back) [])
    (hlexed : Link.Lexed (front ++ back) []) (numbering : Numbering) :
    ∀ phrase ∈ document.definitions,
      (phrase.node numbering).reindex chain = phrase.node numbering := by
  intro phrase hphrase
  refine phrase.reindex_node numbering fun link hl => ?_
  have hinner : link ∈ inner document := by
    rw [inner, Phrase.tokens_flatMap]
    exact List.mem_flatMap.2 ⟨phrase, hphrase, hl⟩
  rw [hlinks]
  exact (h.order.prefix_arrange hlexed (h.ne_endOfInput (List.cons_ne_nil _ _))).subset
    (h.mem_front hinner)

/-- In place of the end of the input other tokens may follow that begin with a line break. -/
theorem append (h : Derives text links document) {xs : List Terminal} {n : Nat}
    {place : Location} (horder : Link.InOrder n place back []) (hlaid : Laid [] xs back)
    {lexemes : List (Kind × String)}
    (hlexemes : back.map Link.lexeme = Link.lineBreak.lexeme :: lexemes)
    (hn : links.length = n + 1) :
    ∃ front, links = front ++ [document.ending.link] ∧ Link.Lexed (front ++ back) [] ∧
      Laid [] (document.definitions.flatMap Phrase.Definition.terminals ++ xs) (front ++ back) ∧
      ∀ {i : Nat} {link : Link}, (front ++ back)[i]? = some link → i = link.id := by
  obtain ⟨front, gap, rfl, hgap, hfronts⟩ := h.exists_front
  obtain ⟨link, tail, rfl, hlexeme, -⟩ := List.map_eq_cons_iff.1 hlexemes
  have hkind : link.kind = .blank .lineFeed := congrArg Prod.fst hlexeme
  have hraw : link.raw = "\n" := congrArg Prod.snd hlexeme
  refine ⟨front ++ gap, rfl, ?_, ?_, ?_⟩
  · refine Link.lexed_append.2 ⟨?_, horder.lexed⟩
    have hfront := (Link.lexed_append.1 h.order.lexed).1
    rw [Phrase.Ending.spelled] at hfront
    rw [Link.spelled_cons, hraw]
    exact hfront.extend (h.ne_endOfInput (List.cons_ne_nil _ _)) (by decide) (halts_blank .lineFeed)
  · refine hfronts.gap hgap (fun blank hb => h.order.spells blank (by simp [hb])) (fun x _ => ?_) hlaid
    refine x.ends_of_trivia (by rw [hkind]; rfl) ?_
    rw [hkind, hraw]
    exact .blank .lineFeed
  · intro i found hi
    rcases Nat.lt_or_ge i (front ++ gap).length with hlt | hge
    · rw [List.getElem?_append_left hlt] at hi
      have := h.order.id_eq (by rw [List.getElem?_append_left hlt, hi])
      omega
    · rw [List.getElem?_append_right hge] at hi
      have := horder.id_eq hi
      rw [List.length_append, List.length_singleton] at hn
      omega

end Derives

namespace SyntaxTree

variable {options : Options}

/-- Line breaks before a text only renumber its tokens. -/
theorem ofText_behind {text : String} {tree : SyntaxTree} (h : ofText text options = .ok tree)
    (n : Nat) : ∃ tree',
      ofText (String.ofList (List.replicate n '\n' ++ text.toList)) options = .ok tree' ∧
      tree'.tokens.links.map Link.lexeme =
        List.replicate n Link.lineBreak.lexeme ++ tree.tokens.links.map Link.lexeme ∧
      tree'.document.relabel id = tree.document.relabel (· + n) := by
  obtain ⟨document, hnode, hallowed, hderives⟩ := exists_derives h
  have hspelled : Link.spelled (List.replicate n Link.lineBreak) = List.replicate n '\n' := by
    induction n with
    | zero => rfl
    | succ n ih =>
      rw [List.replicate_succ, Link.spelled_cons, ih, List.replicate_succ]
      rfl
  have hids : ∀ {i link}, (List.replicate n Link.lineBreak ++ tree.tokens.links)[i]? = some link →
      link.kind.isTrivia = false → id i = link.id + n := by
    intro i link hi hk
    have hshift := @Link.InOrder.insert [] _ _ _ _ hderives.order (Link.isGap_lineBreaks n) i link
      hi hk
    simpa [shift] using hshift
  have htext : Link.spelled (List.replicate n Link.lineBreak ++ tree.tokens.links) =
      (String.ofList (List.replicate n '\n' ++ text.toList)).toList := by
    simp [hspelled, hderives.spelled]
  obtain ⟨tree', htree, hlinks, hdocument⟩ := ofText_of_arranged (· + n) id hallowed
    (Link.lexed_append.2 ⟨Link.lexed_lineBreaks n _, hderives.order.lexed⟩)
    (hderives.laid.of_gap (Link.isGap_lineBreaks n)) htext hids
  refine ⟨tree', htree, ?_, hnode ▸ hdocument⟩
  rw [hlinks, Link.map_lexeme_arrange, List.map_append, List.map_replicate]

/-- A text behind line breaks, from the last of them on: its tokens are numbered from `n`, if `n`
line breaks stand before that one. -/
theorem exists_behind {text : String} {tree : SyntaxTree} (h : ofText text options = .ok tree)
    (n : Nat) : ∃ (document : Phrase.Document) (back : List Link) (place : Location),
      document.Allowed options.namespaceTrailing ∧
      (document.node options.numbering).relabel id = tree.document.relabel (· + (n + 1)) ∧
      Link.InOrder n place back [] ∧ Laid [] document.terminals back ∧
      back.map Link.lexeme = Link.lineBreak.lexeme :: tree.tokens.links.map Link.lexeme := by
  obtain ⟨moved, hmoved, hlexemes, hrelabel⟩ := ofText_behind h (n + 1)
  obtain ⟨document, hnode, hallowed, hderives⟩ := exists_derives hmoved
  have hlength : (moved.tokens.links.take n).length = n := by
    have := congrArg List.length hlexemes
    simp only [List.length_map, List.length_append, List.length_replicate] at this
    rw [List.length_take, this]
    omega
  have hsplit := (List.take_append_drop n moved.tokens.links).symm
  generalize moved.tokens.links.take n = before at hsplit hlength
  generalize moved.tokens.links.drop n = back at hsplit
  rw [hsplit, List.replicate_succ', List.map_append, List.append_assoc] at hlexemes
  obtain ⟨hbefore, hback⟩ := List.append_inj hlexemes (by simp [hlength])
  have hgap : Link.IsGap before := by
    intro link hl
    have hmem : link.lexeme ∈ List.replicate n Link.lineBreak.lexeme := by
      rw [← hbefore]
      exact List.mem_map_of_mem hl
    rw [show link.kind = .blank .lineFeed from congrArg Prod.fst (List.eq_of_mem_replicate hmem)]
    rfl
  obtain ⟨place, horder⟩ := (hsplit ▸ hderives.order).of_append
  rw [Nat.zero_add, hlength] at horder
  exact ⟨document, back, place, hallowed, hnode ▸ hrelabel, horder,
    (hsplit ▸ hderives.laid).of_isGap_append hgap, hback⟩

/-- Two texts that are read are read one after the other with a line break between them. The tokens
are those of the first text but its end, the line break, and those of the second; the definitions are
those of the first text, and those of the second with their tokens renumbered and the keys that these
have where they stand now. -/
theorem ofText_append {first second : String} {tree tree' : SyntaxTree}
    (h : ofText first options = .ok tree) (h' : ofText second options = .ok tree') :
    ∃ both, ofText (first ++ "\n" ++ second) options = .ok both ∧
      both.document.definitions = tree.document.definitions ++
        (tree'.document.definitions.map (Definition.relabel (· + tree.tokens.size))).map
          (Definition.reindex both.tokens) ∧
      both.tokens.toList.map Token.lexeme = tree.tokens.toList.dropLast.map Token.lexeme ++
        (.blank .lineFeed, "\n") :: tree'.tokens.toList.map Token.lexeme := by
  obtain ⟨document, hnode, hallowed, hderives⟩ := exists_derives h
  obtain ⟨document', back, place, hallowed', hnode', horder', hlaid', hlexemes⟩ :=
    exists_behind h' (tree.tokens.size - 1)
  have hsize : tree.tokens.size - 1 + 1 = tree.tokens.size := by
    have := TokenChain.id_of_getLast? hderives.last
    omega
  rw [hsize] at hnode'
  obtain ⟨front, hlinks, hlexed, hlaid, hids⟩ := hderives.append horder' hlaid' hlexemes
    (by rw [TokenChain.length_links, hsize])
  have htext : Link.spelled (front ++ back) = (first ++ "\n" ++ second).toList := by
    have hfirst := hderives.spelled
    rw [hlinks, Link.spelled_append, Phrase.Ending.spelled, List.append_nil] at hfirst
    obtain ⟨_, -, -, hderives'⟩ := exists_derives h'
    rw [Link.spelled_append, hfirst, Link.spelled_eq_lexemes, hlexemes, List.flatMap_cons,
      ← Link.spelled_eq_lexemes, hderives'.spelled]
    simp [Link.lineBreak, Link.lexeme, Link.raw]
  have hallowed : Phrase.Document.Allowed options.namespaceTrailing
      ⟨document.definitions ++ document'.definitions, document'.ending⟩ :=
    List.forall_mem_append.2 ⟨hallowed, hallowed'⟩
  have hlaid' : Laid [] (Phrase.Document.terminals
      ⟨document.definitions ++ document'.definitions, document'.ending⟩) (front ++ back) := by
    rw [Phrase.Document.terminals, List.flatMap_append, List.append_assoc]
    exact hlaid
  obtain ⟨both, hok, hlinks', hdocument⟩ :=
    ofText_of_arranged id id hallowed hlexed hlaid' htext fun hi _ => hids hi
  refine ⟨both, hok, ?_, ?_⟩
  · have hdefinitions : (document'.definitions.map (Phrase.Definition.node options.numbering)).map
        (Definition.relabel id) =
          tree'.document.definitions.map (Definition.relabel (· + tree.tokens.size)) :=
      congrArg Document.definitions hnode'
    rw [document_eq_reindex hok hdocument, ← hdefinitions, ← hnode]
    simp only [Document.reindex, Document.relabel, Phrase.Document.node, List.map_append,
      List.map_map]
    congr 1
    refine List.map_congr_left fun phrase hphrase => ?_
    rw [Function.comp_apply, Function.comp_apply, Definition.reindex_relabel_id]
    exact (hlinks ▸ hderives).reindex_node hlinks' hlexed _ phrase hphrase
  · have hfront : front.map Link.token = tree.tokens.toList.dropLast := by
      rw [← TokenChain.map_token_links, hlinks, List.map_append, List.map_singleton,
        List.dropLast_concat]
    rw [← Link.map_lexeme, hlinks', Link.map_lexeme_arrange, List.map_append, hlexemes, ← hfront,
      Link.map_lexeme, List.map_map]
    rfl

theorem append_sampleText : ∃ tree both, ofText sampleText {} = .ok tree ∧
    ofText (sampleText ++ "\n" ++ sampleText) {} = .ok both ∧
    both.document.definitions = tree.document.definitions ++
      (tree.document.definitions.map (Definition.relabel (· + tree.tokens.size))).map
        (Definition.reindex both.tokens) := by
  obtain ⟨tree, h⟩ := exists_sampleTree
  obtain ⟨both, hboth, hdefinitions, -⟩ := ofText_append h h
  exact ⟨tree, both, h, hboth, hdefinitions⟩

end SyntaxTree

end ThriftSyntax
