import ThriftSyntax.Proofs.Completeness.Text
import ThriftSyntax.Proofs.Layout.Trivia
import ThriftSyntax.Proofs.Lossless

/-!
# Blanks and comments say nothing

Where a text that is read has blanks and comments put between two of its tokens, it is read as the
same document.
-/

namespace ThriftSyntax

/-- The numbers of tokens after `count` tokens were put before the token `place`. -/
def shift (place count id : Nat) : Nat := if id < place then id else id + count

variable {front back gap : List Link}

/-- Each token that was there has its number shifted. -/
theorem Link.InOrder.insert {place : Location} {rest : List Char}
    (h : InOrder 0 place (front ++ back) rest) (hgap : IsGap gap) {i : Nat} {link : Link}
    (hi : (front ++ (gap ++ back))[i]? = some link) (hk : link.kind.isTrivia = false) :
    i = shift front.length gap.length link.id := by
  rcases Nat.lt_or_ge i front.length with hlt | hge
  · rw [List.getElem?_append_left hlt] at hi
    have hid : link.id = 0 + i := h.id_eq (by rw [List.getElem?_append_left hlt, hi])
    rw [shift, if_pos (by omega)]
    omega
  · rw [List.getElem?_append_right hge] at hi
    rcases Nat.lt_or_ge (i - front.length) gap.length with hlt' | hge'
    · rw [List.getElem?_append_left hlt'] at hi
      rw [hgap link (List.mem_of_getElem? hi)] at hk
      cases hk
    · rw [List.getElem?_append_right hge'] at hi
      have hid : link.id = 0 + (i - gap.length) := h.id_eq (by
        rw [List.getElem?_append_right (by omega), Nat.sub_right_comm, hi])
      rw [shift, if_neg (by omega)]
      omega

/-- The place before a blank or a comment lies within no name. -/
theorem Laid.not_splits {rest : List Char} {xs : List Terminal} {links : List Link} {link : Link}
    (h : Laid rest xs links) (hl : link ∈ links) (hk : link.kind.isTrivia = true) :
    ∀ x ∈ xs, ¬ x.Splits front (link :: back) := by
  rintro x hx ⟨as, bs, -, hbs, hlinks, -, hback⟩
  obtain ⟨b, bs, rfl⟩ := List.exists_cons_of_ne_nil hbs
  obtain ⟨rfl, -⟩ := List.cons_prefix_cons.1 hback
  have hmem : b ∈ xs.flatMap Terminal.links := List.mem_flatMap.2 ⟨x, hx, by simp [hlinks]⟩
  rw [← h.significant, List.mem_filter, hk] at hmem
  exact absurd hmem.2 (by decide)

/-- The tokens before the last one are not the end of the input. -/
theorem Derives.ne_endOfInput {text : List Char} {document : Phrase.Document}
    (h : Derives text (front ++ back) document) (hback : back ≠ []) :
    ∀ link ∈ front, link.kind ≠ .endOfInput := by
  intro link hl hk
  obtain rfl := h.ended link (List.mem_append_left _ hl) hk
  obtain ⟨i, hi, hlink⟩ := List.mem_iff_getElem.1 hl
  have hfirst := h.order.id_eq (i := i)
    (by rw [List.getElem?_append_left hi, List.getElem?_eq_getElem hi, hlink])
  have hlast := h.last
  rw [List.getLast?_eq_getElem?] at hlast
  have hid := h.order.id_eq hlast
  have hpos := List.length_pos_of_ne_nil hback
  rw [List.length_append] at hid
  omega

/-- Blanks and comments that are put between two tokens, not within a name, and not after a comment
that would go on with them, make a longer gap. -/
theorem Derives.insert {text : List Char} {document : Phrase.Document}
    (h : Derives text (front ++ back) document) (hback : back ≠ [])
    (hsplits : ∀ x ∈ document.terminals, ¬ x.Splits front back)
    (hline : ∀ link ∈ front.getLast?, ¬ link.IsLineComment) {trivia : List Char}
    (htrivia : IsTrivia trivia) (hne : trivia ≠ []) :
    ∃ gap, Link.spelled gap = trivia ∧ Link.IsGap gap ∧
      Link.Lexed (front ++ (gap ++ back)) [] ∧
      Laid [] document.terminals (front ++ (gap ++ back)) := by
  obtain ⟨gap, rfl, hgap, hlexed⟩ := htrivia.exists_gap
  obtain ⟨hfront, hback'⟩ := Link.lexed_append.1 h.order.lexed
  have hend := h.ne_endOfInput hback
  refine ⟨gap, rfl, hgap, ?_, h.laid.insert hfront hend hgap hne (Lexeme.halts_trivia htrivia)
    hsplits⟩
  refine Link.lexed_append.2 ⟨?_, Link.lexed_append.2 ⟨hlexed _, hback'⟩⟩
  rw [Link.spelled_append, List.append_assoc]
  exact hfront.insert htrivia hne hend hline

namespace SyntaxTree

variable {text : String} {options : Options} {tree : SyntaxTree}

/-- Every text that is read has a derivation, and blanks and complete comments may be put before any
of its tokens, unless the place lies within a name of the derivation, or right after a comment that
goes to the end of its line. The longer text is read too, its tree gives it back, and the tree says
the same: it is the tree of the text with the tokens behind the place renumbered. -/
theorem ofText_insert_trivia (h : ofText text options = .ok tree) :
    ∃ document : Phrase.Document, document.node options.numbering = tree.document ∧
      Derives text.toList tree.tokens.links document ∧
      ∀ front back trivia longer, tree.tokens.links = front ++ back → back ≠ [] →
        (∀ x ∈ document.terminals, ¬ x.Splits front back) →
        (∀ link ∈ front.getLast?, ¬ link.IsLineComment) → IsTrivia trivia →
        longer.toList = Link.spelled front ++ (trivia ++ Link.spelled back) →
        ∃ tree', ofText longer options = .ok tree' ∧ tree'.text = longer ∧
          tree'.document.forget = tree.document.forget ∧
          tree'.document.relabel id = tree.document.relabel
            (shift front.length (tree'.tokens.size - tree.tokens.size)) := by
  obtain ⟨document, hnode, hallowed, hderives⟩ := exists_derives h
  refine ⟨document, hnode, hderives, ?_⟩
  intro front back trivia longer hlinks hback hsplits hline htrivia hlonger
  by_cases hne : trivia = []
  · have htext : longer = text := by
      rw [← String.toList_inj, hlonger, hne, List.nil_append, ← Link.spelled_append, ← hlinks,
        hderives.spelled]
    refine ⟨tree, htext ▸ h, (text_eq h).trans htext.symm, rfl, ?_⟩
    rw [Nat.sub_self, show shift front.length 0 = id by funext i; simp [shift]]
  rw [hlinks] at hderives
  obtain ⟨gap, rfl, hgap, hlexed, hlaid⟩ := hderives.insert hback hsplits hline htrivia hne
  rw [← Link.spelled_append, ← Link.spelled_append] at hlonger
  obtain ⟨tree', htree, hsize, hshift⟩ := ofText_of_lexed (shift front.length gap.length) id
    hallowed hlexed hlaid hlonger.symm fun hi hk => hderives.order.insert hgap hi hk
  obtain ⟨tree'', htree', -, hforget⟩ := ofText_of_lexed (fun _ => 0) (fun _ => 0)
    hallowed hlexed hlaid hlonger.symm fun _ _ => rfl
  obtain rfl : tree' = tree'' := Except.ok.inj (htree.symm.trans htree')
  rw [hnode] at hshift hforget
  have hcount : tree'.tokens.size - tree.tokens.size = gap.length := by
    rw [hsize, ← TokenChain.length_links, hlinks]
    simp only [List.length_append]
    omega
  refine ⟨tree', htree, text_eq htree, hforget, ?_⟩
  rw [hcount]
  exact hshift

/-- A comment and the end of its line, put between a name that ends with a dot and the blank behind
it. -/
theorem insert_trivia_behind_dot :
    ∃ tree tree', ofText "const a. b = 1" {} = .ok tree ∧
      ofText "const a./* of a */\n b = 1" {} = .ok tree' ∧
      tree'.document.forget = tree.document.forget ∧
      tree'.document.relabel id = tree.document.relabel (shift 4 2) := by
  obtain ⟨tree, h, hlexemes⟩ := exists_of_map
    (show (ofText "const a. b = 1" {}).toOption.map (fun tree => tree.tokens.links.map Link.lexeme) =
      some ([(.keyword .const, "const"), (.blank .space, " "), (.ident, "a"), (.punct .dot, ".")] ++
        (.blank .space, " ") :: [(.ident, "b"), (.blank .space, " "), (.punct .equals, "="),
          (.blank .space, " "), (.number, "1"), (.endOfInput, "")]) by decide +kernel)
  obtain ⟨front, behind, hlinks, hfront, hbehind⟩ := List.map_eq_append_iff.1 hlexemes
  obtain ⟨blank, back, rfl, hblank, hback⟩ := List.map_eq_cons_iff.1 hbehind
  have hk : blank.kind = .blank .space := congrArg Prod.fst hblank
  obtain ⟨document, -, hderives, hinsert⟩ := ofText_insert_trivia h
  have htrivia : IsTrivia "/* of a */\n".toList :=
    @IsTrivia.block " of a ".toList _ (by decide) (.blank .lineFeed .nil)
  -- The name goes up to the dot, and the blank behind it belongs to no terminal.
  have hsplits : ∀ x ∈ document.terminals, ¬ x.Splits front (blank :: back) :=
    hderives.laid.not_splits (hlinks ▸ List.mem_append_right _ List.mem_cons_self) (by rw [hk]; rfl)
  have hline : ∀ link ∈ front.getLast?, ¬ link.IsLineComment := by
    intro link hl hcomment
    have hdot := Option.mem_map_of_mem Link.lexeme hl
    rw [← List.getLast?_map, hfront] at hdot
    exact absurd (hcomment.1.symm.trans (congrArg Prod.fst (Option.some.inj hdot)).symm) (by decide)
  have hlonger : "const a./* of a */\n b = 1".toList =
      Link.spelled front ++ ("/* of a */\n".toList ++ Link.spelled (blank :: back)) := by
    rw [Link.spelled_eq_lexemes, Link.spelled_eq_lexemes, hfront, hbehind]
    decide
  obtain ⟨tree', htree, -, hforget, hshift⟩ := hinsert front (blank :: back) _ _ hlinks
    (List.cons_ne_nil _ _) hsplits hline htrivia hlonger
  have hsize : tree.tokens.size = 11 := by
    rw [← TokenChain.length_links, ← List.length_map Link.lexeme, hlexemes]
    rfl
  have hsize' : tree'.tokens.size = 13 := by
    have hrun : (ofText "const a./* of a */\n b = 1" {}).toOption.map (·.tokens.size) = some 13 := by
      decide +kernel
    rw [htree] at hrun
    exact Option.some.inj hrun
  rw [show front.length = 4 by simpa using congrArg List.length hfront, hsize, hsize'] at hshift
  exact ⟨tree, tree', h, htree, hforget, hshift⟩

end SyntaxTree

end ThriftSyntax
