import ThriftSyntax.Proofs.Insertion
import ThriftSyntax.Proofs.Layout.Cutting
import ThriftSyntax.Proofs.Layout.Regular

/-!
# Blanks and comments before a negative number

No token goes on with a minus sign, so that a number with a sign needs nothing before it: the blanks and
comments there may be left out. Only a dot at the end of a name reads one token ahead, and would take
the sign by itself.
-/

namespace ThriftSyntax

open Lexeme

variable {front back gap : List Link} {rest : List Char}

theorem Lexeme.halts_sign {text : List Char} (h : text.head? = some '-') :
    ∀ c ∈ text.head?, Halts c := by
  rw [h]
  rintro _ ⟨⟩
  exact ⟨by decide, by decide⟩

/-- A terminal that ends with no dot stops before any text that begins with none. -/
theorem Terminal.ends_of_last {x : Terminal} {following : List Link}
    (hlast : ∀ link ∈ x.links.getLast?, link.kind ≠ .punct .dot)
    (hdot : (Link.spelled following ++ rest).head? ≠ some '.') : x.Ends following rest := by
  cases x with
  | token => trivial
  | name reserved words =>
    unfold Terminal.Ends
    dsimp only
    rw [if_neg (hlast words.last words.getLast?_links)]
    exact hdot

/-- Blanks and comments may be left out where no dot stands before them and none begins the text
behind them. -/
theorem Laid.remove {xs : List Terminal} (h : Laid rest xs (front ++ (gap ++ back)))
    (hgap : Link.IsGap gap) (hraw : ∀ link ∈ front, link.raw.toList ≠ [])
    (hlast : ∀ link ∈ front.getLast?, link.kind ≠ .punct .dot)
    (hdot : (Link.spelled back ++ rest).head? ≠ some '.') : Laid rest xs (front ++ back) := by
  by_cases hne : gap = []
  · subst hne
    exact h
  generalize hlinks : front ++ (gap ++ back) = links at h
  induction h generalizing front with
  | nil =>
    have hnil := (List.append_eq_nil_iff.1 hlinks).2
    exact absurd (List.append_eq_nil_iff.1 hnil).1 hne
  | @gap xs link links hk h ih =>
    cases front with
    | nil => exact .of_isGap_append hgap (hlinks ▸ h.gap hk)
    | cons other front =>
      cases hlinks
      obtain ⟨-, hraw⟩ := List.forall_mem_cons.1 hraw
      refine .gap hk (ih hraw (fun link hl => hlast link ?_) rfl)
      rw [List.getLast?_cons, Option.mem_def.1 hl, Option.getD_some, Option.mem_def]
  | @terminal x xs links hx he h ih =>
    by_cases hfront : front = []
    · subst hfront
      exact .of_isGap_append hgap (hlinks ▸ h.terminal hx he)
    obtain ⟨as, rfl, rfl⟩ : ∃ as, front = x.links ++ as ∧ links = as ++ (gap ++ back) := by
      rcases List.append_eq_append_iff.1 hlinks with ⟨bs, hown, htail⟩ | ⟨as, rfl, rfl⟩
      · cases bs with
        | nil => exact ⟨[], by simpa using hown.symm, by simpa using htail.symm⟩
        | cons b bs =>
          -- A token of the gap would be one of the terminal.
          obtain ⟨blank, gap, rfl⟩ := List.exists_cons_of_ne_nil hne
          obtain rfl : blank = b := (List.cons.inj htail).1
          have hk := hx blank (by simp [hown])
          rw [hgap blank List.mem_cons_self] at hk
          cases hk
      · exact ⟨as, rfl, rfl⟩
    rw [List.append_assoc]
    cases as with
    | nil =>
      rw [List.append_nil] at hlast
      exact .terminal hx (Terminal.ends_of_last hlast hdot) (.of_isGap_append hgap h)
    | cons next as =>
      have hraw' : ∀ link ∈ next :: as, link.raw.toList ≠ [] :=
        fun link hl => hraw link (List.mem_append_right _ hl)
      refine .terminal hx (he.of_next (hraw' next List.mem_cons_self)) (ih hraw' ?_ rfl)
      intro last hl
      refine hlast last ?_
      rw [List.getLast?_append, Option.mem_def.1 hl, Option.some_or, Option.mem_def]

/-- The tokens behind the ones left out have greater numbers. -/
theorem Link.InOrder.remove {place : Location} (h : InOrder 0 place (front ++ (gap ++ back)) rest)
    {i : Nat} {link : Link} (hi : (front ++ back)[i]? = some link) :
    shift front.length gap.length i = link.id := by
  rcases Nat.lt_or_ge i front.length with hlt | hge
  · rw [List.getElem?_append_left hlt] at hi
    have hid : link.id = 0 + i := h.id_eq (by rw [List.getElem?_append_left hlt, hi])
    rw [shift, if_pos hlt]
    omega
  · rw [List.getElem?_append_right hge] at hi
    have hid : link.id = 0 + (i + gap.length) := h.id_eq (by
      rw [List.getElem?_append_right (by omega), List.getElem?_append_right (by omega), ← hi]
      congr 1
      omega)
    rw [shift, if_neg (by omega)]
    omega

variable {number : Link}

/-- Tokens are cut in the same way right before a negative number. -/
theorem Link.Lexed.remove (h : Lexed (front ++ (gap ++ number :: back)) rest)
    (hfront : ∀ link ∈ front.getLast?, link.kind.isTrivia = false)
    (hend : ∀ link ∈ front, link.kind ≠ .endOfInput)
    (hsign : number.raw.toList.head? = some '-') : Lexed (front ++ number :: back) rest := by
  obtain ⟨hlexed, hrest⟩ := lexed_append.1 h
  have hhead : (spelled (number :: back) ++ rest).head? = some '-' := by
    rw [spelled_cons, List.head?_append, List.head?_append, hsign]
    rfl
  have hne : spelled (number :: back) ++ rest ≠ [] := by
    intro hnil
    rw [hnil] at hhead
    cases hhead
  refine lexed_append.2 ⟨hlexed.replace (halts_sign hhead) hne hend fun link hl hcomment => ?_,
    (lexed_append.1 hrest).2⟩
  have := hfront link hl
  rw [hcomment.1] at this
  cases this

/-- The tokens that are left are laid out as they were, if no name ends with a dot before the number. -/
theorem Derives.remove {text : List Char} {document : Phrase.Document}
    (h : Derives text (front ++ (gap ++ number :: back)) document) (hgap : Link.IsGap gap)
    (hlast : ∀ link ∈ front.getLast?, link.kind ≠ .punct .dot)
    (hsign : number.raw.toList.head? = some '-') :
    Laid [] document.terminals (front ++ number :: back) := by
  have hend := h.ne_endOfInput (by simp)
  refine h.laid.remove hgap (fun link hl => ?_) hlast ?_
  · exact (h.order.spells link (List.mem_append_left _ hl)).ne_nil (hend link hl)
  · rw [Link.spelled_cons, List.head?_append, List.head?_append, hsign]
    simp

/-- Where the shorter text is derived too, the tokens are cut in the same way up to the number, so
that no dot stands before that. -/
theorem Derives.undotted {text shorter : List Char} {links : List Link}
    {document document' : Phrase.Document}
    (h : Derives text (front ++ (gap ++ number :: back)) document)
    (h' : Derives shorter links document')
    (hlexed : Link.Lexed (front ++ number :: back) [])
    (hnumber : number.kind = .number) (hsign : number.raw.toList.head? = some '-')
    (hshorter : shorter = Link.spelled (front ++ number :: back)) :
    ∀ link ∈ front.getLast?, link.kind ≠ .punct .dot := by
  have hall := h.laid.lone document.regular
  have hlone : ∀ link ∈ front ++ [number], link.kind.Lone := List.forall_mem_append.2
    ⟨fun link hl => hall link (List.mem_append_left _ hl), by simpa using hall number (by simp)⟩
  have hend : ∀ link ∈ front ++ [number], link.kind ≠ .endOfInput :=
    List.forall_mem_append.2 ⟨h.ne_endOfInput (by simp), by simp [hnumber]⟩
  rw [← List.singleton_append, ← List.append_assoc] at hlexed hshorter
  obtain ⟨front', tail, hlinks, hlexemes, -⟩ := (Link.lexed_append.1 hlexed).1.exists_front
    h'.order.lexed hlone (h'.laid.lone document'.regular) hend
    (by rw [h'.spelled, hshorter, Link.spelled_append, List.append_nil])
  intro dot hdot hd
  obtain ⟨front, rfl⟩ := List.getLast?_eq_some_iff.1 hdot
  rw [List.append_assoc, List.map_append] at hlexemes
  obtain ⟨before, after, rfl, -, hafter⟩ := List.map_eq_append_iff.1 hlexemes
  obtain ⟨dot', after, rfl, hdot', hafter⟩ := List.map_eq_cons_iff.1 hafter
  obtain ⟨number', after, rfl, hnumber', hafter⟩ := List.map_eq_cons_iff.1 hafter
  obtain rfl := List.map_eq_nil_iff.1 hafter
  obtain ⟨hkind, -⟩ := Prod.mk.inj hdot'
  obtain ⟨hkind', hraw'⟩ := Prod.mk.inj hnumber'
  have hplain := h'.laid.plain_after_dot document'.regular
    (show links = before ++ dot' :: number' :: tail by simp [hlinks]) (hkind.trans hd)
  refine hplain.2 (hkind'.trans hnumber) ?_
  rw [hraw', hsign]

namespace SyntaxTree

variable {text : String} {options : Options} {tree : SyntaxTree}

/-- A text whose tokens are those of a document has the tree of that, with the tokens numbered anew. -/
theorem ofText_of_renumbered {document : Phrase.Document} {links : List Link} (new : Nat → Nat)
    (hallowed : document.Allowed options.namespaceTrailing) (hlexed : Link.Lexed links [])
    (hlaid : Laid [] document.terminals links) (htext : Link.spelled links = text.toList)
    (hids : ∀ {i link}, links[i]? = some link → new i = link.id) :
    ∃ tree, ofText text options = .ok tree ∧
      tree.tokens.links.map Link.lexeme = links.map Link.lexeme ∧
      tree.document.forget = (document.node options.numbering).forget ∧
      tree.document.relabel new = (document.node options.numbering).relabel id := by
  obtain ⟨tree, htree, hlinks, hnew⟩ :=
    ofText_of_arranged id new hallowed hlexed hlaid htext fun hi _ => hids hi
  obtain ⟨tree', htree', -, hforget⟩ :=
    ofText_of_lexed (fun _ => 0) (fun _ => 0) hallowed hlexed hlaid htext fun _ _ => rfl
  obtain rfl : tree = tree' := Except.ok.inj (htree.symm.trans htree')
  exact ⟨tree, htree, by rw [hlinks, Link.map_lexeme_arrange], hforget, hnew⟩

/-- The blanks and comments before a negative number of a text that is read may be left out, unless
the token before them is a dot: then the shorter text is not read. Otherwise it is, its tree gives it
back, and the tree says the same: it is the tree of the text with the tokens from the number on
renumbered. -/
theorem ofText_remove_gap (h : ofText text options = .ok tree)
    (hlinks : tree.tokens.links = front ++ (gap ++ number :: back)) (hgap : Link.IsGap gap)
    (hfront : ∀ link ∈ front.getLast?, link.kind.isTrivia = false)
    (hnumber : number.kind = .number) (hsign : number.raw.toList.head? = some '-')
    {shorter : String} (hshorter : shorter.toList = Link.spelled (front ++ number :: back)) :
    ((∃ tree', ofText shorter options = .ok tree') ↔
      ∀ link ∈ front.getLast?, link.kind ≠ .punct .dot) ∧
    ∀ tree', ofText shorter options = .ok tree' →
      tree'.text = shorter ∧
      tree'.tokens.links.map Link.lexeme = (front ++ number :: back).map Link.lexeme ∧
      tree'.document.forget = tree.document.forget ∧
      tree'.document.relabel (shift front.length gap.length) = tree.document.relabel id := by
  obtain ⟨document, hnode, hallowed, hderives⟩ := exists_derives h
  rw [hlinks] at hderives
  have hend : ∀ link ∈ front, link.kind ≠ .endOfInput := hderives.ne_endOfInput (by simp)
  have hlexed := hderives.order.lexed.remove hfront hend hsign
  have hread (hlast : ∀ link ∈ front.getLast?, link.kind ≠ .punct .dot) :=
    ofText_of_renumbered (shift front.length gap.length) hallowed hlexed
      (hderives.remove hgap hlast hsign) hshorter.symm fun hi => hderives.order.remove hi
  rw [hnode] at hread
  have hdotted (tree' : SyntaxTree) (htree : ofText shorter options = .ok tree') :
      ∀ link ∈ front.getLast?, link.kind ≠ .punct .dot := by
    obtain ⟨document', -, -, hderives'⟩ := exists_derives htree
    exact hderives.undotted hderives' hlexed hnumber hsign hshorter
  refine ⟨⟨fun ⟨tree', htree⟩ => hdotted tree' htree, fun hlast => ?_⟩, fun tree' htree => ?_⟩
  · obtain ⟨tree', htree, -⟩ := hread hlast
    exact ⟨tree', htree⟩
  · obtain ⟨tree'', htree', hread⟩ := hread (hdotted tree' htree)
    obtain rfl : tree' = tree'' := Except.ok.inj (htree.symm.trans htree')
    exact ⟨text_eq htree, hread⟩

/-- A negative number in a text whose tokens are known, and the blanks and comments before it. -/
theorem exists_gap_of_lexemes {before blanks after : List (Kind × String)} {raw : String}
    (h : (ofText text options).toOption.map (fun tree => tree.tokens.links.map Link.lexeme) =
      some (before ++ (blanks ++ (.number, raw) :: after)))
    (hblanks : ∀ blank ∈ blanks, blank.1.isTrivia = true) :
    ∃ tree front gap number back, ofText text options = .ok tree ∧
      tree.tokens.links = front ++ (gap ++ number :: back) ∧ front.length = before.length ∧
      (∀ link ∈ front.getLast?, link.lexeme ∈ before.getLast?) ∧ gap.length = blanks.length ∧
      Link.IsGap gap ∧ number.kind = .number ∧ number.raw = raw ∧
      Link.spelled (front ++ number :: back) =
        (before ++ (.number, raw) :: after).flatMap (·.2.toList) := by
  obtain ⟨tree, htree, hlexemes⟩ := exists_of_map h
  obtain ⟨front, links, hlinks, rfl, hbehind⟩ := List.map_eq_append_iff.1 hlexemes
  obtain ⟨gap, tail, rfl, rfl, htail⟩ := List.map_eq_append_iff.1 hbehind
  obtain ⟨number, back, rfl, hnumber, rfl⟩ := List.map_eq_cons_iff.1 htail
  obtain ⟨hkind, hraw⟩ := Prod.mk.inj hnumber
  refine ⟨tree, front, gap, number, back, htree, hlinks, by simp, fun link hl => ?_, by simp,
    fun link hl => hblanks _ (List.mem_map_of_mem hl), hkind, hraw, ?_⟩
  · rw [List.getLast?_map]
    exact Option.mem_map_of_mem _ hl
  · rw [Link.spelled_eq_lexemes, List.map_append, List.map_cons, hnumber]

/-- A number in a list, which needs neither the blank nor the comment before it. -/
theorem ofText_remove_gap_list :
    ∃ tree tree', ofText "const i32 l = [1 /* to */-2]" {} = .ok tree ∧
      ofText "const i32 l = [1-2]" {} = .ok tree' ∧
      tree'.document.forget = tree.document.forget ∧
      tree'.document.relabel (shift 10 2) = tree.document.relabel id := by
  obtain ⟨tree, front, gap, number, back, h, hlinks, hcount, hlast, hcount', hgap, hkind, hraw,
    hspelled⟩ := @exists_gap_of_lexemes "const i32 l = [1 /* to */-2]" {}
      [(.keyword .const, "const"), (.blank .space, " "), (.ident, "i32"), (.blank .space, " "),
        (.ident, "l"), (.blank .space, " "), (.punct .equals, "="), (.blank .space, " "),
        (.punct .leftBracket, "["), (.number, "1")]
      [(.blank .space, " "), (.comment, "/* to */")] [(.punct .rightBracket, "]"), (.endOfInput, "")]
      "-2" (by decide +kernel) (by decide)
  have hone : ∀ link ∈ front.getLast?, link.kind = .number := fun link hl =>
    congrArg Prod.fst (Option.some.inj (hlast link hl)).symm
  obtain ⟨hread, hsame⟩ := ofText_remove_gap h hlinks hgap
    (fun link hl => by rw [hone link hl]; rfl) hkind (by rw [hraw]; decide)
    (show "const i32 l = [1-2]".toList = _ by rw [hspelled]; decide)
  obtain ⟨tree', htree'⟩ := hread.2 fun link hl => by simp [hone link hl]
  obtain ⟨-, -, hforget, hshift⟩ := hsame tree' htree'
  rw [hcount, hcount'] at hshift
  exact ⟨tree, tree', h, htree', hforget, hshift⟩

/-- Behind a name that ends with a dot the blank before the number may not be left out. -/
theorem ofText_remove_gap_dot :
    ∃ tree front gap number back,
      ofText "struct S \x7b 1: i32 a. -2: i32 b \x7d" {} = .ok tree ∧
      tree.tokens.links = front ++ (gap ++ number :: back) ∧ gap ≠ [] ∧ Link.IsGap gap ∧
      (∀ link ∈ front.getLast?, link.kind.isTrivia = false) ∧
      number.kind = .number ∧ number.raw = "-2" ∧
      "struct S \x7b 1: i32 a.-2: i32 b \x7d".toList = Link.spelled (front ++ number :: back) ∧
      ¬ ∃ tree', ofText "struct S \x7b 1: i32 a.-2: i32 b \x7d" {} = .ok tree' := by
  obtain ⟨tree, front, gap, number, back, h, hlinks, hcount, hlast, hcount', hgap, hkind, hraw,
    hspelled⟩ := @exists_gap_of_lexemes "struct S \x7b 1: i32 a. -2: i32 b \x7d" {}
      [(.keyword .struct, "struct"), (.blank .space, " "), (.ident, "S"), (.blank .space, " "),
        (.punct .leftBrace, "\x7b"), (.blank .space, " "), (.number, "1"), (.punct .colon, ":"),
        (.blank .space, " "), (.ident, "i32"), (.blank .space, " "), (.ident, "a"), (.punct .dot, ".")]
      [(.blank .space, " ")]
      [(.punct .colon, ":"), (.blank .space, " "), (.ident, "i32"), (.blank .space, " "),
        (.ident, "b"), (.blank .space, " "), (.punct .rightBrace, "\x7d"), (.endOfInput, "")]
      "-2" (by decide +kernel) (by decide)
  refine ⟨tree, front, gap, number, back, h, hlinks, ?_, hgap, ?_, hkind, hraw, ?_, ?_⟩
  · rintro rfl
    cases hcount'
  · intro link hl
    have hdot : link.kind = .punct .dot := congrArg Prod.fst (Option.some.inj (hlast link hl)).symm
    rw [hdot]
    rfl
  · rw [hspelled]
    decide
  · rintro ⟨tree', htree'⟩
    have hok : (ofText "struct S \x7b 1: i32 a.-2: i32 b \x7d" {}).isOk = false := by decide +kernel
    rw [htree'] at hok
    cases hok

end SyntaxTree

end ThriftSyntax
