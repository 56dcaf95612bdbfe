import ThriftSyntax.Proofs.Layout.Neighbours
import ThriftSyntax.Proofs.Layout.Trivia

/-!
# Laying out terminals

`Layout xs text` says that a text is the terminals `xs` with blanks and comments between them. Two of
them may touch if one is a delimiter: a mark or a string, beside which nothing runs together. Such a
text is cut into the tokens of the terminals again.
-/

namespace ThriftSyntax

open Lexeme

/-- A token of this kind may touch any other. -/
def Kind.isDelimiter : Kind → Bool
  | string | endOfInput => true
  | punct mark =>
    match mark with
    | .leftBrace | .rightBrace | .leftParen | .rightParen | .less | .greater | .leftBracket
    | .rightBracket | .comma | .semicolon | .colon | .equals | .star => true
    | _ => false
  | _ => false

/-- The text of terminals, of which the last is the end of the input, with blanks and comments
between them. -/
inductive Layout : List Terminal → List Char → Prop
  | ending (ending : Phrase.Ending) : Layout ending.terminals []
  | next {x y : Terminal} {xs : List Terminal} {gap text : List Char} (hgap : IsTrivia gap)
      (htouch : gap = [] → x.head.kind.isDelimiter = true ∨ y.head.kind.isDelimiter = true)
      (h : Layout (y :: xs) text) :
      Layout (x :: y :: xs) (Link.spelled x.links ++ (gap ++ text))

variable {kind : Kind} {raw text rest : List Char} {x y : Terminal} {xs : List Terminal}

/-! ## Where a token ends -/

theorem Lexeme.halts_mark {mark : Punct} (h : (Kind.punct mark).isDelimiter = true) :
    Halts mark.char := by
  cases mark <;> first | exact ⟨by decide, by decide⟩ | cases h

theorem Lexeme.halts_delimiter (h : Spells kind raw) (hk : kind.isDelimiter = true) :
    ∀ c ∈ raw.head?, Halts c := by
  cases h with
  | endOfInput => simp
  | punct mark =>
    rintro _ ⟨⟩
    exact halts_mark hk
  | string hq =>
    have hquote : Halts '"' := ⟨by decide, by decide⟩
    have hapostrophe : Halts '\'' := ⟨by decide, by decide⟩
    rintro _ ⟨⟩
    rcases hq with rfl | rfl
    · exact hquote
    · exact hapostrophe
  | _ => cases hk

theorem Lexeme.endsBefore_delimiter (hk : kind.isDelimiter = true) (hend : kind ≠ .endOfInput) :
    EndsBefore kind raw rest := by
  cases kind with
  | endOfInput => exact absurd rfl hend
  | string | punct mark => trivial
  | _ => cases hk

theorem Terminal.Proper.spells (h : x.Proper) :
    ∀ link ∈ x.links, Spells link.kind link.raw.toList := by
  cases x with
  | token link =>
    intro other hl
    obtain rfl := List.mem_singleton.1 hl
    exact h.1
  | name reserved words => exact DottedName.Shaped.spells h

theorem Terminal.Proper.not_trivia (h : x.Proper) :
    ∀ link ∈ x.links, link.kind.isTrivia = false := by
  cases x with
  | token link =>
    intro other hl
    obtain rfl := List.mem_singleton.1 hl
    exact h.2.1
  | name reserved words => exact DottedName.Shaped.not_trivia h

theorem Lexeme.endsBefore_word {reserved : Bool} (hk : kind.isWord reserved = true)
    (h : ∀ c ∈ rest.head?, continuesWord c = false) : EndsBefore kind raw rest := by
  cases kind with
  | ident | keyword word => exact h
  | _ => cases hk

/-- The words and dots of a name come apart again. -/
theorem DottedName.Tail.lexed {reserved : Bool} {tail : List Link} (h : Tail reserved tail)
    (hs : ∀ link ∈ tail, Spells link.kind link.raw.toList) (hrest : ∀ c ∈ rest.head?, Halts c) :
    Link.Lexed tail rest ∧ ∀ c ∈ (Link.spelled tail ++ rest).head?, continuesWord c = false := by
  have hdot : ∀ {dot : Link}, dot.kind = .punct .dot → Spells dot.kind dot.raw.toList →
      (∀ rest, IsLexeme dot.kind dot.raw.toList rest) ∧ dot.raw.toList = ['.'] := by
    intro dot hd hs
    refine ⟨fun rest => ⟨hs, ?_⟩, Parse.head_dot hd hs⟩
    rw [hd]
    trivial
  induction h with
  | nil => exact ⟨trivial, fun c hc => (hrest c hc).word⟩
  | @dot dot hd =>
    obtain ⟨hlex, hraw⟩ := hdot hd (hs dot List.mem_cons_self)
    refine ⟨⟨hlex _, trivial⟩, ?_⟩
    rw [Link.spelled_cons, hraw]
    rintro _ ⟨⟩
    decide
  | @word dot word tail hd hw _ ih =>
    obtain ⟨hsdot, hs⟩ := List.forall_mem_cons.1 hs
    obtain ⟨hsword, hs⟩ := List.forall_mem_cons.1 hs
    obtain ⟨hlex, hraw⟩ := hdot hd hsdot
    obtain ⟨htail, hhead⟩ := ih hs
    refine ⟨⟨hlex _, ⟨hsword, endsBefore_word hw hhead⟩, htail⟩, ?_⟩
    rw [Link.spelled_cons, hraw]
    rintro _ ⟨⟩
    decide

theorem DottedName.Shaped.lexed {reserved : Bool} {name : DottedName} (h : name.Shaped reserved)
    (hrest : ∀ c ∈ rest.head?, Halts c) : Link.Lexed name.links rest := by
  rcases h.shape with ht | ⟨hw, ht⟩
  · exact (ht.lexed h.spells hrest).1
  · obtain ⟨hhead, hs⟩ := List.forall_mem_cons.1 h.spells
    obtain ⟨htail, hnext⟩ := ht.lexed hs hrest
    exact ⟨⟨hhead, endsBefore_word hw hnext⟩, htail⟩

theorem Phrase.Name.not_delimiter {reserved : Bool} (name : Phrase.Name reserved) :
    name.words.head.kind.isDelimiter = false := by
  rcases name.starts with h | h
  · rw [h]
    rfl
  · cases hk : name.words.head.kind with
    | ident | keyword word => rfl
    | _ => rw [hk] at h; cases h

/-- A terminal is cut into its tokens if it is a delimiter or if what follows ends it. -/
theorem Terminal.Proper.lexed (h : x.Proper)
    (hrest : x.head.kind.isDelimiter = true ∨ ∀ c ∈ rest.head?, Halts c) :
    Link.Lexed x.links rest := by
  cases x with
  | token link =>
    obtain ⟨hspells, htrivia, hend⟩ := h
    refine ⟨⟨hspells, ?_⟩, trivial⟩
    rcases hrest with hdelimiter | hhalts
    · exact endsBefore_delimiter hdelimiter hend
    · refine .of_halts hhalts hend fun hk => ?_
      rw [show link.kind = .comment from hk] at htrivia
      cases htrivia
  | name reserved words =>
    refine DottedName.Shaped.lexed h (hrest.resolve_left fun hdelimiter => ?_)
    have hname := Phrase.Name.not_delimiter ⟨words, h⟩
    rw [Terminal.head_name, hname] at hdelimiter
    cases hdelimiter

/-! ## The tokens of a layout -/

namespace Layout

/-- A layout that begins with a delimiter ends what is before it. -/
theorem halts (h : Layout (y :: xs) text) (hproper : ∀ x ∈ (y :: xs).dropLast, x.Proper)
    (hy : y.head.kind.isDelimiter = true) : ∀ c ∈ text.head?, Halts c := by
  cases h with
  | ending => simp
  | next hgap htouch h =>
    have hy' : y.Proper := hproper y List.mem_cons_self
    have hspells := hy'.spells y.head List.mem_cons_self
    have hne : y.head.raw.toList ≠ [] := by
      refine hspells.ne_nil ?_
      cases y with
      | token link => exact hy'.2.2
      | name reserved words => exact (Phrase.Name.starts ⟨words, hy'⟩).ne_endOfInput
    obtain ⟨c, tail, hc⟩ := List.exists_cons_of_ne_nil hne
    have hhalts := halts_delimiter hspells hy
    rw [Terminal.links, Link.spelled_cons, hc]
    rw [hc] at hhalts
    exact hhalts

/-- A name stops before what does not run together with it. -/
theorem ends_of_halts {following : List Link} (hx : x.Proper)
    (hdot : x.EndsWithDot → ∃ link tail, following = link :: tail ∧
      (∀ reserved, link.kind.isWord reserved = false) ∧ Plain link.kind link.raw.toList)
    (hnext : x.head.kind.isDelimiter = true ∨
      ∀ c ∈ (Link.spelled following ++ rest).head?, Halts c) : x.Ends following rest := by
  cases x with
  | token link => trivial
  | name reserved words =>
    unfold Terminal.Ends
    dsimp only
    split
    · obtain ⟨link, tail, hlink, hw, hp⟩ := hdot ‹_›
      exact ⟨link, tail, hlink, hw reserved, hp⟩
    · intro hc
      have hname := Phrase.Name.not_delimiter ⟨words, hx⟩
      refine (hnext.resolve_left ?_ '.' hc).point rfl
      rw [Terminal.head_name, hname]
      simp

/-- A terminal that is no delimiter is ended by what stands behind it. -/
theorem halts_behind {gap : List Char} (hgap : IsTrivia gap)
    (htouch : gap = [] → x.head.kind.isDelimiter = true ∨ y.head.kind.isDelimiter = true)
    (h : Layout (y :: xs) text) (hproper : ∀ x ∈ (y :: xs).dropLast, x.Proper) :
    x.head.kind.isDelimiter = true ∨ ∀ c ∈ (gap ++ text).head?, Halts c := by
  by_cases hne : gap = []
  · rw [hne, List.nil_append]
    exact (htouch hne).imp_right fun hy => h.halts hproper hy
  · obtain ⟨c, tail, hc⟩ := List.exists_cons_of_ne_nil hne
    have hhalts := halts_trivia hgap
    rw [hc] at hhalts ⊢
    exact .inr hhalts

/-- Behind a name that ends with a dot a blank or a mark comes next, which is no word. -/
theorem unread_behind {blanks following : List Link} (hblanks : Link.IsGap blanks) (hx : x.Proper)
    (hdot : x.EndsWithDot) (hfit : x.Fits y) (htouch : Link.spelled blanks = [] →
      x.head.kind.isDelimiter = true ∨ y.head.kind.isDelimiter = true) :
    ∃ link tail, blanks ++ (y.links ++ following) = link :: tail ∧
      (∀ reserved, link.kind.isWord reserved = false) ∧ Plain link.kind link.raw.toList := by
  cases blanks with
  | cons blank blanks =>
    have hk := hblanks blank List.mem_cons_self
    exact ⟨blank, _, rfl, fun _ => Kind.not_word_of_isTrivia hk, Parse.plain_of_trivia hk⟩
  | nil =>
    -- The name is no delimiter, so what touches it is one, and it is no string.
    have hname : x.head.kind.isDelimiter = false := by
      cases x with
      | token link => exact absurd hdot id
      | name reserved words => exact Phrase.Name.not_delimiter ⟨words, hx⟩
    have hy := (htouch rfl).resolve_left (by simp [hname])
    refine ⟨y.head, y.tail ++ following, rfl, fun reserved => ?_, hfit hdot, ?_⟩
    · cases hk : y.head.kind <;> first | rfl | (rw [hk] at hy; cases hy)
    · intro hk
      rw [hk] at hy
      cases hy

theorem exists_links (h : Layout xs text) (hproper : ∀ x ∈ xs.dropLast, x.Proper)
    (hfits : xs.IsChain Terminal.Fits) :
    ∃ links, Link.spelled links = text ∧ Link.Lexed links [] ∧ Laid [] xs links ∧
      ∀ x ∈ xs.head?, ∃ tail, links = x.links ++ tail := by
  induction h with
  | ending ending =>
    have hspells := ending.spells
    rw [ending.fits] at hspells
    have hraw := hspells.eq_nil
    refine ⟨[ending.link], ?_, ⟨⟨ending.spells, ?_⟩, trivial⟩, .of_token ?_ .nil, ?_⟩
    · rw [Link.spelled_cons, hraw]
      rfl
    · rw [ending.fits]
      rfl
    · rw [ending.fits]
      rfl
    · rintro _ ⟨⟩
      exact ⟨[], rfl⟩
  | @next x y xs gap text hgap htouch h ih =>
    rw [List.dropLast_cons_cons] at hproper
    obtain ⟨hx, hproper⟩ := List.forall_mem_cons.1 hproper
    obtain ⟨hfit, hfits⟩ := List.isChain_cons_cons.1 hfits
    obtain ⟨links, rfl, hlexed, hlaid, hhead⟩ := ih hproper hfits
    obtain ⟨tail, rfl⟩ := hhead y rfl
    have hbehind := halts_behind hgap htouch h hproper
    obtain ⟨blanks, rfl, hblanks, hlexed'⟩ := hgap.exists_gap
    have hnext : x.head.kind.isDelimiter = true ∨
        ∀ c ∈ (Link.spelled (blanks ++ (y.links ++ tail)) ++ []).head?, Halts c := by
      rwa [Link.spelled_append, List.append_nil]
    refine ⟨x.links ++ (blanks ++ (y.links ++ tail)), by simp, ?_, ?_, ?_⟩
    · exact Link.lexed_append.2 ⟨hx.lexed hnext, Link.lexed_append.2 ⟨hlexed' _, hlexed⟩⟩
    · exact .terminal hx.not_trivia
        (ends_of_halts hx (fun hdot => unread_behind hblanks hx hdot hfit htouch) hnext)
        (hlaid.of_gap hblanks)
    · rintro _ ⟨⟩
      exact ⟨_, rfl⟩

/-- Terminals that may stand beside each other, and the end of the input. -/
theorem exists_links_ending {ending : Phrase.Ending} (h : Layout (xs ++ ending.terminals) text)
    (hproper : ∀ x ∈ xs, x.Proper) (hfits : xs.IsChain Terminal.Fits) :
    ∃ links, Link.spelled links = text ∧ Link.Lexed links [] ∧
      Laid [] (xs ++ ending.terminals) links := by
  have hproper : ∀ x ∈ (xs ++ ending.terminals).dropLast, x.Proper := by
    rwa [Phrase.Leaf.terminals, List.dropLast_concat]
  have hfits : (xs ++ ending.terminals).IsChain Terminal.Fits := by
    refine List.isChain_append.2 ⟨hfits, .singleton _, ?_⟩
    rintro x - _ ⟨⟩ -
    simp [ending.fits]
  obtain ⟨links, htext, hlexed, hlaid, -⟩ := h.exists_links hproper hfits
  exact ⟨links, htext, hlexed, hlaid⟩

end Layout

end ThriftSyntax
