import ThriftSyntax.Proofs.Naming
import ThriftSyntax.Proofs.Rendering.Exact

/-!
# Annotation lists are read exactly

What texts a list of annotations may be written as, said of their characters alone. Between two
annotations there may be a comma or a semicolon, which the grammar of the notation asks for; the list is
read without it as well.
-/

namespace ThriftSyntax

open Lexeme
open Link (Cut)

/-! ## Names as texts -/

/-- What may stand for a name: a qualified name, or a dot alone. -/
def IsName (reserved : Bool) (name : String) : Prop := IsQualified reserved name ∨ name = "."

namespace Lexeme.IsNameWord

variable {reserved : Bool} {word : String}

theorem isSegment (h : IsNameWord reserved word) : IsSegment word := h.imp_right And.right

theorem isWord_ofWord (h : IsNameWord reserved word) : (Kind.ofWord word).isWord reserved = true := by
  rcases h with h | ⟨rfl, keyword, rfl⟩
  · generalize hraw : word.toList = raw at h
    cases h with
    | ident hc ht hn =>
      rw [← hraw, String.ofList_toList] at hn
      rw [Kind.ofWord, hn]
      rfl
  · rw [Kind.ofWord_text]
    rfl

end Lexeme.IsNameWord

namespace Link

/-- A dot as a token. -/
def dot : Link := ⟨0, .punct .dot, ".", .start⟩

variable {reserved : Bool} {words : List String}

theorem tail_dotted_append {tail : List Link} (hwords : ∀ word ∈ words, IsNameWord reserved word)
    (h : DottedName.Tail reserved tail) (id : Nat) :
    DottedName.Tail reserved (dotted id words ++ tail) := by
  induction words generalizing id with
  | nil => exact h
  | cons word words ih =>
    obtain ⟨hword, hwords⟩ := List.forall_mem_cons.1 hwords
    exact .word rfl hword.isWord_ofWord (ih hwords (id + 2))

end Link

/-- A name by its tokens, which are a dot or words with dots between and perhaps around them. -/
theorem IsName.exists_name {reserved : Bool} {name : String} (h : IsName reserved name) :
    ∃ phrase : Phrase.Name reserved, phrase.words.text = name := by
  have hdot : Spells Link.dot.kind Link.dot.raw.toList :=
    show Spells (.punct .dot) ".".toList from .punct .dot
  have htext : ∀ {words : DottedName}, Link.spelled words.links = name.toList → words.text = name :=
    fun {words} h => String.toList_inj.1 (words.toList_text.trans h)
  rcases h with ⟨lead, first, words, trail, hlead, htrail, hwords, rfl⟩ | rfl
  · obtain ⟨hfirst, hwords⟩ := List.forall_mem_cons.1 hwords
    let head : Link := ⟨0, .ofWord first, first, .start⟩
    have hhead : Spells head.kind head.raw.toList := hfirst.isSegment.spells
    -- The tokens behind the first word: those of the other words, and a dot if one ends the name.
    obtain ⟨tail, hshape, hspells, hspelled⟩ : ∃ tail, DottedName.Tail reserved tail ∧
        (∀ link ∈ tail, Spells link.kind link.raw.toList) ∧
        first.toList ++ Link.spelled tail = (qualified first words ++ trail).toList := by
      have hsegments := Link.spells_dotted (fun word hw => (hwords word hw).isSegment) 0
      have hspelled := Link.spelled_dotted first 0 words
      rcases (by simpa using htrail : trail = "" ∨ trail = ".") with rfl | rfl
      · refine ⟨_, Link.tail_dotted_append hwords .nil 0, by simpa using hsegments, ?_⟩
        simpa using hspelled
      · refine ⟨_, Link.tail_dotted_append hwords (.dot (show Link.dot.kind = _ from rfl)) 0,
          ?_, ?_⟩
        · simpa [or_imp, forall_and] using ⟨hsegments, hdot⟩
        · rw [Link.spelled_append, ← List.append_assoc, hspelled]
          simp [Link.dot, Link.raw]
    rcases (by simpa using hlead : lead = "" ∨ lead = ".") with rfl | rfl
    · refine ⟨⟨⟨head, tail⟩, .inr ⟨hfirst.isWord_ofWord, hshape⟩,
        List.forall_mem_cons.2 ⟨hhead, hspells⟩⟩, htext ?_⟩
      rw [DottedName.links, Link.spelled_cons, String.empty_append]
      exact hspelled
    · refine ⟨⟨⟨.dot, head :: tail⟩, .inl (.word rfl hfirst.isWord_ofWord hshape),
        List.forall_mem_cons.2 ⟨hdot, List.forall_mem_cons.2 ⟨hhead, hspells⟩⟩⟩, htext ?_⟩
      rw [String.append_assoc, String.toList_append, ← hspelled]
      simp [DottedName.links, Link.dot, Link.raw, head]
  · refine ⟨⟨⟨.dot, []⟩, .inl (.dot rfl), List.forall_mem_singleton.2 hdot⟩, htext ?_⟩
    simp [DottedName.links, Link.dot, Link.raw]

namespace Annotation

/-- What an annotation says, wherever it stands. -/
def content (node : Annotation) : String × String × String := (node.name, node.value, node.raw)

/-- The annotation is written as a name, an equals sign and a string, with blanks and comments between
them. -/
inductive Renders : Annotation → List Char → Prop
  | intro {name : String} {gap gap' body : List Char} {quote : Char} {span : Span}
      (hname : IsName false name) (hgap : IsTrivia gap) (hgap' : IsTrivia gap')
      (hq : quote = '"' ∨ quote = '\'') (hb : ∀ c ∈ body, c ≠ quote ∧ isLineBreak c = false) :
      Renders ⟨span, name, String.ofList body, String.ofList (quote :: (body ++ [quote]))⟩
        (name.toList ++ (gap ++ '=' :: (gap' ++ quote :: (body ++ [quote]))))

/-- Annotations and the parenthesis that closes them. If they are `separated`, a comma or a semicolon
stands between any two. -/
inductive RendersList (separated : Bool) : List Annotation → List Char → Prop
  | nil {gap : List Char} (hgap : IsTrivia gap) : RendersList separated [] (gap ++ [')'])
  | cons {item : Annotation} {items : List Annotation} {gap raw separator text : List Char}
      (hgap : IsTrivia gap) (hitem : item.Renders raw) (hseparator : IsSeparator separator)
      (hbetween : separated = true → items ≠ [] → separator ≠ [])
      (h : RendersList separated items text) :
      RendersList separated (item :: items) (gap ++ (raw ++ (separator ++ text)))

/-- Where two annotations are separated there is a comma or a semicolon. -/
theorem RendersList.exists_separator {a b : Annotation} {items : List Annotation} {text : List Char}
    (h : RendersList true (a :: b :: items) text) : ',' ∈ text ∨ ';' ∈ text := by
  cases h with
  | cons hgap hitem hseparator hbetween h =>
    cases hseparator with
    | absent => exact absurd rfl (hbetween rfl (by simp))
    | mark hgap' hc => rcases hc with rfl | rfl <;> simp

end Annotation

/-! ## From tokens to a text -/

namespace Phrase

variable {links : List Link} {xs : List Terminal} {rest : List Char}

/-- The tokens of an annotation spell a rendering of it. -/
theorem Annotation.rendered (phrase : Annotation) (hlexed : Link.Lexed links rest)
    (hlaid : Laid rest (phrase.terminals ++ xs) links) :
    ∃ gap own tail, links = gap ++ (own ++ tail) ∧ IsTrivia (Link.spelled gap) ∧
      phrase.node.Renders (Link.spelled own) ∧ Link.Lexed tail rest ∧ Laid rest xs tail := by
  rw [terminals, List.append_assoc, List.append_assoc] at hlaid
  obtain ⟨gap, links, rfl, hgap, hlexed, -, hlaid⟩ :=
    hlaid.exists_front hlexed phrase.name.starts.ne_endOfInput
  obtain ⟨gap', links, rfl, hgap', -, hlexed, hlaid⟩ :=
    Laid.exists_token hlaid (Link.lexed_append.1 hlexed).2 (by simp [phrase.equals.fits])
  obtain ⟨gap'', tail, rfl, hgap'', -, hlexed, hlaid⟩ :=
    Laid.exists_token hlaid hlexed (by simp [phrase.literal.fits])
  refine ⟨gap, phrase.name.words.links ++ (gap' ++ phrase.equals.link ::
    (gap'' ++ [phrase.literal.link])), tail, by simp, hgap, ?_, hlexed, hlaid⟩
  obtain ⟨quote, body, hq, hb, hraw, hvalue⟩ := phrase.literal.exists_quoted
  have hstring : phrase.literal.link.raw = String.ofList (quote :: (body ++ [quote])) := by
    rw [← hraw, String.ofList_toList]
  have hname := phrase.name.shaped.isQualified.imp_right And.left
  rw [node, hvalue, hstring]
  simp only [Link.spelled_append, Link.spelled_cons, Link.spelled_nil, hraw,
    phrase.equals.spelled_mark, ← DottedName.toList_text]
  simpa [Punct.char] using ThriftSyntax.Annotation.Renders.intro hname hgap' hgap'' hq hb

/-- The tokens of annotations, with the parenthesis that closes them. -/
theorem Annotations.rendered_list {items : List (Separated Annotation)}
    {closing : Mark .rightParen} (hlexed : Link.Lexed links rest)
    (hlaid : Laid rest (items.flatMap (·.terminals Annotation.terminals) ++
      (closing.terminals ++ xs)) links) :
    ∃ own tail, links = own ++ tail ∧ ThriftSyntax.Annotation.RendersList false
      (items.map (·.phrase.node)) (Link.spelled own) := by
  induction items generalizing links with
  | nil =>
    obtain ⟨gap, tail, rfl, hgap, -⟩ :=
      Laid.exists_token hlaid hlexed (by simp [closing.fits])
    refine ⟨gap ++ [closing.link], tail, by simp, ?_⟩
    rw [Link.spelled_append, Link.spelled_cons, closing.spelled_mark]
    exact .nil hgap
  | cons item items ih =>
    rw [List.flatMap_cons, Separated.terminals, List.append_assoc, List.append_assoc] at hlaid
    obtain ⟨gap, own, links, rfl, hgap, hitem, hlexed, hlaid⟩ := item.phrase.rendered hlexed hlaid
    obtain ⟨mark, links, rfl, hmark, hlexed, hlaid⟩ := isSeparator hlexed hlaid
    obtain ⟨others, tail, rfl, hothers⟩ := ih hlexed hlaid
    refine ⟨gap ++ (own ++ (mark ++ others)), tail, by simp, ?_⟩
    simp only [Link.spelled_append]
    exact .cons hgap hitem hmark (by simp) hothers

end Phrase

/-! ## From a text to tokens -/

namespace Annotation

/-- A rendering is cut into the tokens of an annotation that says the same. -/
theorem Renders.exists_phrase {item : Annotation} {raw : List Char} (h : item.Renders raw)
    (rest : List Char) : ∃ (phrase : Phrase.Annotation) (own : List Link),
      Cut phrase.terminals raw rest own ∧ phrase.node.content = item.content := by
  cases h with
  | @intro name gap gap' body quote span hname hgap hgap' hq hb =>
    obtain ⟨phrase, rfl⟩ := hname.exists_name
    have hspells : Spells .string (String.ofList (quote :: (body ++ [quote]))).toList := by
      rw [String.toList_ofList]
      exact .string hq hb
    let literal : Phrase.Literal :=
      ⟨⟨0, .string, String.ofList (quote :: (body ++ [quote])), .start⟩, hspells, rfl⟩
    have hliteral : Cut literal.terminals (quote :: (body ++ [quote])) rest [literal.link] :=
      .token ⟨.string hq hb, trivial⟩ rfl
    obtain ⟨blanks, hblanks⟩ := Cut.gap hgap' ((quote :: (body ++ [quote])) ++ rest)
    obtain ⟨own, hown⟩ := Cut.name_mark phrase (.ofMark .equals) rfl hgap
      (gap' ++ ((quote :: (body ++ [quote])) ++ rest))
    have hcut := hown.append (hblanks.append hliteral rfl) (by simp)
    refine ⟨⟨phrase, .ofMark .equals, literal⟩, own ++ (blanks ++ [literal.link]), ?_, ?_⟩
    · rw [← DottedName.toList_text] at hcut
      simpa [Phrase.Annotation.terminals, Punct.char] using hcut
    · simp [content, Phrase.Annotation.node, literal, Token.value, Link.raw]

theorem RendersList.exists_phrase {separated : Bool} {items : List Annotation} {raw : List Char}
    (h : RendersList separated items raw) (rest : List Char) :
    ∃ (phrases : List (Phrase.Separated Phrase.Annotation)) (closing : Phrase.Mark .rightParen)
      (own : List Link), Cut (phrases.flatMap (·.terminals Phrase.Annotation.terminals) ++
        closing.terminals) raw rest own ∧
      (phrases.map (·.phrase.node)).map content = items.map content ∧
      own.getLast? = some closing.link := by
  induction h with
  | @nil gap hgap =>
    obtain ⟨own, hown⟩ := Cut.gap hgap ([')'] ++ rest)
    exact ⟨[], .ofMark .rightParen, _, hown.append (.mark (.ofMark .rightParen) rest) rfl, rfl,
      by simp⟩
  | cons hgap hitem hseparator _ _ ih =>
    obtain ⟨phrases, closing, others, hphrases, hcontent, hlast⟩ := ih
    obtain ⟨found, mark, hmark⟩ := hseparator.exists_cut _
    obtain ⟨phrase, own, hphrase, hitem⟩ := hitem.exists_phrase _
    obtain ⟨blanks, hblanks⟩ := Cut.gap hgap _
    refine ⟨⟨phrase, found⟩ :: phrases, closing, blanks ++ (own ++ (mark ++ others)), ?_, ?_, ?_⟩
    · simpa [Phrase.Separated.terminals] using
        hblanks.append (hphrase.append (hmark.append hphrases rfl) rfl) rfl
    · rw [List.map_cons, List.map_cons, List.map_cons, hitem, hcontent]
    · simp [List.getLast?_append, hlast]

@[simp] theorem map_content_relabel (ids : Nat → Nat) (nodes : List Annotation) :
    (relabelAnnotations ids nodes).map content = nodes.map content := by
  rw [relabelAnnotations, List.map_map]
  rfl

end Annotation

namespace Grammar

open Parse Reader Annotation

variable {text gap raw rest : List Char} {items read : List Annotation} {separated : Bool}
  {after : Reader}

/-- Where a rendering of annotations comes first, annotations that say the same are read, and no more
than that. -/
theorem annotations_of_renders (htext : text = gap ++ '(' :: (raw ++ rest)) (hgap : IsTrivia gap)
    (h : RendersList separated items raw) :
    ∃ read after, annotations (.ofText text) = .ok read after ∧
      read.map content = items.map content ∧ after.unread = rest.length := by
  obtain ⟨phrases, closing, own, hcut, hcontent, hlast⟩ := h.exists_phrase rest
  let phrase : Phrase.Annotations := ⟨.ofMark .leftParen, phrases, closing⟩
  obtain ⟨blanks, hblanks⟩ := Cut.gap hgap ('(' :: (raw ++ rest))
  have hopening : Cut phrase.opening.terminals ['('] (raw ++ rest) [phrase.opening.link] :=
    .mark (.ofMark .leftParen) _
  have hwhole : Cut phrase.terminals (gap ++ '(' :: raw) rest
      (blanks ++ phrase.opening.link :: own) := hblanks.append (hopening.append hcut rfl) rfl
  have hclosing : (blanks ++ phrase.opening.link :: own).getLast? = some closing.link := by
    simp [List.getLast?_append, List.getLast?_cons, hlast]
  obtain ⟨read, after, hrun, hread, hunread⟩ := hwhole.exists_read hclosing
    (by rw [closing.fits]; rfl) (annotations_accepts phrase)
    (annotations_runs (steady_ofText _)).ne_stalled
  refine ⟨read, after, ?_, ?_, hunread⟩
  · rw [← hrun, htext]
    simp
  · have hmap := congrArg (List.map content) hread
    rw [map_content_relabel, map_content_relabel] at hmap
    exact hmap.trans hcontent

/-- What is read as annotations begins with a rendering of them. -/
theorem renders_of_annotations (h : annotations (.ofText text) = .ok read after) :
    ∃ gap raw rest, text = gap ++ '(' :: (raw ++ rest) ∧ IsTrivia gap ∧
      RendersList false read raw := by
  obtain ⟨phrase, rfl, hreads⟩ := annotations_sound (valid_ofText text) h
  obtain ⟨ys, hy⟩ := hreads.valid.faces_self
  obtain ⟨links, hb, hlaid⟩ := hreads.faces _ _ _ hy
  obtain rfl := hb.eq_all
  obtain ⟨htext, horder⟩ := before_ofText.1 hb
  rw [Phrase.Annotations.terminals, List.append_assoc, List.append_assoc] at hlaid
  obtain ⟨gap, links', hlinks, hgap, -, hlexed, hlaid⟩ :=
    Laid.exists_token hlaid horder.lexed (by simp [phrase.opening.fits])
  obtain ⟨own, tail, rfl, hrenders⟩ := Phrase.Annotations.rendered_list hlexed hlaid
  refine ⟨_, _, Link.spelled tail ++ after.cursor.rest, ?_, hgap, hrenders⟩
  simp [htext, hlinks, phrase.opening.spelled_mark, Punct.char]

theorem exists_of_content {contents : List (String × String × String)}
    (h : (annotations.run' (.ofText text)).map (·.map content) = some contents) :
    ∃ read after, annotations (.ofText text) = .ok read after ∧ read.map content = contents := by
  unfold EStateM.run' EStateM.run at h
  cases hrun : annotations (.ofText text) with
  | ok read after =>
    rw [hrun] at h
    exact ⟨read, after, rfl, Option.some.inj h⟩
  | error error after =>
    rw [hrun] at h
    cases h

/-- A text that is read as annotations begins with a rendering of them behind blanks and comments, in
which separators may be missing, and no more of it is read. Every rendering is read, and so is every one
with separators between any two annotations; the annotations that are read say what it says. -/
theorem annotations_exact (text : List Char) :
    (∀ read after, annotations (.ofText text) = .ok read after →
      ∃ gap raw rest, text = gap ++ '(' :: (raw ++ rest) ∧ IsTrivia gap ∧
        RendersList false read raw ∧ after.unread = rest.length) ∧
    ∀ separated items gap raw rest, text = gap ++ '(' :: (raw ++ rest) → IsTrivia gap →
      RendersList separated items raw →
      ∃ read after, annotations (.ofText text) = .ok read after ∧
        read.map content = items.map content ∧ after.unread = rest.length := by
  refine ⟨fun read after h => ?_, fun _ _ _ _ _ htext hgap h =>
    annotations_of_renders htext hgap h⟩
  obtain ⟨gap, raw, rest, htext, hgap, hrenders⟩ := renders_of_annotations h
  obtain ⟨read', after', h', -, hunread⟩ := annotations_of_renders htext hgap hrenders
  rw [h] at h'
  cases h'
  exact ⟨gap, raw, rest, htext, hgap, hrenders, hunread⟩

/-- A rendering without blanks that is read, and a text with blanks and comments that is a rendering
for it is read. -/
theorem annotations_exact_blanks :
    (∃ read after, annotations (.ofText "(a='x',)b".toList) = .ok read after ∧
      read.map content = [("a", "x", "'x'")] ∧ after.unread = 1) ∧
    ∃ gap raw rest read, "/**/( .a.b = 'x'# n\n; c = \"\" )".toList = gap ++ '(' :: (raw ++ rest) ∧
      IsTrivia gap ∧ RendersList false read raw ∧
      read.map content = [(".a.b", "x", "'x'"), ("c", "", "\"\"")] := by
  constructor
  · obtain ⟨-, hrenders⟩ := annotations_exact "(a='x',)b".toList
    have hname : IsName false "a" :=
      .inl ⟨"", "a", [], "", by simp, by simp,
        by simpa using .inl (.ident (by decide) (by simp) (by decide)), by simp [qualified]⟩
    have hitem : Renders ⟨default, "a", String.ofList ['x'], String.ofList ('\'' :: (['x'] ++ ['\'']))⟩
        ("a".toList ++ ([] ++ '=' :: ([] ++ '\'' :: (['x'] ++ ['\''])))) :=
      .intro hname .nil .nil (.inr rfl) (List.forall_mem_singleton.2 ⟨by decide, by decide⟩)
    exact hrenders true _ [] _ ['b'] rfl .nil
      (.cons .nil hitem (.mark .nil (.inl rfl)) (by simp) (.nil .nil))
  · have hcontent : (annotations.run' (.ofText "/**/( .a.b = 'x'# n\n; c = \"\" )".toList)).map
        (·.map content) = some [(".a.b", "x", "'x'"), ("c", "", "\"\"")] := by
      decide +kernel
    obtain ⟨read, after, h, hcontent⟩ := exists_of_content hcontent
    obtain ⟨hread, -⟩ := annotations_exact "/**/( .a.b = 'x'# n\n; c = \"\" )".toList
    obtain ⟨gap, raw, rest, htext, hgap, hrenders, -⟩ := hread read after h
    exact ⟨gap, raw, rest, read, htext, hgap, hrenders, hcontent⟩

/-- The text is read as two annotations, and no separator is between them. -/
theorem annotations_exact_unseparated :
    (∃ read after, annotations (.ofText "(a='x' b='y')".toList) = .ok read after ∧
      read.map content = [("a", "x", "'x'"), ("b", "y", "'y'")]) ∧
    ¬ ∃ gap raw rest items, "(a='x' b='y')".toList = gap ++ '(' :: (raw ++ rest) ∧ IsTrivia gap ∧
      RendersList true items raw := by
  have hcontent : (annotations.run' (.ofText "(a='x' b='y')".toList)).map (·.map content) =
      some [("a", "x", "'x'"), ("b", "y", "'y'")] := by
    decide +kernel
  obtain ⟨read, after, h, hread⟩ := exists_of_content hcontent
  refine ⟨⟨read, after, h, hread⟩, ?_⟩
  rintro ⟨gap, raw, rest, items, htext, hgap, hrenders⟩
  obtain ⟨read', after', h', hitems, -⟩ := annotations_of_renders htext hgap hrenders
  rw [h] at h'
  cases h'
  rw [hread] at hitems
  obtain ⟨a, items, rfl, -, hrest⟩ := List.map_eq_cons_iff.1 hitems.symm
  obtain ⟨b, items, rfl, -, -⟩ := List.map_eq_cons_iff.1 hrest
  have hmem : ',' ∈ "(a='x' b='y')".toList ∨ ';' ∈ "(a='x' b='y')".toList := by
    rw [htext]
    refine hrenders.exists_separator.imp ?_ ?_ <;> (intro hraw; simp [hraw])
  revert hmem
  decide

end Grammar

end ThriftSyntax
