import ThriftSyntax.Proofs.Layout.Cut
import ThriftSyntax.Proofs.Rendering.Tokens
import ThriftSyntax.Proofs.Session.Value

/-!
# Constant values are read exactly

A text is read as a constant value if and only if it begins with a rendering of it, blanks and comments
in front apart.
-/

namespace ThriftSyntax

open Lexeme

/-! ## From a text to tokens -/

open Link (Cut)

/-- A comma or a semicolon is cut off with what is before it. -/
theorem IsSeparator.exists_cut {raw : List Char} (h : IsSeparator raw) (rest : List Char) :
    ∃ (separator : Option Phrase.Separator) (own : List Link),
      Cut (Phrase.optional Phrase.Leaf.terminals separator) raw rest own := by
  cases h with
  | absent => exact ⟨none, [], rfl, trivial, fun _ hlaid => hlaid⟩
  | @mark gap c hgap hc =>
    obtain ⟨mark, hmark, rfl⟩ : ∃ mark : Punct, (mark = .comma ∨ mark = .semicolon) ∧
        mark.char = c := by
      rcases hc with rfl | rfl
      · exact ⟨.comma, .inl rfl, rfl⟩
      · exact ⟨.semicolon, .inr rfl, rfl⟩
    obtain ⟨own, hown⟩ := Cut.gap hgap ([mark.char] ++ rest)
    refine ⟨some ⟨(Phrase.Leaf.ofMark mark).link, (Phrase.Leaf.ofMark mark).spells, ?_⟩, _,
      hown.append (.mark (.ofMark mark) rest) rfl⟩
    rcases hmark with rfl | rfl
    · exact .inl rfl
    · exact .inr rfl

/-- A name is cut into its words and dots. -/
theorem IsReference.exists_name {raw rest : List Char} (h : IsReference raw)
    (hrest : ∀ c ∈ rest.head?, continuesWord c = false ∧ c ≠ '.') :
    ∃ reference : Phrase.Name false, reference.words.head.kind = .ident ∧
      reference.words.last.kind = .ident ∧ Cut reference.terminals raw rest reference.words.links := by
  suffices ∃ name : DottedName, Link.spelled name.links = raw ∧ name.head.kind = .ident ∧
      name.last.kind = .ident ∧ DottedName.Tail false name.tail ∧
      ∀ link ∈ name.links, Spells link.kind link.raw.toList by
    obtain ⟨name, hspelled, hhead, hlast, htail, hspells⟩ := this
    have hshaped : name.Shaped false := ⟨.inr ⟨by rw [hhead]; rfl, htail⟩, hspells⟩
    refine ⟨⟨name, hshaped⟩, hhead, hlast, hspelled, hshaped.lexed fun c hc => ?_, fun hback hlaid => ?_⟩
    · exact ⟨(hrest c hc).1, (hrest c hc).2⟩
    · refine .terminal (x := .name false name) hshaped.not_trivia ?_ hlaid
      simp only [Terminal.Ends, hlast, reduceCtorEq, if_false, ← hback]
      exact fun hc => (hrest '.' hc).2 rfl
  clear hrest
  have hraw : ∀ {word : List Char} {kind : Kind}, Spells kind word →
      Spells kind (Link.mk 0 ⟨kind, String.ofList word, .start⟩).raw.toList := by
    intro word kind h
    simpa [Link.raw] using h
  induction h with
  | @word word h =>
    exact ⟨⟨⟨0, .ident, String.ofList word, .start⟩, []⟩, by simp [DottedName.links, Link.raw], rfl,
      rfl, .nil, List.forall_mem_singleton.2 (hraw h)⟩
  | @dotted word text hw _ ih =>
    obtain ⟨⟨head, tail⟩, rfl, hhead, hlast, htail, hspells⟩ := ih
    refine ⟨⟨⟨0, .ident, String.ofList word, .start⟩,
      ⟨0, .punct .dot, String.ofList ['.'], .start⟩ :: head :: tail⟩, ?_, rfl, ?_, ?_, ?_⟩
    · simp [DottedName.links, Link.raw]
    · rwa [DottedName.last_cons, DottedName.last_cons]
    · refine .word rfl ?_ htail
      rw [show head.kind = .ident from hhead]
      rfl
    · exact List.forall_mem_cons.2 ⟨hraw hw, List.forall_mem_cons.2 ⟨hraw (.punct .dot), hspells⟩⟩

namespace ConstValue

variable {Spans : Span → List Char → List Char → Prop}

open Phrase.ConstValue (itemsTerminals entriesTerminals itemNodes entryNodes)

mutual

/-- A rendering is cut into the tokens of a value that says the same. -/
theorem RendersWith.exists_phrase : ∀ {value : ConstValue} {raw rest : List Char}
    (_ : value.RendersWith Spans raw rest), ∃ (phrase : Phrase.ConstValue) (own : List Link),
      Cut phrase.terminals raw rest own ∧ phrase.node.forget = value.forget ∧
      ∃ last, own.getLast? = some last ∧ last.kind.isTrivia = false
  | _, raw, _, .number h _ => by
    have hspells : Spells .number (String.ofList raw).toList := by simpa using h.spells
    refine ⟨.number ⟨⟨0, .number, String.ofList raw, .start⟩, hspells, rfl⟩, _, .token h rfl, ?_, _,
      rfl, rfl⟩
    have hform := hspells.form_eq
    rw [String.toList_ofList] at hform
    by_cases hdot : '.' ∈ raw
    · simp [Phrase.ConstValue.node, forget, relabel, Link.raw, hform, hdot, Span.relabel]
    · simp [Phrase.ConstValue.node, forget, relabel, Link.raw, hform, hdot, Span.relabel]
  | _, _, _, @RendersWith.string _ quote body _ _ hq hb _ => by
    have hspells : Spells .string (String.ofList (quote :: (body ++ [quote]))).toList := by
      rw [String.toList_ofList]
      exact .string hq hb
    refine ⟨.string ⟨⟨0, .string, String.ofList (quote :: (body ++ [quote])), .start⟩, hspells, rfl⟩, _,
      .token ⟨.string hq hb, trivial⟩ rfl, ?_, _, rfl, rfl⟩
    simp [Phrase.ConstValue.node, forget, relabel, Token.value, Span.relabel]
  | _, raw, rest, .name h hrest _ => by
    obtain ⟨reference, hhead, hlast, hcut⟩ := h.exists_name hrest
    refine ⟨.name reference ⟨hhead, hlast⟩, _, hcut, ?_, reference.words.last,
      reference.words.getLast?_links, by rw [hlast]; rfl⟩
    have htext : reference.words.text = String.ofList raw := by
      rw [← String.toList_inj, DottedName.toList_text, hcut.spelled, String.toList_ofList]
    simp [Phrase.ConstValue.node, forget, relabel, htext, Span.relabel]
  | _, _, rest, .list h _ => by
    obtain ⟨phrases, closing, own, hcut, hforget, hlast⟩ := h.exists_phrase
    refine ⟨.list (.ofMark .leftBracket) phrases closing, _,
      (Cut.mark (.ofMark .leftBracket) _).append hcut rfl, ?_, closing.link,
      by simp [List.getLast?_cons, hlast], by rw [closing.fits]; rfl⟩
    simp only [Phrase.ConstValue.node, forget, relabel, relabelItems_eq, Span.relabel]
    exact congrArg (list · _) hforget
  | _, _, _, .map h _ => by
    obtain ⟨phrases, closing, own, hcut, hforget, hlast⟩ := h.exists_phrase
    refine ⟨.map (.ofMark .leftBrace) phrases closing, _,
      (Cut.mark (.ofMark .leftBrace) _).append hcut rfl, ?_, closing.link,
      by simp [List.getLast?_cons, hlast], by rw [closing.fits]; rfl⟩
    simp only [Phrase.ConstValue.node, forget, relabel, relabelEntries_eq, Span.relabel]
    exact congrArg (map · _) hforget

theorem RendersItems.exists_phrase : ∀ {items : List ConstValue} {raw rest : List Char}
    (_ : RendersItems Spans items raw rest),
    ∃ (phrases : List (Phrase.Separated Phrase.ConstValue)) (closing : Phrase.Mark .rightBracket)
      (own : List Link), Cut (itemsTerminals phrases ++ closing.terminals) raw rest own ∧
      (itemNodes phrases).map forget = items.map forget ∧ own.getLast? = some closing.link
  | _, _, rest, .nil hgap => by
    obtain ⟨own, hown⟩ := Cut.gap hgap ([']'] ++ rest)
    exact ⟨[], .ofMark .rightBracket, _, hown.append (.mark (.ofMark .rightBracket) rest) rfl, rfl, by simp⟩
  | _, _, rest, .cons hgap hitem hseparator hitems => by
    obtain ⟨phrase, own, hphrase, hforget, -⟩ := hitem.exists_phrase
    obtain ⟨phrases, closing, others, hphrases, hforgets, hlast⟩ := hitems.exists_phrase
    obtain ⟨found, mark, hmark⟩ := hseparator.exists_cut _
    obtain ⟨blanks, hblanks⟩ := Cut.gap hgap _
    refine ⟨⟨phrase, found⟩ :: phrases, closing, blanks ++ (own ++ (mark ++ others)), ?_, ?_, ?_⟩
    · simpa [itemsTerminals] using
        hblanks.append (hphrase.append (hmark.append hphrases rfl) (by simp)) rfl
    · rw [itemNodes, List.map_cons, List.map_cons, hforget, hforgets]
    · simp [List.getLast?_append, hlast]

theorem RendersEntries.exists_phrase : ∀ {entries : List (ConstValue × ConstValue)}
    {raw rest : List Char} (_ : RendersEntries Spans entries raw rest),
    ∃ (phrases : List Phrase.ConstValue.Entry) (closing : Phrase.Mark .rightBrace)
      (own : List Link), Cut (entriesTerminals phrases ++ closing.terminals) raw rest own ∧
      (entryNodes phrases).map (fun entry => (entry.1.forget, entry.2.forget)) =
        entries.map (fun entry => (entry.1.forget, entry.2.forget)) ∧
      own.getLast? = some closing.link
  | _, _, rest, .nil hgap => by
    obtain ⟨own, hown⟩ := Cut.gap hgap (['\x7d'] ++ rest)
    exact ⟨[], .ofMark .rightBrace, _, hown.append (.mark (.ofMark .rightBrace) rest) rfl, rfl, by simp⟩
  | _, _, rest, .cons hgap hkey hgap' hgap'' hvalue hseparator hentries => by
    obtain ⟨key, own, hkey, hforget, -⟩ := hkey.exists_phrase
    obtain ⟨value, own', hvalue, hforget', -⟩ := hvalue.exists_phrase
    obtain ⟨phrases, closing, others, hphrases, hforgets, hlast⟩ := hentries.exists_phrase
    obtain ⟨found, mark, hmark⟩ := hseparator.exists_cut _
    obtain ⟨blanks, hblanks⟩ := Cut.gap hgap _
    obtain ⟨blanks', hblanks'⟩ := Cut.gap hgap' _
    obtain ⟨blanks'', hblanks''⟩ := Cut.gap hgap'' _
    refine ⟨(key, .ofMark .colon, ⟨value, found⟩) :: phrases, closing,
      blanks ++ (own ++ (blanks' ++ ((Phrase.Leaf.ofMark .colon).link ::
        (blanks'' ++ (own' ++ (mark ++ others)))))), ?_, ?_, ?_⟩
    · have htail := hblanks''.append (hvalue.append (hmark.append hphrases rfl) (by simp)) rfl
      have hcolon : ∀ back, Cut (Phrase.Leaf.ofMark .colon).terminals [':'] back
          [(Phrase.Leaf.ofMark .colon).link] := .mark (.ofMark .colon)
      have hmiddle := hblanks'.append ((hcolon _).append htail rfl) rfl
      simpa [entriesTerminals] using hblanks.append (hkey.append hmiddle (by simp)) rfl
    · rw [entryNodes, List.map_cons, List.map_cons, hforget, hforget', hforgets]
    · simp [List.getLast?_append, List.getLast?_cons, hlast]

end

mutual

/-- What is written is what a value says. -/
theorem RendersWith.renders : ∀ {value : ConstValue} {raw rest : List Char}
    (_ : value.RendersWith Spans raw rest) {other : ConstValue} (_ : other.forget = value.forget),
    other.Renders raw rest
  | _, _, _, .number h _, other, heq => by
    cases other with
    | scalar form text span =>
      simp only [forget, relabel, scalar.injEq] at heq
      obtain ⟨rfl, rfl, -⟩ := heq
      exact .number h trivial
    | list | map => simp [forget, relabel] at heq
  | _, _, _, .string hq hb _, other, heq => by
    cases other with
    | scalar form text span =>
      simp only [forget, relabel, scalar.injEq] at heq
      obtain ⟨rfl, rfl, -⟩ := heq
      exact .string hq hb trivial
    | list | map => simp [forget, relabel] at heq
  | _, _, _, .name h hrest _, other, heq => by
    cases other with
    | scalar form text span =>
      simp only [forget, relabel, scalar.injEq] at heq
      obtain ⟨rfl, rfl, -⟩ := heq
      exact .name h hrest trivial
    | list | map => simp [forget, relabel] at heq
  | _, _, _, .list h _, other, heq => by
    cases other with
    | list items span =>
      simp only [forget, relabel, relabelItems_eq, list.injEq] at heq
      exact .list (h.renders heq.1) trivial
    | scalar | map => simp [forget, relabel] at heq
  | _, _, _, .map h _, other, heq => by
    cases other with
    | map entries span =>
      simp only [forget, relabel, relabelEntries_eq, map.injEq] at heq
      exact .map (h.renders heq.1) trivial
    | scalar | list => simp [forget, relabel] at heq

theorem RendersItems.renders : ∀ {items : List ConstValue} {raw rest : List Char}
    (_ : RendersItems Spans items raw rest) {others : List ConstValue}
    (_ : others.map forget = items.map forget),
    RendersItems (fun _ _ _ => True) others raw rest
  | _, _, _, .nil hgap, others, heq => by
    obtain rfl : others = [] := by simpa using heq
    exact .nil hgap
  | _, _, _, .cons hgap hitem hseparator h, others, heq => by
    obtain ⟨other, others, rfl, hother, hothers⟩ := List.map_eq_cons_iff.1 heq
    exact .cons hgap (hitem.renders hother) hseparator (h.renders hothers)

theorem RendersEntries.renders : ∀ {entries : List (ConstValue × ConstValue)} {raw rest : List Char}
    (_ : RendersEntries Spans entries raw rest) {others : List (ConstValue × ConstValue)}
    (_ : others.map (fun entry => (entry.1.forget, entry.2.forget)) =
      entries.map fun entry => (entry.1.forget, entry.2.forget)),
    RendersEntries (fun _ _ _ => True) others raw rest
  | _, _, _, .nil hgap, others, heq => by
    obtain rfl : others = [] := by simpa using heq
    exact .nil hgap
  | _, _, _, .cons hgap hkey hgap' hgap'' hvalue hseparator h, others, heq => by
    obtain ⟨⟨key, value⟩, others, rfl, hother, hothers⟩ := List.map_eq_cons_iff.1 heq
    obtain ⟨hkeys, hvalues⟩ := Prod.mk.inj hother
    exact .cons hgap (hkey.renders hkeys) hgap' hgap'' (hvalue.renders hvalues) hseparator
      (h.renders hothers)

end

end ConstValue

namespace Grammar

open Parse Reader

variable {Spans Spans' : Span → List Char → List Char → Prop}
variable {text gap gap' raw raw' rest rest' : List Char} {value value' read : ConstValue}
  {after : Reader}

/-- Where a rendering comes first, a value that says the same is read, and no more than that. -/
theorem constValue_of_renders (htext : text = gap ++ (raw ++ rest)) (hgap : IsTrivia gap)
    (h : value.RendersWith Spans raw rest) :
    ∃ read after, constValue (.ofText text) = .ok read after ∧ read.forget = value.forget ∧
      after.unread = rest.length := by
  obtain ⟨phrase, own, hcut, hforget, last, hlast, hk⟩ := h.exists_phrase
  obtain ⟨blanks, hblanks⟩ := Cut.gap hgap (raw ++ rest)
  have hwhole := hblanks.append hcut rfl
  obtain ⟨read, after, hrun, hread, hunread⟩ := hwhole.exists_read
    (by rw [List.getLast?_append, hlast, Option.some_or]) hk (constValue_accepts phrase)
    (constValue_runs (steady_ofText _)).ne_stalled
  rw [List.append_assoc, ← htext] at hrun
  exact ⟨read, after, hrun, hread.trans hforget, hunread⟩

/-- What is read as a value begins with a rendering of it, in the place of the span. -/
theorem renders_of_constValue (h : constValue (.ofText text) = .ok read after) :
    ∃ gap raw rest, text = gap ++ (raw ++ rest) ∧ IsTrivia gap ∧
      read.RendersWith (after.chain.Spans text) raw rest := by
  obtain ⟨phrase, rfl, hreads⟩ := constValue_sound (valid_ofText text) h
  obtain ⟨ys, hy⟩ := hreads.valid.faces_self
  obtain ⟨links, hb, hlaid⟩ := hreads.faces _ _ _ hy
  obtain rfl := hb.eq_all
  obtain ⟨htext, horder⟩ := before_ofText.1 hb
  obtain ⟨gap, own, tail, hlinks, hgap, hrenders, -⟩ :=
    phrase.rendered htext (List.nil_append _).symm horder.lexed hlaid
  refine ⟨_, _, _, ?_, hgap, hrenders⟩
  rw [htext, hlinks, Link.spelled_append, Link.spelled_append, List.append_assoc, List.append_assoc]

/-- A text begins with a rendering in one way only. -/
theorem renders_unique (htext : gap ++ (raw ++ rest) = gap' ++ (raw' ++ rest'))
    (hgap : IsTrivia gap) (hgap' : IsTrivia gap') (h : value.RendersWith Spans raw rest)
    (h' : value'.RendersWith Spans' raw' rest') :
    gap = gap' ∧ raw = raw' ∧ rest = rest' ∧ value.forget = value'.forget := by
  obtain ⟨read, after, hrun, hread, hunread⟩ := constValue_of_renders rfl hgap h
  obtain ⟨read', after', hrun', hread', hunread'⟩ := constValue_of_renders htext hgap' h'
  rw [hrun] at hrun'
  cases hrun'
  obtain ⟨rfl, hboth⟩ := hgap.unique hgap' htext h.starts h'.starts
  obtain ⟨rfl, rfl⟩ := List.append_inj' hboth (hunread.symm.trans hunread')
  exact ⟨rfl, rfl, rfl, hread.symm.trans hread'⟩

/-- A text is read as a value if and only if it begins with a rendering of it behind blanks and comments.
There is one such rendering only, and the tokens of the span, and of those of the values within, stand
just there. Any other text is refused, with an error about a place in it. -/
theorem constValue_exact (text : List Char) :
    (∀ value : ConstValue,
      (∃ read after, constValue (.ofText text) = .ok read after ∧ read.forget = value.forget) ↔
        ∃ gap raw rest, text = gap ++ (raw ++ rest) ∧ IsTrivia gap ∧ value.Renders raw rest) ∧
    (∀ read after, constValue (.ofText text) = .ok read after →
      ∃ gap raw rest, text = gap ++ (raw ++ rest) ∧ IsTrivia gap ∧
        read.RendersWith (after.chain.Spans text) raw rest ∧
        ∀ gap' raw' rest' value, text = gap' ++ (raw' ++ rest') → IsTrivia gap' →
          ConstValue.Renders value raw' rest' →
          gap' = gap ∧ raw' = raw ∧ rest' = rest ∧ value.forget = read.forget) ∧
    ((∀ gap raw rest value, text = gap ++ (raw ++ rest) → IsTrivia gap →
        ¬ ConstValue.Renders value raw rest) →
      ∃ error after, constValue (.ofText text) = .error error after ∧
        error.location?.isSome = true) := by
  refine ⟨fun value => ⟨?_, ?_⟩, fun read after h => ?_, fun hnone => ?_⟩
  · rintro ⟨read, after, hrun, hread⟩
    obtain ⟨gap, raw, rest, htext, hgap, h⟩ := renders_of_constValue hrun
    exact ⟨gap, raw, rest, htext, hgap, h.renders hread.symm⟩
  · rintro ⟨gap, raw, rest, htext, hgap, h⟩
    obtain ⟨read, after, hrun, hread, -⟩ := constValue_of_renders htext hgap h
    exact ⟨read, after, hrun, hread⟩
  · obtain ⟨gap, raw, rest, rfl, hgap, hrenders⟩ := renders_of_constValue h
    refine ⟨gap, raw, rest, rfl, hgap, hrenders, fun gap' raw' rest' value htext hgap' h' => ?_⟩
    exact renders_unique htext.symm hgap' hgap h' hrenders
  · cases hrun : constValue (.ofText text) with
    | ok read after =>
      obtain ⟨gap, raw, rest, htext, hgap, h⟩ := renders_of_constValue hrun
      exact absurd (h.renders rfl) (hnone gap raw rest read htext hgap)
    | error error after =>
      exact ⟨error, after, rfl, ((constValue_runs (steady_ofText text)).error error after hrun).located⟩

/-- Neighbours without a gap come apart by what each may be followed by, and a name may not end with a
dot, be it inside a list. -/
theorem constValue_exact_neighbours :
    (∃ gap raw rest value, "/* */[1-2.5a.b'x'3,\x7b4:5;\x7d]6".toList = gap ++ (raw ++ rest) ∧
      IsTrivia gap ∧ ConstValue.Renders value raw rest) ∧
    ¬ ∃ gap raw rest value, "[1, a.]".toList = gap ++ (raw ++ rest) ∧
      IsTrivia gap ∧ ConstValue.Renders value raw rest := by
  constructor
  · have hsome : (constValue.run'
        (.ofText "/* */[1-2.5a.b'x'3,\x7b4:5;\x7d]6".toList)).isSome = true := by decide +kernel
    obtain ⟨-, hok, -⟩ := constValue_exact "/* */[1-2.5a.b'x'3,\x7b4:5;\x7d]6".toList
    unfold EStateM.run' EStateM.run at hsome
    cases h : constValue (.ofText "/* */[1-2.5a.b'x'3,\x7b4:5;\x7d]6".toList) with
    | ok read after =>
      obtain ⟨gap, raw, rest, htext, hgap, hrenders, -⟩ := hok read after h
      exact ⟨gap, raw, rest, read, htext, hgap, hrenders.renders rfl⟩
    | error error after =>
      rw [h] at hsome
      cases hsome
  · rintro ⟨gap, raw, rest, value, h⟩
    obtain ⟨hiff, -⟩ := constValue_exact "[1, a.]".toList
    obtain ⟨read, after, hrun, -⟩ := (hiff value).2 ⟨gap, raw, rest, h⟩
    have hnone : (constValue.run' (.ofText "[1, a.]".toList)).isSome = false := by decide +kernel
    unfold EStateM.run' EStateM.run at hnone
    rw [hrun] at hnone
    cases hnone

end Grammar

end ThriftSyntax
