import ThriftSyntax.Proofs.Layout.Cutting
import ThriftSyntax.Proofs.Legible
import ThriftSyntax.Proofs.Reindex

/-!
# Texts put together

`Link.Cut xs raw rest own` says that a text `raw` is cut into the tokens `own`, those of the terminals
`xs`, where `rest` comes after it. Such texts are put together one after the other, and a text that is
put together to a document is read.
-/

namespace ThriftSyntax

open Lexeme

/-- `own` are the tokens of `raw` where `rest` follows, and those of the terminals `xs`. -/
structure Link.Cut (xs : List Terminal) (raw rest : List Char) (own : List Link) : Prop where
  spelled : Link.spelled own = raw
  lexed : Link.Lexed own rest
  laid : ∀ {back : List Char} {ys : List Terminal} {tail : List Link},
    rest = Link.spelled tail ++ back → Laid back ys tail → Laid back (xs ++ ys) (own ++ tail)

namespace Phrase

/-- The same token with another number. -/
def Leaf.numbered {Fits : Kind → String → Prop} (leaf : Leaf Fits) (id : Nat) : Leaf Fits :=
  ⟨⟨id, leaf.link.token⟩, leaf.spells, leaf.fits⟩

/-- A token as a name. -/
def Name.ofLink {reserved : Bool} (link : Link) (hk : link.kind.isWord reserved = true)
    (h : Spells link.kind link.raw.toList) : Name reserved where
  words := ⟨link, []⟩
  shaped := ⟨.inr ⟨hk, .nil⟩, List.forall_mem_singleton.2 h⟩

end Phrase

/-- A space as a token. -/
def Link.space (id : Nat) : Link := ⟨id, .blank .space, " ", .start⟩

namespace Link.Cut

variable {xs ys : List Terminal} {raw raw' rest : List Char} {own own' : List Link}

theorem append {back : List Char} (h : Cut xs raw back own) (h' : Cut ys raw' rest own')
    (hback : back = raw' ++ rest) : Cut (xs ++ ys) (raw ++ raw') rest (own ++ own') where
  spelled := by rw [spelled_append, h.spelled, h'.spelled]
  lexed := lexed_append.2 ⟨by rw [h'.spelled, ← hback]; exact h.lexed, h'.lexed⟩
  laid hrest hlaid := by
    rw [List.append_assoc, List.append_assoc]
    refine h.laid ?_ (h'.laid hrest hlaid)
    rw [hback, spelled_append, h'.spelled, hrest, List.append_assoc]

theorem gap {gap : List Char} (h : IsTrivia gap) (rest : List Char) :
    ∃ own, Cut [] gap rest own := by
  obtain ⟨own, hspelled, hgap, hlexed⟩ := h.exists_gap
  exact ⟨own, hspelled, hlexed rest, fun _ hlaid => hlaid.of_gap hgap⟩

theorem space (id : Nat) (rest : List Char) : Cut [] [' '] rest [Link.space id] where
  spelled := by simp [Link.space, Link.raw]
  lexed := by
    have hraw : (Link.space id).raw.toList = [Blank.space.char] := by simp [Link.space, Link.raw, Blank.char]
    exact ⟨⟨hraw ▸ .blank .space, trivial⟩, trivial⟩
  laid _ hlaid := .gap rfl hlaid

/-- A token by itself. -/
theorem leaf {Fits : Kind → String → Prop} (leaf : Phrase.Leaf Fits)
    (hends : EndsBefore leaf.link.kind leaf.link.raw.toList rest)
    (hk : leaf.link.kind.isTrivia = false) :
    Cut leaf.terminals leaf.link.raw.toList rest [leaf.link] where
  spelled := by simp
  lexed := ⟨⟨leaf.spells, by simpa using hends⟩, trivial⟩
  laid _ hlaid := hlaid.of_token hk

theorem mark {mark : Punct} (leaf : Phrase.Mark mark) (rest : List Char) :
    Cut leaf.terminals [mark.char] rest [leaf.link] := by
  rw [← leaf.spelled_mark]
  exact .leaf leaf (by rw [leaf.fits]; trivial) (by rw [leaf.fits]; rfl)

theorem token {kind : Kind} (h : IsLexeme kind raw rest) (hk : kind.isTrivia = false) :
    Cut [.token ⟨0, kind, String.ofList raw, .start⟩] raw rest
      [⟨0, kind, String.ofList raw, .start⟩] where
  spelled := by simp [Link.raw]
  lexed := by simpa [Lexed, Link.raw, Link.kind] using h
  laid _ hlaid := hlaid.of_token hk

/-- A reserved word before anything that does not go on with it. -/
theorem word {word : Keyword} (leaf : Phrase.Word word)
    (hrest : ∀ c ∈ rest.head?, continuesWord c = false) :
    Cut leaf.terminals word.text.toList rest [leaf.link] := by
  rw [← leaf.spelled_word]
  exact .leaf leaf (by rw [leaf.fits]; exact hrest) (by rw [leaf.fits]; rfl)

/-- A name that ends with a word. -/
theorem name {reserved : Bool} (name : Phrase.Name reserved)
    (hlast : name.words.last.kind ≠ .punct .dot) (hrest : ∀ c ∈ rest.head?, Halts c) :
    Cut name.terminals (Link.spelled name.words.links) rest name.words.links where
  spelled := rfl
  lexed := name.shaped.lexed hrest
  laid hback hlaid := by
    refine .terminal (x := .name reserved name.words) name.shaped.not_trivia ?_ hlaid
    simp only [Terminal.Ends, hlast, if_false, ← hback]
    exact fun hc => (hrest '.' hc).point rfl

/-- A name, be it one that ends with a dot, before a mark that nothing runs together with. -/
theorem name_mark {reserved : Bool} (name : Phrase.Name reserved) {mark : Punct}
    (leaf : Phrase.Mark mark) (hmark : (Kind.punct mark).isDelimiter = true) {gap : List Char}
    (hgap : IsTrivia gap) (rest : List Char) :
    ∃ own, Cut (name.terminals ++ leaf.terminals)
      (Link.spelled name.words.links ++ (gap ++ [mark.char])) rest own := by
  obtain ⟨blanks, rfl, hblanks, hlexed⟩ := hgap.exists_gap
  have hhalts : ∀ c ∈ (Link.spelled blanks ++ ([mark.char] ++ rest)).head?, Halts c := by
    cases hspelled : Link.spelled blanks with
    | nil =>
      rintro _ ⟨⟩
      exact halts_mark hmark
    | cons c text =>
      have := halts_trivia hgap
      rwa [hspelled] at this
  have hcut := Cut.mark leaf rest
  refine ⟨name.words.links ++ (blanks ++ [leaf.link]), ?_, ?_, fun {back ys tail} _ hlaid => ?_⟩
  · rw [Link.spelled_append, Link.spelled_append, hcut.spelled]
  · refine lexed_append.2 ⟨name.shaped.lexed ?_, lexed_append.2 ⟨hlexed _, hcut.lexed⟩⟩
    rwa [Link.spelled_append, hcut.spelled, List.append_assoc]
  · have htoken : leaf.link.kind.isTrivia = false := by rw [leaf.fits]; rfl
    have hends : (Terminal.name reserved name.words).Ends (blanks ++ (leaf.link :: tail)) back := by
      cases blanks with
      | cons blank blanks =>
        exact Terminal.ends_of_trivia _ (hblanks blank List.mem_cons_self) (hlexed []).1.spells
      | nil =>
        refine Terminal.ends_of_plain _ (fun _ => by rw [leaf.fits]; rfl)
          (by rw [leaf.fits]; exact Parse.plain_punct mark _) ?_
        rw [Link.spelled_cons, leaf.spelled_mark]
        simpa using (halts_mark hmark).point
    simp only [List.append_assoc]
    exact .terminal name.shaped.not_trivia hends ((hlaid.of_token htoken).of_gap hblanks)

theorem ending (leaf : Phrase.Ending) : Cut leaf.terminals [] [] [leaf.link] := by
  have hspells := leaf.spells
  rw [leaf.fits] at hspells
  have hcut : Cut leaf.terminals leaf.link.raw.toList [] [leaf.link] := by
    refine .leaf leaf ?_ (by rw [leaf.fits]; rfl)
    rw [leaf.fits]
    exact rfl
  rwa [hspells.eq_nil] at hcut

/-- No terminal of the text goes on with what follows. -/
theorem whole (h : Cut xs raw rest own) : Laid rest xs own := by
  have hlaid : Laid rest (xs ++ []) (own ++ []) := h.laid rfl .nil
  rwa [List.append_nil, List.append_nil] at hlaid

/-- An action that accepts the terminals at the front of a text reads them, and leaves what comes
after them. -/
theorem exists_read {α : Type} {p : Parse α} {P : α → Prop} (h : Cut xs raw rest own)
    {last : Link} (hlast : own.getLast? = some last) (hk : last.kind.isTrivia = false)
    (hp : Parse.Accepts ⟨arrange 0 .start own rest, rest, fun _ => 0, fun _ => 0⟩ p (xs ++ []) [] P)
    (hstalled : ∀ after, p (.ofText (raw ++ rest)) ≠ .error .stalled after) :
    ∃ a after, p (.ofText (raw ++ rest)) = .ok a after ∧ P a ∧ after.unread = rest.length := by
  have hlaid : Laid rest (xs ++ []) own := by simpa using h.whole
  have htext : Link.spelled own ++ rest = raw ++ rest := by rw [h.spelled]
  obtain ⟨a, after, hrun, ha, hafter⟩ := (hp _ (h.lexed.awaits_front (fun _ => 0) (fun _ => 0) hlaid
    htext fun _ _ => rfl)).exists_ok hstalled
  refine ⟨a, after, hrun, ha, ?_⟩
  obtain ⟨found, halike, links, hbefore, hlaid⟩ := hafter.faces
  cases halike
  -- What is to come is trivia, and the last token of all is not.
  have hnil : links = [] := by
    by_contra hne
    obtain ⟨end', hend⟩ := Option.isSome_iff_exists.1 (List.getLast?_isSome.2 hne)
    obtain ⟨front, hfront⟩ := hbefore.suffix
    dsimp only at hfront
    have hall : ((arrange 0 .start own rest).map lexeme).getLast? =
        (own.map lexeme).getLast? := by rw [map_lexeme_arrange]
    rw [← hfront] at hall
    simp only [List.map_append, List.getLast?_append, List.getLast?_map, hend, hlast,
      Option.map_some, Option.some_or, Option.some.injEq] at hall
    have hkind : end'.kind = last.kind := congrArg Prod.fst hall
    rw [← hkind, hlaid.isGap end' (List.mem_of_getLast? hend)] at hk
    cases hk
  rw [hbefore.unread_eq, hnil]
  rfl

/-! A text with one more token, or a space, in front of it. -/

theorem cons_space (h : Cut xs raw rest own) (id : Nat) :
    Cut xs (' ' :: raw) rest (Link.space id :: own) :=
  (space id _).append h rfl

theorem cons_leaf {Fits : Kind → String → Prop} (h : Cut xs raw rest own) (leaf : Phrase.Leaf Fits)
    (hends : EndsBefore leaf.link.kind leaf.link.raw.toList (raw ++ rest))
    (hk : leaf.link.kind.isTrivia = false) :
    Cut (leaf.terminals ++ xs) (leaf.link.raw.toList ++ raw) rest (leaf.link :: own) :=
  (Cut.leaf leaf hends hk).append h rfl

theorem cons_mark (h : Cut xs raw rest own) {mark : Punct} (leaf : Phrase.Mark mark) :
    Cut (leaf.terminals ++ xs) (mark.char :: raw) rest (leaf.link :: own) :=
  (Cut.mark leaf _).append h rfl

theorem cons_word (h : Cut xs raw rest own) {word : Keyword} (leaf : Phrase.Word word)
    (hrest : ∀ c ∈ (raw ++ rest).head?, continuesWord c = false) :
    Cut (leaf.terminals ++ xs) (word.text.toList ++ raw) rest (leaf.link :: own) :=
  (Cut.word leaf hrest).append h rfl

end Link.Cut

/-- A text that is put together to a document is read, and its tokens are the ones put together. -/
theorem SyntaxTree.ofText_of_cut {text : String} {options : Options} {document : Phrase.Document}
    {links : List Link} (hallowed : document.Allowed options.namespaceTrailing)
    (hcut : Link.Cut document.terminals text.toList [] links) (old : Nat → Nat)
    (hids : ∀ {i link}, links[i]? = some link → link.kind.isTrivia = false → i = old link.id) :
    ∃ tree, ofText text options = .ok tree ∧
      tree.tokens.links.map Link.lexeme = links.map Link.lexeme ∧
      tree.document =
        Document.reindex tree.tokens ((document.node options.numbering).relabel old) := by
  obtain ⟨tree, htree, hlinks, hdocument⟩ :=
    ofText_of_arranged old id hallowed hcut.lexed hcut.whole hcut.spelled hids
  exact ⟨tree, htree, by rw [hlinks, Link.map_lexeme_arrange], document_eq_reindex htree hdocument⟩

end ThriftSyntax
