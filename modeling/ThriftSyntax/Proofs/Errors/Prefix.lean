import ThriftSyntax.Proofs.Layout.Cutting
import ThriftSyntax.Proofs.Reader.Slice
import ThriftSyntax.Proofs.Viability.Definition

/-!
# Errors at the first token that cannot go on

Where a token is refused, what stands before it can be completed: it is the front of a text that is read as
a document. In one case the completed text is refused too, for the named type that a type definition in it
gives another name.
-/

namespace ThriftSyntax

variable {xs ys : List Terminal} {link : Link} {front : List Link} {rest : List Char}

/-! ## What stands before a token -/

/-- The tokens `front` of a text that goes on with `rest` are those of the terminals `xs`, with blanks and
comments anywhere about them. -/
structure Link.Opens (xs : List Terminal) (front : List Link) (rest : List Char) : Prop where
  lexed : Lexed front rest
  ended : ∀ link ∈ front, link.kind ≠ .endOfInput
  significant : front.filter (fun link => !link.kind.isTrivia) = xs.flatMap Terminal.links
  fronts : Fronts xs front

/-- The text is cut at the token that comes next. -/
theorem Reader.ReadsTo.exists_front {text : List Char} (h : (Reader.ofText text).ReadsTo xs link)
    (hproper : ∀ x ∈ xs, x.Proper) :
    ∃ front rest, text = Link.spelled front ++ rest ∧
      byteSize (Link.spelled front) = link.location.offset ∧
      (link.kind = .endOfInput → rest = []) ∧ Link.Opens xs front rest := by
  obtain ⟨between, after, hreads, htook, hk⟩ := h
  obtain ⟨htext, horder, hlaid⟩ := hreads.laid_chain htook hk
  generalize after.chain.links = links at htext horder hlaid
  generalize after.cursor.rest = rest at htext horder hlaid
  obtain ⟨front, back, rfl, hback, hends, -, hfronts⟩ := hlaid.cut
    (fun link hl => (horder.spells link hl).ne_nil) fun x hx => (hproper x hx).ne_endOfInput
  obtain ⟨gap, tail, rfl, hgap, -, -, htail⟩ := hback.exists_gap
  rw [Terminal.links_token, List.singleton_append, ← List.append_assoc] at htext horder
  have hspells := horder.spells
  obtain ⟨_, -, -, hlex, -⟩ := horder.of_append
  refine ⟨front ++ gap, Link.spelled (link :: tail) ++ rest, ?_, horder.offset_eq.symm,
    fun hend => ?_, (Link.lexed_append.1 horder.lexed).1, ?_, ?_, ?_⟩
  · rw [htext, Link.spelled_append, List.append_assoc]
  · -- Nothing comes after the end of the input, which has no text itself.
    rw [hend] at hlex
    rw [Link.spelled_cons, hlex.spells.eq_nil, List.nil_append]
    exact hlex.ends
  · rintro blank hb
    rcases List.mem_append.1 hb with hb | hb
    · exact hends blank hb
    · exact Parse.ne_endOfInput_of_trivia (hgap blank hb)
  · have hgap' : gap.filter (fun link => !link.kind.isTrivia) = [] :=
      List.filter_eq_nil_iff.2 fun blank hb => by simp [hgap blank hb]
    have hsignificant := hlaid.significant
    rw [List.filter_append, hback.significant, List.flatMap_append] at hsignificant
    rw [List.filter_append, hgap', List.append_nil]
    exact List.append_cancel_right hsignificant
  · exact hfronts.gap hgap fun blank hb => hspells blank (by simp [hb])

/-- Where a text was cut, other terminals may follow on the next line. -/
theorem Link.Opens.exists_links (h : Opens xs front rest) (hproper : ∀ y ∈ ys, y.Proper)
    (hfits : ys.IsChain Terminal.Fits) :
    ∃ text links, Lexed links [] ∧ Laid [] (xs ++ (ys ++ Phrase.Leaf.ofEnd.terminals)) links ∧
      spelled links = (String.ofList (spelled front ++ text)).toList := by
  obtain ⟨back, hback, hlexed, hlaid⟩ :=
    (Layout.spaced ys Phrase.Leaf.ofEnd).exists_links_ending hproper hfits
  obtain ⟨gap, htext, hgap, hgaplexed⟩ := (IsTrivia.blank .lineFeed .nil).exists_gap
  obtain ⟨blank, gap, rfl⟩ : ∃ blank blanks, gap = blank :: blanks :=
    List.exists_cons_of_ne_nil (by rintro rfl; cases htext)
  have hspelled : spelled (blank :: gap ++ back) = '\n' :: Terminal.spaced ys := by
    rw [spelled_append, htext, hback]
    rfl
  refine ⟨spelled (blank :: gap ++ back), front ++ (blank :: gap ++ back),
    lexed_append.2 ⟨?_, lexed_append.2 ⟨hgaplexed _, hlexed⟩⟩,
    h.fronts (fun x _ => ?_) (hlaid.of_gap hgap), ?_⟩
  · rw [hspelled]
    exact h.lexed.extend h.ended (by decide) (Lexeme.halts_blank .lineFeed)
  · exact x.ends_of_trivia (hgap blank List.mem_cons_self) (hgaplexed []).1.spells
  · rw [String.toList_ofList, spelled_append]

namespace Phrase

theorem NamedAlias.tidy (phrase : NamedAlias) : Tidy (phrase.word.terminals ++ phrase.type.terminals) :=
  (tidy_word phrase.word).append (tidy_fieldType phrase.type)

theorem DocumentBegun.proper {trailing : TrailingSeparator} (h : DocumentBegun trailing xs) :
    ∀ x ∈ xs, x.Proper := by
  obtain ⟨definitions, -, hxs | ⟨phrase, rfl⟩⟩ := h
  · exact fun x hx => (tidy_definitions definitions).proper x (hxs.mem hx)
  · exact List.forall_mem_append.2 ⟨(tidy_definitions definitions).proper,
      fun x hx => phrase.tidy.proper x (phrase.terminals_prefix.mem hx)⟩

end Phrase

/-! ## Type definitions of named types -/

namespace Grammar

open Parse Reader Phrase

variable {s : Setting}

/-- The run has failed for the named type `name`, or has stalled. -/
inductive Disallows {α : Type} (name : String) : Result α → Prop where
  | named {place : Location} {after : Reader} : Disallows name (.error (.namedTypedef name place) after)
  | stalled {after : Reader} : Disallows name (.error .stalled after)

namespace Disallows

variable {α β : Type} {p : Parse α} {f : α → Parse β} {name : String} {reader : Reader}

theorem exists_place {x : Result α} (h : Disallows name x) (hx : ∀ after, x ≠ .error .stalled after) :
    ∃ place after, x = .error (.namedTypedef name place) after := by
  cases h with
  | named => exact ⟨_, _, rfl⟩
  | stalled => exact absurd rfl (hx _)

theorem bind (h : Disallows name (p reader)) : Disallows name ((p >>= f) reader) := by
  generalize hrun : p reader = x at h
  rw [show (p >>= f) reader = EStateM.bind p f reader from rfl, EStateM.bind, hrun]
  cases h with
  | named => exact .named
  | stalled => exact .stalled

theorem map {g : α → β} (h : Disallows name (p reader)) : Disallows name ((g <$> p) reader) := by
  rw [map_eq_pure_bind]
  exact h.bind

theorem of_attains {Post : α → Reader → Prop} (h : Attains Post (p reader))
    (hf : ∀ {a between}, Post a between → Disallows name (f a between)) :
    Disallows name ((p >>= f) reader) := by
  obtain ⟨a, between, hrun, ha⟩ | ⟨between, hrun⟩ := h.cases_run
  · rw [bind_of_ok hrun]
    exact hf ha
  · rw [bind_eq_error.2 (.inl hrun)]
    exact .stalled

theorem repeatUntil {step : Parse (α ⊕ β)} (h : Disallows name (step reader.round)) :
    Disallows name (repeatUntil step reader) := by
  generalize hrun : step reader.round = x at h
  rw [repeatUntil_apply, hrun]
  cases h with
  | named => exact .named
  | stalled => exact .stalled

theorem repeatUntil_next {step : Parse (α ⊕ β)} {a : α} {between : Reader}
    (hrun : step reader.round = .ok (.inl a) between) (hlt : between.unread < reader.unread)
    (h : Disallows name (Parse.repeatUntil step between)) :
    Disallows name (Parse.repeatUntil step reader) := by
  generalize hrest : Parse.repeatUntil step between = x at h
  cases h with
  | named => exact repeatUntil_next_fails hrun hlt hrest ▸ .named
  | stalled => exact repeatUntil_next_fails hrun hlt hrest ▸ .stalled

end Disallows

/-- A named type gets no other name once it is read. -/
theorem aliasedType_disallows {reader : Reader} {name : String}
    (h : Attains (fun type _ => ∃ span annotations, type = .named name span annotations)
      (fieldType reader)) : Disallows name (aliasedType reader) := by
  refine .of_attains h fun {_ between} ⟨span, annotations, htype⟩ => ?_
  subst htype
  dsimp only
  obtain ⟨first, -, -, hfirst⟩ | hstalled := token_or span.first between
  · rw [bind_of_ok hfirst]
    exact .named
  · rw [bind_eq_error.2 (.inl hstalled)]
    exact .stalled

/-- So the type definition is refused. -/
theorem definitionStep_disallows {options : Options} (phrase : NamedAlias) (ending : Ending)
    {reader : Reader}
    (hr : reader.Awaits s (phrase.word.terminals ++ (phrase.type.terminals ++ ending.terminals))) :
    Disallows phrase.name.words.text (definitionStep options reader.round) := by
  have hword := phrase.word.fits
  have hkeyword : phrase.word.link.kind.isWord true = true := by rw [hword]; rfl
  have hparenthesis : ending.link.kind ≠ .punct .leftParen := by simp [ending.fits]
  refine .of_attains (accepts_takeSignificant (Kind.plain_of_isWord hkeyword)
    (Kind.ne_endOfInput_of_isWord hkeyword) reader.round hr.round) fun {head start} ⟨hhead, hstart⟩ => ?_
  rw [if_neg (hhead.kind ▸ Kind.ne_endOfInput_of_isWord hkeyword)]
  refine Disallows.map ?_
  unfold definition
  rw [hhead.kind, hword]
  refine Disallows.map (Disallows.bind (aliasedType_disallows ?_))
  refine (fieldType_accepts (x := .token ending.link) phrase.type hparenthesis trivial start
    hstart).mono fun {node _} ⟨hnode, _⟩ => ?_
  obtain ⟨span, annotations, htype⟩ := phrase.node_type
  rw [htype] at hnode
  cases node with
  | named name _ _ =>
    obtain ⟨rfl, -⟩ := FieldType.named.inj hnode
    exact ⟨_, _, rfl⟩
  | _ => cases hnode

/-- Whatever definitions come before it. -/
theorem document_disallows {options : Options} (phrase : NamedAlias) (ending : Ending)
    (definitions : List Phrase.Definition)
    (hallowed : ∀ definition ∈ definitions, definition.Allowed options.namespaceTrailing)
    {reader : Reader} (hr : reader.Awaits s (definitions.flatMap Phrase.Definition.terminals ++
      (phrase.word.terminals ++ (phrase.type.terminals ++ ending.terminals)))) :
    Disallows phrase.name.words.text (document options reader) := by
  rw [document_eq]
  refine Disallows.bind ?_
  induction definitions generalizing reader with
  | nil =>
    exact .repeatUntil (definitionStep_disallows phrase ending hr)
  | cons definition definitions ih =>
    obtain ⟨hdefinition, hallowed⟩ := List.forall_mem_cons.1 hallowed
    have hnext : Next Kind.Fresh
        (phrase.word.terminals ++ (phrase.type.terminals ++ ending.terminals)) :=
      ⟨.token phrase.word.link, _, rfl, .of_isWord (by rw [Terminal.head_token, phrase.word.fits]; rfl)⟩
    rw [List.flatMap_cons, List.append_assoc] at hr
    obtain ⟨_, between, hstep, node, rfl, hlt, -, hbetween⟩ | ⟨after, hstep⟩ :=
      (definitionStep_accepts definition hdefinition (next_definitions definitions hnext) hr).cases_run
    · exact .repeatUntil_next hstep hlt (ih hallowed hbetween)
    · rw [repeatUntil_fails hstep]
      exact .stalled

end Grammar

/-! ## Completed texts -/

namespace SyntaxTree

variable {options : Options}

/-- The text is cut into the tokens of whole definitions and of a type definition that goes as far as into
the annotations of the named type `name`. -/
def EndsInNamedAlias (text : List Char) (name : String) : Prop :=
  ∃ (links : List Link) (definitions : List Phrase.Definition) (phrase : Phrase.NamedAlias),
    Link.spelled links = text ∧ Link.Lexed links [] ∧
    links.filter (fun link => !link.kind.isTrivia) =
      (definitions.flatMap Phrase.Definition.terminals ++ phrase.terminals).flatMap Terminal.links ∧
    phrase.name.words.text = name

/-- The text goes on to one that is read, or to one that is refused only for the named type of a type
definition whose annotations it has begun. -/
def Completable (options : Options) (front : List Char) : Prop :=
  ∃ back, (∃ tree, ofText (String.ofList (front ++ back)) options = .ok tree) ∨
    ∃ name place, EndsInNamedAlias front name ∧
      ofText (String.ofList (front ++ back)) options = .error (.namedTypedef name place)

/-- The beginning of whole definitions is completed to them. -/
theorem completable_of_prefix {definitions : List Phrase.Definition}
    (hallowed : ∀ definition ∈ definitions, definition.Allowed options.namespaceTrailing)
    (hxs : xs <+: definitions.flatMap Phrase.Definition.terminals) (h : Link.Opens xs front rest) :
    Completable options (Link.spelled front) := by
  obtain ⟨ys, hys⟩ := hxs
  have htidy := Phrase.tidy_definitions definitions
  rw [← hys] at htidy
  obtain ⟨back, links, hlexed, hlaid, htext⟩ := h.exists_links
    (fun y hy => htidy.proper y (List.mem_append_right _ hy)) htidy.chain.right_of_append
  have hlaid : Laid [] (Phrase.Document.terminals ⟨definitions, .ofEnd⟩) links := by
    rwa [Phrase.Document.terminals, ← hys, List.append_assoc]
  have hallowed : Phrase.Document.Allowed options.namespaceTrailing ⟨definitions, .ofEnd⟩ := hallowed
  obtain ⟨tree, htree, -⟩ :=
    ofText_of_lexed (fun _ => 0) (fun _ => 0) hallowed hlexed hlaid htext fun _ _ => rfl
  exact ⟨_, .inl ⟨tree, htree⟩⟩

/-- The annotations of a named type are completed, and then the type is refused. -/
theorem completable_of_alias {definitions : List Phrase.Definition}
    (hallowed : ∀ definition ∈ definitions, definition.Allowed options.namespaceTrailing)
    (phrase : Phrase.NamedAlias)
    (h : Link.Opens (definitions.flatMap Phrase.Definition.terminals ++ phrase.terminals) front rest) :
    Completable options (Link.spelled front) := by
  obtain ⟨ys, hys⟩ := phrase.terminals_prefix
  have htidy := (Phrase.tidy_definitions definitions).append phrase.tidy
  rw [← hys, ← List.append_assoc] at htidy
  obtain ⟨back, links, hlexed, hlaid, htext⟩ := h.exists_links
    (fun y hy => htidy.proper y (List.mem_append_right _ hy)) htidy.chain.right_of_append
  rw [List.append_assoc, ← List.append_assoc phrase.terminals, hys, List.append_assoc] at hlaid
  have hawaits := hlexed.awaits (fun _ => 0) (fun _ => 0) hlaid htext fun _ _ => rfl
  obtain ⟨place, after, hrun⟩ := (Grammar.document_disallows phrase .ofEnd definitions hallowed
    hawaits).exists_place (Grammar.document_runs options (Reader.steady_ofText _)).ne_stalled
  refine ⟨_, .inr ⟨phrase.name.words.text, place, ?_, by rw [ofText, hrun]⟩⟩
  have hlexed : Link.Lexed front ([] ++ rest) := h.lexed
  exact ⟨front, definitions, phrase, rfl, hlexed.truncate, h.significant, rfl⟩

/-- A token is refused only where the text before it can be completed. That holds of the end of the input
too, so that a text that is refused for its end can be completed as it is. -/
theorem ofText_error_completable {text found : String} {expected : Expectation} {place : Location}
    (h : ofText text options = .error (.unexpectedToken found expected place)) :
    ∃ front rest, text.toList = front ++ rest ∧ byteSize front = place.offset ∧
      (found = "end of file" → rest = []) ∧ Completable options front := by
  unfold ofText at h
  cases hrun : Grammar.document options (.ofText text.toList) with
  | ok node after =>
    rw [hrun] at h
    cases h
  | error error after =>
    rw [hrun] at h
    cases h
    obtain ⟨xs, link, hreads, hlink, hbegun⟩ := Grammar.document_viable (Reader.valid_ofText _) hrun
    obtain ⟨front, rest, htext, hsize, hend, hopens⟩ := hreads.exists_front hbegun.proper
    refine ⟨Link.spelled front, rest, htext, hlink.location ▸ hsize,
      fun hfound => hend (hlink.ended hfound), ?_⟩
    obtain ⟨definitions, hallowed, hxs | ⟨phrase, rfl⟩⟩ := hbegun
    · exact completable_of_prefix hallowed hxs hopens
    · exact completable_of_alias hallowed phrase hopens

/-- The constant lacks its equals sign. -/
theorem ofText_error_completable_const :
    ∃ front rest, "const i32 a 1".toList = front ++ rest ∧ byteSize front = 12 ∧
      (("1" : String) = "end of file" → rest = []) ∧ Completable {} front := by
  have h : (ofText "const i32 a 1" {}).map (fun _ => ()) =
      .error (.unexpectedToken "1" (.mark .equals) ⟨12, 1, 13⟩) := by
    decide +kernel
  cases hrun : ofText "const i32 a 1" {} with
  | ok tree =>
    rw [hrun] at h
    cases h
  | error error =>
    rw [hrun] at h
    cases h
    exact ofText_error_completable hrun

/-- A type definition that was cut off within the annotations of a named type, and the same completed. -/
example :
    (ofText "typedef Foo (" {}).map (fun _ => ()) =
      .error (.unexpectedToken "end of file" .identifier ⟨13, 1, 14⟩) ∧
    (ofText "typedef Foo (\na = \"\")" {}).map (fun _ => ()) =
      .error ( Error.namedTypedef "Foo" ⟨8, 1, 9⟩) := by
  decide +kernel

end SyntaxTree

end ThriftSyntax
