import ThriftSyntax.Proofs.Layout.Cutting
import ThriftSyntax.Proofs.TypedName.Text

/-!
# Texts that are types

What is read as a type as a whole is the terminals of a type, and then blanks and comments. Other text may
follow after a space, unless the last comment goes to the end of its line: then it takes in that text.
-/

namespace ThriftSyntax

open Lexeme

/-- The type that the whole of a text is read as, and its tokens: nothing but blanks and comments comes
before the end of the input. -/
def Grammar.wholeType? (text : List Char) : Option (FieldType × TokenChain) :=
  match fieldType (.ofText text) with
  | .ok type between =>
    match Parse.takeSignificant between with
    | .ok ending after => if ending.kind = .endOfInput then some (type, after.chain) else none
    | .error _ _ => none
  | .error _ _ => none

theorem Grammar.wholeType?_eq_some {text : List Char} {type : FieldType} {chain : TokenChain} :
    wholeType? text = some (type, chain) ↔ ∃ between ending after,
      fieldType (.ofText text) = .ok type between ∧ Parse.takeSignificant between = .ok ending after ∧
        ending.kind = .endOfInput ∧ after.chain = chain := by
  unfold wholeType?
  constructor
  · intro h
    split at h
    · split at h
      · split at h
        · obtain ⟨rfl, rfl⟩ := Prod.mk.inj (Option.some.inj h)
          exact ⟨_, _, _, ‹_›, ‹_›, ‹_›, rfl⟩
        · cases h
      · cases h
    · cases h
  · rintro ⟨between, ending, after, hrun, htake, hend, rfl⟩
    simp [hrun, htake, hend]

def FieldType.isList : FieldType → Bool
  | list .. => true
  | _ => false

/-- The type is a list, and the last of its tokens is the angle bracket after its element. -/
def FieldType.EndsBare (chain : TokenChain) (type : FieldType) : Prop :=
  type.isList = true ∧ ∃ link ∈ chain.links, link.id = type.span.last ∧ link.kind = .punct .greater

instance (chain : TokenChain) (type : FieldType) : Decidable (type.EndsBare chain) :=
  inferInstanceAs (Decidable (_ ∧ _))

namespace Link

variable {xs : List Terminal} {text rest : List Char} {front gap own own' : List Link}

theorem Numbered.append {id : Nat} (h : Numbered id own) (h' : Numbered (id + own.length) own') :
    Numbered id (own ++ own') := by
  induction own generalizing id with
  | nil => exact h'
  | cons link own ih =>
    refine ⟨h.1, ih h.2 ?_⟩
    rwa [show id + 1 + own.length = id + (link :: own).length by rw [List.length_cons]; omega]

theorem InOrder.numbered {id : Nat} {place : Location} (h : InOrder id place own rest) : Numbered id own := by
  induction own generalizing id place with
  | nil => trivial
  | cons link own ih => exact ⟨h.1, ih h.2.2.2⟩

theorem Numbered.of_append {id : Nat} (h : Numbered id (own ++ own')) : Numbered id own := by
  induction own generalizing id with
  | nil => trivial
  | cons link own ih => exact ⟨h.1, ih h.2⟩

theorem IsLineComment.exists_body {link : Link} (h : link.IsLineComment)
    (hs : Spells link.kind link.raw.toList) : ∃ opening body, link.raw.toList = opening ++ body ∧
      (opening = ['#'] ∨ opening = ['/', '/']) ∧ ∀ c ∈ body, isLineBreak c = false := by
  obtain ⟨hkind, hopen⟩ := h
  rw [hkind] at hs
  generalize link.raw.toList = raw at hs hopen
  cases hs with
  | lineComment ho hb => exact ⟨_, _, rfl, ho, hb⟩
  | blockComment hb => exact absurd ⟨_, rfl⟩ hopen

theorem IsLineComment.exists_head {link : Link} (h : link.IsLineComment)
    (hs : Spells link.kind link.raw.toList) :
    ∃ c text, link.raw.toList = c :: text ∧ (c = '#' ∨ c = '/') := by
  obtain ⟨opening, body, hraw, ho, -⟩ := h.exists_body hs
  rcases ho with rfl | rfl
  · exact ⟨'#', _, hraw, .inl rfl⟩
  · exact ⟨'/', _, hraw, .inr rfl⟩

/-- Such a comment may have more on its line. -/
theorem IsLineComment.spells_append {link : Link} {more : List Char} (h : link.IsLineComment)
    (hs : Spells link.kind link.raw.toList) (hmore : ∀ c ∈ more, isLineBreak c = false) :
    Spells .comment (link.raw.toList ++ more) := by
  obtain ⟨opening, body, hraw, ho, hb⟩ := h.exists_body hs
  rw [hraw, List.append_assoc]
  exact .lineComment ho (List.forall_mem_append.2 ⟨hb, hmore⟩)

/-- Only a line break stands behind it. -/
theorem not_lineComment_of_lexed {c : Char} (h : Lexed own (c :: text)) (hc : isLineBreak c = false) :
    ∀ link ∈ own.getLast?, ¬ link.IsLineComment := by
  intro link hl hcomment
  obtain ⟨front, rfl⟩ := List.getLast?_eq_some_iff.1 hl
  have hends := (lexed_append.1 h).2.1.ends
  rw [hcomment.1] at hends
  rcases hends with ⟨body, hbody⟩ | hbreak
  · exact hcomment.2 ⟨body, hbody.symm⟩
  · rw [hbreak c rfl] at hc
    cases hc

/-- The tokens of a text that is the terminals `xs`, with blanks and comments between and after them. -/
structure Covers (xs : List Terminal) (text : List Char) (front gap : List Link) : Prop where
  spelled : spelled (front ++ gap) = text
  numbered : Numbered 0 (front ++ gap)
  lexed : Lexed (front ++ gap) []
  spells : ∀ link ∈ front ++ gap, Spells link.kind link.raw.toList
  ended : ∀ link ∈ front ++ gap, link.kind ≠ .endOfInput
  fronts : Fronts xs front
  isGap : IsGap gap
  last : ∀ link ∈ front.getLast?, link.kind.isTrivia = false

namespace Covers

variable {comment : Link}

theorem fronts_gap (h : Covers xs text front (gap ++ own)) : Fronts xs (front ++ gap) :=
  Fronts.gap (fun {_ _ _} => h.fronts) (fun link hl => h.isGap link (List.mem_append_left _ hl))
    fun link hl => h.spells link (by simp [hl])

/-- Only a comment after the terminals can be open. -/
theorem not_lineComment (h : Covers xs text front gap)
    (hline : ∀ link ∈ gap.getLast?, ¬ link.IsLineComment) :
    ∀ link ∈ (front ++ gap).getLast?, ¬ link.IsLineComment := by
  intro link hl
  rw [List.getLast?_append] at hl
  cases hgap : gap.getLast? with
  | some other =>
    rw [hgap] at hl
    cases hl
    exact hline link hgap
  | none =>
    rw [hgap] at hl
    intro hcomment
    have hk := h.last link hl
    rw [hcomment.1] at hk
    cases hk

/-- Where none is, the tokens stay the same before a space. -/
theorem piece (h : Covers xs text front gap) (hline : ∀ link ∈ gap.getLast?, ¬ link.IsLineComment) :
    Piece xs (text ++ [' ']) (front ++ gap ++ [space (front ++ gap).length]) where
  numbered := h.numbered.append ⟨(Nat.zero_add _).symm, trivial⟩
  cut rest :=
    { spelled := by rw [spelled_append, h.spelled, (Cut.space _ rest).spelled]
      lexed := by
        have hspace := Cut.space (front ++ gap).length rest
        refine lexed_append.2 ⟨?_, hspace.lexed⟩
        rw [hspace.spelled]
        exact h.lexed.replace Phrase.halts_space (by simp) h.ended (h.not_lineComment hline)
      laid := fun {_ _ tail} _ hlaid => by
        rw [List.append_assoc]
        rw [← List.append_nil gap] at h
        exact h.fronts_gap (fun x _ => x.ends_of_trivia rfl (Cut.space _ []).lexed.1.spells)
          (.gap rfl hlaid) }

/-- A comment that is not closed takes in what comes after it, up to the end of the line. -/
theorem cut_comment {more : List Char} (h : Covers xs text front (gap ++ [comment]))
    (hline : comment.IsLineComment) (hmore : ∀ c ∈ more, isLineBreak c = false) (ending : Phrase.Ending) :
    ∃ own, Cut (xs ++ ending.terminals) (text ++ more) [] own := by
  have hspells := h.spells comment (by simp)
  obtain ⟨c, body, hraw, hc⟩ := hline.exists_head hspells
  have hassoc : front ++ (gap ++ [comment]) = front ++ gap ++ [comment] := (List.append_assoc ..).symm
  have hlexed := h.lexed
  have hspelled := h.spelled
  rw [hassoc] at hlexed hspelled
  have hbefore : Lexed (front ++ gap) (c :: body) := by
    have hbefore := (lexed_append.1 hlexed).1
    rwa [spelled_cons, hraw, spelled_nil, List.append_nil, List.append_nil] at hbefore
  have hlonger : Lexed (front ++ gap) (c :: (body ++ more)) := by
    refine hbefore.replace ?_ (List.cons_ne_nil _ _) (fun link hl => h.ended link ?_)
      (not_lineComment_of_lexed hbefore ?_)
    · rintro _ ⟨⟩
      rcases hc with rfl | rfl <;> exact ⟨by decide, by decide⟩
    · rw [hassoc]
      exact List.mem_append_left _ hl
    · rcases hc with rfl | rfl <;> decide
  have hcomment := hline.spells_append hspells hmore
  have hending := Cut.ending ending
  refine ⟨front ++ gap ++ ⟨0, .comment, String.ofList (comment.raw.toList ++ more), .start⟩ :: [ending.link],
    ?_, ?_, fun hrest hlaid => ?_⟩
  · rw [spelled_append, spelled_cons, hending.spelled, ← hspelled, spelled_append (front ++ gap)]
    simp [Link.raw]
  · refine lexed_append.2 ⟨?_, ⟨⟨?_, .inr ?_⟩, hending.lexed⟩⟩
    · rw [spelled_cons, hending.spelled]
      rw [← List.cons_append, ← hraw] at hlonger
      simpa [Link.raw] using hlonger
    · simpa [Link.raw, Link.kind] using hcomment
    · simp [hending.spelled]
  · rw [List.append_assoc, List.append_assoc]
    refine h.fronts_gap (fun x _ => x.ends_of_trivia rfl ?_) (.gap rfl (hending.laid hrest hlaid))
    simpa [Link.raw, Link.kind] using hcomment

end Covers

end Link

theorem TokenChain.kind_eq_of_id {chain : TokenChain} {link link' : Link} (h : link ∈ chain.links)
    (h' : link' ∈ chain.links) (hid : link.id = link'.id) : link.kind = link'.kind := by
  have htoken := get?_of_mem h
  rw [hid, get?_of_mem h'] at htoken
  exact congrArg Token.kind (Option.some.inj htoken).symm

/-- That a list ends with its angle bracket is seen by the last of its tokens. -/
theorem Phrase.FieldType.endsBare_iff {type : Phrase.FieldType} {chain : TokenChain}
    (hchain : ∀ x ∈ type.terminals, ∀ link ∈ x.links, link ∈ chain.links) :
    type.EndsBare ↔ type.node.EndsBare chain := by
  have hlink : ∀ link : Link, .token link ∈ type.terminals → link ∈ chain.links := fun link hl =>
    hchain _ hl _ List.mem_cons_self
  constructor
  · intro h
    cases type with
    | list word isList less element greater cppType annotations =>
      cases cppType <;> cases annotations <;> try exact h.elim
      exact ⟨rfl, greater.link, hlink _ (by simp [terminals, Leaf.terminals]), rfl, greater.fits⟩
    | _ => exact h.elim
  · rintro ⟨hlist, link, hl, hid, hk⟩
    cases type with
    | list word isList less element greater cppType annotations =>
      cases annotations with
      | some annotations =>
        have hclosing := hlink annotations.closing.link
          (by simp [terminals, Annotations.terminals, Leaf.terminals, Phrase.optional])
        have hkind := TokenChain.kind_eq_of_id hl hclosing hid
        rw [hk, annotations.closing.fits] at hkind
        cases hkind
      | none =>
        cases cppType with
        | none => trivial
        | some cppType =>
          have hliteral := hlink cppType.literal.link
            (by simp [terminals, CppType.terminals, Leaf.terminals, Phrase.optional])
          have hkind := TokenChain.kind_eq_of_id hl hliteral hid
          rw [hk, cppType.literal.fits] at hkind
          cases hkind
    | simple name names annotations =>
      unfold node ofName at hlist
      split at hlist <;> cases hlist
    | _ => cases hlist

namespace Grammar

/-- What is read as a type is the terminals of one, and no other. -/
theorem exists_covers {text : List Char} {type : FieldType} {chain : TokenChain}
    (h : wholeType? text = some (type, chain)) :
    ∃ (phrase : Phrase.FieldType) (front gap : List Link), phrase.node = type ∧
      Link.Covers phrase.terminals text front gap ∧ (phrase.EndsBare ↔ type.EndsBare chain) := by
  obtain ⟨between, ending, after, hrun, htake, hend, rfl⟩ := wholeType?_eq_some.1 h
  obtain ⟨phrase, rfl, hreads, -⟩ := fieldType_sound (Reader.valid_ofText text) hrun
  obtain ⟨_, hgapReads, htook, -, hk⟩ := Parse.takeSignificant_sound hreads.valid htake
  have hwhole := hreads.trans hgapReads
  rw [List.append_nil] at hwhole
  obtain ⟨htext, horder, hlaid⟩ := hwhole.laid_chain htook hk
  have hproper := (Phrase.tidy_fieldType phrase).proper
  refine ⟨phrase, ?_⟩
  have hmem : ∀ x ∈ phrase.terminals, ∀ link ∈ x.links, link ∈ after.chain.links :=
    fun x hx link hl => hlaid.mem_of_mem (List.mem_append_left _ hx) hl
  obtain ⟨front, back, hfront, hback, hends, hlast, hfronts⟩ := hlaid.cut
    (fun link hl => (horder.spells link hl).ne_nil) fun x hx => (hproper x hx).ne_endOfInput
  obtain ⟨gap, tail, rfl, hgap, -, -, htail⟩ := hback.exists_gap
  rw [Terminal.links_token, List.singleton_append, ← List.append_assoc] at hfront
  rw [hfront] at htext horder
  -- Nothing comes after the end of the input, which has no text itself.
  obtain ⟨_, -, -, hlex, -⟩ := horder.of_append
  have hnil := hlex.ends
  have hraw := hlex.spells
  rw [hend] at hnil hraw
  obtain ⟨htailNil, hrestNil⟩ := List.append_eq_nil_iff.1 hnil
  have hspelled : Link.spelled (front ++ gap) = text := by
    rw [htext, Link.spelled_append (front ++ gap), Link.spelled_cons, hraw.eq_nil, htailNil, hrestNil]
    simp
  have hlexed := horder.lexed
  rw [hrestNil] at hlexed
  refine ⟨front, gap, rfl, ⟨hspelled, horder.numbered.of_append, ?_, ?_, ?_, hfronts, hgap, ?_⟩,
    Phrase.FieldType.endsBare_iff hmem⟩
  · have hbefore := (Link.lexed_append.1 hlexed).1
    rwa [Link.spelled_cons, hraw.eq_nil, htailNil] at hbefore
  · exact fun link hl => horder.spells link (List.mem_append_left _ hl)
  · exact List.forall_mem_append.2 ⟨hends, fun link hl => Parse.ne_endOfInput_of_trivia (hgap link hl)⟩
  · rw [hlast]
    intro link hl
    obtain ⟨x, hx, hlx⟩ := List.mem_flatMap.1 (List.mem_of_getLast? hl)
    exact (hproper x hx).not_trivia link hlx

/-- Either the tokens of the type stay the same before a space, or a comment at the end of the text takes
in whatever comes after it on the line. -/
theorem exists_piece {text : List Char} {type : FieldType} {chain : TokenChain}
    (h : wholeType? text = some (type, chain)) :
    ∃ phrase : Phrase.FieldType, phrase.node = type ∧ (phrase.EndsBare ↔ type.EndsBare chain) ∧
      ((∃ own, Link.Piece phrase.terminals (text ++ [' ']) own) ∨
        ∀ more, (∀ c ∈ more, isLineBreak c = false) → ∀ ending : Phrase.Ending,
          ∃ own, Link.Cut (phrase.terminals ++ ending.terminals) (text ++ more) [] own) := by
  obtain ⟨phrase, front, gap, hnode, hcovers, hbare⟩ := exists_covers h
  refine ⟨phrase, hnode, hbare, ?_⟩
  by_cases hline : ∀ link ∈ gap.getLast?, ¬ link.IsLineComment
  · exact .inl ⟨_, hcovers.piece hline⟩
  · push Not at hline
    obtain ⟨comment, hlast, hcomment⟩ := hline
    obtain ⟨gap, rfl⟩ := List.getLast?_eq_some_iff.1 hlast
    exact .inr fun more hmore ending => hcovers.cut_comment hcomment hmore ending

end Grammar

theorem Phrase.FieldType.stopsBefore_ending (type : Phrase.FieldType) (ending : Phrase.Ending) :
    type.StopsBefore (Terminal.token ending.link).head := by
  refine FieldType.stopsBefore_of_ne fun _ hraw => ?_
  have hspells := ending.spells
  rw [ending.fits] at hspells
  have hnil := hspells.eq_nil
  rw [show ending.link.raw = "cpp_type" from hraw] at hnil
  cases hnil

namespace Grammar

theorem fieldType_accepts_ending {s : Setting} (type : Phrase.FieldType) (ending : Phrase.Ending) :
    Parse.Accepts s fieldType (type.terminals ++ ending.terminals) ending.terminals
      fun node => node.relabel s.new = type.node.relabel s.old :=
  fieldType_accepts (x := .token ending.link) type (by simp [ending.fits]) (type.stopsBefore_ending ending)

/-- The terminals of a type are read as it. -/
theorem wholeType?_of_cut {type : Phrase.FieldType} {ending : Phrase.Ending} {text : List Char}
    {own : List Link} (hcut : Link.Cut (type.terminals ++ ending.terminals) text [] own)
    (hown : Link.Numbered 0 own) : ∃ chain, wholeType? text = some (type.node, chain) := by
  have htext : Link.spelled own ++ [] = text := by rw [List.append_nil, hcut.spelled]
  have hawaits := hcut.lexed.awaits_front id id hcut.whole htext fun h _ => by
    simpa using (hown.id_eq h).symm
  obtain ⟨node, between, hrun, hnode, hbetween⟩ := (fieldType_accepts_ending type ending _
    hawaits).exists_ok (fieldType_runs (Reader.steady_ofText text)).ne_stalled
  obtain ⟨found, after, htake, hfound, -⟩ := takeSignificant_ending ending hbetween
  obtain rfl : node = type.node := by simpa using hnode
  exact ⟨after.chain, wholeType?_eq_some.2 ⟨between, found, after, hrun, htake,
    hfound.kind.trans ending.fits, rfl⟩⟩

end Grammar

end ThriftSyntax
