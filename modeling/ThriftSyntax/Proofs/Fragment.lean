import ThriftSyntax.Proofs.Completeness.Text
import ThriftSyntax.Proofs.Layout.Cutting
import ThriftSyntax.Proofs.Reindex
import ThriftSyntax.Proofs.Span.Part

/-!
# Parts of a text read for themselves

The text of a type, a constant value or a field is read as that part again, and the text of a
definition as a document of one definition. Only the numbers of tokens differ, which begin with the
text.
-/

namespace ThriftSyntax

/-! ## The tokens of a part -/

/-- The text of the tokens between two cuts. -/
theorem TokenChain.toList_text_mid {chain : TokenChain} {before mid after : List Link}
    (h : chain.links = before ++ (mid ++ after)) (hne : mid ≠ []) :
    (chain.text ⟨before.length, before.length + mid.length - 1⟩).toList = Link.spelled mid := by
  have hpos := List.length_pos_of_ne_nil hne
  rw [toList_text, h, show before.length + mid.length - 1 + 1 = before.length + mid.length by omega,
    ← List.append_assoc, ← List.length_append, List.take_left, List.drop_left]

/-- `mid` are the tokens of the terminals `part`; they are numbered from `first`, and are the tokens
of their own text. -/
structure Link.IsPart (part : List Terminal) (first : Nat) (mid : List Link) : Prop where
  nonempty : mid ≠ []
  numbered : ∀ {i link}, mid[i]? = some link → link.id = first + i
  significant : ∀ link ∈ mid.getLast?, link.kind.isTrivia = false
  lexed : Lexed mid []
  fronts : Fronts part mid

/-- A run of the terminals of a document has its tokens between two cuts. -/
theorem Derives.exists_part {text : List Char} {links : List Link} {document : Phrase.Document}
    {part : List Terminal} {span : Span} (h : Derives text links document)
    (hpart : part <:+: document.definitions.flatMap Phrase.Definition.terminals)
    (hbounds : Link.Bounds (Phrase.tokens part) span) :
    ∃ before mid after, links = before ++ (mid ++ after) ∧ Link.IsPart part before.length mid ∧
      span = ⟨before.length, before.length + mid.length - 1⟩ := by
  obtain ⟨front, back, hsplit⟩ := hpart
  obtain ⟨first, last, hfirst, hlast, rfl⟩ := hbounds
  have hlaid := h.laid
  rw [Phrase.Document.terminals, ← hsplit, List.append_assoc, List.append_assoc] at hlaid
  have hinner : ∀ x ∈ front ++ part, ∀ link ∈ x.links, link ∈ inner document := by
    intro x hx link hl
    refine List.mem_flatMap.2 ⟨x, ?_, hl⟩
    rw [← hsplit]
    exact List.mem_append_left _ hx
  have hne : part ≠ [] := by
    rintro rfl
    cases hfirst
  obtain ⟨before, mid, after, rfl, hend, hhead, hlast', hfronts⟩ := hlaid.cut_out
    (fun link hl hk => (h.order.spells link hl).ne_nil hk)
    (fun x hx link hl => (h.mem_inner (hinner x hx link hl)).2.2) hne
  rw [show part.flatMap Terminal.links = Phrase.tokens part from rfl] at hhead hlast'
  rw [hfirst] at hhead
  rw [hlast] at hlast'
  have hmid : mid ≠ [] := by
    rintro rfl
    cases hhead
  have hnumbered : ∀ {i link}, mid[i]? = some link → link.id = before.length + i := by
    intro i link hi
    have hlt := (List.getElem?_eq_some_iff.1 hi).1
    have hget : (before ++ (mid ++ after))[before.length + i]? = some link := by
      rw [List.getElem?_append_right (by omega), Nat.add_sub_cancel_left,
        List.getElem?_append_left hlt, hi]
    have := h.order.id_eq hget
    omega
  refine ⟨before, mid, after, rfl, ⟨hmid, hnumbered, ?_, ?_, hfronts⟩, ?_⟩
  · intro link hl
    obtain rfl := Option.some.inj (hlast'.symm.trans hl)
    obtain ⟨x, hx, hl⟩ := List.mem_flatMap.1 (List.mem_of_getLast? hlast)
    exact (h.mem_inner (hinner x (List.mem_append_right _ hx) _ hl)).2.1
  · obtain ⟨-, hlexed⟩ := Link.lexed_append.1 h.order.lexed
    exact Link.Lexed.truncate (Link.lexed_append.1 hlexed).1
  · rw [hnumbered (by rw [← List.head?_eq_getElem?]; exact hhead),
      hnumbered (by rw [← List.getLast?_eq_getElem?]; exact hlast')]
    have hpos := List.length_pos_of_ne_nil hmid
    simp only [Span.mk.injEq]
    omega

/-! ## Reading a part -/

/-- An end of the input with a number. -/
def Phrase.Ending.ofId (id : Nat) : Phrase.Ending :=
  ⟨⟨id, .endOfInput, "", .start⟩, .endOfInput, rfl⟩

@[simp] theorem Phrase.Ending.kind_ofId (id : Nat) : (ofId id).link.kind = .endOfInput := rfl

@[simp] theorem Phrase.Ending.raw_ofId (id : Nat) : (ofId id).link.raw = "" := rfl

@[simp] theorem Phrase.Ending.id_ofId (id : Nat) : (ofId id).link.id = id := rfl

/-- The end of the input right after a part. -/
abbrev Phrase.Ending.after (first : Nat) (mid : List Link) : Phrase.Ending :=
  .ofId (first + mid.length)

/-- The text of a part, and the numbers in it. -/
def Setting.ofPart (first : Nat) (mid : List Link) : Setting where
  all := Link.arrange 0 .start (mid ++ [(Phrase.Ending.after first mid).link]) []
  rest := []
  old := (· - first)
  new := id

namespace Link

variable {s : Setting} {part : List Terminal} {first : Nat} {mid xs ys : List Link}

theorem map_kind_of_similar (h : List.Forall₂ (Similar s) xs ys) : ys.map kind = xs.map kind := by
  induction h with
  | nil => rfl
  | cons h _ ih => rw [List.map_cons, List.map_cons, h.kind, ih]

/-- Where the last token before the end of the input is no trivia, nothing stands around the end. -/
theorem eq_nil_around {done gap tail : List Link} {link : Link} {kinds : List Kind}
    (h : (done ++ (gap ++ link :: tail)).map kind = kinds ++ [.endOfInput]) (hgap : IsGap gap)
    (htail : IsGap tail) (hkinds : ∀ kind ∈ kinds.getLast?, kind.isTrivia = false) :
    gap = [] ∧ tail = [] := by
  obtain rfl | ⟨tail, last, rfl⟩ := List.eq_nil_or_concat tail
  · obtain rfl | ⟨gap, last, rfl⟩ := List.eq_nil_or_concat gap
    · exact ⟨rfl, rfl⟩
    have hlast := hgap last (by simp)
    rw [← List.append_assoc, List.map_append] at h
    have hinit := List.append_inj_left' h rfl
    rw [← hinit] at hkinds
    rw [hkinds last.kind (by simp)] at hlast
    cases hlast
  · have hlast := htail last (by simp)
    have hsplit : done ++ (gap ++ link :: (tail ++ [last])) = done ++ (gap ++ link :: tail) ++ [last] := by
      simp
    rw [List.concat_eq_append, hsplit, List.map_append] at h
    rw [(List.cons_eq_cons.1 (List.append_inj_right' h rfl)).1] at hlast
    cases hlast

namespace IsPart

theorem id_sub (h : IsPart part first mid) {i : Nat} {link : Link}
    (hi : (mid ++ [(Phrase.Ending.after first mid).link])[i]? = some link) :
    i = link.id - first := by
  rcases Nat.lt_or_ge i mid.length with hlt | hge
  · rw [List.getElem?_append_left hlt] at hi
    have := h.numbered hi
    omega
  · rw [List.getElem?_append_right hge, List.getElem?_singleton] at hi
    split at hi
    · cases hi
      simp only [Phrase.Ending.id_ofId]
      omega
    · cases hi

theorem lexed_ending (h : IsPart part first mid) :
    Lexed (mid ++ [(Phrase.Ending.after first mid).link]) [] :=
  lexed_append.2 ⟨h.lexed, ⟨.endOfInput, rfl⟩, trivial⟩

theorem laid_ending (h : IsPart part first mid) :
    Laid [] (part ++ (Phrase.Ending.after first mid).terminals)
      (mid ++ [(Phrase.Ending.after first mid).link]) := by
  refine h.fronts (fun x _ => x.ends_of_plain (fun _ => rfl) ?_ ?_) (.of_token rfl .nil)
  · constructor <;> simp
  · simp

theorem similar (h : IsPart part first mid) :
    List.Forall₂ (Similar (.ofPart first mid)) (mid ++ [(Phrase.Ending.after first mid).link])
      (Setting.ofPart first mid).all :=
  similar_arrange fun hi _ => by
    rw [Nat.zero_add]
    exact h.id_sub hi

theorem awaits (h : IsPart part first mid) :
    (Reader.ofText (spelled mid)).Awaits (.ofPart first mid)
      (part ++ (Phrase.Ending.after first mid).terminals) := by
  obtain ⟨found, hfound, halike⟩ := h.laid_ending.of_similar h.similar
  refine ⟨Reader.valid_ofText _, found, halike, _, Reader.before_ofText.2 ⟨?_, ?_⟩, hfound⟩
  · simp [Setting.ofPart, spelled_arrange]
  · exact inOrder_arrange h.lexed_ending

/-- A reader that has read the part has chained the tokens of its text. -/
theorem text_eq (h : IsPart part first mid) {reader : Reader}
    (hr : reader.Awaits (.ofPart first mid) (Phrase.Ending.after first mid).terminals) :
    (reader.chain.text ⟨0, mid.length - 1⟩).toList = spelled mid := by
  obtain ⟨_, halike, links, ⟨done, ahead, hchain, hall, -, -, -⟩, hlaid⟩ := hr.faces
  obtain ⟨y, _, hy, htail, rfl⟩ := List.forall₂_cons_left_iff.1 halike
  cases htail
  cases hy with
  | @token _ found hfound =>
    obtain ⟨gap, tail, rfl, hgap, -, -, hlaid⟩ := hlaid.exists_gap
    have hkinds := map_kind_of_similar h.similar
    rw [hall, @List.map_append _ _ _ mid] at hkinds
    obtain ⟨rfl, rfl⟩ := eq_nil_around hkinds hgap hlaid.isGap (by
      rw [List.getLast?_map]
      simpa using h.significant)
    have hlength := h.similar.length_eq
    have hspelled := spelled_of_similar h.similar
    have hraw : found.raw = "" := hfound.raw
    rw [hall] at hlength hspelled
    simp only [List.nil_append, Terminal.links_token, List.append_nil, List.length_append,
      List.length_singleton, Nat.add_right_cancel_iff, spelled_append, spelled_cons, spelled_nil,
      hraw, Phrase.Ending.raw_ofId, String.toList_empty] at hlength hspelled
    have hdone : done ≠ [] := by
      rintro rfl
      exact h.nonempty (List.length_eq_zero_iff.1 hlength)
    have htext := @TokenChain.toList_text_mid _ [] done _ hchain hdone
    rwa [List.length_nil, Nat.zero_add, ← hlength, hspelled] at htext

end IsPart

end Link

namespace Parse

variable {α : Type}

/-- The text of a part of a tree gives the part again, its tokens numbered from 0, and the part is
all of that text. -/
def Rereads (rule : Parse α) (span : α → Span) (relabel : (Nat → Nat) → α → α)
    (tokens : TokenChain) (part : α) : Prop :=
  ∃ again after, rule (.ofText (tokens.text (span part)).toList) = .ok again after ∧
    again = relabel (· - (span part).first) part ∧
    after.chain.text (span again) = tokens.text (span part)

theorem Accepts.rereads {rule : Parse α} {span : α → Span} {relabel : (Nat → Nat) → α → α}
    {tokens : TokenChain} {part : List Terminal} {node : α} {before mid after : List Link}
    (hstalled : ∀ text reader, rule (.ofText text) ≠ .error .stalled reader)
    (hspan : ∀ ids node, span (relabel ids node) = (span node).relabel ids)
    (hid : ∀ node, relabel id node = node) (hpart : Link.IsPart part before.length mid)
    (hlinks : tokens.links = before ++ (mid ++ after))
    (hnode : span node = ⟨before.length, before.length + mid.length - 1⟩)
    (haccepts : Accepts (.ofPart before.length mid) rule
      (part ++ (Phrase.Ending.after before.length mid).terminals)
      (Phrase.Ending.after before.length mid).terminals
      fun again => relabel id again = relabel (· - before.length) node) :
    Rereads rule span relabel tokens node := by
  have htext : (tokens.text (span node)).toList = Link.spelled mid := by
    rw [hnode, TokenChain.toList_text_mid hlinks hpart.nonempty]
  obtain ⟨again, reader, hrun, hagain, hreader⟩ :=
    (haccepts _ hpart.awaits).exists_ok (hstalled _)
  rw [hid] at hagain
  refine ⟨again, reader, by rw [htext, hrun], by rw [hagain, hnode], ?_⟩
  rw [← String.toList_inj, htext, hagain, hspan, hnode, ← hpart.text_eq hreader, Span.relabel]
  dsimp only
  congr 3 <;> omega

end Parse

/-- A type, a constant value or a field is read again from its own text. -/
def Node.Rereads (tokens : TokenChain) : Node → Prop
  | fieldType node => Grammar.fieldType.Rereads FieldType.span FieldType.relabel tokens node
  | constValue node => Grammar.constValue.Rereads ConstValue.span ConstValue.relabel tokens node
  | field node => Grammar.field.Rereads Field.span Field.relabel tokens node
  | _ => True

/-- What a phrase stands for is read again from the text of its tokens. -/
theorem Phrase.StandsFor.rereads {numbering : Numbering} {node : Node} {part : List Terminal}
    {tokens : TokenChain} {before mid after : List Link}
    (h : Phrase.StandsFor numbering node part) (hpart : Link.IsPart part before.length mid)
    (hlinks : tokens.links = before ++ (mid ++ after))
    (hspan : node.span = ⟨before.length, before.length + mid.length - 1⟩) : node.Rereads tokens := by
  cases h with
  | fieldType phrase =>
    refine Parse.Accepts.rereads
      (fun text => (Grammar.fieldType_runs (Reader.steady_ofText text)).ne_stalled)
      FieldType.span_relabel FieldType.relabel_id hpart hlinks hspan ?_
    refine Grammar.fieldType_accepts phrase ?_ ?_
    · simp
    · unfold Phrase.FieldType.StopsBefore
      split <;> simp
  | constValue phrase =>
    exact Parse.Accepts.rereads
      (fun text => (Grammar.constValue_runs (Reader.steady_ofText text)).ne_stalled)
      ConstValue.span_relabel ConstValue.relabel_id hpart hlinks hspan
      (Grammar.constValue_accepts phrase)
  | field phrase =>
    refine Parse.Accepts.rereads
      (fun text => (Grammar.field_runs (Reader.steady_ofText text)).ne_stalled)
      (fun _ _ => rfl) relabelField_id hpart hlinks hspan ?_
    refine Grammar.field_accepts phrase ?_
    constructor <;> simp
  | annotation | function | enumElement => trivial
  | definition phrase => cases phrase <;> trivial

namespace SyntaxTree

variable {text : String} {options : Options} {tree : SyntaxTree}

/-- The text of the tokens of one definition is read as a document of that definition. -/
theorem ofText_part {phrase : Phrase.Definition} {first : Nat} {mid : List Link}
    (hpart : Link.IsPart phrase.terminals first mid)
    (hallowed : phrase.Allowed options.namespaceTrailing) (htext : text.toList = Link.spelled mid) :
    ∃ again, ofText text options = .ok again ∧ again.document.definitions =
      [((phrase.node options.numbering).relabel (· - first)).reindex again.tokens] := by
  have hlaid : Laid [] (Phrase.Document.terminals ⟨[phrase], .after first mid⟩)
      (mid ++ [(Phrase.Ending.after first mid).link]) := by
    simpa [Phrase.Document.terminals] using hpart.laid_ending
  have hspelled : Link.spelled (mid ++ [(Phrase.Ending.after first mid).link]) = text.toList := by
    rw [htext]
    simp
  have halone : Phrase.Document.Allowed options.namespaceTrailing
      ⟨[phrase], .after first mid⟩ := List.forall_mem_singleton.2 hallowed
  obtain ⟨again, hagain, -, hrelabel⟩ := ofText_of_lexed (· - first) id halone
    hpart.lexed_ending hlaid hspelled fun hi _ => hpart.id_sub hi
  refine ⟨again, hagain, ?_⟩
  rw [document_eq_reindex hagain hrelabel]
  rfl

/-- The parts of a tree are what their own texts are read as. -/
structure Rereads (options : Options) (tree : SyntaxTree) : Prop where
  /-- Every type, constant value and field is read again by its rule. -/
  nodes : ∀ visit ∈ tree.root.walk, visit.node.Rereads tree.tokens
  /-- Every definition is read again as the only one of a document. Its tokens are numbered from 0,
  and the keys of its indexes are those of the tokens that are read. -/
  definitions : ∀ definition ∈ tree.document.definitions, ∃ again,
    ofText (tree.tokens.text (Node.ofDefinition definition).span) options = .ok again ∧
    again.document.definitions =
      [(definition.relabel (· - (Node.ofDefinition definition).span.first)).reindex again.tokens]

/-- Wherever a part of a text stands, it is read for itself as it is read there. -/
theorem ofText_rereads (h : ofText text options = .ok tree) : tree.Rereads options := by
  obtain ⟨document, hnode, hallowed, hderives⟩ := exists_derives h
  have hinc := (List.pairwise_append.1 hderives.increasing).1
  constructor
  · intro visit hv
    have hb : tree.root.Below visit.node := Node.mem_walk.1 (List.mem_map_of_mem hv)
    rw [root, ← hnode] at hb
    by_cases hroot : visit.node = .document (document.node options.numbering)
    · rw [hroot]
      trivial
    obtain ⟨part, hpart, hstands, hcovers⟩ := hderives.exists_standsFor hb hroot
    obtain ⟨before, mid, after, hlinks, hmid, hspan⟩ := hderives.exists_part hpart hcovers.bounds
    exact hstands.rereads hmid hlinks hspan
  · intro definition hd
    rw [← hnode] at hd
    obtain ⟨phrase, hphrase, rfl⟩ := List.mem_map.1 hd
    have hpart := document.infix_terminals hphrase
    have hbounds := (phrase.covers options.numbering
      (hinc.sublist (Phrase.tokens_infix hpart).sublist)).bounds
    obtain ⟨before, mid, after, hlinks, hmid, hspan⟩ := hderives.exists_part hpart hbounds
    rw [hspan]
    exact ofText_part hmid (hallowed phrase hphrase)
      (TokenChain.toList_text_mid hlinks hmid.nonempty)

theorem rereads_sampleText :
    ∃ tree, ofText sampleText {} = .ok tree ∧ tree.Rereads {} := by
  obtain ⟨tree, h⟩ := exists_sampleTree
  exact ⟨tree, h, ofText_rereads h⟩

end SyntaxTree

end ThriftSyntax
