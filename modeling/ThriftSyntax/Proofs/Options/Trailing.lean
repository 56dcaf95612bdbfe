import ThriftSyntax.Proofs.Completeness.Text
import ThriftSyntax.Proofs.Options.Numbering
import ThriftSyntax.Proofs.Reindex
import ThriftSyntax.Proofs.Span.Part

/-!
# Separators at the end of annotations

A text whose namespaces may not end their annotations with a separator is read as it is where they
may. Nothing else is refused: whether a separator stands before the closing parenthesis can be seen
from the tokens of the tree.
-/

namespace ThriftSyntax

/-! ## What is seen from the tokens -/

/-- The token at `place` is the last one before `id` but for blanks and comments. -/
structure TokenChain.LastBefore (chain : TokenChain) (id place : Nat) (token : Token) : Prop where
  lt : place < id
  found : chain.get? place = some token
  significant : token.kind.isTrivia = false
  trivia : ∀ between, place < between → between < id →
    ∀ other, chain.get? between = some other → other.kind.isTrivia = true

/-- The annotations of the namespace have a separator before their closing parenthesis. -/
def Namespace.Trailed (tokens : TokenChain) (node : Namespace) : Prop :=
  ∃ closing place separator, tokens.get? node.span.last = some closing ∧
    closing.kind = .punct .rightParen ∧ tokens.LastBefore node.span.last place separator ∧
    Node.IsSeparator separator.kind

/-- No other token is the last one before the same place. -/
theorem TokenChain.LastBefore.unique {chain : TokenChain} {id place place' : Nat}
    {token token' : Token} (h : chain.LastBefore id place token)
    (h' : chain.LastBefore id place' token') : token = token' := by
  rcases Nat.lt_trichotomy place place' with hlt | rfl | hlt
  · have := h.trivia place' hlt h'.lt token' h'.found
    rw [h'.significant] at this
    cases this
  · exact Option.some.inj (h.found.symm.trans h'.found)
  · have := h'.trivia place hlt h.lt token h.found
    rw [h.significant] at this
    cases this

/-- Of two significant tokens that follow one another, the first is the last one before the
second. -/
theorem Derives.lastBefore {text : List Char} {chain : TokenChain} {document : Phrase.Document}
    (h : Derives text chain.links document) {front back : List Link} {link next : Link}
    (hsplit : inner document = front ++ link :: next :: back) :
    chain.LastBefore next.id link.id link.token := by
  have hinc := h.increasing
  have hsignificant := h.significant
  rw [hsplit, List.append_assoc] at hinc hsignificant
  obtain ⟨-, hrest, hfront⟩ := List.pairwise_append.1 hinc
  obtain ⟨hlink, hrest⟩ := List.pairwise_cons.1 hrest
  obtain ⟨hnext, -⟩ := List.pairwise_cons.1 hrest
  have hinner : link ∈ inner document := by simp [hsplit]
  obtain ⟨hmem, hk, -⟩ := h.mem_inner hinner
  refine ⟨hlink next List.mem_cons_self, TokenChain.get?_of_mem hmem, hk, ?_⟩
  intro between hlt hgt other ho
  by_contra hother
  have hbetween : (⟨between, other⟩ : Link) ∈
      chain.links.filter fun link => !link.kind.isTrivia :=
    List.mem_filter.2 ⟨TokenChain.mem_links ho, by simpa [Link.kind] using hother⟩
  rw [hsignificant, List.mem_append] at hbetween
  obtain hb | hb := hbetween
  · have := hfront _ hb link List.mem_cons_self
    dsimp only at this
    omega
  · obtain hb | hb := List.mem_cons.1 hb
    · obtain rfl : between = link.id := congrArg Link.id hb
      omega
    obtain hb | hb := List.mem_cons.1 hb
    · obtain rfl : between = next.id := congrArg Link.id hb
      omega
    · have := hnext _ hb
      dsimp only at this
      omega

namespace Phrase

/-- A separator before the closing parenthesis ends the last annotation. -/
theorem Annotations.exists_before (phrase : Annotations) :
    ∃ front link, tokens phrase.terminals = front ++ [link, phrase.closing.link] ∧
      (phrase.Untrailed ↔ ¬ Node.IsSeparator link.kind) := by
  obtain ⟨opening, items, closing⟩ := phrase
  obtain rfl | ⟨items, ⟨item, separator⟩, rfl⟩ := List.eq_nil_or_concat items
  · refine ⟨[], opening.link, rfl, iff_of_true (by simp [Untrailed]) ?_⟩
    simp [Node.IsSeparator, opening.fits]
  · cases separator with
    | none =>
      refine ⟨opening.link :: tokens (items.flatMap (·.terminals Annotation.terminals)) ++
        (tokens item.name.terminals ++ [item.equals.link]), item.literal.link, ?_,
        iff_of_true (by simp [Untrailed]) ?_⟩
      · simp [terminals, Separated.terminals, Annotation.terminals, optional]
      · simp [Node.IsSeparator, item.literal.fits]
    | some separator =>
      refine ⟨opening.link :: tokens (items.flatMap (·.terminals Annotation.terminals)) ++
        tokens item.terminals, separator.link, ?_, iff_of_false (by simp [Untrailed]) ?_⟩
      · simp [terminals, Separated.terminals, optional]
      · exact not_not.2 separator.fits

/-- Whether a namespace may have its annotations is seen from the tokens. -/
theorem Namespace.trailed_iff {text : List Char} {chain : TokenChain} {document : Document}
    (h : Derives text chain.links document) {phrase : Namespace}
    (hphrase : .namespaced phrase ∈ document.definitions) :
    phrase.node.Trailed chain ↔ ∃ annotations ∈ phrase.annotations, ¬ annotations.Untrailed := by
  obtain ⟨front, back, hinner⟩ := tokens_infix (document.infix_terminals hphrase)
  rw [Definition.terminals] at hinner
  cases hannotations : phrase.annotations with
  | none =>
    -- Without annotations the last token is one of the target's name.
    have hlast : phrase.target.words.last ∈ Derives.inner document := by
      rw [Derives.inner, ← hinner]
      refine List.mem_append_left _ (List.mem_append_right _ ?_)
      simp only [terminals, tokens_append, List.mem_append, tokens_name]
      exact .inr (.inr (.inl phrase.target.words.last_mem))
    refine iff_of_false ?_ (by simp)
    rintro ⟨closing, place, separator, hclosing, hkind, -⟩
    rw [node, hannotations] at hclosing
    have htoken := TokenChain.get?_of_mem (h.mem_inner hlast).1
    obtain rfl : phrase.target.words.last.token = closing :=
      Option.some.inj (htoken.symm.trans hclosing)
    rcases phrase.target.shaped.dot_or_word _ phrase.target.words.last_mem with hd | hw
    · rw [Link.kind, hkind] at hd
      cases hd
    · rw [Link.kind, hkind] at hw
      cases hw
  | some annotations =>
    obtain ⟨before, link, htokens, hiff⟩ := annotations.exists_before
    have hsplit : Derives.inner document = (front ++ tokens (phrase.word.terminals ++
        (phrase.scope.terminals ++ phrase.target.terminals)) ++ before) ++
          link :: annotations.closing.link :: back := by
      rw [Derives.inner, ← hinner]
      simp [terminals, hannotations, optional, htokens]
    have hbefore := h.lastBefore hsplit
    have hmem : annotations.closing.link ∈ Derives.inner document := by simp [hsplit]
    obtain ⟨hclosing, -⟩ := h.mem_inner hmem
    have hspan : phrase.node.span.last = annotations.closing.link.id := by
      rw [node, hannotations]
      rfl
    simp only [Namespace.Trailed, hspan, TokenChain.get?_of_mem hclosing, Option.mem_some_iff,
      exists_eq_left', hiff, not_not]
    constructor
    · rintro ⟨closing, place, separator, -, -, hseparator, hkind⟩
      rw [hseparator.unique hbefore] at hkind
      exact hkind
    · intro hkind
      exact ⟨_, _, _, rfl, annotations.closing.fits, hbefore, hkind⟩

theorem Document.allowed_allow (document : Document) : document.Allowed .allow := by
  intro definition _
  cases definition with
  | namespaced => exact fun h => by cases h
  | _ => trivial

/-- What is refused is seen from the tokens. -/
theorem Document.allowed_reject_iff {text : List Char} {chain : TokenChain} {document : Document}
    (h : Derives text chain.links document) (numbering : Numbering) :
    document.Allowed .reject ↔ ∀ node, .namespaced node ∈ (document.node numbering).definitions →
      ¬ node.Trailed chain := by
  constructor
  · intro hallowed node hnode
    obtain ⟨definition, hdefinition, heq⟩ := List.mem_map.1 hnode
    cases definition with
    | namespaced phrase =>
      cases heq
      rw [Namespace.trailed_iff h hdefinition]
      rintro ⟨annotations, hmem, htrailed⟩
      exact htrailed (hallowed _ hdefinition rfl annotations hmem)
    | _ => cases heq
  · intro huntrailed definition hdefinition
    cases definition with
    | namespaced phrase =>
      intro _ annotations hmem
      by_contra htrailed
      exact huntrailed phrase.node (List.mem_map_of_mem hdefinition)
        ((Namespace.trailed_iff h hdefinition).2 ⟨annotations, hmem, htrailed⟩)
    | _ => trivial

end Phrase

/-! ## The two options -/

namespace SyntaxTree

variable {text : String} {options options' : Options} {tree : SyntaxTree}

/-- A tree is read under any options that allow what it was read from. -/
theorem ofText_of_allowed {document : Phrase.Document} (h : ofText text options = .ok tree)
    (hnode : document.node options.numbering = tree.document)
    (hderives : Derives text.toList tree.tokens.links document)
    (hnumbering : options'.numbering = options.numbering)
    (hallowed : document.Allowed options'.namespaceTrailing) : ofText text options' = .ok tree := by
  obtain ⟨tree', htree, hlinks, hdocument⟩ := ofText_of_arranged id id hallowed
    hderives.order.lexed hderives.laid hderives.spelled fun {i link} hi _ => by
      rw [hderives.order.id_eq hi, Nat.zero_add]
  have htokens : tree'.tokens = tree.tokens := by
    rw [hderives.order.arrange_eq] at hlinks
    have hlist := congrArg (List.map Link.token) hlinks
    rw [TokenChain.map_token_links, TokenChain.map_token_links] at hlist
    exact congrArg TokenChain.mk (Array.toList_inj.1 hlist)
  have hsame : tree'.document = tree.document := by
    rw [hnumbering, hnode] at hdocument
    rw [document_eq_reindex htree hdocument, htokens, ← document_eq_reindex h rfl]
  have heq : tree' = tree := by
    cases tree'
    cases tree
    congr
  rw [htree, heq]

/-- The options have a part in nothing but what they name. Another numbering of enumerations gives
the same error, or the same tree but for ids that are not written. To refuse separators at the end of
the annotations of namespaces makes no tree another one, and refuses those texts alone whose tree
shows such a separator. -/
theorem ofText_options (text : String) :
    (∀ numbering numbering' trailing,
      (ofText text ⟨numbering, trailing⟩).map unnumbered =
        (ofText text ⟨numbering', trailing⟩).map unnumbered) ∧
    (∀ numbering tree, ofText text ⟨numbering, .reject⟩ = .ok tree →
      ofText text ⟨numbering, .allow⟩ = .ok tree) ∧
    ∀ numbering, (∃ tree, ofText text ⟨numbering, .reject⟩ = .ok tree) ↔
      ∃ tree, ofText text ⟨numbering, .allow⟩ = .ok tree ∧
        ∀ node, .namespaced node ∈ tree.document.definitions → ¬ node.Trailed tree.tokens := by
  have hallow : ∀ {numbering : Numbering} {tree : SyntaxTree},
      ofText text ⟨numbering, .reject⟩ = .ok tree → ofText text ⟨numbering, .allow⟩ = .ok tree := by
    intro numbering tree h
    obtain ⟨document, hnode, -, hderives⟩ := exists_derives h
    exact ofText_of_allowed h hnode hderives rfl document.allowed_allow
  refine ⟨ofText_numbering text, fun _ _ => hallow, fun numbering => ⟨?_, ?_⟩⟩
  · rintro ⟨tree, h⟩
    obtain ⟨document, hnode, hallowed, hderives⟩ := exists_derives h
    refine ⟨tree, hallow h, ?_⟩
    rw [← hnode]
    exact (Phrase.Document.allowed_reject_iff hderives numbering).1 hallowed
  · rintro ⟨tree, h, huntrailed⟩
    obtain ⟨document, hnode, -, hderives⟩ := exists_derives h
    rw [← hnode] at huntrailed
    exact ⟨tree, ofText_of_allowed h hnode hderives rfl
      ((Phrase.Document.allowed_reject_iff hderives numbering).2 huntrailed)⟩

theorem options_sampleText : ∃ tree, ofText sampleText {} = .ok tree ∧
    ofText sampleText ⟨.explicit, .allow⟩ = .ok tree := by
  obtain ⟨tree, h⟩ := exists_sampleTree
  exact ⟨tree, h, (ofText_options sampleText).2.1 .explicit tree h⟩

end SyntaxTree

end ThriftSyntax
