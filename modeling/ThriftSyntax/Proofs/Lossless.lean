import ThriftSyntax.Proofs.Soundness.Text

/-!
# Round trip

A tree gives back the text that it was read from, to the character.
-/

namespace ThriftSyntax

namespace TokenChain

/-- The span of all tokens spells the source. -/
theorem text_whole {chain : TokenChain} {last : Nat} (h : last + 1 = chain.size) :
    chain.text ⟨0, last⟩ = chain.source := by
  unfold text source toList
  rw [h, size, Array.extract_size]

end TokenChain

namespace SyntaxTree

variable {text : String} {options : Options} {tree : SyntaxTree}

theorem source_eq (h : ofText text options = .ok tree) : tree.tokens.source = text := by
  obtain ⟨document, -, -, hderives⟩ := exists_derives h
  rw [← String.toList_inj, Link.toList_source, hderives.spelled]

theorem text_eq (h : ofText text options = .ok tree) : tree.text = text := by
  obtain ⟨document, hnode, -, hderives⟩ := exists_derives h
  have hspan : tree.document.span = ⟨0, document.ending.link.id⟩ := by rw [← hnode]; rfl
  rw [SyntaxTree.text, hspan, TokenChain.text_whole (TokenChain.id_of_getLast? hderives.last),
    source_eq h]

/-- Whatever text is read, under whatever options: the text of the tree and the text of its tokens
are that text, the document spans all tokens, and the last of them, which exists, is the only end of
input. -/
theorem ofText_lossless (h : ofText text options = .ok tree) :
    tree.text = text ∧ tree.tokens.source = text ∧ 0 < tree.tokens.size ∧
      tree.document.span = ⟨0, tree.tokens.size - 1⟩ ∧
      ∀ id token, tree.tokens.get? id = some token →
        (token.kind = .endOfInput ↔ id = tree.tokens.size - 1) := by
  obtain ⟨document, hnode, -, hderives⟩ := exists_derives h
  have hlast := TokenChain.id_of_getLast? hderives.last
  have hspan : tree.document.span = ⟨0, document.ending.link.id⟩ := by rw [← hnode]; rfl
  refine ⟨text_eq h, source_eq h, by omega, ?_, fun id token hid => ?_⟩
  · rw [hspan, ← hlast, Nat.add_sub_cancel]
  · have hmem := TokenChain.mem_links hid
    constructor
    · intro hk
      have : Link.mk id token = document.ending.link := hderives.ended _ hmem hk
      rw [← hlast, Nat.add_sub_cancel, ← this]
    · intro hid'
      have hend := TokenChain.get?_of_mem (List.mem_of_getLast? hderives.last)
      rw [show document.ending.link.id = id by omega, hid] at hend
      rw [Option.some.inj hend]
      exact document.ending.fits

theorem lossless_sampleText :
    ∃ tree, ofText sampleText {} = .ok tree ∧ tree.text = sampleText ∧
      tree.tokens.source = sampleText ∧ 0 < tree.tokens.size ∧
      tree.document.span = ⟨0, tree.tokens.size - 1⟩ ∧
      ∀ id token, tree.tokens.get? id = some token →
        (token.kind = .endOfInput ↔ id = tree.tokens.size - 1) := by
  obtain ⟨tree, h⟩ := exists_sampleTree
  exact ⟨tree, h, ofText_lossless h⟩

end SyntaxTree

end ThriftSyntax
