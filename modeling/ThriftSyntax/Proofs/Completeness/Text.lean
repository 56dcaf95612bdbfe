import ThriftSyntax.Parse
import ThriftSyntax.Proofs.Completeness.Definition
import ThriftSyntax.Proofs.Layout.Arrangement
import ThriftSyntax.Proofs.Session.Definition

/-!
# Completeness of texts

A text whose tokens are those of a document, with blanks and comments between them, is read as that
document.
-/

namespace ThriftSyntax

/-- Blanks and comments have a text. -/
theorem Link.eq_nil_of_isGap {gap : List Link} (hgap : IsGap gap)
    (hs : ∀ link ∈ gap, Lexeme.Spells link.kind link.raw.toList) (h : spelled gap = []) :
    gap = [] := by
  cases gap with
  | nil => rfl
  | cons link gap =>
    have hne := (hs link List.mem_cons_self).ne_nil
      (Parse.ne_endOfInput_of_trivia (hgap link List.mem_cons_self))
    rw [spelled_cons] at h
    exact absurd (List.append_eq_nil_iff.1 h).1 hne

/-- The front of a text is cut into tokens that are yet to be numbered and placed, and they are laid
out. -/
theorem Link.Lexed.awaits_front {text rest : List Char} {links : List Link} {xs : List Terminal}
    (old new : Nat → Nat) (hlexed : Lexed links rest) (hlaid : Laid rest xs links)
    (htext : spelled links ++ rest = text)
    (hids : ∀ {i link}, links[i]? = some link → link.kind.isTrivia = false →
      new i = old link.id) :
    (Reader.ofText text).Awaits ⟨arrange 0 .start links rest, rest, old, new⟩ xs := by
  let s : Setting := ⟨arrange 0 .start links rest, rest, old, new⟩
  have hsimilar : List.Forall₂ (Similar s) links s.all :=
    similar_arrange fun hi hk => by rw [Nat.zero_add]; exact hids hi hk
  obtain ⟨found, hfound, halike⟩ := hlaid.of_similar hsimilar
  refine ⟨Reader.valid_ofText _, found, halike, s.all, Reader.before_ofText.2 ⟨?_, ?_⟩, hfound⟩
  · rw [← htext, spelled_arrange]
  · exact inOrder_arrange hlexed

/-- The same for a whole text. -/
theorem Link.Lexed.awaits {text : String} {links : List Link} {xs : List Terminal}
    (old new : Nat → Nat) (hlexed : Lexed links []) (hlaid : Laid [] xs links)
    (htext : spelled links = text.toList)
    (hids : ∀ {i link}, links[i]? = some link → link.kind.isTrivia = false →
      new i = old link.id) :
    (Reader.ofText text.toList).Awaits ⟨arrange 0 .start links [], [], old, new⟩ xs :=
  hlexed.awaits_front old new hlaid (by rw [List.append_nil, htext]) hids

/-- Where the tokens of a text are those of a document, but for numbers, it is read. -/
theorem SyntaxTree.ofText_of_awaits {s : Setting} {text : String} {options : Options}
    {document : Phrase.Document} (hallowed : document.Allowed options.namespaceTrailing)
    (horder : Link.InOrder 0 .start s.all [])
    (hawaits : (Reader.ofText text.toList).Awaits s document.terminals) :
    ∃ tree, ofText text options = .ok tree ∧ tree.tokens.links = s.all ∧
      tree.document.relabel s.new = (document.node options.numbering).relabel s.old := by
  have hruns := Grammar.document_runs options (Reader.steady_ofText text.toList)
  obtain ⟨node, after, hrun, hnode, last, hlast, front, gap, hchain, hall, hgap⟩ :=
    (Grammar.document_accepts document hallowed hawaits).exists_ok hruns.ne_stalled
  refine ⟨⟨after.chain, node⟩, by rw [ofText, hrun], ?_, hnode⟩
  rw [hall] at horder
  obtain ⟨place, -, -, hlex, horder⟩ := horder.of_append
  have hends := hlex.ends
  rw [hlast, List.append_nil] at hends
  rw [show gap = [] from Link.eq_nil_of_isGap hgap horder.spells hends] at hall
  exact hchain.trans hall.symm

/-- The same for tokens that are yet to be numbered and placed. -/
theorem SyntaxTree.ofText_of_arranged {text : String} {options : Options}
    {document : Phrase.Document} {links : List Link} (old new : Nat → Nat)
    (hallowed : document.Allowed options.namespaceTrailing) (hlexed : Link.Lexed links [])
    (hlaid : Laid [] document.terminals links) (htext : Link.spelled links = text.toList)
    (hids : ∀ {i link}, links[i]? = some link → link.kind.isTrivia = false →
      new i = old link.id) :
    ∃ tree, ofText text options = .ok tree ∧
      tree.tokens.links = Link.arrange 0 .start links [] ∧
      tree.document.relabel new = (document.node options.numbering).relabel old :=
  ofText_of_awaits hallowed (Link.inOrder_arrange hlexed) (hlexed.awaits old new hlaid htext hids)

theorem SyntaxTree.ofText_of_lexed {text : String} {options : Options}
    {document : Phrase.Document} {links : List Link} (old new : Nat → Nat)
    (hallowed : document.Allowed options.namespaceTrailing) (hlexed : Link.Lexed links [])
    (hlaid : Laid [] document.terminals links) (htext : Link.spelled links = text.toList)
    (hids : ∀ {i link}, links[i]? = some link → link.kind.isTrivia = false →
      new i = old link.id) :
    ∃ tree, ofText text options = .ok tree ∧
      tree.tokens.size = links.length ∧
      tree.document.relabel new = (document.node options.numbering).relabel old := by
  obtain ⟨tree, htree, hlinks, hnode⟩ := ofText_of_arranged old new hallowed hlexed hlaid htext hids
  exact ⟨tree, htree, by rw [← TokenChain.length_links, hlinks, Link.length_arrange], hnode⟩

end ThriftSyntax
