import ThriftSyntax.Proofs.Lossless
import ThriftSyntax.Proofs.Reader.Slice
import ThriftSyntax.Proofs.Span.Phrase
import ThriftSyntax.Proofs.Span.Walk

/-!
# Spans of a tree

In every tree that is read, spans lie within one another as their nodes do, siblings follow one
another, and a walk comes to each node once, in order, with the smallest node around it as parent.
-/

namespace ThriftSyntax

namespace Node

variable {node root : Node} {links : List Link} {tokens : TokenChain}

theorem Covers.placed (h : Covers node links) (hinc : Link.Increasing links) : node.Placed where
  ordered := h.bounds.first_le_last hinc
  apart := h.cuts.pairwise Covers.bounds hinc
  encloses child hchild := by
    cases h with
    | @intro _ before after front back own bounds parts head tail =>
      rw [parts] at hchild
      obtain hchild | hchild := List.mem_append.1 hchild
      · obtain ⟨left, part, right, rfl, hpart⟩ := head.exists_part hchild
        rw [List.append_assoc, List.append_assoc] at bounds hinc
        obtain ⟨⟨hfirst, hlast⟩, -, hlt⟩ := hpart.bounds.within bounds hinc
        have := hlt (by simp)
        refine ⟨hfirst, hlast, fun heq => ?_⟩
        rw [heq] at this
        omega
      · obtain ⟨left, part, right, rfl, hpart⟩ := tail.exists_part hchild
        rw [← List.cons_append, ← List.append_assoc] at bounds hinc
        obtain ⟨⟨hfirst, hlast⟩, hlt, -⟩ := hpart.bounds.within bounds hinc
        have := hlt (by simp)
        refine ⟨hfirst, hlast, fun heq => ?_⟩
        rw [heq] at this
        omega

/-- What lies below a node covers some of its tokens. -/
theorem Covers.exists_below (h : Covers root links) (hb : root.Below node) :
    ∃ part, part <:+: links ∧ Covers node part := by
  induction hb with
  | refl => exact ⟨links, List.infix_refl links, h⟩
  | tail _ hchild ih =>
    obtain ⟨part, hpart, hcovers⟩ := ih
    obtain ⟨front, inner, back, rfl, hinner⟩ := hcovers.cuts.exists_part hchild
    refine ⟨inner, .trans ⟨front, back, by simp⟩ hpart, hinner⟩

/-- The node begins and ends with a significant token, and with its separator if it has one. -/
structure Closed (tokens : TokenChain) (node : Node) : Prop where
  significant : ∀ id, id = node.span.first ∨ id = node.span.last →
    ∃ token, tokens.get? id = some token ∧ token.kind.isTrivia = false ∧ token.kind ≠ .endOfInput
  separator : ∀ id, node.separator? = some id →
    id = node.span.last ∧ ∃ token, tokens.get? id = some token ∧ IsSeparator token.kind

theorem Covers.closed (h : Covers node links)
    (hlinks : ∀ link ∈ links, link ∈ tokens.links ∧ link.kind.isTrivia = false ∧
      link.kind ≠ .endOfInput) : node.Closed tokens where
  significant id hid := by
    obtain ⟨first, hfirst, last, hlast, hf, hl⟩ := h.bounds.exists_mem
    obtain ⟨link, hlink, rfl⟩ : ∃ link ∈ links, link.id = id := by
      rcases hid with rfl | rfl
      · exact ⟨first, hfirst, hf⟩
      · exact ⟨last, hlast, hl⟩
    obtain ⟨hmem, hkind⟩ := hlinks link hlink
    exact ⟨link.token, TokenChain.get?_of_mem hmem, hkind⟩
  separator id hid := by
    cases h with
    | intro bounds _ _ _ separator =>
      obtain ⟨first, last, hfirst, hlast, hspan⟩ := bounds
      obtain ⟨rfl, hkind⟩ := separator id hid last hlast
      obtain ⟨hmem, -⟩ := hlinks last (List.mem_of_getLast? hlast)
      exact ⟨by rw [hspan], last.token, TokenChain.get?_of_mem hmem, hkind⟩

/-- The text of the node is the slice of the source from the byte offset of its first token to the
end of its last token. -/
def Spells (text : String) (tokens : TokenChain) (node : Node) : Prop :=
  ∃ first last, tokens.get? node.span.first = some first ∧ tokens.get? node.span.last = some last ∧
    IsSlice text first.location.offset (tokens.text node.span) ∧
    last.location.offset + last.raw.utf8ByteSize =
      first.location.offset + (tokens.text node.span).utf8ByteSize

end Node

namespace SyntaxTree

/-- The root of the tree. -/
def root (tree : SyntaxTree) : Node := .document tree.document

/-- How the spans of a tree lie that was read from `text`, and how a walk passes over its nodes. -/
structure WellSpanned (text : String) (tree : SyntaxTree) : Prop where
  /-- A walk comes to the nodes of the tree and to nothing else. -/
  mem_walk : ∀ node, node ∈ tree.root.walk.map Node.Visit.node ↔ tree.root.Below node
  /-- It comes to each of them once. -/
  nodup : (tree.root.walk.map Node.Visit.node).Nodup
  /-- It comes to them in the order in which they begin. -/
  sorted : (tree.root.walk.map Node.Visit.node).Pairwise (·.span.first ≤ ·.span.first)
  /-- Each child of a node lies strictly within it, and ends before the next begins. -/
  placed : ∀ visit ∈ tree.root.walk, visit.node.Placed
  /-- Every node but the document begins and ends with a significant token, and ends with its
  separator if it has one. -/
  closed : ∀ visit ∈ tree.root.walk, visit.node ≠ tree.root → visit.node.Closed tree.tokens
  /-- The document has no parent. The parent of any other node comes before it, has it as a child,
  and is the smallest node that encloses it. -/
  parents : ∀ (i : Nat) (visit : Node.Visit), tree.root.walk[i]? = some visit →
    (visit.parent = none ↔ visit.node = tree.root) ∧
    ∀ p, visit.parent = some p → p < i ∧ ∃ up : Node.Visit, tree.root.walk[p]? = some up ∧
      visit.node ∈ up.node.children ∧ up.node.span.Encloses visit.node.span ∧
      ∀ other ∈ tree.root.walk, other.node.span.Encloses visit.node.span →
        other.node = up.node ∨ other.node.span.Encloses up.node.span
  /-- The text of each node is that of its slice of the source. -/
  spelled : ∀ visit ∈ tree.root.walk, visit.node.Spells text tree.tokens

end SyntaxTree

namespace Derives

variable {text : List Char} {links : List Link} {document : Phrase.Document}
  {numbering : Numbering} {node : Node}

/-- The tokens of a document but the end of the input. -/
abbrev inner (document : Phrase.Document) : List Link :=
  Phrase.tokens (document.definitions.flatMap Phrase.Definition.terminals)

theorem significant (h : Derives text links document) :
    links.filter (fun link => !link.kind.isTrivia) = inner document ++ [document.ending.link] :=
  h.laid.significant.trans (Phrase.tokens_append _ document.ending.terminals)

theorem increasing (h : Derives text links document) :
    Link.Increasing (inner document ++ [document.ending.link]) := by
  rw [← h.significant]
  exact h.order.pairwise.2.sublist List.filter_sublist

theorem mem_inner (h : Derives text links document) {link : Link} (hl : link ∈ inner document) :
    link ∈ links ∧ link.kind.isTrivia = false ∧ link.kind ≠ .endOfInput := by
  have hmem : link ∈ links.filter fun link => !link.kind.isTrivia := by
    rw [h.significant]
    exact List.mem_append_left _ hl
  obtain ⟨hmem, hk⟩ := List.mem_filter.1 hmem
  refine ⟨hmem, by simpa using hk, fun hend => ?_⟩
  have hlt := (List.pairwise_append.1 h.increasing).2.2 link hl document.ending.link (by simp)
  rw [h.ended link hmem hend] at hlt
  exact Nat.lt_irrefl _ hlt

theorem cuts (h : Derives text links document) :
    Cuts Node.Covers (Node.children (.document (document.node numbering))) (inner document) :=
  document.cuts numbering (List.pairwise_append.1 h.increasing).1

/-- Every node below the document covers some of its tokens. -/
theorem exists_covers (h : Derives text links document)
    (hb : Node.Below (.document (document.node numbering)) node)
    (hne : node ≠ .document (document.node numbering)) :
    ∃ part, part <:+: inner document ∧ node.Covers part := by
  obtain rfl | ⟨child, hchild, hb⟩ := hb.cases_head
  · exact absurd rfl hne
  · obtain ⟨front, part, back, hinner, hpart⟩ := h.cuts.exists_part hchild
    obtain ⟨part', hsub, hcovers⟩ := hpart.exists_below hb
    exact ⟨part', hsub.trans ⟨front, back, by rw [hinner, List.append_assoc]⟩, hcovers⟩

/-- The definitions lie before the end of the input. -/
theorem placed_document (h : Derives text links document) :
    Node.Placed (.document (document.node numbering)) where
  ordered := Nat.zero_le _
  apart := h.cuts.pairwise Node.Covers.bounds (List.pairwise_append.1 h.increasing).1
  encloses child hchild := by
    obtain ⟨front, part, back, hinner, hpart⟩ := h.cuts.exists_part hchild
    obtain ⟨-, -, last, hlast, -, hid⟩ := hpart.bounds.exists_mem
    have hlt : last.id < document.ending.link.id := (List.pairwise_append.1 h.increasing).2.2
      last (by rw [hinner]; simp [hlast]) document.ending.link (by simp)
    rw [hid] at hlt
    refine ⟨Nat.zero_le _, hlt.le, fun heq => ?_⟩
    rw [← heq] at hlt
    exact Nat.lt_irrefl _ hlt

theorem placed (h : Derives text links document)
    (hb : Node.Below (.document (document.node numbering)) node) : node.Placed := by
  by_cases hne : node = .document (document.node numbering)
  · rw [hne]
    exact h.placed_document
  · obtain ⟨part, hsub, hcovers⟩ := h.exists_covers hb hne
    exact hcovers.placed ((List.pairwise_append.1 h.increasing).1.sublist hsub.sublist)

theorem spells {tokens : TokenChain} (h : Derives text tokens.links document)
    (hb : Node.Below (.document (document.node numbering)) node) :
    node.Spells tokens.source tokens := by
  obtain ⟨first, hfirst, last, hlast, hf, hl⟩ : ∃ first ∈ tokens.links, ∃ last ∈ tokens.links,
      first.id = node.span.first ∧ last.id = node.span.last := by
    by_cases hne : node = .document (document.node numbering)
    · have hlast := h.last
      obtain ⟨first, rest, hlinks⟩ := List.exists_cons_of_ne_nil (l := tokens.links) (by
        rintro hnil
        rw [hnil] at hlast
        cases hlast)
      have horder := h.order
      rw [hlinks] at horder
      rw [hne]
      exact ⟨first, by simp [hlinks], document.ending.link, List.mem_of_getLast? hlast, horder.1, rfl⟩
    · obtain ⟨part, hsub, hcovers⟩ := h.exists_covers hb hne
      obtain ⟨first, hfirst, last, hlast, hids⟩ := hcovers.bounds.exists_mem
      exact ⟨first, (h.mem_inner (hsub.subset hfirst)).1, last,
        (h.mem_inner (hsub.subset hlast)).1, hids⟩
  have hspan : node.span = ⟨first.id, last.id⟩ := by rw [hf, hl]
  have hle := (h.placed hb).ordered
  rw [hspan] at hle
  unfold Node.Spells
  rw [hspan]
  exact ⟨first.token, last.token, TokenChain.get?_of_mem hfirst, TokenChain.get?_of_mem hlast,
    TokenChain.isSlice_text h.order hfirst hlast hle⟩

end Derives

namespace SyntaxTree

variable {text : String} {options : Options} {tree : SyntaxTree}

/-- In every tree that is read, the spans of the nodes lie within one another as the nodes do, and a
walk passes over them in order. -/
theorem ofText_wellSpanned (h : ofText text options = .ok tree) : tree.WellSpanned text := by
  obtain ⟨document, hnode, -, hderives⟩ := exists_derives h
  have hroot : tree.root = .document (document.node options.numbering) := by rw [root, hnode]
  have placed : ∀ node, tree.root.Below node → node.Placed := fun node hb =>
    hderives.placed (hroot ▸ hb)
  have below : ∀ visit ∈ tree.root.walk, tree.root.Below visit.node := fun visit hv =>
    Node.mem_walk.1 (List.mem_map_of_mem hv)
  refine ⟨fun _ => Node.mem_walk, ?_, ?_, fun visit hv => placed _ (below visit hv), ?_, ?_, ?_⟩
  · rw [Node.map_walk]
    exact Node.nodup_preorder placed
  · rw [Node.map_walk]
    exact Node.sorted_preorder placed
  · intro visit hv hne
    rw [hroot] at hne
    obtain ⟨part, hsub, hcovers⟩ := hderives.exists_covers (hroot ▸ below visit hv) hne
    exact hcovers.closed fun link hl => hderives.mem_inner (hsub.subset hl)
  · intro i visit hi
    obtain ⟨hnone, hsome⟩ := Node.parent_walk placed hi
    refine ⟨hnone, fun p hp => ?_⟩
    obtain ⟨hpi, up, hup, hmem, henc, hsmallest⟩ := hsome p hp
    exact ⟨hpi, up, hup, hmem, henc, fun other ho => hsmallest _ (below other ho)⟩
  · intro visit hv
    rw [← source_eq h]
    exact hderives.spells (hroot ▸ below visit hv)

theorem wellSpanned_sampleText :
    ∃ tree, ofText sampleText {} = .ok tree ∧ tree.WellSpanned sampleText := by
  obtain ⟨tree, h⟩ := exists_sampleTree
  exact ⟨tree, h, ofText_wellSpanned h⟩

end SyntaxTree

end ThriftSyntax
