import Mathlib.Data.List.Nodup
import ThriftSyntax.Proofs.Derivation.Terminal
import ThriftSyntax.Syntax.Node

/-!
# Tokens of a node

`node.Covers links` says that `links` are the significant tokens of a node: its span begins with the
first and ends with the last of them, its children cover runs of them one after the other, and it has
at least one token of its own. Where tokens are numbered in order, this places the span of a node
among those of its parent and its siblings.
-/

namespace ThriftSyntax

namespace Link

/-- The number of the last token, which is `last` if there is none. -/
def lastId (last : Nat) (links : List Link) : Nat := links.foldl (fun _ link => link.id) last

@[simp] theorem lastId_nil (last : Nat) : lastId last [] = last := rfl

@[simp] theorem lastId_cons (last : Nat) (link : Link) (links : List Link) :
    lastId last (link :: links) = lastId link.id links := rfl

@[simp] theorem lastId_append (last : Nat) (xs ys : List Link) :
    lastId last (xs ++ ys) = lastId (lastId last xs) ys := List.foldl_append

theorem lastId_getLastD (link : Link) (links : List Link) :
    lastId link.id links = (links.getLastD link).id := by
  induction links generalizing link with
  | nil => rfl
  | cons other links ih => rw [lastId_cons, ih, List.getLastD_cons]

/-- The tokens are numbered in order. -/
abbrev Increasing (links : List Link) : Prop := links.Pairwise (·.id < ·.id)

/-- The span begins with the first token and ends with the last. -/
def Bounds (links : List Link) (span : Span) : Prop :=
  ∃ first last, links.head? = some first ∧ links.getLast? = some last ∧ span = ⟨first.id, last.id⟩

theorem bounds_of_head? {links : List Link} {first : Link} (h : links.head? = some first)
    (last : Nat) : Bounds links ⟨first.id, lastId last links⟩ := by
  obtain ⟨rest, rfl⟩ := List.head?_eq_some_iff.1 h
  refine ⟨first, rest.getLastD first, rfl, ?_, ?_⟩
  · rw [List.getLast?_cons, List.getLastD_eq_getLast?]
  · rw [lastId_cons, lastId_getLastD]

variable {links front back : List Link} {span outer : Span}

/-- Every token lies within the bounds. -/
theorem Bounds.mem (h : Bounds links span) (hinc : Increasing links) {link : Link}
    (hl : link ∈ links) : span.first ≤ link.id ∧ link.id ≤ span.last := by
  obtain ⟨first, last, hfirst, hlast, rfl⟩ := h
  obtain ⟨rest, rfl⟩ := List.head?_eq_some_iff.1 hfirst
  constructor
  · obtain rfl | hl := List.mem_cons.1 hl
    · exact le_rfl
    · exact ((List.pairwise_cons.1 hinc).1 link hl).le
  · obtain ⟨init, hinit⟩ := List.getLast?_eq_some_iff.1 hlast
    rw [hinit] at hl hinc
    obtain hl | hl := List.mem_append.1 hl
    · exact ((List.pairwise_append.1 hinc).2.2 link hl last (by simp)).le
    · rw [List.mem_singleton.1 hl]

theorem Bounds.exists_mem (h : Bounds links span) :
    ∃ first ∈ links, ∃ last ∈ links, first.id = span.first ∧ last.id = span.last := by
  obtain ⟨first, last, hfirst, hlast, rfl⟩ := h
  exact ⟨first, List.mem_of_head? hfirst, last, List.mem_of_getLast? hlast, rfl, rfl⟩

theorem Bounds.first_le_last (h : Bounds links span) (hinc : Increasing links) :
    span.first ≤ span.last := by
  obtain ⟨first, hfirst, -, -, hid, -⟩ := h.exists_mem
  exact hid ▸ (h.mem hinc hfirst).2

/-- The bounds of a part lie within those of the whole, and on a side where something else stands
they lie strictly within. -/
theorem Bounds.within (h : Bounds links span) (ho : Bounds (front ++ (links ++ back)) outer)
    (hinc : Increasing (front ++ (links ++ back))) :
    (outer.first ≤ span.first ∧ span.last ≤ outer.last) ∧
      (front ≠ [] → outer.first < span.first) ∧ (back ≠ [] → span.last < outer.last) := by
  obtain ⟨first, hfirst, last, hlast, hf, hl⟩ := h.exists_mem
  obtain ⟨-, hrest, hacross⟩ := List.pairwise_append.1 hinc
  obtain ⟨-, -, hacross'⟩ := List.pairwise_append.1 hrest
  refine ⟨⟨?_, ?_⟩, fun hne => ?_, fun hne => ?_⟩
  · exact hf ▸ (ho.mem hinc (by simp [hfirst])).1
  · exact hl ▸ (ho.mem hinc (by simp [hlast])).2
  · obtain ⟨link, hlink⟩ := List.exists_mem_of_ne_nil front hne
    have := (ho.mem hinc (List.mem_append_left _ hlink)).1
    have := hacross link hlink first (by simp [hfirst])
    omega
  · obtain ⟨link, hlink⟩ := List.exists_mem_of_ne_nil back hne
    have hmem : link ∈ front ++ (links ++ back) := by simp [hlink]
    have := (ho.mem hinc hmem).2
    have := hacross' last hlast link hlink
    omega

end Link

/-- `links` are what `nodes` cover one after the other, with other tokens before, between and after
them. The same is said of terminals. -/
inductive Cuts {β : Type} (Covers : Node → List β → Prop) : List Node → List β → Prop where
  | nil : Cuts Covers [] []
  | own {nodes : List Node} {links : List β} (link : β) (h : Cuts Covers nodes links) :
      Cuts Covers nodes (link :: links)
  | part {node : Node} {nodes : List Node} {part links : List β} (hp : Covers node part)
      (h : Cuts Covers nodes links) : Cuts Covers (node :: nodes) (part ++ links)

namespace Node

/-- The separator that ends a node, if it keeps one. -/
def separator? : Node → Option Nat
  | const node => node.separator
  | typedef node => node.separator
  | enumElement node => node.separator
  | field node => node.separator
  | function node => node.separator
  | _ => none

/-- A comma or a semicolon. -/
def IsSeparator (kind : Kind) : Prop := kind = .punct .comma ∨ kind = .punct .semicolon

/-- `links` are the significant tokens of the node, `own` being one that belongs to no child. -/
inductive Covers : Node → List Link → Prop where
  | intro {node : Node} {before after : List Node} {front back : List Link} {own : Link}
      (bounds : Link.Bounds (front ++ own :: back) node.span)
      (parts : node.children = before ++ after) (head : Cuts Covers before front)
      (tail : Cuts Covers after back)
      (separator : ∀ id, node.separator? = some id →
        ∀ link ∈ (front ++ own :: back).getLast?, link.id = id ∧ IsSeparator link.kind) :
      Covers node (front ++ own :: back)

end Node

namespace Cuts

section

variable {β : Type} {Covers : Node → List β → Prop} {node : Node} {nodes more : List Node}
  {links tail : List β}

theorem of_own (links : List β) : Cuts Covers [] links := by
  induction links with
  | nil => exact .nil
  | cons link links ih => exact .own link ih

theorem append (h : Cuts Covers nodes links) (h' : Cuts Covers more tail) :
    Cuts Covers (nodes ++ more) (links ++ tail) := by
  induction h with
  | nil => exact h'
  | own link _ ih => exact .own link ih
  | part hp _ ih =>
    rw [List.cons_append, List.append_assoc]
    exact .part hp ih

theorem skip (own : List β) (h : Cuts Covers nodes links) : Cuts Covers nodes (own ++ links) :=
  (of_own own).append h

theorem skip_end (h : Cuts Covers nodes links) (own : List β) :
    Cuts Covers nodes (links ++ own) := by
  simpa using h.append (of_own own)

theorem single (h : Covers node links) : Cuts Covers [node] links := by
  simpa using Cuts.part h .nil

/-- Items in order, each of which is cut by nodes of its own. -/
theorem of_flatMap {α : Type} {items : List α} {nodes : α → List Node} {links : α → List β}
    (h : ∀ item ∈ items, Cuts Covers (nodes item) (links item)) :
    Cuts Covers (items.flatMap nodes) (items.flatMap links) := by
  induction items with
  | nil => exact .nil
  | cons item items ih =>
    obtain ⟨hitem, h⟩ := List.forall_mem_cons.1 h
    exact hitem.append (ih h)

theorem of_map {α : Type} {items : List α} {node : α → Node} {links : α → List β}
    (h : ∀ item ∈ items, Cuts Covers [node item] (links item)) :
    Cuts Covers (items.map node) (items.flatMap links) := by
  rw [List.map_eq_flatMap]
  exact of_flatMap h

/-- What one node covers is a run of the tokens. -/
theorem exists_part (h : Cuts Covers nodes links) (hn : node ∈ nodes) :
    ∃ front part back, links = front ++ (part ++ back) ∧ Covers node part := by
  induction h with
  | nil => cases hn
  | own link _ ih =>
    obtain ⟨front, part, back, rfl, hp⟩ := ih hn
    exact ⟨link :: front, part, back, rfl, hp⟩
  | @part other _ run _ hp _ ih =>
    obtain rfl | hn := List.mem_cons.1 hn
    · exact ⟨[], run, _, rfl, hp⟩
    · obtain ⟨front, part, back, rfl, hp'⟩ := ih hn
      exact ⟨run ++ front, part, back, by simp, hp'⟩

end

variable {Covers : Node → List Link → Prop} {nodes : List Node} {links : List Link}

/-- Nodes that cover runs of tokens in order have spans in order. -/
theorem pairwise (bounds : ∀ {node links}, Covers node links → Link.Bounds links node.span)
    (h : Cuts Covers nodes links) (hinc : Link.Increasing links) :
    nodes.Pairwise (·.span.last < ·.span.first) := by
  induction h with
  | nil => exact .nil
  | own link _ ih => exact ih (List.pairwise_cons.1 hinc).2
  | part hp h ih =>
    obtain ⟨-, hrest, hacross⟩ := List.pairwise_append.1 hinc
    refine List.pairwise_cons.2 ⟨fun other ho => ?_, ih hrest⟩
    obtain ⟨front, part, back, rfl, hp'⟩ := h.exists_part ho
    obtain ⟨-, -, last, hlast, -, hl⟩ := (bounds hp).exists_mem
    obtain ⟨first, hfirst, -, -, hf, -⟩ := (bounds hp').exists_mem
    rw [← hl, ← hf]
    exact hacross last hlast first (by simp [hfirst])

/-- Such nodes begin one after the other. -/
theorem pairwise_first (bounds : ∀ {node links}, Covers node links → Link.Bounds links node.span)
    (h : Cuts Covers nodes links) (hinc : Link.Increasing links) :
    nodes.Pairwise (·.span.first < ·.span.first) := by
  refine (h.pairwise bounds hinc).imp_of_mem fun {a b} ha _ hab => ?_
  obtain ⟨front, part, back, rfl, hp⟩ := h.exists_part ha
  have hpart := (List.pairwise_append.1 (List.pairwise_append.1 hinc).2.1).1
  exact lt_of_le_of_lt ((bounds hp).first_le_last hpart) hab

end Cuts

namespace Node

theorem Covers.bounds {node : Node} {links : List Link} (h : Covers node links) :
    Link.Bounds links node.span := by
  cases h with
  | intro bounds => exact bounds

theorem Covers.cuts {node : Node} {links : List Link} (h : Covers node links) :
    Cuts Covers node.children links := by
  cases h with
  | intro bounds parts head tail =>
    rw [parts]
    exact head.append (.own _ tail)

/-- Parts that begin one after the other are in the order that sorting gives. -/
theorem mergeSort_eq {nodes parts : List Node} (hperm : nodes.Perm parts)
    (hparts : parts.Pairwise (·.span.first < ·.span.first)) :
    (nodes.mergeSort fun a b => a.span.first ≤ b.span.first) = parts := by
  have hsort := List.mergeSort_perm nodes fun a b => decide (a.span.first ≤ b.span.first)
  have hnodup : (parts.map (·.span.first)).Nodup :=
    List.pairwise_map.2 (hparts.imp fun h => h.ne)
  have hsorted : (nodes.mergeSort fun a b => a.span.first ≤ b.span.first).Pairwise
      fun a b => decide (a.span.first ≤ b.span.first) = true := by
    refine List.pairwise_mergeSort (fun a b c hab hbc => ?_) (fun a b => ?_) nodes
    · simp only [decide_eq_true_eq] at *
      exact hab.trans hbc
    · simpa using le_total a.span.first b.span.first
  refine List.Perm.eq_of_pairwise (fun a b ha hb hab hba => ?_) hsorted
    (hparts.imp fun h => decide_eq_true h.le) (hsort.trans hperm)
  exact List.inj_on_of_nodup_map hnodup ((hsort.trans hperm).subset ha) hb
    (le_antisymm (of_decide_eq_true hab) (of_decide_eq_true hba))

end Node

end ThriftSyntax
