import ThriftSyntax.Proofs.Completeness.Service
import ThriftSyntax.Proofs.Index.Children
import ThriftSyntax.Proofs.Reindex
import ThriftSyntax.Proofs.Span.Part

/-!
# Lookups in a tree

In every tree that is read the indexes of structures, services and functions are exact, and what is
listed in one of them is found through no other.

A child that is listed is a field or a function. Of two that begin with the same token one lies below
the other; but no field lies below a field, no function below a function, and a field begins with a
number where a function does not. So each token begins one listed child at most, and that child is
listed once.
-/

namespace ThriftSyntax

/-- The same children, seen as something else. -/
def Children.map {α β : Type} (f : α → β) (children : Children α) : Children β :=
  ⟨children.items.map f, children.index⟩

/-! ## Exact indexes of nodes -/

section

variable (tokens : TokenChain)

structure Struct.Indexed (node : Struct) : Prop where
  exact : node.fields.index.Exact tokens Field.span Field.name node.fields.items
  finds : Finds tokens Field.span Field.name node.fields.items node.field? node.fieldByToken?

structure Service.Indexed (node : Service) : Prop where
  exact : node.functions.index.Exact tokens Function.span Function.name node.functions.items
  finds : Finds tokens Function.span Function.name node.functions.items node.function?
    node.functionByToken?

/-- A function that has no clause of exceptions finds none. -/
structure Function.Indexed (node : Function) : Prop where
  args_exact : node.args.index.Exact tokens Field.span Field.name node.args.items
  args_find : Finds tokens Field.span Field.name node.args.items node.arg? node.argByToken?
  throws_exact : ∀ throws ∈ node.throws,
    throws.index.Exact tokens Field.span Field.name throws.items
  throws_find : ∀ throws ∈ node.throws,
    Finds tokens Field.span Field.name throws.items node.throw? node.throwByToken?
  throws_miss : node.throws = none →
    (∀ name, node.throw? name = none) ∧ ∀ key, node.throwByToken? key = none

namespace Node

/-- Whatever indexes the node has are exact. -/
def Indexed : Node → Prop
  | struct node => node.Indexed tokens
  | service node => node.Indexed tokens
  | function node => node.Indexed tokens
  | _ => True

/-- The lists of children that the node has an index for. -/
def listings : Node → List (Children Node)
  | struct node => [node.fields.map field]
  | service node => [node.functions.map function]
  | function node => [node.args.map field, (node.throws.getD .empty).map field]
  | _ => []

end Node

end

namespace Node

variable {node child : Node} {tokens : TokenChain} {children : Children Node}

/-- The children that are listed are some of those of the node. -/
theorem exists_perm_listings (node : Node) :
    ∃ parts, parts.Perm node.children ∧ (node.listings.flatMap (·.items)).Sublist parts := by
  cases node with
  | struct node => exact ⟨_, .refl _, by simp [listings, Children.map, Node.children]⟩
  | service node => exact ⟨_, .refl _, by simp [listings, Children.map, Node.children]⟩
  | function node =>
    refine ⟨functionParts node, (List.mergeSort_perm _ _).symm, ?_⟩
    have hthrows : (node.throws.getD .empty).items = (node.throws.map (·.items)).getD [] := by
      cases node.throws <;> rfl
    simp only [listings, Children.map, hthrows, functionParts, List.flatMap_cons, List.flatMap_nil,
      List.append_nil]
    exact .append ((List.sublist_append_right _ _).trans (List.sublist_append_left _ _)) (.refl _)
  | _ => exact ⟨_, .refl _, List.nil_sublist _⟩

theorem mem_children_of_listed (h : children ∈ node.listings) (hc : child ∈ children.items) :
    child ∈ node.children := by
  obtain ⟨parts, hperm, hsub⟩ := node.exists_perm_listings
  exact hperm.mem_iff.1 (hsub.subset (List.mem_flatMap.2 ⟨children, h, hc⟩))

theorem nodup_listings {β : Type} {f : Node → β} (h : (node.children.map f).Nodup) :
    ((node.listings.flatMap (·.items)).map f).Nodup := by
  obtain ⟨parts, hperm, hsub⟩ := node.exists_perm_listings
  exact ((hperm.map f).nodup_iff.2 h).sublist (hsub.map f)

/-- One list of a node whose children have different keys. -/
theorem indexed_of_listed {α : Type} {f : α → Node} {span : α → Span} {name : α → String}
    {list : Children α} (h : list.map f ∈ node.listings) (hspan : ∀ item, (f item).span = span item)
    (hlist : Children.ofItems tokens span name list.items = list)
    (hsome : ∀ child ∈ node.children, (tokens.key? child.span.first).isSome)
    (hnodup : (node.children.map fun child => tokens.key? child.span.first).Nodup) :
    list.index.Exact tokens span name list.items ∧
      Finds tokens span name list.items list.byName? list.byToken? := by
  refine Children.indexed hlist (fun item hi => ?_) ?_
  · rw [← hspan]
    exact hsome _ (mem_children_of_listed h (List.mem_map_of_mem hi))
  · have hitems := nodup_listings hnodup
    rw [List.map_flatMap, List.nodup_flatMap] at hitems
    simpa [Children.map, Function.comp_def, hspan] using hitems.1 _ h

/-- The indexes of a node are exact if they have the keys of its tokens, and its children have
different ones. -/
theorem indexed (h : node.reindex tokens = node)
    (hsome : ∀ child ∈ node.children, (tokens.key? child.span.first).isSome)
    (hnodup : (node.children.map fun child => tokens.key? child.span.first).Nodup) :
    node.Indexed tokens := by
  cases node with
  | struct node =>
    obtain ⟨hexact, hfinds⟩ := indexed_of_listed (f := field) List.mem_cons_self (fun _ => rfl)
      (congrArg Struct.fields (struct.inj h)) hsome hnodup
    exact ⟨hexact, hfinds⟩
  | service node =>
    have hlist := congrArg Service.functions (service.inj h)
    have hitems : node.functions.items.map (Function.reindex tokens) = node.functions.items :=
      congrArg Children.items hlist
    rw [Service.reindex, hitems] at hlist
    obtain ⟨hexact, hfinds⟩ := indexed_of_listed (f := function) List.mem_cons_self (fun _ => rfl)
      hlist hsome hnodup
    exact ⟨hexact, hfinds⟩
  | function node =>
    obtain ⟨hexact, hfind⟩ := indexed_of_listed (f := field) List.mem_cons_self (fun _ => rfl)
      (congrArg Function.args (function.inj h)) hsome hnodup
    have hthrows : ∀ throws ∈ node.throws,
        throws.index.Exact tokens Field.span Field.name throws.items ∧
          Finds tokens Field.span Field.name throws.items throws.byName? throws.byToken? := by
      intro throws hsome'
      have hlist := congrArg Function.throws (function.inj h)
      have hlisted : throws.map field ∈ (function node).listings := by
        rw [listings, Option.mem_def.1 hsome', Option.getD_some]
        exact List.mem_cons_of_mem _ List.mem_cons_self
      rw [Function.reindex, Option.mem_def.1 hsome', Option.map_some] at hlist
      exact indexed_of_listed hlisted (fun _ => rfl) (Option.some.inj hlist) hsome hnodup
    refine ⟨hexact, hfind, fun throws ht => (hthrows throws ht).1, fun throws ht => ?_, fun hnone => ?_⟩
    · have hname : node.throw? = throws.byName? := by
        funext name
        rw [Function.throw?, Option.mem_def.1 ht, Option.bind_some]
      have hkey : node.throwByToken? = throws.byToken? := by
        funext key
        rw [Function.throwByToken?, Option.mem_def.1 ht, Option.bind_some]
      rw [hname, hkey]
      exact (hthrows throws ht).2
    · simp [Function.throw?, Function.throwByToken?, hnone]
  | _ => trivial

/-- Each list is one of fields or one of functions, and has an exact index. -/
theorem Indexed.listed (h : node.Indexed tokens) (hc : children ∈ node.listings) :
    (∃ list : Children Field, children = list.map field ∧
      list.index.Exact tokens Field.span Field.name list.items) ∨
    ∃ list : Children Function, children = list.map function ∧
      list.index.Exact tokens Function.span Function.name list.items := by
  cases node with
  | struct node => exact .inl ⟨_, List.mem_singleton.1 hc, h.exact⟩
  | service node => exact .inr ⟨_, List.mem_singleton.1 hc, h.exact⟩
  | function node =>
    obtain rfl | hc := List.mem_cons.1 hc
    · exact .inl ⟨_, rfl, h.args_exact⟩
    · refine .inl ⟨_, List.mem_singleton.1 hc, ?_⟩
      cases hthrows : node.throws with
      | none => exact Children.ofItems_exact (fun _ hitem => nomatch hitem) .nil
      | some throws => exact h.throws_exact throws hthrows
  | _ => cases hc

/-- What an index answers for is a child of its own list. -/
theorem Indexed.exists_child (h : node.Indexed tokens) (hc : children ∈ node.listings)
    {key : Token.Key} {i : Nat} (hi : children.index.byToken? key = some i) :
    ∃ child ∈ children.items, tokens.key? child.span.first = some key := by
  rcases h.listed hc with ⟨list, rfl, hexact⟩ | ⟨list, rfl, hexact⟩
  all_goals
    obtain ⟨item, hitem, hkey⟩ := (hexact.byToken? key i).1 hi
    exact ⟨_, List.mem_map_of_mem (List.mem_of_getElem? hitem), hkey⟩

/-! ## Which nodes lie below which -/

/-- Fields and functions are all that is listed. -/
theorem Indexed.field_or_function (h : node.Indexed tokens) (hc : children ∈ node.listings)
    (hchild : child ∈ children.items) :
    (∃ item, child = field item) ∨ ∃ item, child = function item := by
  rcases h.listed hc with ⟨list, rfl, -⟩ | ⟨list, rfl, -⟩
  · obtain ⟨item, -, rfl⟩ := List.mem_map.1 hchild
    exact .inl ⟨item, rfl⟩
  · obtain ⟨item, -, rfl⟩ := List.mem_map.1 hchild
    exact .inr ⟨item, rfl⟩

/-- How far listed nodes may lie below a node: under a field there are none, and under a function no
functions. -/
def rank : Node → Nat
  | fieldType _ | constValue _ | annotation _ => 0
  | field _ => 1
  | function _ => 2
  | _ => 3

theorem rank_child (h : child ∈ node.children) (hn : node.rank ≤ 2) :
    child.rank ≤ node.rank - 1 := by
  cases node with
  | annotation node => cases h
  | constValue node =>
    obtain ⟨part, -, rfl⟩ := List.mem_map.1 h
    exact Nat.zero_le _
  | fieldType node =>
    simp only [Node.children, List.mem_append, List.mem_map] at h
    obtain ⟨type, -, rfl⟩ | ⟨note, -, rfl⟩ := h
    all_goals exact Nat.zero_le _
  | field node =>
    simp only [Node.children, List.cons_append, List.mem_cons, List.mem_append, List.mem_map,
      Option.mem_toList, Option.map_eq_some_iff] at h
    obtain rfl | ⟨value, -, rfl⟩ | ⟨note, -, rfl⟩ := h
    all_goals exact Nat.zero_le _
  | function node =>
    rw [Node.children, List.mem_mergeSort] at h
    simp only [functionParts, List.mem_append, List.mem_map, Option.mem_toList,
      Option.map_eq_some_iff] at h
    obtain ((⟨type, -, rfl⟩ | ⟨arg, -, rfl⟩) | ⟨note, -, rfl⟩) | ⟨thrown, -, rfl⟩ := h
    all_goals simp [rank]
  | _ => simp [rank] at hn

theorem rank_below (h : node.Below child) (hn : node.rank ≤ 2) :
    node = child ∨ child.rank ≤ node.rank - 1 := by
  induction h with
  | refl => exact .inl rfl
  | @tail next child h hchild ih =>
    right
    obtain rfl | hle := ih
    · exact rank_child hchild hn
    · have := rank_child hchild (by omega)
      omega

/-- A field begins with a number, and a function with a word or a dot. -/
def OpensWith : Node → Kind → Prop
  | field _, kind => kind = .number
  | function _, kind => kind.StartsName
  | _, _ => True

/-- Of fields and functions, none that opens with the same token lies below another. -/
theorem eq_of_below {kind : Kind} (h : node.Below child)
    (hn : (∃ item, node = field item) ∨ ∃ item, node = function item)
    (hc : (∃ item, child = field item) ∨ ∃ item, child = function item)
    (hkn : node.OpensWith kind) (hkc : child.OpensWith kind) : node = child := by
  obtain ⟨item, rfl⟩ | ⟨item, rfl⟩ := hn
  · obtain heq | hrank := rank_below h (by simp [rank])
    · exact heq
    · obtain ⟨item, rfl⟩ | ⟨item, rfl⟩ := hc <;> cases hrank
  · obtain heq | hrank := rank_below h (by simp [rank])
    · exact heq
    · obtain ⟨item, rfl⟩ | ⟨item, rfl⟩ := hc
      · rw [OpensWith] at hkc
        rw [hkc] at hkn
        obtain hdot | hword := hkn
        · cases hdot
        · cases hword
      · simp [rank] at hrank

end Node

/-! ## The nodes of phrases -/

namespace Phrase

variable {numbering : Numbering} {node : Node} {xs : List Terminal} {chain : TokenChain}

theorem StandsFor.reindex_node (h : StandsFor numbering node xs)
    (hlinks : ∀ link ∈ tokens xs, link ∈ chain.links) : node.reindex chain = node := by
  cases h with
  | function phrase => exact congrArg Node.function (phrase.reindex_node hlinks)
  | definition phrase =>
    cases phrase with
    | struct phrase => exact congrArg Node.struct (phrase.reindex_node hlinks)
    | service phrase => exact congrArg Node.service (phrase.reindex_node hlinks)
    | _ => rfl
  | _ => rfl

theorem StandsFor.opensWith (h : StandsFor numbering node xs) :
    ∀ link ∈ (tokens xs).head?, node.OpensWith link.kind := by
  intro link hl
  cases h with
  | field phrase =>
    obtain rfl : phrase.id.link = link := Option.some.inj hl
    exact phrase.id.fits.1
  | function phrase =>
    obtain ⟨x, xs, hx, hhead⟩ := phrase.exists_terminals
    rw [hx] at hl
    obtain rfl : x.head = link := Option.some.inj hl
    rw [hhead]
    exact Grammar.startsName_function phrase
  | definition phrase => cases phrase <;> trivial
  | _ => trivial

end Phrase

namespace Derives

variable {text : List Char} {tokens : TokenChain} {document : Phrase.Document}
  {numbering : Numbering} {node node' child child' : Node}

/-- The token that a child begins with, and its key. -/
theorem exists_first (h : Derives text tokens.links document)
    (hb : Node.Below (.document (document.node numbering)) node) (hchild : child ∈ node.children) :
    ∃ link ∈ tokens.links, link.id = child.span.first ∧ link.kind ≠ .endOfInput ∧
      child.OpensWith link.kind ∧ tokens.key? child.span.first = some link.token.key := by
  have hne := Node.ne_of_child (fun _ => h.placed) hb hchild
  obtain ⟨part, hpart, hstands, hcovers⟩ := h.exists_standsFor (hb.tail hchild) hne
  obtain ⟨first, last, hfirst, -, hspan⟩ := hcovers.bounds
  obtain ⟨hmem, -, hend⟩ :=
    h.mem_inner ((Phrase.tokens_infix hpart).subset (List.mem_of_head? hfirst))
  refine ⟨first, hmem, by rw [hspan], hend, hstands.opensWith first hfirst, ?_⟩
  rw [hspan, TokenChain.key?_of_mem hmem]

/-- Children whose first tokens have the same key begin with the same token. -/
theorem first_eq_of_key (h : Derives text tokens.links document)
    (hb : Node.Below (.document (document.node numbering)) node) (hchild : child ∈ node.children)
    (hb' : Node.Below (.document (document.node numbering)) node')
    (hchild' : child' ∈ node'.children)
    (hkey : tokens.key? child.span.first = tokens.key? child'.span.first) :
    child.span.first = child'.span.first := by
  obtain ⟨x, hx, hxid, hxend, -, hxkey⟩ := h.exists_first hb hchild
  obtain ⟨y, hy, hyid, hyend, -, hykey⟩ := h.exists_first hb' hchild'
  rw [hxkey, hykey] at hkey
  rw [← hxid, ← hyid]
  exact TokenChain.id_eq_of_key h.order hx hy hxend hyend (Option.some.inj hkey)

theorem indexed (h : Derives text tokens.links document)
    (hb : Node.Below (.document (document.node numbering)) node) : node.Indexed tokens := by
  by_cases hne : node = .document (document.node numbering)
  · rw [hne]
    trivial
  obtain ⟨part, hpart, hstands, -⟩ := h.exists_standsFor hb hne
  have hreindex : node.reindex tokens = node := hstands.reindex_node fun link hl =>
    (h.mem_inner ((Phrase.tokens_infix hpart).subset hl)).1
  refine Node.indexed hreindex (fun child hc => ?_) ?_
  · obtain ⟨link, -, -, -, -, hkey⟩ := h.exists_first hb hc
    rw [hkey]
    rfl
  · have hfirst := Node.nodup_first fun other ho => h.placed (hb.trans ho)
    refine List.pairwise_map.2 ((List.pairwise_map.1 hfirst).imp_of_mem fun {a b} ha hb' hab => ?_)
    exact fun hkey => hab (h.first_eq_of_key hb ha hb hb' hkey)

/-- Listed children that begin with the same token are one. -/
theorem listed_eq (h : Derives text tokens.links document) {list list' : Children Node}
    (hb : Node.Below (.document (document.node numbering)) node) (hl : list ∈ node.listings)
    (hchild : child ∈ list.items)
    (hb' : Node.Below (.document (document.node numbering)) node') (hl' : list' ∈ node'.listings)
    (hchild' : child' ∈ list'.items) (hfirst : child.span.first = child'.span.first) :
    child = child' := by
  have hc := Node.mem_children_of_listed hl hchild
  have hc' := Node.mem_children_of_listed hl' hchild'
  have hsort := (h.indexed hb).field_or_function hl hchild
  have hsort' := (h.indexed hb').field_or_function hl' hchild'
  obtain ⟨x, hx, hxid, -, hxopens, -⟩ := h.exists_first hb hc
  obtain ⟨y, hy, hyid, -, hyopens, -⟩ := h.exists_first hb' hc'
  obtain rfl : x = y := by
    have hget := TokenChain.getElem?_links hx
    rw [hxid, hfirst, ← hyid, TokenChain.getElem?_links hy] at hget
    exact (Option.some.inj hget).symm
  have hspan := (h.placed (hb.tail hc)).ordered
  have hspan' := (h.placed (hb'.tail hc')).ordered
  obtain hbelow | hbelow := Node.below_of_overlap (fun _ => h.placed) (hb.tail hc) (hb'.tail hc')
    ⟨le_rfl, hspan⟩ ⟨hfirst.ge, hfirst ▸ hspan'⟩
  · exact Node.eq_of_below hbelow hsort hsort' hxopens hyopens
  · exact (Node.eq_of_below hbelow hsort' hsort hyopens hxopens).symm

end Derives

/-! ## Trees that are read -/

namespace SyntaxTree

/-- These are the children in the list `k` of the node `i` of a walk. -/
def Listed (tree : SyntaxTree) (i k : Nat) (children : Children Node) : Prop :=
  ∃ visit, tree.root.walk[i]? = some visit ∧ visit.node.listings[k]? = some children

/-- The lookups of a tree find what they should, and each list is found through its own index
alone. -/
structure Indexed (tree : SyntaxTree) : Prop where
  exact : ∀ visit ∈ tree.root.walk, visit.node.Indexed tree.tokens
  /-- The index that has the key of a child is that of its list. -/
  by_key : ∀ {i j k l children others}, tree.Listed i k children → tree.Listed j l others →
    ∀ child ∈ children.items, ∀ key slot, tree.tokens.key? child.span.first = some key →
      others.index.byToken? key = some slot → i = j ∧ k = l
  /-- The index through which a name finds a child is that of its list. -/
  by_name : ∀ {i j k l children others}, tree.Listed i k children → tree.Listed j l others →
    ∀ child ∈ children.items, ∀ name, others.byName? name = some child → i = j ∧ k = l

variable {text : String} {options : Options} {tree : SyntaxTree}

/-- No child is in two lists. -/
theorem list_unique (placed : ∀ node, tree.root.Below node → node.Placed) {i j k l : Nat}
    {children others : Children Node} {child : Node} (h : tree.Listed i k children)
    (h' : tree.Listed j l others) (hc : child ∈ children.items) (hc' : child ∈ others.items) :
    i = j ∧ k = l := by
  obtain ⟨a, ha, hchildren⟩ := h
  obtain ⟨b, hb, hothers⟩ := h'
  have hbelow := Node.below_of_getElem? ha
  have hbelow' := Node.below_of_getElem? hb
  have hmem := Node.mem_children_of_listed (List.mem_of_getElem? hchildren) hc
  have hmem' := Node.mem_children_of_listed (List.mem_of_getElem? hothers) hc'
  have hnode := Node.parent_unique placed hbelow hmem hbelow' hmem'
  constructor
  · have hnodup : (tree.root.walk.map Node.Visit.node).Nodup := by
      rw [Node.map_walk]
      exact Node.nodup_preorder placed
    have hlt := (List.getElem?_eq_some_iff.1 ha).1
    refine (List.getElem?_inj (by rwa [List.length_map]) hnodup).1 ?_
    rw [List.getElem?_map, List.getElem?_map, ha, hb, Option.map_some, Option.map_some, hnode]
  · rw [← hnode] at hothers
    have hfirst := Node.nodup_first fun other ho => placed other (hbelow.trans ho)
    exact eq_of_mem_flatMap (Node.nodup_listings hfirst).of_map hchildren hothers hc hc'

/-- In every tree that is read the indexes are exact, and none answers for what another lists. -/
theorem ofText_indexed (h : ofText text options = .ok tree) : tree.Indexed := by
  obtain ⟨document, hnode, -, hderives⟩ := exists_derives h
  have hroot : tree.root = .document (document.node options.numbering) := by rw [root, hnode]
  have placed : ∀ node, tree.root.Below node → node.Placed := fun node hb =>
    hderives.placed (hroot ▸ hb)
  refine ⟨fun visit hv => ?_, ?_, ?_⟩
  · exact hderives.indexed (hroot ▸ Node.mem_walk.1 (List.mem_map_of_mem hv))
  · intro i j k l children others hl hl' child hc key slot hkey hslot
    obtain ⟨a, ha, hchildren⟩ := id hl
    obtain ⟨b, hb, hothers⟩ := id hl'
    have hbelow := hroot ▸ Node.below_of_getElem? ha
    have hbelow' := hroot ▸ Node.below_of_getElem? hb
    have hlist := List.mem_of_getElem? hchildren
    have hlist' := List.mem_of_getElem? hothers
    obtain ⟨other, ho, hkey'⟩ := (hderives.indexed hbelow').exists_child hlist' hslot
    have hfirst := hderives.first_eq_of_key hbelow (Node.mem_children_of_listed hlist hc) hbelow'
      (Node.mem_children_of_listed hlist' ho) (hkey.trans hkey'.symm)
    obtain rfl := hderives.listed_eq hbelow hlist hc hbelow' hlist' ho hfirst
    exact list_unique placed hl hl' hc ho
  · intro i j k l children others hl hl' child hc name hname
    obtain ⟨slot, -, hslot⟩ := Option.bind_eq_some_iff.1 hname
    exact list_unique placed hl hl' hc (List.mem_of_getElem? hslot)

theorem indexed_sampleText : ∃ tree, ofText sampleText {} = .ok tree ∧ tree.Indexed := by
  obtain ⟨tree, h⟩ := exists_sampleTree
  exact ⟨tree, h, ofText_indexed h⟩

end SyntaxTree

end ThriftSyntax
