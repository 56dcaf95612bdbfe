import Mathlib.Data.List.Chain
import ThriftSyntax.Proofs.Span.Part

/-!
# Ids of enumerations

What id each element of an enumeration has, by what the tokens of the element say and by the way of
numbering. An element without a number follows the one before it, up to the greatest integer; the
elements after that one share it.
-/

namespace ThriftSyntax

/-! ## Written numbers -/

theorem Numeral.integer?_le {text : String} {n : Int} (h : integer? text = some n) :
    n ≤ maxInteger := by
  simp only [integer?, toInteger?, Option.ite_none_right_eq_some, Option.some.injEq] at h
  obtain ⟨-, -, ⟨-, hle⟩, rfl⟩ := h
  exact hle

/-- The number that is written after the name of the element and an equals sign. -/
def EnumElement.written? (tokens : TokenChain) (element : EnumElement) : Option Link :=
  match (tokens.significant element.span).dropWhile fun link =>
    link.kind.isWord false || link.kind = .punct .dot with
  | equals :: rest => if equals.kind = .punct .equals then rest.head? else none
  | [] => none

namespace Phrase

/-- What follows a name is not dropped with it. -/
theorem dropWhile_name {reserved : Bool} (name : Name reserved) (links : List Link) :
    (tokens name.terminals ++ links).dropWhile
        (fun link => link.kind.isWord reserved || link.kind = .punct .dot) =
      links.dropWhile fun link => link.kind.isWord reserved || link.kind = .punct .dot := by
  rw [List.dropWhile_append_of_pos]
  intro link hl
  rw [tokens_name] at hl
  obtain hd | hw := name.shaped.dot_or_word link hl
  · simp [hd]
  · simp [hw]

theorem Integer.exists_integer? (integer : Integer) :
    Numeral.integer? integer.link.raw = some integer.value := by
  obtain ⟨n, hn⟩ := Option.isSome_iff_exists.1 integer.fits.2
  rw [value, hn, Option.getD_some]

/-- The number of an element, as its tokens say. -/
theorem EnumElement.written?_eq (phrase : EnumElement) (id : Int) {tokens : TokenChain}
    (h : tokens.significant phrase.node.span = Phrase.tokens phrase.terminals) :
    ThriftSyntax.EnumElement.written? tokens { phrase.node with id } =
      phrase.assigned.map (·.number.link) := by
  rw [ThriftSyntax.EnumElement.written?, h, terminals, tokens_append, dropWhile_name]
  cases hassigned : phrase.assigned with
  | some assigned => simp [optional, Assigned.terminals, assigned.equals.fits, Kind.isWord]
  | none =>
    cases hannotations : phrase.annotations with
    | some annotations =>
      simp [optional, Annotations.terminals, annotations.opening.fits, Kind.isWord]
    | none =>
      cases hseparator : phrase.separator with
      | none => rfl
      | some separator =>
        rcases separator.fits with hk | hk <;> simp [optional, hk, Kind.isWord]

/-- Elements of phrases have written values within the limits. -/
theorem EnumElement.value_le (phrase : EnumElement) :
    ∀ n ∈ phrase.node.value, n ≤ Numeral.maxInteger := by
  rintro n hn
  obtain ⟨assigned, -, rfl⟩ := Option.map_eq_some_iff.1 hn
  exact Numeral.integer?_le assigned.number.exists_integer?

end Phrase

/-! ## Elements in sequence -/

namespace Numbering

variable {elements run : List EnumElement} {id : Int}

/-- `b` is the greater id, unless both are the greatest integer. -/
def Ascends (a b : Int) : Prop :=
  a < b ∧ b ≤ Numeral.maxInteger ∨ a = Numeral.maxInteger ∧ b = Numeral.maxInteger

theorem Ascends.trans {a b c : Int} (h : Ascends a b) (h' : Ascends b c) : Ascends a c := by
  unfold Ascends at *
  omega

theorem next_le (id : Int) : next id ≤ Numeral.maxInteger := by
  unfold next
  omega

theorem ascends_next (h : id ≤ Numeral.maxInteger) : Ascends id (next id) := by
  unfold Ascends next
  omega

/-- One more, but for the greatest integer. -/
theorem next_eq (h : id ≤ Numeral.maxInteger) :
    next id = if id = Numeral.maxInteger then Numeral.maxInteger else id + 1 := by
  unfold next
  split <;> omega

/-- The elements of a sequence that would begin with `id`: the id of each is the one written, or else
the next after the id before it. -/
structure Counted (id : Int) (elements : List EnumElement) : Prop where
  written : ∀ element ∈ elements, ∀ n ∈ element.value, element.id = n
  first : ∀ element ∈ elements.head?, element.value = none → element.id = id
  le : ∀ element ∈ elements, element.id ≤ Numeral.maxInteger
  next : elements.IsChain fun before after => after.value = none → after.id = next before.id

theorem counted_count (hid : id ≤ Numeral.maxInteger)
    (hle : ∀ element ∈ elements, ∀ n ∈ element.value, n ≤ Numeral.maxInteger) :
    Counted id (count id elements) := by
  induction elements generalizing id with
  | nil => exact ⟨by simp [count], by simp [count], by simp [count], .nil⟩
  | cons element elements ih =>
    obtain ⟨helement, hle⟩ := List.forall_mem_cons.1 hle
    have hown : element.value.getD id ≤ Numeral.maxInteger := by
      cases hvalue : element.value with
      | none => exact hid
      | some n => exact helement n hvalue
    have hrest := ih (next_le (element.value.getD id)) hle
    refine ⟨?_, ?_, ?_, ?_⟩
    · refine List.forall_mem_cons.2 ⟨fun n hn => ?_, hrest.written⟩
      rw [Option.mem_def.1 hn, Option.getD_some]
    · rintro _ ⟨⟩ hnone
      simp only at hnone
      rw [hnone, Option.getD_none]
    · exact List.forall_mem_cons.2 ⟨hown, hrest.le⟩
    · exact List.isChain_cons.2 ⟨hrest.first, hrest.next⟩

/-- The ids of neighbours without numbers ascend. -/
theorem Counted.ascends (h : Counted id elements) (hrun : run <:+: elements)
    (hnone : ∀ element ∈ run, element.value = none) :
    run.Pairwise fun a b => Ascends a.id b.id := by
  have : IsTrans EnumElement fun a b => Ascends a.id b.id := ⟨fun _ _ _ => Ascends.trans⟩
  have hchain := List.IsChain.infix h.next hrun
  refine List.IsChain.pairwise (hchain.imp_of_mem_imp fun a b ha hb hnext => ?_)
  rw [hnext (hnone b hb)]
  exact ascends_next (h.le a (hrun.subset ha))

end Numbering

/-! ## Enumerations of a tree -/

/-- How the elements of an enumeration are numbered, `tokens` being those of the text. -/
structure Enum.Numbered (numbering : Numbering) (tokens : TokenChain) (node : Enum) : Prop where
  /-- The id of an element with a number is that number. -/
  written : ∀ element ∈ node.elements, ∀ number ∈ element.written? tokens,
    Numeral.integer? number.raw = some element.id
  /-- An element keeps the number that is written for it, and no other. -/
  value : ∀ element ∈ node.elements,
    element.value = (element.written? tokens).map fun _ => element.id
  explicit : numbering = .explicit → ∀ element ∈ node.elements,
    element.written? tokens = none → element.id = 0
  first : numbering = .sequential → ∀ element ∈ node.elements.head?,
    element.written? tokens = none → element.id = 0
  next : numbering = .sequential → node.elements.IsChain fun before after =>
    after.written? tokens = none →
      after.id = if before.id = Numeral.maxInteger then Numeral.maxInteger else before.id + 1
  /-- Among neighbours without numbers, no two have the same id but the greatest integer, and a later
  id is greater. -/
  ascending : numbering = .sequential → ∀ run, run <:+: node.elements →
    (∀ element ∈ run, element.written? tokens = none) → run.Pairwise fun before after =>
      before.id < after.id ∨ before.id = Numeral.maxInteger ∧ after.id = Numeral.maxInteger

namespace Phrase

variable {numbering : Numbering}

/-- The node of an element is that of its phrase, whatever its id. -/
theorem StandsFor.exists_element {element : ThriftSyntax.EnumElement} {xs : List Terminal}
    (h : StandsFor numbering (.enumElement element) xs) :
    ∃ phrase : EnumElement, xs = phrase.terminals ∧ ∃ id, element = { phrase.node with id } := by
  generalize hnode : Node.enumElement element = node at h
  cases h with
  | enumElement phrase id =>
    cases hnode
    exact ⟨phrase, rfl, id, rfl⟩
  | definition phrase => cases phrase <;> cases hnode
  | annotation | fieldType | constValue | field | function => cases hnode

theorem Enum.counted (phrase : Enum) :
    Numbering.Counted 0 (phrase.node .sequential).elements := by
  refine Numbering.counted_count (by decide) fun _ helement => ?_
  obtain ⟨part, -, rfl⟩ := List.mem_map.1 helement
  exact part.value_le

theorem Enum.id_eq_getD (phrase : Enum) :
    ∀ element ∈ (phrase.node .explicit).elements, element.id = element.value.getD 0 := by
  rintro _ helement
  obtain ⟨part, -, rfl⟩ := List.mem_map.1 helement
  rfl

theorem Enum.id_eq_value (phrase : Enum) :
    ∀ element ∈ (phrase.node numbering).elements, ∀ n ∈ element.value, element.id = n := by
  cases numbering with
  | sequential => exact phrase.counted.written
  | explicit =>
    rintro element helement n hn
    rw [phrase.id_eq_getD element helement, Option.mem_def.1 hn, Option.getD_some]

/-- Elements whose tokens are those of phrases are numbered as the tokens say. -/
theorem Enum.numbered (phrase : Enum) {tokens : TokenChain}
    (h : ∀ element ∈ (phrase.node numbering).elements, ∃ part : EnumElement, ∃ id,
      element = { part.node with id } ∧
        element.written? tokens = part.assigned.map (·.number.link)) :
    (phrase.node numbering).Numbered numbering tokens := by
  have hnone : ∀ element ∈ (phrase.node numbering).elements,
      element.written? tokens = none → element.value = none := by
    rintro element helement hwritten
    obtain ⟨part, id, rfl, hpart⟩ := h element helement
    rw [hpart, Option.map_eq_none_iff] at hwritten
    exact Option.map_eq_none_iff.2 hwritten
  have hsome : ∀ element ∈ (phrase.node numbering).elements, ∀ number ∈ element.written? tokens,
      ∃ n ∈ element.value, Numeral.integer? number.raw = some n := by
    rintro element helement number hnumber
    obtain ⟨part, id, rfl, hpart⟩ := h element helement
    rw [hpart] at hnumber
    obtain ⟨assigned, hassigned, rfl⟩ := Option.map_eq_some_iff.1 hnumber
    exact ⟨_, Option.map_eq_some_iff.2 ⟨assigned, hassigned, rfl⟩,
      assigned.number.exists_integer?⟩
  refine ⟨fun element helement number hnumber => ?_, fun element helement => ?_, ?_, ?_, ?_, ?_⟩
  · obtain ⟨n, hvalue, hn⟩ := hsome element helement number hnumber
    rw [hn, phrase.id_eq_value element helement n hvalue]
  · cases hwritten : element.written? tokens with
    | none => exact hnone element helement hwritten
    | some number =>
      obtain ⟨n, hvalue, -⟩ := hsome element helement number hwritten
      rw [Option.map_some, phrase.id_eq_value element helement n hvalue]
      exact hvalue
  · rintro rfl element helement hwritten
    rw [phrase.id_eq_getD element helement, hnone element helement hwritten, Option.getD_none]
  · rintro rfl element helement hwritten
    exact phrase.counted.first element helement
      (hnone element (List.mem_of_head? helement) hwritten)
  · rintro rfl
    refine phrase.counted.next.imp_of_mem_imp fun before after hbefore hafter hnext hwritten => ?_
    rw [hnext (hnone after hafter hwritten), Numbering.next_eq (phrase.counted.le before hbefore)]
  · rintro rfl run hrun hwritten
    refine (phrase.counted.ascends hrun fun element helement =>
      hnone element (hrun.subset helement) (hwritten element helement)).imp fun hascends => ?_
    exact hascends.imp And.left id

end Phrase

namespace SyntaxTree

variable {text : String} {options : Options} {tree : SyntaxTree}

/-- The elements of every enumeration that is read are numbered: as it is written, with 0 or in
sequence. -/
theorem ofText_numbered (h : ofText text options = .ok tree) :
    ∀ node, Definition.enum node ∈ tree.document.definitions →
      node.Numbered options.numbering tree.tokens := by
  obtain ⟨document, hnode, -, hderives⟩ := exists_derives h
  intro node hmem
  rw [← hnode, Phrase.Document.node] at hmem
  obtain ⟨definition, hdefinition, heq⟩ := List.mem_map.1 hmem
  obtain ⟨phrase, rfl, rfl⟩ : ∃ phrase : Phrase.Enum,
      definition = .enum phrase ∧ phrase.node options.numbering = node := by
    cases definition <;> cases heq
    exact ⟨_, rfl, rfl⟩
  refine phrase.numbered fun element helement => ?_
  have hchild : Node.Below (.document (document.node options.numbering))
      (.enumElement element) := by
    refine .tail (.tail .refl (List.mem_map_of_mem hmem)) ?_
    exact List.mem_append_left _ (List.mem_map_of_mem helement)
  obtain ⟨part, hpart, hstands, hcovers⟩ := hderives.exists_standsFor hchild (by simp)
  obtain ⟨inner, rfl, id, rfl⟩ := hstands.exists_element
  exact ⟨inner, id, rfl, inner.written?_eq id (hderives.significant_eq hpart hcovers)⟩

/-- The written value and the id of each element of each enumeration. -/
def enumIds (tree : SyntaxTree) : List (List (Option Int × Int)) :=
  tree.document.definitions.filterMap fun definition =>
    match definition with
    | .enum node => some (node.elements.map fun element => (element.value, element.id))
    | _ => none

theorem exists_of_enumIds {ids : List (Option Int × Int)}
    (h : (ofText text options).toOption.map enumIds = some [ids]) :
    ∃ tree node, ofText text options = .ok tree ∧
      Definition.enum node ∈ tree.document.definitions ∧
      (node.elements.map fun element => (element.value, element.id)) = ids := by
  obtain ⟨tree, htree, heq⟩ := exists_of_map h
  have hids : ids ∈ tree.enumIds := by simp [heq]
  obtain ⟨definition, hdefinition, heq⟩ := List.mem_filterMap.1 hids
  cases definition <;> cases heq
  exact ⟨tree, _, htree, hdefinition, rfl⟩

/-- Elements with and without numbers, under either way of numbering. -/
theorem ofText_numbered_signs :
    (∃ tree node, ofText "enum E \x7b A, B = -2 C, D = 7; E \x7d" ⟨.sequential, .reject⟩ = .ok tree ∧
      Definition.enum node ∈ tree.document.definitions ∧
      (node.elements.map fun element => (element.value, element.id)) =
        [(none, 0), (some (-2), -2), (none, -1), (some 7, 7), (none, 8)] ∧
      node.Numbered .sequential tree.tokens) ∧
    ∃ tree node, ofText "enum E \x7b A, B = -2 C, D = 7; E \x7d" {} = .ok tree ∧
      Definition.enum node ∈ tree.document.definitions ∧
      (node.elements.map fun element => (element.value, element.id)) =
        [(none, 0), (some (-2), -2), (none, 0), (some 7, 7), (none, 0)] ∧
      node.Numbered .explicit tree.tokens := by
  have hsequential : (ofText "enum E \x7b A, B = -2 C, D = 7; E \x7d"
      ⟨.sequential, .reject⟩).toOption.map enumIds =
        some [[(none, 0), (some (-2), -2), (none, -1), (some 7, 7), (none, 8)]] := by
    decide +kernel
  have hexplicit : (ofText "enum E \x7b A, B = -2 C, D = 7; E \x7d" {}).toOption.map enumIds =
      some [[(none, 0), (some (-2), -2), (none, 0), (some 7, 7), (none, 0)]] := by
    decide +kernel
  obtain ⟨tree, node, h, hnode, hids⟩ := exists_of_enumIds hsequential
  obtain ⟨tree', node', h', hnode', hids'⟩ := exists_of_enumIds hexplicit
  exact ⟨⟨tree, node, h, hnode, hids, ofText_numbered h node hnode⟩,
    tree', node', h', hnode', hids', ofText_numbered h' node' hnode'⟩

/-- At the greatest integer there is no greater id for the next element, so that two elements without
numbers share one. -/
theorem ofText_numbered_greatest :
    ∃ tree node before after,
      ofText "enum E \x7b A = 9223372036854775806, B, C \x7d" ⟨.sequential, .reject⟩ = .ok tree ∧
      Definition.enum node ∈ tree.document.definitions ∧ [before, after] <:+: node.elements ∧
      before.value = none ∧ after.value = none ∧ before.id = after.id ∧
      ¬ after.id = before.id + 1 := by
  have hrun : (ofText "enum E \x7b A = 9223372036854775806, B, C \x7d"
      ⟨.sequential, .reject⟩).toOption.map enumIds =
        some [[(some 9223372036854775806, 9223372036854775806), (none, 9223372036854775807),
          (none, 9223372036854775807)]] := by
    decide +kernel
  obtain ⟨tree, node, h, hnode, hids⟩ := exists_of_enumIds hrun
  obtain ⟨first, rest, hnode', hfirst, hrest⟩ := List.map_eq_cons_iff.1 hids
  obtain ⟨before, rest', rfl, hbefore, hrest'⟩ := List.map_eq_cons_iff.1 hrest
  obtain ⟨after, rest'', rfl, hafter, hnil⟩ := List.map_eq_cons_iff.1 hrest'
  obtain rfl := List.map_eq_nil_iff.1 hnil
  simp only [Prod.mk.injEq] at hbefore hafter
  refine ⟨tree, node, before, after, h, hnode, ⟨[first], [], by simp [hnode']⟩, hbefore.1,
    hafter.1, ?_⟩
  omega

end SyntaxTree

end ThriftSyntax
