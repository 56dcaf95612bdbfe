import ThriftSyntax.Proofs.Juxtaposition.Basic
import ThriftSyntax.Proofs.Span.Tree

/-!
# Where a word may come right after a number

In every tree that is read, a number and a word with nothing between them belong to two parts of one
node. Fields end with no number before a word, since the next begins with its own number; types, names
and annotations have no numbers at all; and what remains are the places of `Node.Splits`.
-/

namespace ThriftSyntax

namespace Phrase

variable {Place : Nat → Nat → Prop} {xs ys : List Terminal}

/-! ## Values -/

theorem first_id {node : Node} (h : node.Covers (tokens xs)) :
    ∀ link ∈ (tokens (xs ++ ys)).head?, node.span.first = link.id := by
  intro link hl
  obtain ⟨first, last, hfirst, -, hspan⟩ := h.bounds
  rw [tokens_append, List.head?_append, hfirst] at hl
  obtain rfl : first = link := Option.some.inj hl
  rw [hspan]

theorem ne_nil_of_covers {node : Node} (h : node.Covers (tokens xs)) : tokens xs ≠ [] := by
  obtain ⟨first, last, hfirst, -, -⟩ := h.bounds
  intro heq
  rw [heq] at hfirst
  cases hfirst

theorem last_id {node : Node} (h : node.Covers (tokens xs)) :
    ∀ link ∈ (tokens xs).getLast?, node.span.last = link.id := by
  intro link hl
  obtain ⟨first, last, -, hlast, hspan⟩ := h.bounds
  obtain rfl : last = link := Option.some.inj (hlast.symm.trans hl)
  rw [hspan]

namespace ConstValue

/-- Only a number ends with a number. -/
theorem number_of_last (value : ConstValue) {link : Link}
    (hl : link ∈ (tokens value.terminals).getLast?) (hk : link.kind = .number) :
    ∃ form text, value.node = .scalar form text (.single link.id) := by
  have absurd_of_shut (hshut : Shut value.terminals) :
      ∃ form text, value.node = .scalar form text (.single link.id) := absurd hk (hshut link hl)
  cases value with
  | number numeral =>
    cases hl
    exact ⟨_, _, rfl⟩
  | string literal => exact absurd_of_shut (numberless_literal literal).shut
  | name reference proper => exact absurd_of_shut (numberless_name reference).shut
  | list opening items closing =>
    have hclosing : Shut closing.terminals := (numberless_mark closing).shut
    exact absurd_of_shut ((hclosing.append_of_ne (by simp)).append_of_ne (by simp))
  | map opening entries closing =>
    have hclosing : Shut closing.terminals := (numberless_mark closing).shut
    exact absurd_of_shut ((hclosing.append_of_ne (by simp)).append_of_ne (by simp))

/-- A value with its separator ends with a number only if it is one and there is no separator. -/
theorem number_of_last_separated (item : Separated ConstValue) {link : Link}
    (hl : link ∈ (tokens (item.terminals terminals)).getLast?) (hk : link.kind = .number) :
    ∃ form text, item.phrase.node = .scalar form text (.single link.id) := by
  obtain ⟨value, separator⟩ := item
  cases separator with
  | none =>
    refine value.number_of_last ?_ hk
    simpa [Separated.terminals, optional] using hl
  | some separator =>
    have hshut : Shut (value.terminals ++ separator.terminals) :=
      (numberless_separator separator).shut.append_of_ne (by simp)
    exact absurd hk (hshut link hl)

theorem parted_separated {node : Node} {item : Separated ConstValue}
    (h : Parted (Node.constValue item.phrase.node).Parts item.phrase.terminals)
    (hchild : .constValue item.phrase.node ∈ node.children) :
    Parted node.Parts (item.terminals terminals) :=
  (h.mono fun _ _ h => h.of_child hchild).append (detached_separator item.separator)

theorem ne_nil_separated (item : Separated ConstValue) : tokens (item.terminals terminals) ≠ [] := by
  rw [Separated.terminals, tokens_append]
  exact List.append_ne_nil_of_left_ne_nil (ne_nil_of_covers item.phrase.covers) _

/-- Within a value a word comes right after a number only between two items of a list or two entries
of a map. -/
theorem parted (value : ConstValue) :
    Parted (Node.constValue value.node).Parts value.terminals := by
  induction value using ConstValue.induction with
  | number numeral => exact .singleton _
  | string literal => exact (numberless_literal literal).parted
  | name reference proper => exact (numberless_name reference).parted
  | list opening items closing ih =>
    rw [terminals, itemsTerminals_eq]
    refine (numberless_mark opening).parted_append (.append ?_ (.mark_last closing))
    refine parted_flatMap (fun item hitem => ⟨ne_nil_separated item, ?_⟩)
      fun front item next back heq link hl word hw hk _ => ?_
    · refine parted_separated (ih item hitem) (List.mem_map_of_mem ?_)
      rw [node, itemNodes_eq]
      exact List.mem_map_of_mem hitem
    · obtain ⟨form, text, hnumber⟩ := number_of_last_separated item hl hk
      have hitems : itemNodes items = front.map (·.phrase.node) ++
          .scalar form text (.single link.id) :: next.phrase.node :: back.map (·.phrase.node) := by
        rw [itemNodes_eq, heq, List.map_append, List.map_cons, List.map_cons, hnumber]
      exact ⟨_, .refl, .items hitems (first_id next.phrase.covers word hw)⟩
  | map opening entries closing ih =>
    rw [terminals, entriesTerminals_eq]
    refine (numberless_mark opening).parted_append (.append ?_ (.mark_last closing))
    refine parted_flatMap (fun entry hentry => ?_)
      fun front entry next back heq link hl word hw hk _ => ?_
    · obtain ⟨hkey, hvalue⟩ := ih entry hentry
      have hparts : ∀ value ∈ [entry.1.node, entry.2.2.phrase.node],
          Node.constValue value ∈
            Node.children (.constValue (map opening entries closing).node) := by
        intro value hmem
        refine List.mem_map_of_mem ?_
        rw [node, entryNodes_eq]
        exact List.mem_flatMap.2 ⟨entry.node, List.mem_map_of_mem hentry, hmem⟩
      refine ⟨?_, .append (hkey.mono fun _ _ h => h.of_child (hparts _ (by simp)))
        (.mark entry.2.1 (parted_separated hvalue (hparts _ (by simp))))⟩
      rw [Entry.terminals, tokens_append]
      exact List.append_ne_nil_of_left_ne_nil (ne_nil_of_covers entry.1.covers) _
    · have hl' : link ∈ (tokens (entry.2.2.terminals terminals)).getLast? := by
        have hne := ne_nil_separated entry.2.2
        rwa [Entry.terminals, getLast?_append_of_ne (by simp), getLast?_append_of_ne hne] at hl
      obtain ⟨form, text, hnumber⟩ := number_of_last_separated entry.2.2 hl' hk
      have hentries : entryNodes entries = front.map Entry.node ++
          (entry.1.node, .scalar form text (.single link.id)) ::
            (next.1.node, next.2.2.phrase.node) :: back.map Entry.node := by
        rw [entryNodes_eq, heq, List.map_append, List.map_cons, List.map_cons, Entry.node, hnumber]
        rfl
      exact ⟨_, .refl, .entries hentries (first_id next.1.covers word hw)⟩

end ConstValue

/-! ## Fields and functions -/

theorem Field.detached (phrase : Field) :
    Detached (Node.field phrase.node).Parts phrase.terminals where
  parted := by
    have hdefault : Detached (Node.field phrase.node).Parts
        (optional Default.terminals phrase.default) := by
      refine .optional fun default hd => .mark default.equals ?_
      refine default.value.parted.mono fun _ _ h => h.of_child ?_
      simp [Node.children, node, Option.mem_def.1 hd]
    have hdemand : Numberless (optional Demand.terminals phrase.demand) :=
      .optional fun demand _ => numberless_word demand.word
    refine Parted.append (.singleton _) (.mark phrase.colon (hdemand.parted_append
      (phrase.type.numberless.parted_append ((numberless_name phrase.name).parted_append ?_))))
    exact (hdefault.append
      ((detached_annotations phrase.annotations).append (detached_separator phrase.separator))).parted
  head := by
    rintro _ ⟨⟩
    exact congrArg (Kind.isWord true) phrase.id.fits.1

theorem Field.detached_all {node : Node} {phrases : List Field}
    (h : ∀ phrase ∈ phrases, Node.field phrase.node ∈ node.children) :
    Detached node.Parts (phrases.flatMap Field.terminals) :=
  .flatMap fun phrase hphrase =>
    ⟨phrase.detached.parted.mono fun _ _ hp => hp.of_child (h phrase hphrase), phrase.detached.head⟩

theorem Throws.parted {node : Node} {phrase : Throws}
    (h : ∀ field ∈ phrase.fields, Node.field field.node ∈ node.children) :
    Parted node.Parts phrase.terminals :=
  (numberless_word phrase.word).parted_append ((numberless_mark phrase.opening).parted_append
    ((Field.detached_all h).parted.append (.mark_last phrase.closing)))

theorem Throws.shut (phrase : Throws) : Shut phrase.terminals := by
  have hclosing : Shut phrase.closing.terminals := (numberless_mark phrase.closing).shut
  exact ((hclosing.append_of_ne (by simp)).append_of_ne (by simp)).append_of_ne (by simp)

theorem FunctionTail.parted {node : Node} {phrase : FunctionTail}
    (h : ∀ throws ∈ phrase.throws, ∀ field ∈ throws.fields,
      Node.field field.node ∈ node.children) : Parted node.Parts phrase.terminals := by
  cases phrase with
  | none => exact .nil
  | annotated annotations throws =>
    refine (numberless_annotations (some annotations)).parted_append ?_
    cases throws with
    | none => exact .nil
    | some throws => exact throws.parted (h throws rfl)
  | throwing throws annotations =>
    exact (throws.parted (h throws rfl)).append (detached_annotations annotations)

theorem FunctionTail.shut (phrase : FunctionTail) : Shut phrase.terminals := by
  cases phrase with
  | none => exact Numberless.nil.shut
  | annotated annotations throws =>
    refine (numberless_annotations (some annotations)).shut.append ?_
    cases throws with
    | none => exact Numberless.nil.shut
    | some throws => exact throws.shut
  | throwing throws annotations =>
    exact throws.shut.append (numberless_annotations annotations).shut

theorem Function.parted (phrase : Function) :
    Parted (Node.function phrase.node).Parts phrase.terminals := by
  have hargs : ∀ field ∈ phrase.args,
      Node.field field.node ∈ Node.children (.function phrase.node) := by
    intro field hfield
    refine List.mem_mergeSort.2 ?_
    have : field.node ∈ (Field.children phrase.args).items := List.mem_map_of_mem hfield
    simp [Node.functionParts, node, this]
  have hthrows : ∀ throws ∈ phrase.tail.throws, ∀ field ∈ throws.fields,
      Node.field field.node ∈ Node.children (.function phrase.node) := by
    intro throws ht field hfield
    refine List.mem_mergeSort.2 ?_
    have : field.node ∈ (Field.children throws.fields).items := List.mem_map_of_mem hfield
    simp [Node.functionParts, node, Option.mem_def.1 ht, this]
  have honeway : Numberless (optional Leaf.terminals phrase.oneway) :=
    .optional fun word _ => numberless_word word
  exact honeway.parted_append (phrase.result.numberless.parted_append
    ((numberless_name phrase.name).parted_append ((numberless_mark phrase.opening).parted_append
      ((Field.detached_all hargs).parted.append (.mark phrase.closing
        ((FunctionTail.parted hthrows).append (detached_separator phrase.separator)))))))

theorem Function.shut (phrase : Function) : Shut phrase.terminals := by
  have hclosing : Shut phrase.closing.terminals := (numberless_mark phrase.closing).shut
  have hseparator : Shut (optional Leaf.terminals phrase.separator) :=
    (Numberless.optional fun separator _ => numberless_separator separator).shut
  have hend := hclosing.append (phrase.tail.shut.append hseparator)
  exact ((((hend.append_of_ne (by simp)).append_of_ne (by simp)).append_of_ne (by simp)).append_of_ne
    (by simp)).append_of_ne (by simp)

/-! ## Definitions -/

theorem Const.number_of_last (phrase : Const) {link : Link}
    (hl : link ∈ (tokens phrase.terminals).getLast?) (hk : link.kind = .number) :
    ∃ form text, phrase.node.value = .scalar form text (.single link.id) := by
  have hne : tokens (phrase.value.terminals ++ optional Leaf.terminals phrase.separator) ≠ [] :=
    ConstValue.ne_nil_separated ⟨phrase.value, phrase.separator⟩
  rw [terminals, getLast?_append_of_ne (by simp), getLast?_append_of_ne (by simp),
    getLast?_append_of_ne (by simp), getLast?_append_of_ne hne] at hl
  exact ConstValue.number_of_last_separated ⟨phrase.value, phrase.separator⟩ hl hk

theorem Const.parted (phrase : Const) : Parted (Node.const phrase.node).Parts phrase.terminals := by
  have hvalue : Parted (Node.const phrase.node).Parts phrase.value.terminals :=
    phrase.value.parted.mono fun _ _ h => h.of_child (by simp [Node.children, node])
  exact (numberless_word phrase.word).parted_append (phrase.type.numberless.parted_append
    ((numberless_name phrase.name).parted_append ((numberless_mark phrase.equals).parted_append
      (hvalue.append (detached_separator phrase.separator)))))

theorem TypeDef.numberless (phrase : TypeDef) : Numberless phrase.terminals :=
  (numberless_word phrase.word).append (phrase.type.numberless.append
    ((numberless_name phrase.name).append ((numberless_annotations phrase.annotations).append
      (.optional fun separator _ => numberless_separator separator))))

theorem Namespace.numberless (phrase : Namespace) : Numberless phrase.terminals := by
  have hscope : Numberless phrase.scope.terminals := by
    cases phrase.scope with
    | all star => exact numberless_mark star
    | name scope => exact numberless_name scope
  exact (numberless_word phrase.word).append (hscope.append
    ((numberless_name phrase.target).append (numberless_annotations phrase.annotations)))

theorem Include.numberless (phrase : Include) : Numberless phrase.terminals :=
  (numberless_word phrase.word).append (numberless_literal phrase.path)

namespace EnumElement

theorem parted (phrase : EnumElement) : Parted Place phrase.terminals := by
  have hassigned : Parted Place (optional Assigned.terminals phrase.assigned) := by
    cases phrase.assigned with
    | none => exact .nil
    | some assigned => exact (numberless_mark assigned.equals).parted_append (.singleton _)
  exact (numberless_name phrase.name).parted_append (hassigned.append
    ((detached_annotations phrase.annotations).append (detached_separator phrase.separator)))

/-- An element ends with a number only if its value is written. -/
theorem written_of_last (phrase : EnumElement) {link : Link}
    (hl : link ∈ (tokens phrase.terminals).getLast?) (hk : link.kind = .number) :
    phrase.node.value.isSome := by
  cases hassigned : phrase.assigned with
  | some assigned => simp [node, hassigned]
  | none =>
    have hnumberless : Numberless phrase.terminals := by
      rw [terminals, hassigned]
      exact (numberless_name phrase.name).append (Numberless.nil.append
        ((numberless_annotations phrase.annotations).append
          (.optional fun separator _ => numberless_separator separator)))
    exact absurd hk (hnumberless.shut link hl)

theorem ne_nil (phrase : EnumElement) : tokens phrase.terminals ≠ [] :=
  ne_nil_of_covers (phrase.covers 0)

end EnumElement

end Phrase

/-- The numbers that elements are given leave everything else of them as it is. -/
theorem Numbering.map_assign {α : Type} {f : EnumElement → α}
    (hf : ∀ element id, f { element with id } = f element) (numbering : Numbering)
    (elements : List EnumElement) : (numbering.assign elements).map f = elements.map f := by
  have hcount : ∀ id, (count id elements).map f = elements.map f := by
    induction elements with
    | nil => exact fun _ => rfl
    | cons element elements ih =>
      intro id
      rw [count, List.map_cons, List.map_cons, hf, ih]
  cases numbering with
  | explicit =>
    rw [assign, List.map_map]
    exact List.map_congr_left fun element _ => hf element _
  | sequential => exact hcount 0

namespace Phrase

variable {numbering : Numbering}

/-- Two elements of an enumeration that follow one another. -/
theorem Enum.splits (phrase : Enum) {front back : List EnumElement} {element next : EnumElement}
    (heq : phrase.elements = front ++ element :: next :: back) (hwritten : element.node.value.isSome) :
    (Node.enum (phrase.node numbering)).Splits element.node.span.last next.node.span.first := by
  have hmap := Numbering.map_assign (f := fun element => (element.value, element.span))
    (fun _ _ => rfl) numbering (phrase.elements.map EnumElement.node)
  rw [heq, List.map_append, List.map_cons, List.map_cons, List.map_append, List.map_cons,
    List.map_cons] at hmap
  obtain ⟨front', rest, hassign, -, hrest⟩ := List.map_eq_append_iff.1 hmap
  obtain ⟨element', rest', rfl, helement, hrest⟩ := List.map_eq_cons_iff.1 hrest
  obtain ⟨next', back', rfl, hnext, -⟩ := List.map_eq_cons_iff.1 hrest
  obtain ⟨hvalue, hspan⟩ := Prod.mk.inj helement
  obtain ⟨-, hspan'⟩ := Prod.mk.inj hnext
  have helements : (phrase.node numbering).elements = front' ++ element' :: next' :: back' := by
    rw [node, heq, List.map_append, List.map_cons, List.map_cons, hassign]
  rw [← hspan, ← hspan']
  exact .elements helements (hvalue ▸ hwritten) rfl rfl

theorem Enum.parted (phrase : Enum) :
    Parted (Node.enum (phrase.node numbering)).Parts phrase.terminals := by
  refine (numberless_word phrase.word).parted_append ((numberless_name phrase.name).parted_append
    ((numberless_mark phrase.opening).parted_append (.append ?_ (.mark phrase.closing
      (numberless_annotations phrase.annotations).parted))))
  refine parted_flatMap (fun element _ => ⟨element.ne_nil, element.parted⟩)
    fun front element next back heq link hl word hw hk _ => ?_
  have hsplits : (Node.enum (phrase.node numbering)).Splits element.node.span.last next.node.span.first :=
    phrase.splits heq (element.written_of_last hl hk)
  have hlast : element.node.span.last = link.id := last_id (element.covers 0) link hl
  have hfirst : next.node.span.first = word.id :=
    first_id (next.covers 0) word (by rwa [List.append_nil])
  rw [hlast, hfirst] at hsplits
  exact ⟨_, .refl, hsplits⟩

theorem Struct.parted (phrase : Struct) :
    Parted (Node.struct phrase.node).Parts phrase.terminals := by
  have hfields : ∀ field ∈ phrase.fields,
      Node.field field.node ∈ Node.children (.struct phrase.node) := by
    intro field hfield
    have : field.node ∈ (Field.children phrase.fields).items := List.mem_map_of_mem hfield
    simp [Node.children, node, this]
  exact (numberless_word phrase.word).parted_append ((numberless_name phrase.name).parted_append
    ((numberless_mark phrase.opening).parted_append ((Field.detached_all hfields).parted.append
      (.mark phrase.closing (numberless_annotations phrase.annotations).parted))))

theorem Service.parted (phrase : Service) :
    Parted (Node.service phrase.node).Parts phrase.terminals := by
  have hbase : Numberless (optional Base.terminals phrase.base) :=
    .optional fun base _ => (numberless_particle base.particle).append (numberless_name base.name)
  refine (numberless_word phrase.word).parted_append ((numberless_name phrase.name).parted_append
    (hbase.parted_append ((numberless_mark phrase.opening).parted_append (.append ?_
      (.mark phrase.closing (numberless_annotations phrase.annotations).parted)))))
  refine .flatMap_shut fun function hfunction => ⟨function.shut, ?_⟩
  refine function.parted.mono fun _ _ h => h.of_child ?_
  have : function.node ∈ (Function.children phrase.functions).items :=
    List.mem_map_of_mem hfunction
  simp [Node.children, node, this]

namespace Definition

theorem parted (phrase : Definition) :
    Parted (Node.ofDefinition (phrase.node numbering)).Parts phrase.terminals := by
  cases phrase with
  | namespaced phrase => exact phrase.numberless.parted
  | included phrase => exact phrase.numberless.parted
  | const phrase => exact phrase.parted
  | typedef phrase => exact phrase.numberless.parted
  | enum phrase => exact phrase.parted
  | struct phrase => exact phrase.parted
  | service phrase => exact phrase.parted

/-- Only a constant ends with a number. -/
theorem const_of_last (phrase : Definition) {link : Link}
    (hl : link ∈ (tokens phrase.terminals).getLast?) (hk : link.kind = .number) :
    ∃ const, phrase = .const const := by
  have absurd_of_shut (hshut : Shut phrase.terminals) : ∃ const, phrase = .const const :=
    absurd hk (hshut link hl)
  have hbody {closing : Mark .rightBrace} (annotations : Option Annotations) :
      Shut (closing.terminals ++ optional Annotations.terminals annotations) :=
    ((numberless_mark closing).append (numberless_annotations annotations)).shut
  cases phrase with
  | namespaced phrase => exact absurd_of_shut phrase.numberless.shut
  | included phrase => exact absurd_of_shut phrase.numberless.shut
  | const phrase => exact ⟨phrase, rfl⟩
  | typedef phrase => exact absurd_of_shut phrase.numberless.shut
  | enum phrase =>
    exact absurd_of_shut (((((hbody phrase.annotations).append_of_ne (by simp)).append_of_ne
      (by simp)).append_of_ne (by simp)).append_of_ne (by simp))
  | struct phrase =>
    exact absurd_of_shut (((((hbody phrase.annotations).append_of_ne (by simp)).append_of_ne
      (by simp)).append_of_ne (by simp)).append_of_ne (by simp))
  | service phrase =>
    exact absurd_of_shut ((((((hbody phrase.annotations).append_of_ne (by simp)).append_of_ne
      (by simp)).append_of_ne (by simp)).append_of_ne (by simp)).append_of_ne (by simp))

end Definition

/-- In a document a word comes right after a number only where the two are parted. -/
theorem Document.parted (phrase : Document)
    (hinc : Link.Increasing (tokens (phrase.definitions.flatMap Definition.terminals))) :
    Parted (Node.document (phrase.node numbering)).Parts phrase.terminals := by
  rw [tokens_flatMap] at hinc
  have hcovers : ∀ definition ∈ phrase.definitions,
      Node.Covers (.ofDefinition (definition.node numbering)) (tokens definition.terminals) :=
    fun definition hd =>
      definition.covers numbering ((List.pairwise_flatMap.1 hinc).1 definition hd)
  have hending : Detached (Node.document (phrase.node numbering)).Parts phrase.ending.terminals := by
    refine ⟨.singleton _, ?_⟩
    rintro _ ⟨⟩
    exact congrArg (Kind.isWord true) phrase.ending.fits
  refine Parted.append ?_ hending
  refine parted_flatMap (fun definition hd => ⟨ne_nil_of_covers (hcovers definition hd), ?_⟩)
    fun front definition next back heq link hl word hw hk _ => ?_
  · exact definition.parted.mono fun _ _ h => h.of_child (List.mem_map_of_mem (List.mem_map_of_mem hd))
  · obtain ⟨const, rfl⟩ := definition.const_of_last hl hk
    obtain ⟨form, text, hnumber⟩ := const.number_of_last hl hk
    have hlast := last_id (hcovers (.const const) (by simp [heq])) link hl
    have hfirst := first_id (hcovers next (by simp [heq])) word (by rwa [List.append_nil])
    have hdefinitions : (phrase.node numbering).definitions =
        front.map (Definition.node numbering) ++ .const const.node :: next.node numbering ::
          back.map (Definition.node numbering) := by
      rw [node, heq, List.map_append, List.map_cons, List.map_cons]
      rfl
    exact ⟨_, .refl, .definitions hdefinitions hnumber hlast hfirst⟩

end Phrase

/-- A word comes right after a number in what is read only where the number ends one of two elements
of an enumeration, items of a list, entries of a map or definitions, and the word begins the next. -/
theorem SyntaxTree.ofText_parts {text : String} {options : Options} {tree : SyntaxTree}
    (h : ofText text options = .ok tree) {number word : Link}
    (hadjacent : [number, word] <:+: tree.tokens.links) (hn : number.kind = .number)
    (hw : word.kind.isWord true = true) : tree.root.Parts number.id word.id := by
  obtain ⟨document, hnode, -, hderives⟩ := exists_derives h
  have hparted : Phrase.Parted (Node.document (document.node options.numbering)).Parts document.terminals :=
    document.parted (List.pairwise_append.1 hderives.increasing).1
  obtain ⟨front, back, hlinks⟩ := hadjacent
  have hsplit : Phrase.tokens document.terminals =
      front.filter (fun link => !link.kind.isTrivia) ++
        number :: word :: back.filter (fun link => !link.kind.isTrivia) := by
    have hnumber : number.kind.isTrivia = false := congrArg Kind.isTrivia hn
    have hword : word.kind.isTrivia = false := Kind.not_trivia_of_isWord hw
    rw [Phrase.tokens, ← hderives.laid.significant, ← hlinks]
    simp [hnumber, hword]
  have hplace := List.isChain_iff_forall_rel_of_append_cons_cons.1 hparted hsplit hn hw
  rwa [hnode] at hplace

/-- The text is read, with a word right after a number in it. -/
def SyntaxTree.Joins (text : String) : Prop :=
  ∃ tree number word, ofText text {} = .ok tree ∧ [number, word] <:+: tree.tokens.links ∧
    number.kind = .number ∧ word.kind.isWord true = true

theorem SyntaxTree.joins_of_run {text : String}
    (h : (ofText text {}).toOption.any (fun tree => ¬ tree.tokens.links.IsChain
      fun number word => ¬ (number.kind = .number ∧ word.kind.isWord true = true)) = true) :
    Joins text := by
  cases hrun : ofText text {} with
  | error error =>
    rw [hrun] at h
    cases h
  | ok tree =>
    rw [hrun] at h
    have hchain := of_decide_eq_true h
    rw [List.isChain_iff_forall_rel_of_append_cons_cons] at hchain
    push Not at hchain
    obtain ⟨number, word, front, back, hlinks, hn, hw⟩ := hchain
    exact ⟨tree, number, word, hrun, ⟨front, back, by simp [hlinks]⟩, hn, hw⟩

/-- A hexadecimal number is read as two items. -/
theorem SyntaxTree.ofText_parts_hexadecimal :
    ∃ tree number word, ofText "const list<i32> l = [0x10]" {} = .ok tree ∧
      [number, word] <:+: tree.tokens.links ∧ number.kind = .number ∧
      word.kind.isWord true = true ∧ tree.root.Parts number.id word.id := by
  have hjoins : Joins "const list<i32> l = [0x10]" := joins_of_run (by decide +kernel)
  obtain ⟨tree, number, word, h, hadjacent, hn, hw⟩ := hjoins
  exact ⟨tree, number, word, h, hadjacent, hn, hw, ofText_parts h hadjacent hn hw⟩

/-- At each of the places where they may be parted, a number and a word can have nothing between
them. -/
theorem SyntaxTree.joins_number_word :
    Joins "enum E \x7b A = 0x10 \x7d" ∧ Joins "const list<i32> l = [0x10]" ∧
      Joins "const map<i32, i32> m = \x7b1: 1e5: 2\x7d" ∧ Joins "const i32 a = 12const i32 b = 3" :=
  ⟨joins_of_run (by decide +kernel), joins_of_run (by decide +kernel),
    joins_of_run (by decide +kernel), joins_of_run (by decide +kernel)⟩

end ThriftSyntax
