import Mathlib.Data.List.Chain
import ThriftSyntax.Proofs.Span.Phrase
import ThriftSyntax.Proofs.Span.Walk

/-!
# Words right after numbers

A number ends at the first character that it has no use for, and the separators of the notation may
be left out, so that a number and a word with nothing between them can be read as two parts. `Splits`
lists the places: between two elements of an enumeration, items of a list, entries of a map, and after
a constant. The rest is about runs of terminals: in which of them a word comes right after a number
only at a given place, and which may stand beside each other.
-/

namespace ThriftSyntax

/-- Two parts of a node, of which one ends with the number and the other begins with the word. -/
inductive Node.Splits (number word : Nat) : Node → Prop where
  | elements {enum : Enum} {front back : List EnumElement} {element next : EnumElement}
      (elements : enum.elements = front ++ element :: next :: back)
      (written : element.value.isSome) (ends : element.span.last = number)
      (begins : next.span.first = word) : Splits number word (.enum enum)
  | items {items front back : List ConstValue} {form : ScalarForm} {text : String}
      {next : ConstValue} {span : Span}
      (items_eq : items = front ++ .scalar form text (.single number) :: next :: back)
      (begins : next.span.first = word) : Splits number word (.constValue (.list items span))
  | entries {entries front back : List (ConstValue × ConstValue)} {form : ScalarForm} {text : String}
      {key next value : ConstValue} {span : Span}
      (entries_eq : entries =
        front ++ (key, .scalar form text (.single number)) :: (next, value) :: back)
      (begins : next.span.first = word) : Splits number word (.constValue (.map entries span))
  | definitions {document : Document} {front back : List Definition} {const : Const}
      {next : Definition} {form : ScalarForm} {text : String}
      (definitions : document.definitions = front ++ .const const :: next :: back)
      (value : const.value = .scalar form text (.single number)) (ends : const.span.last = number)
      (begins : (Node.ofDefinition next).span.first = word) : Splits number word (.document document)

/-- The number and the word are parted in the node or below it. -/
def Node.Parts (node : Node) (number word : Nat) : Prop :=
  ∃ part, node.Below part ∧ part.Splits number word

theorem Node.Parts.of_child {node child : Node} {number word : Nat} (h : child.Parts number word)
    (hchild : child ∈ node.children) : node.Parts number word := by
  obtain ⟨part, hpart, hsplits⟩ := h
  exact ⟨part, .head hchild hpart, hsplits⟩

/-- A word comes right after a number only at a place where they are parted. -/
def Link.MayPrecede (Place : Nat → Nat → Prop) (link next : Link) : Prop :=
  link.kind = .number → next.kind.isWord true = true → Place link.id next.id

namespace Phrase

/-! ## Numbers among the tokens of terminals -/

/-- Wherever a word comes right after a number, they are parted. -/
def Parted (Place : Nat → Nat → Prop) (xs : List Terminal) : Prop :=
  (tokens xs).IsChain (Link.MayPrecede Place)

/-- There is no number among the tokens. -/
def Numberless (xs : List Terminal) : Prop := ∀ link ∈ tokens xs, link.kind ≠ .number

/-- The last token is no number, so that any word may come next. -/
def Shut (xs : List Terminal) : Prop := ∀ link ∈ (tokens xs).getLast?, link.kind ≠ .number

/-- The terminals may come right after a number, since they do not begin with a word. -/
structure Detached (Place : Nat → Nat → Prop) (xs : List Terminal) : Prop where
  parted : Parted Place xs
  head : ∀ link ∈ (tokens xs).head?, link.kind.isWord true = false

variable {Place Place' : Nat → Nat → Prop} {xs ys : List Terminal}

theorem Parted.mono (h : Parted Place xs) (hplace : ∀ m n, Place m n → Place' m n) :
    Parted Place' xs :=
  List.IsChain.imp (fun _ _ hp hk hw => hplace _ _ (hp hk hw)) h

theorem Parted.append (h : Parted Place xs) (h' : Detached Place ys) : Parted Place (xs ++ ys) := by
  rw [Parted, tokens_append]
  refine List.IsChain.append h h'.parted fun x _ y hy _ hw => ?_
  rw [h'.head y hy] at hw
  cases hw

theorem Shut.append (h : Shut xs) (h' : Shut ys) : Shut (xs ++ ys) := by
  intro link hl
  rw [tokens_append, List.getLast?_append] at hl
  cases hlast : (tokens ys).getLast? with
  | none => exact h link (by simpa [hlast] using hl)
  | some last => exact h' link (by simpa [hlast] using hl)

theorem getLast?_append_of_ne (hne : tokens ys ≠ []) :
    (tokens (xs ++ ys)).getLast? = (tokens ys).getLast? := by
  rw [tokens_append, List.getLast?_append_of_ne_nil _ hne]

theorem Shut.append_of_ne (h : Shut ys) (hne : tokens ys ≠ []) : Shut (xs ++ ys) := by
  intro link hl
  rw [getLast?_append_of_ne hne] at hl
  exact h link hl

theorem Parted.append_shut (h : Parted Place xs) (hs : Shut xs) (h' : Parted Place ys) :
    Parted Place (xs ++ ys) := by
  rw [Parted, tokens_append]
  exact List.IsChain.append h h' fun x hx _ _ hk => absurd hk (hs x hx)

theorem Parted.flatMap_shut {α : Type} {items : List α} {terminals : α → List Terminal}
    (h : ∀ item ∈ items, Shut (terminals item) ∧ Parted Place (terminals item)) :
    Parted Place (items.flatMap terminals) := by
  induction items with
  | nil => exact .nil
  | cons item items ih =>
    obtain ⟨⟨hshut, hitem⟩, h⟩ := List.forall_mem_cons.1 h
    exact hitem.append_shut hshut (ih h)

namespace Numberless

theorem nil : Numberless [] := by simp [Numberless]

theorem append (h : Numberless xs) (h' : Numberless ys) : Numberless (xs ++ ys) := by
  intro link hl
  rw [tokens_append] at hl
  exact (List.mem_append.1 hl).elim (h link) (h' link)

theorem flatMap {α : Type} {items : List α} {terminals : α → List Terminal}
    (h : ∀ item ∈ items, Numberless (terminals item)) : Numberless (items.flatMap terminals) := by
  induction items with
  | nil => exact nil
  | cons item items ih =>
    obtain ⟨hitem, h⟩ := List.forall_mem_cons.1 h
    exact hitem.append (ih h)

theorem optional {α : Type} {terminals : α → List Terminal} {phrase : Option α}
    (h : ∀ item ∈ phrase, Numberless (terminals item)) :
    Numberless (Phrase.optional terminals phrase) := by
  cases phrase with
  | none => exact nil
  | some item => exact h item rfl

theorem leaf {Fits : Kind → String → Prop} (leaf : Leaf Fits) (h : leaf.link.kind ≠ .number) :
    Numberless leaf.terminals := by
  intro link hl
  obtain rfl := List.mem_singleton.1 hl
  exact h

theorem shut (h : Numberless xs) : Shut xs := fun link hl => h link (List.mem_of_getLast? hl)

theorem parted_append (h : Numberless xs) (h' : Parted Place ys) : Parted Place (xs ++ ys) := by
  rw [Parted, tokens_append]
  refine List.IsChain.append ?_ h' fun x hx _ _ hk => absurd hk (h.shut x hx)
  refine List.isChain_iff_forall_rel_of_append_cons_cons.2 fun x _ _ _ heq hk => ?_
  exact absurd hk (h x (by rw [heq]; simp))

theorem parted (h : Numberless xs) : Parted Place xs := by
  have hparted : Parted Place (xs ++ []) := h.parted_append .nil
  rwa [List.append_nil] at hparted

end Numberless

namespace Detached

theorem nil : Detached Place [] := ⟨.nil, by simp⟩

theorem append (h : Detached Place xs) (h' : Detached Place ys) : Detached Place (xs ++ ys) where
  parted := h.parted.append h'
  head link hl := by
    cases hx : tokens xs with
    | nil => exact h'.head link (by simpa [hx] using hl)
    | cons first rest => exact h.head link (by simpa [hx] using hl)

theorem flatMap {α : Type} {items : List α} {terminals : α → List Terminal}
    (h : ∀ item ∈ items, Detached Place (terminals item)) :
    Detached Place (items.flatMap terminals) := by
  induction items with
  | nil => exact nil
  | cons item items ih =>
    obtain ⟨hitem, h⟩ := List.forall_mem_cons.1 h
    exact hitem.append (ih h)

theorem optional {α : Type} {terminals : α → List Terminal} {phrase : Option α}
    (h : ∀ item ∈ phrase, Detached Place (terminals item)) :
    Detached Place (Phrase.optional terminals phrase) := by
  cases phrase with
  | none => exact nil
  | some item => exact h item rfl

/-- What begins with a mark. -/
theorem mark {mark : Punct} (leaf : Mark mark) (h : Parted Place xs) :
    Detached Place (leaf.terminals ++ xs) where
  parted := (Numberless.leaf leaf (by simp [leaf.fits])).parted_append h
  head := by
    rintro _ ⟨⟩
    exact congrArg (Kind.isWord true) leaf.fits

theorem mark_last {mark : Punct} (leaf : Mark mark) : Detached Place leaf.terminals := by
  have hmark : Detached Place (leaf.terminals ++ []) := .mark leaf .nil
  rwa [List.append_nil] at hmark

end Detached

/-- Parts that follow one another, each of them with tokens: where the last token of one is a number
and the first of the next a word, they have to be parted. -/
theorem parted_flatMap {α : Type} {items : List α} {terminals : α → List Terminal}
    (hitems : ∀ item ∈ items, tokens (terminals item) ≠ [] ∧ Parted Place (terminals item))
    (hnext : ∀ front item next back, items = front ++ item :: next :: back →
      ∀ link ∈ (tokens (terminals item)).getLast?, ∀ word ∈ (tokens (terminals next)).head?,
        link.MayPrecede Place word) :
    Parted Place (items.flatMap terminals) := by
  have hne : [] ∉ items.map fun item => tokens (terminals item) := by
    intro hmem
    obtain ⟨item, hitem, heq⟩ := List.mem_map.1 hmem
    exact (hitems item hitem).1 heq
  rw [Parted, tokens_flatMap, List.flatMap_def, List.isChain_flatten hne, List.isChain_map]
  refine ⟨?_, List.isChain_iff_forall_rel_of_append_cons_cons.2 fun item next front back heq => ?_⟩
  · rw [List.forall_mem_map]
    exact fun item hitem => (hitems item hitem).2
  · exact hnext front item next back heq

/-! ## Phrases without numbers -/

theorem numberless_name {reserved : Bool} (name : Name reserved) : Numberless name.terminals := by
  intro link hl
  rw [tokens_name] at hl
  obtain hd | hw := name.shaped.dot_or_word link hl
  · simp [hd]
  · intro hk
    rw [hk] at hw
    cases hw

theorem numberless_mark {mark : Punct} (leaf : Mark mark) : Numberless leaf.terminals :=
  .leaf leaf (by simp [leaf.fits])

theorem numberless_word {word : Keyword} (leaf : Word word) : Numberless leaf.terminals :=
  .leaf leaf (by simp [leaf.fits])

theorem numberless_particle {text : String} (leaf : Particle text) : Numberless leaf.terminals :=
  .leaf leaf (by simp [leaf.fits.1])

theorem numberless_literal (leaf : Literal) : Numberless leaf.terminals :=
  .leaf leaf (by simp [leaf.fits])

theorem numberless_separator (separator : Separator) : Numberless separator.terminals :=
  .leaf separator (by rcases separator.fits with h | h <;> simp [h])

theorem numberless_annotations (phrase : Option Annotations) :
    Numberless (optional Annotations.terminals phrase) :=
  .optional fun phrase _ => (numberless_mark phrase.opening).append <|
    (Numberless.flatMap fun item _ => ((numberless_name item.phrase.name).append
      ((numberless_mark item.phrase.equals).append (numberless_literal item.phrase.literal))).append
        (.optional fun separator _ => numberless_separator separator)).append
      (numberless_mark phrase.closing)

theorem numberless_cppType (phrase : Option CppType) :
    Numberless (optional CppType.terminals phrase) :=
  .optional fun phrase _ =>
    (numberless_particle phrase.particle).append (numberless_literal phrase.literal)

theorem FieldType.numberless (type : FieldType) : Numberless type.terminals := by
  induction type with
  | simple name names annotations =>
    exact (numberless_name name).append (numberless_annotations annotations)
  | map word isMap cppType less key comma value greater annotations hkey hvalue =>
    exact (numberless_name word).append ((numberless_cppType cppType).append
      ((numberless_mark less).append (hkey.append ((numberless_mark comma).append
        (hvalue.append ((numberless_mark greater).append (numberless_annotations annotations)))))))
  | set word isSet cppType less element greater annotations helement =>
    exact (numberless_name word).append ((numberless_cppType cppType).append
      ((numberless_mark less).append (helement.append
        ((numberless_mark greater).append (numberless_annotations annotations)))))
  | list word isList less element greater cppType annotations helement =>
    exact (numberless_name word).append ((numberless_mark less).append
      (helement.append ((numberless_mark greater).append
        ((numberless_cppType cppType).append (numberless_annotations annotations)))))

theorem Result.numberless (result : Result) : Numberless result.terminals := by
  cases result with
  | void word => exact numberless_word word
  | type type returned => exact type.numberless

theorem detached_annotations (phrase : Option Annotations) :
    Detached Place (optional Annotations.terminals phrase) where
  parted := (numberless_annotations phrase).parted
  head link hl := by
    cases phrase with
    | none => cases hl
    | some phrase =>
      cases hl
      exact congrArg (Kind.isWord true) phrase.opening.fits

theorem detached_separator (separator : Option Separator) :
    Detached Place (optional Leaf.terminals separator) where
  parted := (Numberless.optional fun separator _ => numberless_separator separator).parted
  head link hl := by
    cases separator with
    | none => cases hl
    | some separator =>
      cases hl
      rcases separator.fits with h | h <;> exact congrArg (Kind.isWord true) h

end Phrase

end ThriftSyntax
