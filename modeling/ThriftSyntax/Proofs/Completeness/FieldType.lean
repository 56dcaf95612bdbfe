import ThriftSyntax.Proofs.Completeness.Basic
import ThriftSyntax.Proofs.Relabel
import ThriftSyntax.Proofs.Soundness.FieldType

/-!
# Completeness of annotations and types

Where the terminals of a list of annotations or of a type come next, they are read, and what they
are read as is the node of the phrase but for the numbers of the tokens.
-/

namespace ThriftSyntax.Grammar

open Parse Reader Phrase

variable {s : Setting} {x : Terminal} {xs : List Terminal}

theorem value_of_alike {link found : Link} (h : link.Alike s found) :
    found.token.value = link.token.value := by
  have hk : found.token.kind = link.token.kind := h.kind
  have hraw : found.token.raw = link.token.raw := h.raw
  rw [Token.value, Token.value, hk, hraw]

/-! ## Annotations -/

theorem annotation_accepts (phrase : Phrase.Annotation) :
    Accepts s annotation (phrase.terminals ++ xs) xs
      fun node => node.relabel s.new = phrase.node.relabel s.old := by
  simp only [Phrase.Annotation.terminals, List.append_assoc]
  refine (name_accepts phrase.name).bind fun name hname => ?_
  refine (mark_accepts phrase.equals).bind fun _ _ => ?_
  refine (string_accepts phrase.literal).bind fun literal hliteral => span_accepts ?_
  simp only [Phrase.Annotation.node, ThriftSyntax.Annotation.relabel, Span.relabel, hname.head.id,
    hliteral.id, hname.text, value_of_alike hliteral, hliteral.raw]

theorem checkTrailing_accepts {trailing : TrailingSeparator} {separator : Option Link}
    (h : trailing = .reject → separator.isSome → x.head.kind ≠ .punct .rightParen) :
    Accepts s (checkTrailing trailing separator) (x :: xs) (x :: xs) fun _ => True := by
  unfold checkTrailing
  split
  · rename_i hreject
    refine accepts_of_spells fun hs => accepts_peek ?_
    rw [if_neg fun hc => h hreject.1 hreject.2 ((hs.opens hc).eq_punct (by decide))]
    exact (Accepts.pure trivial).atToken
  · exact .pure trivial

theorem annotationItem_accepts {trailing : TrailingSeparator} (item : Separated Phrase.Annotation)
    (hfresh : x.head.kind.Fresh) (h : RefusesClosing trailing item x.head) :
    Accepts s (annotationItem trailing) (item.terminals Phrase.Annotation.terminals ++ x :: xs)
      (x :: xs) fun node => node.relabel s.new = item.phrase.node.relabel s.old := by
  obtain ⟨phrase, separator⟩ := item
  simp only [Separated.terminals, List.append_assoc]
  refine (annotation_accepts phrase).bind fun node hnode => ?_
  refine (separator?_accepts separator ⟨x, xs, rfl, hfresh⟩).bind fun found hfound => ?_
  refine (checkTrailing_accepts fun ht hs => h ht ?_).bind fun _ _ => .pure hnode
  cases hfound with
  | some => rfl
  | none => exact hs

theorem annotationList_accepts {trailing : TrailingSeparator} (phrase : Annotations)
    (h : trailing = .reject → phrase.Untrailed) :
    Accepts s (annotationList trailing)
      (phrase.items.flatMap (·.terminals Phrase.Annotation.terminals) ++
        (phrase.closing.terminals ++ xs)) xs
      fun result => relabelAnnotations s.new result.1 =
        relabelAnnotations s.old (phrase.items.map (·.phrase.node)) ∧
          phrase.closing.link.Alike s result.2 := by
  have hbegins : ∀ item : Separated Phrase.Annotation,
      item.phrase.name.words.head.kind.Begins .rightParen :=
    fun item => item.phrase.name.starts.begins (by decide)
  simp only [relabelAnnotations, List.map_map]
  refine itemsUntil_accepts (by decide) (by constructor <;> simp) (RefusesClosing trailing) _ _
    phrase.closing List.suffix_rfl
    (fun item _ x zs _ hfresh hstops => annotationItem_accepts item hfresh hstops)
    (fun item _ => ⟨_, _, rfl, hbegins item⟩) (List.Pairwise.isChain ?_) ?_
  · refine List.pairwise_of_forall fun p q => ?_
    rintro x ⟨⟩ - -
    exact (hbegins q).unclosed
  · intro item hitem ht hs
    rw [h ht item hitem] at hs
    cases hs

theorem annotations_accepts (phrase : Annotations) :
    Accepts s annotations (phrase.terminals ++ xs) xs fun nodes =>
      relabelAnnotations s.new nodes =
        relabelAnnotations s.old (phrase.items.map (·.phrase.node)) := by
  simp only [Annotations.terminals, List.append_assoc]
  refine (mark_accepts phrase.opening).bind fun _ _ => ?_
  exact (annotationList_accepts phrase (by simp)).bind fun _ hresult => .pure hresult.1

theorem annotations?_some {trailing : TrailingSeparator} (phrase : Annotations)
    (h : trailing = .reject → phrase.Untrailed) :
    Accepts s (annotations? trailing) (phrase.terminals ++ xs) xs
      fun found => ∃ nodes closing, found = some (nodes, closing) ∧ relabelAnnotations s.new nodes =
        relabelAnnotations s.old (phrase.items.map (·.phrase.node)) ∧
          phrase.closing.link.Alike s closing := by
  simp only [Annotations.terminals, List.append_assoc]
  refine (mark?_some phrase.opening).bind fun found hfound => ?_
  obtain ⟨opening, rfl, -⟩ := hfound
  exact (annotationList_accepts phrase h).map fun result hresult => ⟨_, _, rfl, hresult⟩

theorem annotations?_none {trailing : TrailingSeparator} (hxs : Next (· ≠ .punct .leftParen) xs) :
    Accepts s (annotations? trailing) xs xs (· = none) := by
  refine (mark?_none (by decide) hxs).bind fun found hfound => ?_
  rw [hfound]
  exact .pure rfl

theorem trailingAnnotations_accepts {trailing : TrailingSeparator} {last last' : Nat}
    (phrase : Option Annotations) (h : trailing = .reject → ∀ list ∈ phrase, list.Untrailed)
    (hlast : s.new last = s.old last') (hxs : Next (· ≠ .punct .leftParen) xs) :
    Accepts s (trailingAnnotations last trailing) (optional Annotations.terminals phrase ++ xs) xs
      fun result => relabelAnnotations s.new result.1 =
        relabelAnnotations s.old (Annotations.nodes phrase) ∧
          s.new result.2 = s.old (Annotations.last phrase last') := by
  cases phrase with
  | none =>
    refine (annotations?_none hxs).bind fun found hfound => ?_
    rw [hfound]
    exact .pure ⟨rfl, hlast⟩
  | some phrase =>
    refine (annotations?_some phrase fun ht => h ht phrase rfl).bind fun found hfound => ?_
    obtain ⟨nodes, closing, rfl, hnodes, hclosing⟩ := hfound
    exact .pure ⟨hnodes, hclosing.id⟩

/-! ## Types -/

theorem raw_ne_of_mark {mark : Punct} (leaf : Mark mark) : leaf.link.raw ≠ "cpp_type" := by
  intro hraw
  have hhead := head_mark leaf
  rw [hraw] at hhead
  cases mark <;> cases hhead

theorem stopsBefore_mark {mark : Punct} (leaf : Mark mark) (type : Phrase.FieldType) :
    type.StopsBefore leaf.link := by
  unfold Phrase.FieldType.StopsBefore
  split
  · exact raw_ne_of_mark leaf
  · trivial

/-- Some terminal comes next, and it does not begin with the word before a string for C++. -/
def NextUntyped (xs : List Terminal) : Prop := ∃ x tail, xs = x :: tail ∧ x.head.raw ≠ "cpp_type"

theorem cppType?_accepts (phrase : Option CppType) (hxs : phrase = none → NextUntyped xs) :
    Accepts s cppType? (optional CppType.terminals phrase ++ xs) xs
      (Option.Rel (fun phrase link => phrase.literal.link.Alike s link) phrase) := by
  cases phrase with
  | some phrase =>
    simp only [Phrase.optional, Option.elim_some, CppType.terminals, List.append_assoc]
    have hword : phrase.particle.link.kind.isWord true = true := by
      rw [phrase.particle.fits.1]
      rfl
    refine (word?_accepts hword).bind fun found hfound => ?_
    obtain ⟨word, rfl, hlink⟩ := hfound
    dsimp only
    rw [if_pos (hlink.raw.trans phrase.particle.fits.2)]
    exact (string_accepts phrase.literal).map fun link hlink => .some hlink
  | none =>
    obtain ⟨x, xs, rfl, hraw⟩ := hxs rfl
    refine word?_unclaimed rfl (fun word hword => ?_) .none
    dsimp only
    rw [if_neg (hword.raw ▸ hraw)]

theorem cppType_of_rel {phrase : Option CppType} {found : Option Link}
    (h : Option.Rel (fun phrase link => phrase.literal.link.Alike s link) phrase found) :
    found.map (·.token.value) = CppType.node phrase := by
  cases h with
  | none => rfl
  | some h => simp [CppType.node, value_of_alike h]

/-- Two types that lack their span and their annotations are the same but for numbers. -/
def BuildsAlike (s : Setting) (build build' : Span → List ThriftSyntax.Annotation → FieldType) :
    Prop :=
  ∀ span span' nodes nodes', span.relabel s.new = span'.relabel s.old →
    relabelAnnotations s.new nodes = relabelAnnotations s.old nodes' →
    (build span nodes).relabel s.new = (build' span' nodes').relabel s.old

/-- What comes after the first name of a type is read as `build'` says, ending with `last'`. -/
def OpensAlike (s : Setting) (build' : Span → List ThriftSyntax.Annotation → FieldType)
    (last' : Nat) (result : OpenType) : Prop :=
  BuildsAlike s result.1 build' ∧ s.new result.2 = s.old last'

section Containers

variable {type : Parse FieldType} {cppType : Option CppType}

theorem mapType_accepts {less : Mark .less} {key value : Phrase.FieldType} {comma : Mark .comma}
    {greater : Mark .greater}
    (hkey : Accepts s type
      (key.terminals ++ (comma.terminals ++ (value.terminals ++ (greater.terminals ++ xs))))
      (comma.terminals ++ (value.terminals ++ (greater.terminals ++ xs)))
      fun node => node.relabel s.new = key.node.relabel s.old)
    (hvalue : Accepts s type (value.terminals ++ (greater.terminals ++ xs))
      (greater.terminals ++ xs) fun node => node.relabel s.new = value.node.relabel s.old) :
    Accepts s (mapType type)
      (optional CppType.terminals cppType ++ (less.terminals ++ (key.terminals ++
        (comma.terminals ++ (value.terminals ++ (greater.terminals ++ xs)))))) xs
      (OpensAlike s (.map key.node value.node (CppType.node cppType)) greater.link.id) := by
  refine (cppType?_accepts cppType fun _ => ⟨.token less.link, _, rfl, raw_ne_of_mark less⟩).bind
    fun found hfound => ?_
  refine (mark_accepts less).bind fun _ _ => hkey.bind fun knode hknode => ?_
  refine (mark_accepts comma).bind fun _ _ => hvalue.bind fun vnode hvnode => ?_
  refine (mark_accepts greater).bind fun close hclose => .pure ⟨?_, hclose.id⟩
  intro span span' nodes nodes' hspan hnodes
  simp only [FieldType.relabel, hknode, hvnode, cppType_of_rel hfound, hspan, hnodes]

theorem setType_accepts {less : Mark .less} {element : Phrase.FieldType}
    {greater : Mark .greater}
    (helement : Accepts s type (element.terminals ++ (greater.terminals ++ xs))
      (greater.terminals ++ xs) fun node => node.relabel s.new = element.node.relabel s.old) :
    Accepts s (setType type)
      (optional CppType.terminals cppType ++ (less.terminals ++ (element.terminals ++
        (greater.terminals ++ xs)))) xs
      (OpensAlike s (.set element.node (CppType.node cppType)) greater.link.id) := by
  refine (cppType?_accepts cppType fun _ => ⟨.token less.link, _, rfl, raw_ne_of_mark less⟩).bind
    fun found hfound => ?_
  refine (mark_accepts less).bind fun _ _ => helement.bind fun node hnode => ?_
  refine (mark_accepts greater).bind fun close hclose => .pure ⟨?_, hclose.id⟩
  intro span span' nodes nodes' hspan hnodes
  simp only [FieldType.relabel, hnode, cppType_of_rel hfound, hspan, hnodes]

theorem listType_accepts {less : Mark .less} {element : Phrase.FieldType}
    {greater : Mark .greater} (hxs : cppType = none → NextUntyped xs)
    (helement : Accepts s type
      (element.terminals ++ (greater.terminals ++ (optional CppType.terminals cppType ++ xs)))
      (greater.terminals ++ (optional CppType.terminals cppType ++ xs))
      fun node => node.relabel s.new = element.node.relabel s.old) :
    Accepts s (listType type)
      (less.terminals ++ (element.terminals ++ (greater.terminals ++
        (optional CppType.terminals cppType ++ xs)))) xs
      (OpensAlike s (.list element.node (CppType.node cppType))
        (cppType.elim greater.link.id (·.literal.link.id))) := by
  refine (mark_accepts less).bind fun _ _ => helement.bind fun node hnode => ?_
  refine (mark_accepts greater).bind fun close hclose => ?_
  refine (cppType?_accepts cppType hxs).bind fun found hfound => .pure ⟨?_, ?_⟩
  · intro span span' nodes nodes' hspan hnodes
    simp only [FieldType.relabel, hnode, cppType_of_rel hfound, hspan, hnodes]
  · cases hfound with
    | none => exact hclose.id
    | some h => exact h.id

end Containers

theorem typeOfName_accepts {name found : DottedName} (names : NamesType name)
    (h : name.Alike s found) :
    Accepts s (typeOfName found) xs xs
      (OpensAlike s (Phrase.FieldType.ofName name) name.last.id) := by
  unfold typeOfName
  rw [h.text]
  cases hbase : BaseType.ofText? name.text with
  | some base =>
    refine .pure ⟨fun span span' nodes nodes' hspan hnodes => ?_, h.last.id⟩
    simp only [Phrase.FieldType.ofName, hbase, FieldType.relabel, hspan, hnodes]
  | none =>
    have hne : ¬ (found.tail.isEmpty ∧ found.head.kind.isKeyword) := by
      rw [h.head.kind, List.isEmpty_iff_length_eq_zero, ← h.tail.length_eq,
        ← List.isEmpty_iff_length_eq_zero]
      simpa [hbase] using names.2
    dsimp only
    rw [if_neg hne]
    refine .pure ⟨fun span span' nodes nodes' hspan hnodes => ?_, h.last.id⟩
    simp only [Phrase.FieldType.ofName, hbase, FieldType.relabel, hspan, hnodes]

/-- A type is read if what comes after its first name is, and its annotations are. -/
theorem fieldType_of_open (name : Name true) (annotations : Option Annotations)
    {build' : Span → List ThriftSyntax.Annotation → FieldType} {last' : Nat}
    {ys : List Terminal} (hxs : Next (· ≠ .punct .leftParen) xs)
    (hopen : ∀ type : Parse FieldType,
      (∀ {zs zs' P'}, zs <:+ ys → Accepts s fieldType zs zs' P' → Accepts s type zs zs' P') →
      ∀ found, name.words.Alike s found → Accepts s (openType type found) ys
        (optional Annotations.terminals annotations ++ xs) (OpensAlike s build' last')) :
    Accepts s fieldType (name.terminals ++ ys) xs
      fun node => node.relabel s.new = (build'
        ⟨name.words.head.id, Annotations.last annotations last'⟩
        (Annotations.nodes annotations)).relabel s.old := by
  refine Accepts.nested fun type htype => ?_
  have hraw : name.words.head.raw ≠ "" := by
    intro hraw
    refine (name.shaped.spells _ List.mem_cons_self).ne_nil name.starts.ne_endOfInput ?_
    rw [hraw]
    rfl
  refine (name_accepts name).bind fun found hfound => ?_
  refine (hopen type (fun hz => htype ⟨_, _, rfl, hz, hraw⟩) found hfound).bind
    fun result hresult => ?_
  refine (trailingAnnotations_accepts annotations (by simp) hresult.2 hxs).bind
    fun result' hresult' => span_accepts ?_
  refine hresult.1 _ _ _ _ ?_ hresult'.1
  simp only [Span.relabel, hfound.head.id, hresult'.2]

theorem nextUntyped_annotations {annotations : Option Annotations}
    (hxs : annotations = none → x.head.raw ≠ "cpp_type") :
    NextUntyped (optional Annotations.terminals annotations ++ x :: xs) := by
  cases annotations with
  | none => exact ⟨x, xs, rfl, hxs rfl⟩
  | some phrase => exact ⟨.token phrase.opening.link, _, rfl, raw_ne_of_mark phrase.opening⟩

theorem fieldType_accepts (type : Phrase.FieldType) (hk : x.head.kind ≠ .punct .leftParen)
    (hs : type.StopsBefore x.head) :
    Accepts s fieldType (type.terminals ++ x :: xs) (x :: xs)
      fun node => node.relabel s.new = type.node.relabel s.old := by
  induction type generalizing x xs with
  | simple name names annotations =>
    refine fieldType_of_open name annotations ⟨x, xs, rfl, hk⟩ fun type htype found hfound => ?_
    rw [openType_eq, hfound.text, if_neg names.1.1, if_neg names.1.2.1, if_neg names.1.2.2]
    exact typeOfName_accepts names hfound
  | map word isMap cppType less key comma value greater annotations ihkey ihvalue =>
    simp only [Phrase.FieldType.terminals, List.append_assoc]
    refine fieldType_of_open word annotations ⟨x, xs, rfl, hk⟩ fun type htype found hfound => ?_
    rw [openType_eq, hfound.text, if_pos isMap]
    refine mapType_accepts (htype ?_ (ihkey ?_ ?_)) (htype ?_ (ihvalue ?_ ?_))
    · exact List.suffix_append_of_suffix (List.suffix_append _ _)
    · simp [comma.fits]
    · exact stopsBefore_mark comma key
    · exact List.suffix_append_of_suffix (List.suffix_append_of_suffix
        (List.suffix_append_of_suffix (List.suffix_append _ _)))
    · simp [greater.fits]
    · exact stopsBefore_mark greater value
  | set word isSet cppType less element greater annotations ih =>
    simp only [Phrase.FieldType.terminals, List.append_assoc]
    refine fieldType_of_open word annotations ⟨x, xs, rfl, hk⟩ fun type htype found hfound => ?_
    rw [openType_eq, hfound.text, if_neg (by simp [isSet]), if_pos isSet]
    refine setType_accepts (htype ?_ (ih ?_ ?_))
    · exact List.suffix_append_of_suffix (List.suffix_append _ _)
    · simp [greater.fits]
    · exact stopsBefore_mark greater element
  | list word isList less element greater cppType annotations ih =>
    simp only [Phrase.FieldType.terminals, List.append_assoc]
    refine fieldType_of_open word annotations ⟨x, xs, rfl, hk⟩ fun type htype found hfound => ?_
    rw [openType_eq, hfound.text, if_neg (by simp [isList]), if_neg (by simp [isList]),
      if_pos isList]
    refine listType_accepts ?_ (htype ?_ (ih ?_ ?_))
    · rintro rfl
      exact nextUntyped_annotations (by rintro rfl; exact hs)
    · exact List.suffix_append _ _
    · simp [greater.fits]
    · exact stopsBefore_mark greater element

end ThriftSyntax.Grammar
