import ThriftSyntax.Proofs.TypedName.Place

/-!
# Types that begin with the word of a clause

The words `required`, `optional`, `oneway` and `void` may stand before a type, or in place of one, and
each of them may also be the first word of a named type. Such a name can be taken apart after its first
word: what is left of it, from the dot on, is the name of a type too.
-/

namespace ThriftSyntax

open Lexeme

/-- The word is read before a type, if it comes first there. -/
def Keyword.Precedes (word : Keyword) : Prop :=
  word = .required ∨ word = .optional ∨ word = .oneway ∨ word = .void

/-- No base type and no container begins with such a word. -/
theorem Keyword.Precedes.not_prefix {word : Keyword} (h : word.Precedes) :
    ∀ text ∈ BaseType.all.map BaseType.text ++ ["map", "set", "list"],
      ¬ word.text.toList <+: text.toList := by
  rcases h with rfl | rfl | rfl | rfl <;> decide

theorem Keyword.Precedes.ofText?_eq_none {word : Keyword} (h : word.Precedes) {name : String}
    (hname : word.text.toList <+: name.toList) : BaseType.ofText? name = none := by
  refine Option.eq_none_iff_forall_ne_some.2 fun base hbase => ?_
  rw [← BaseType.ofText?_eq_some_iff.1 hbase] at hname
  exact h.not_prefix base.text
    (List.mem_append_left _ (List.mem_map_of_mem (by cases base <;> decide))) hname

/-- Nor is there a dot in one. -/
theorem BaseType.ofText?_of_dot {name : String} (h : '.' ∈ name.toList) : ofText? name = none := by
  refine Option.eq_none_iff_forall_ne_some.2 fun base hbase => ?_
  rw [← ofText?_eq_some_iff.1 hbase] at h
  exact absurd h (by cases base <;> decide)

/-- A named type without the word that its name begins with. -/
def FieldType.Without (word : Keyword) (type rest : FieldType) : Prop :=
  ∃ text span first annotations, type = .named (word.text ++ text) span annotations ∧
    rest = .named text ⟨first, span.last⟩ annotations

/-! ## A name without its first word -/

section

variable {reserved : Bool} {head next : Link} {tail links : List Link} {rest : List Char}
  {xs : List Terminal}

/-- The first word of a name may be a terminal by itself. -/
theorem Laid.behead (h : Laid rest (.name reserved ⟨head, next :: tail⟩ :: xs) links) :
    Laid rest (.token head :: .name reserved ⟨next, tail⟩ :: xs) links := by
  obtain ⟨gap, back, rfl, hgap, htrivia, hends, hback⟩ := h.exists_gap
  obtain ⟨hhead, htail⟩ := List.forall_mem_cons.1 htrivia
  exact .of_gap hgap (.of_token hhead
    (.terminal htail ((DottedName.ends_cons reserved head next tail back rest).1 hends) hback))

end

section

variable {xs zs ws : List Terminal} {raw rest : List Char} {own : List Link}

/-- The first tokens of a text may be those of other terminals too. -/
theorem Link.Cut.relaid (h : Link.Cut (xs ++ ws) raw rest own)
    (hlaid : ∀ {back ys links}, Laid back (xs ++ ys) links → Laid back (zs ++ ys) links) :
    Link.Cut (zs ++ ws) raw rest own where
  spelled := h.spelled
  lexed := h.lexed
  laid hrest hback := by
    have hwhole := h.laid hrest hback
    rw [List.append_assoc] at hwhole ⊢
    exact hlaid hwhole

theorem Link.Piece.relaid (h : Link.Piece xs raw own)
    (hlaid : ∀ {back ys links}, Laid back (xs ++ ys) links → Laid back (zs ++ ys) links) :
    Link.Piece zs raw own where
  numbered := h.numbered
  cut rest := by
    have hcut : Link.Cut (xs ++ []) raw rest own := by rw [List.append_nil]; exact h.cut rest
    have hrelaid := hcut.relaid hlaid
    rwa [List.append_nil] at hrelaid

end

theorem DottedName.Tail.head_dot {reserved : Bool} {next : Link} {tail : List Link}
    (h : Tail reserved (next :: tail)) : next.kind = .punct .dot := by
  cases h <;> assumption

/-- After a word, a name goes on with a dot. -/
theorem DottedName.Shaped.tail {reserved : Bool} {head next : Link} {tail : List Link}
    (h : Shaped reserved ⟨head, next :: tail⟩) (hk : head.kind ≠ .punct .dot) :
    Tail reserved (next :: tail) := by
  rcases h.shape with hlinks | hword
  · exact absurd hlinks.head_dot hk
  · exact hword.2

theorem DottedName.text_cons (head next : Link) (tail : List Link) :
    (DottedName.mk head (next :: tail)).text = head.raw ++ (DottedName.mk next tail).text := by
  rw [← String.toList_inj, String.toList_append, toList_text, toList_text]
  rfl

namespace Phrase

theorem head?_text_of_dot {next : Link} (tail : List Link) (hk : next.kind = .punct .dot)
    (hs : Spells next.kind next.raw.toList) : (DottedName.mk next tail).text.toList.head? = some '.' := by
  have hraw := Leaf.spelled_mark (⟨next, hs, hk⟩ : Mark .dot)
  rw [DottedName.toList_text, DottedName.links, Link.spelled_cons, hraw]
  rfl

theorem namesType_of_dot {next : Link} {tail : List Link} (hk : next.kind = .punct .dot)
    (hs : Spells next.kind next.raw.toList) : NamesType ⟨next, tail⟩ := by
  have hhead := head?_text_of_dot tail hk hs
  refine ⟨?_, .inr fun h => ?_⟩
  · refine ⟨?_, ?_, ?_⟩ <;> (intro h; rw [h] at hhead; cases hhead)
  · rw [hk] at h
    exact absurd h.2 (by decide)

namespace FieldType

variable {type : FieldType} {word : Keyword}

/-- A type that begins with such a word is a named one, and its name goes on with a dot. -/
theorem eq_simple_of_head (hword : word.Precedes) (h : type.head.kind = .keyword word) :
    ∃ (leaf : Word word) (dot : Link) (tail : List Link)
      (shaped : DottedName.Shaped true ⟨leaf.link, dot :: tail⟩) (names : NamesType ⟨leaf.link, dot :: tail⟩)
      (annotations : Option Annotations),
      type = .simple ⟨⟨leaf.link, dot :: tail⟩, shaped⟩ names annotations := by
  have hspells : ∀ name : Name true, Spells name.words.head.kind name.words.head.raw.toList :=
    fun name => name.shaped.spells _ List.mem_cons_self
  have hstart : ∀ name : Name true, name.words.head.kind = .keyword word →
      word.text.toList <+: name.words.text.toList := fun name hk => by
    rw [DottedName.toList_text, ← (⟨_, hspells name, hk⟩ : Word word).spelled_word]
    exact List.prefix_append _ _
  have hcontainer : ∀ (name : Name true) (text : String), text ∈ ["map", "set", "list"] →
      name.words.head.kind = .keyword word → name.words.text ≠ text := fun name text ht hk heq =>
    hword.not_prefix text (List.mem_append_right _ ht) (heq ▸ hstart name hk)
  cases type with
  | map name isMap => exact absurd isMap (hcontainer name _ (by simp) h)
  | set name isSet => exact absurd isSet (hcontainer name _ (by simp) h)
  | list name isList => exact absurd isList (hcontainer name _ (by simp) h)
  | simple name names annotations =>
    have hbase := hword.ofText?_eq_none (hstart name h)
    obtain ⟨⟨head, tail⟩, shaped⟩ := name
    have hk : head.kind = .keyword word := h
    cases tail with
    | nil =>
      have hkeyword : head.kind.isKeyword = true := by rw [hk]; rfl
      exact absurd ⟨rfl, hkeyword⟩ (names.2.resolve_left (by simp [hbase]))
    | cons dot tail =>
      exact ⟨⟨head, shaped.spells _ List.mem_cons_self, hk⟩, dot, tail, shaped, names, annotations, rfl⟩

/-- A list begins with none of these words. -/
theorem head_ne_of_endsBare (hbare : type.EndsBare) (hword : word.Precedes) :
    type.head.kind ≠ .keyword word := by
  intro h
  obtain ⟨_, _, _, _, _, _, rfl⟩ := eq_simple_of_head hword h
  exact hbare

/-- The tokens of the type are those of `lead` and of the type `rest` too. -/
structure Splits (type : FieldType) (lead : List Terminal) (rest : FieldType) : Prop where
  laid : ∀ {back ys links}, Laid back (type.terminals ++ ys) links →
    Laid back (lead ++ rest.terminals ++ ys) links
  endsBare : type.EndsBare ↔ rest.EndsBare

theorem Splits.refl (type : FieldType) : type.Splits [] type := ⟨fun hlaid => hlaid, .rfl⟩

/-- Such a type is taken apart into that word and a type again. -/
theorem exists_beheaded (hword : word.Precedes) (h : type.head.kind = .keyword word) :
    ∃ (leaf : Word word) (rest : FieldType), rest.head.kind = .punct .dot ∧
      type.Splits leaf.terminals rest ∧ type.node.Without word rest.node := by
  obtain ⟨leaf, dot, tail, shaped, names, annotations, rfl⟩ := eq_simple_of_head hword h
  obtain ⟨-, hspells⟩ := List.forall_mem_cons.1 shaped.spells
  have htail := shaped.tail (by simp [leaf.fits])
  have hdot := htail.head_dot
  have hnames : NamesType ⟨dot, tail⟩ := namesType_of_dot hdot (hspells dot List.mem_cons_self)
  have hhead := head?_text_of_dot tail hdot (hspells dot List.mem_cons_self)
  have hbase : BaseType.ofText? (DottedName.mk leaf.link (dot :: tail)).text = none := by
    refine hword.ofText?_eq_none ?_
    rw [DottedName.text_cons, leaf.spelled_word, String.toList_append]
    exact List.prefix_append _ _
  refine ⟨leaf, .simple ⟨⟨dot, tail⟩, .inl htail, hspells⟩ hnames annotations, hdot, ⟨Laid.behead, .rfl⟩,
    (DottedName.mk dot tail).text,
    ⟨leaf.link.id, Annotations.last annotations (DottedName.mk dot tail).last.id⟩, dot.id,
    Annotations.nodes annotations, ?_, ?_⟩
  · rw [node, ofName, hbase, DottedName.text_cons, leaf.spelled_word, DottedName.last_cons]
  · rw [node, ofName, BaseType.ofText?_of_dot (List.mem_of_head? hhead)]

/-- The words `required` and `optional` are taken off a type, if it begins so. -/
theorem exists_demand (type : FieldType) : ∃ (demand : Option Demand) (rest : FieldType),
    (demand = none → rest.head.kind ≠ .keyword .required ∧ rest.head.kind ≠ .keyword .optional) ∧
    type.Splits (optional Demand.terminals demand) rest ∧
    ((∀ form, type.head.kind ≠ .keyword (requirednessWord form)) → demand = none ∧ rest = type) ∧
    ∀ form, type.head.kind = .keyword (requirednessWord form) →
      demand.map (·.form) = some form ∧ type.node.Without (requirednessWord form) rest.node := by
  by_cases hdemand : ∃ form, type.head.kind = .keyword (requirednessWord form)
  · obtain ⟨form, hform⟩ := hdemand
    have hword : (requirednessWord form).Precedes := by
      cases form
      · exact .inl rfl
      · exact .inr (.inl rfl)
    obtain ⟨leaf, rest, -, hsplits, hnode⟩ := exists_beheaded hword hform
    refine ⟨some ⟨form, leaf⟩, rest, by simp, hsplits, fun hnone => absurd hform (hnone form),
      fun other hother => ?_⟩
    obtain rfl : form = other := by
      rw [hform] at hother
      cases form <;> cases other <;> first | rfl | cases hother
    exact ⟨rfl, hnode⟩
  · push Not at hdemand
    exact ⟨none, type, fun _ => ⟨hdemand .required, hdemand .optional⟩, .refl type, fun _ => ⟨rfl, rfl⟩,
      fun form hform => absurd hform (hdemand form)⟩

/-- So is the word `oneway`. -/
theorem exists_oneway (type : FieldType) : ∃ (oneway : Option (Word .oneway)) (rest : FieldType),
    (oneway = none → rest.head.kind ≠ .keyword .oneway) ∧
    (type.head.kind ≠ .keyword .void → rest.head.kind ≠ .keyword .void) ∧
    type.Splits (optional Leaf.terminals oneway) rest ∧
    (type.head.kind ≠ .keyword .oneway → oneway = none ∧ rest = type) ∧
    (type.head.kind = .keyword .oneway → oneway.isSome ∧ type.node.Without .oneway rest.node) := by
  by_cases honeway : type.head.kind = .keyword .oneway
  · obtain ⟨leaf, rest, hdot, hsplits, hnode⟩ := exists_beheaded (.inr (.inr (.inl rfl))) honeway
    exact ⟨some leaf, rest, by simp, by simp [hdot], hsplits, fun hnone => absurd honeway hnone,
      fun _ => ⟨rfl, hnode⟩⟩
  · exact ⟨none, type, fun _ => honeway, id, .refl type, fun _ => ⟨rfl, rfl⟩, fun h => absurd h honeway⟩

end FieldType

end Phrase

/-! ## The words before a type -/

namespace SyntaxTree

open Phrase

variable (options : Options) {type : Phrase.FieldType} {raw : String} {own : List Link}

/-- In a field, the words `required` and `optional` are read before the type. -/
theorem readsNames_demanded {number : String} {id : Int}
    (hpiece : Link.Piece type.terminals (raw.toList ++ [' ']) own)
    (hnumber : Spells .number number.toList) (hid : Numeral.integer? number = some id) :
    ∃ (span : Span) (struct : ThriftSyntax.Struct) (field : ThriftSyntax.Field), field.id = id ∧
      ((∀ form, type.head.kind ≠ .keyword (requirednessWord form)) →
        field.requiredness = none ∧ field.type = type.node.relabel (Link.moved 9 own.length)) ∧
      (∀ form, type.head.kind = .keyword (requirednessWord form) →
        field.requiredness = some form ∧ ∃ rest, type.node.Without (requirednessWord form) rest ∧
          field.type = rest.relabel (Link.moved 9 own.length)) ∧
      ReadsNames options ("struct S \x7b " ++ number ++ ": " ++ raw ++ " ") " \x7d"
        (fun x => type.EndsBare → x ≠ "cpp_type")
        ⟨span, [.struct { struct with fields := ⟨[field], .empty⟩ }]⟩ := by
  obtain ⟨demand, rest, hdemand, hsplits, hnone, hsome⟩ := type.exists_demand
  obtain ⟨span, struct, field, hfield, hread, htype, hnames⟩ :=
    readsNames_field options (hpiece.relaid hsplits.laid) hdemand hnumber hid
  refine ⟨span, struct, field, hfield, fun h => ?_, fun form h => ?_,
    by simpa only [hsplits.endsBare] using hnames⟩
  · obtain ⟨rfl, rfl⟩ := hnone h
    exact ⟨hread, htype⟩
  · obtain ⟨hform, hnode⟩ := hsome form h
    exact ⟨hread.trans hform, rest.node, hnode, htype⟩

/-- In a function, the word `oneway` is read before the type. -/
theorem readsNames_onewayed (hpiece : Link.Piece type.terminals (raw.toList ++ [' ']) own)
    (hvoid : type.head.kind ≠ .keyword .void) :
    ∃ (span : Span) (service : ThriftSyntax.Service) (function : ThriftSyntax.Function),
      (type.head.kind ≠ .keyword .oneway →
        function.oneway = false ∧ function.result = some (type.node.relabel (Link.moved 6 own.length))) ∧
      (type.head.kind = .keyword .oneway →
        function.oneway = true ∧ ∃ rest, type.node.Without .oneway rest ∧
          function.result = some (rest.relabel (Link.moved 6 own.length))) ∧
      ReadsNames options ("service S \x7b " ++ raw ++ " ") "() \x7d"
        (fun x => type.EndsBare → x ≠ "cpp_type")
        ⟨span, [.service { service with functions := ⟨[function], .empty⟩ }]⟩ := by
  obtain ⟨oneway, rest, honeway, hresult, hsplits, hnone, hsome⟩ := type.exists_oneway
  obtain ⟨span, service, function, hread, htype, hnames⟩ :=
    readsNames_function options (hpiece.relaid hsplits.laid) (hresult hvoid) honeway
  refine ⟨span, service, function, fun h => ?_, fun h => ?_, by simpa only [hsplits.endsBare] using hnames⟩
  · obtain ⟨rfl, rfl⟩ := hnone h
    exact ⟨hread, htype⟩
  · obtain ⟨hleaf, hnode⟩ := hsome h
    exact ⟨hread.trans hleaf, rest.node, hnode, htype⟩

end SyntaxTree

end ThriftSyntax
