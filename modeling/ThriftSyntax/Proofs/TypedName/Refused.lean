import ThriftSyntax.Proofs.Completeness.Refusal
import ThriftSyntax.Proofs.TypedName.Clause
import ThriftSyntax.Proofs.TypedName.Type

/-!
# Types that nothing can be named after

In three cases no name is read after a type: where the text of the type ends within a comment, in the
definition of a type that has a name already, and in a function after a name that begins with `void`, for
that word is its whole result. After a list that ends with its angle bracket the name `cpp_type` is not
read, for a string has to follow that word.
-/

namespace ThriftSyntax

open Lexeme Parse Phrase

variable {s : Setting} {x : Terminal} {xs : List Terminal} {type : Phrase.FieldType}

/-- Nothing comes next but the end of the input. -/
theorem Phrase.next_ending {P : Kind → Prop} (ending : Ending) (h : P .endOfInput) :
    Next P ending.terminals := by
  refine ⟨.token ending.link, [], rfl, ?_⟩
  rwa [Terminal.head_token, ending.fits]

theorem Kind.not_startsName_endOfInput : ¬ Kind.StartsName .endOfInput := fun h => h.ne_endOfInput rfl

namespace Phrase

theorem startsName_ending (ending : Ending) : Next (fun kind => ¬ kind.StartsName) ending.terminals :=
  next_ending ending Kind.not_startsName_endOfInput

end Phrase

namespace Grammar

/-! ## At the end of the input -/

theorem const_refuses {keyword : Link} (ending : Ending) :
    Refuses s (const keyword) (type.terminals ++ ending.terminals) :=
  (fieldType_accepts_ending type ending).refuses fun _ _ => (name_refuses (startsName_ending ending)).bind

/-- A type definition gives no other name to a named type. -/
theorem typedef_refuses_named {keyword : Link} (hnamed : type.node.isNamed = true)
    (hk : x.head.kind ≠ .punct .leftParen) (hs : type.StopsBefore x.head) :
    Refuses s (typedef keyword) (type.terminals ++ x :: xs) := by
  have htype : Refuses s aliasedType (type.terminals ++ x :: xs) := by
    refine (fieldType_accepts type hk hs).refuses fun node hnode => ?_
    have hnode' : node.isNamed = true := by
      rw [← isNamed_relabel s.new, hnode, isNamed_relabel, hnamed]
    cases node with
    | named name span annotations =>
      refine .of_success fun hr hrun => ?_
      obtain ⟨first, between, -, hthrow⟩ := bind_eq_ok.1 hrun
      cases hthrow
    | _ => cases hnode'
  exact htype.bind

theorem typedef_refuses_ending {keyword : Link} (ending : Ending) :
    Refuses s (typedef keyword) (type.terminals ++ ending.terminals) := by
  have hk : (Terminal.token ending.link).head.kind ≠ .punct .leftParen := by simp [ending.fits]
  cases hnamed : type.node.isNamed with
  | true => exact typedef_refuses_named hnamed hk (type.stopsBefore_ending ending)
  | false =>
    exact (aliasedType_accepts type hnamed hk (type.stopsBefore_ending ending)).refuses
      fun _ _ => (name_refuses (startsName_ending ending)).bind

theorem field_refuses (integer : Integer) (colon : Mark .colon) (demand : Option Demand)
    (hdemanded : demand = none →
      type.head.kind ≠ .keyword .required ∧ type.head.kind ≠ .keyword .optional) (ending : Ending) :
    Refuses s field (integer.terminals ++ (colon.terminals ++
      (optional Demand.terminals demand ++ (type.terminals ++ ending.terminals)))) := by
  refine (integer_accepts integer).refuses fun _ _ => (mark_accepts colon).refuses fun _ _ => ?_
  refine (requiredness?_accepts demand fun hnone => ?_).refuses fun _ _ => ?_
  · obtain ⟨y, ys, hy, hhead⟩ := type.exists_terminals
    exact ⟨y, _, by rw [hy]; rfl, hhead ▸ hdemanded hnone⟩
  exact (fieldType_accepts_ending type ending).refuses fun _ _ =>
    (name_refuses (startsName_ending ending)).bind

theorem struct_refuses {form : StructForm} {keyword : Link} (name : Name false) (opening : Mark .leftBrace)
    (hxs : Next (· ≠ .punct .rightBrace) xs) (h : Refuses s field xs) :
    Refuses s (struct form keyword) (name.terminals ++ (opening.terminals ++ xs)) := by
  refine (name_accepts name).refuses fun _ _ => (mark_accepts opening).refuses fun _ _ => ?_
  exact (itemsUntil_refuses (by decide) hxs h).bind.bind

theorem service_refuses {keyword : Link} (name : Name false) (opening : Mark .leftBrace)
    (h : Refuses s (itemsUntil .rightBrace function) xs) :
    Refuses s (service keyword) (name.terminals ++ (opening.terminals ++ xs)) := by
  have hopening : Next (·.isWord true = false) (opening.terminals ++ xs) :=
    ⟨.token opening.link, xs, rfl, by rw [Terminal.head_token, opening.fits]; rfl⟩
  refine (name_accepts name).refuses fun _ _ => ?_
  refine (base?_accepts none fun _ => hopening).refuses fun _ _ => ?_
  exact (mark_accepts opening).refuses fun _ _ => h.bind.bind

/-- A function begins like a name. -/
theorem exists_function_head (oneway : Option (Word .oneway)) (result : Result) :
    ∃ y ys, optional Leaf.terminals oneway ++ result.terminals = y :: ys ∧ y.head.kind.StartsName := by
  cases oneway with
  | none =>
    obtain ⟨y, ys, hy, hhead⟩ := Result.exists_terminals result
    exact ⟨y, ys, hy, hhead ▸ startsName_result result⟩
  | some word => exact ⟨_, _, rfl, .inr (by rw [Terminal.head_token, word.fits]; rfl)⟩

/-- No name is read where none begins. -/
theorem functions_refuse_result (oneway : Option (Word .oneway)) (result : Result)
    (honeway : oneway = none → result.head.kind ≠ .keyword .oneway) (hs : result.StopsBefore x.head)
    (hx : x.head.kind ≠ .punct .leftParen) (hstarts : ¬ x.head.kind.StartsName) :
    Refuses s (itemsUntil .rightBrace function)
      (optional Leaf.terminals oneway ++ (result.terminals ++ x :: xs)) := by
  obtain ⟨y, ys, hy, hstartsY⟩ := exists_function_head oneway result
  rw [← List.append_assoc, hy]
  refine itemsUntil_refuses (by decide) ⟨y, _, rfl, (hstartsY.begins (by decide)).unclosed⟩ ?_
  refine refuses_first hstartsY fun first hfirst => ?_
  exact AcceptsPast.refuses (functionHead_accepts oneway result hy hfirst hx honeway hs) fun _ _ =>
    (name_refuses ⟨x, xs, rfl, hstarts⟩).bind

theorem function_refuses (hxs : Next (fun kind => ¬ kind.StartsName) xs) : Refuses s function xs := by
  obtain ⟨x, xs, rfl, hk⟩ := hxs
  refine .of_success fun hr hrun => ?_
  obtain ⟨phrase, -, hreads, -⟩ := function_sound hr.valid hrun
  obtain ⟨z, zs, hz, hhead⟩ := phrase.exists_terminals
  rw [hz] at hreads
  exact hk (hr.startsName hreads (hhead ▸ startsName_function phrase))

end Grammar

/-! ## After a name that begins with `void`

The word is a result by itself, and what follows it, from the dot on, would have to be the name of the
function. -/

theorem Kind.isWord_false {kind : Kind} (h : kind.isWord true = false) : kind.isWord false = false := by
  cases kind <;> first | rfl | cases h

/-- Tokens may be terminals by themselves. -/
theorem Laid.of_tokens {rest : List Char} {front back : List Link}
    (hfront : ∀ link ∈ front, link.kind.isTrivia = false) (h : Laid rest xs back) :
    Laid rest (front.map .token ++ xs) (front ++ back) := by
  induction front with
  | nil => exact h
  | cons link front ih =>
    obtain ⟨hlink, hfront⟩ := List.forall_mem_cons.1 hfront
    exact .of_token hlink (ih hfront)

/-- As much of a name as has no reserved words: it stops before the first of them, or not at all. -/
theorem DottedName.Tail.exists_front {tail : List Link} (h : Tail true tail) (hne : tail ≠ []) :
    ∃ head front rest, tail = head :: (front ++ rest) ∧ Tail false (head :: front) ∧
      (rest = [] ∨ (DottedName.mk head front).last.kind = .punct .dot ∧
        ∃ word more, rest = word :: more ∧ word.kind.isWord false = false ∧
          word.kind.isWord true = true) := by
  induction h with
  | nil => exact absurd rfl hne
  | @dot dot hd => exact ⟨dot, [], [], rfl, .dot hd, .inl rfl⟩
  | @word dot word tail hd hw htail ih =>
    cases hword : word.kind.isWord false with
    | false => exact ⟨dot, [], word :: tail, rfl, .dot hd, .inr ⟨hd, word, tail, rfl, hword, hw⟩⟩
    | true =>
      cases tail with
      | nil => exact ⟨dot, [word], [], rfl, .word hd hword .nil, .inl rfl⟩
      | cons next tail =>
        obtain ⟨head, front, rest, heq, hfront, hrest⟩ := ih (by simp)
        refine ⟨dot, word :: head :: front, rest, by rw [heq]; rfl, .word hd hword hfront, ?_⟩
        rwa [last_cons, last_cons]

/-- So the name is that much of it, with the words that are left. -/
theorem Laid.split_name {back : List Char} {head : Link} {front rest links : List Link}
    (hrest : rest = [] ∨ (DottedName.mk head front).last.kind = .punct .dot ∧
      ∃ word more, rest = word :: more ∧ word.kind.isWord false = false ∧ word.kind.isWord true = true)
    (h : Laid back (.name true ⟨head, front ++ rest⟩ :: xs) links) :
    Laid back (.name false ⟨head, front⟩ :: (rest.map .token ++ xs)) links := by
  obtain ⟨gap, tail, rfl, hgap, htrivia, hends, hback⟩ := h.exists_gap
  obtain ⟨hfrontTrivia, hrestTrivia⟩ := List.forall_mem_append.1
    (show ∀ link ∈ (head :: front) ++ rest, link.kind.isTrivia = false from htrivia)
  have hassoc : (Terminal.name true ⟨head, front ++ rest⟩).links ++ tail =
      (Terminal.name false ⟨head, front⟩).links ++ (rest ++ tail) :=
    List.append_assoc (head :: front) rest tail
  rw [hassoc]
  refine .of_gap hgap (.terminal hfrontTrivia ?_ (.of_tokens hrestTrivia hback))
  unfold Terminal.Ends at hends ⊢
  dsimp only at hends ⊢
  rcases hrest with rfl | ⟨hdot, word, more, rfl, hfalse, htrue⟩
  · rw [List.append_nil] at hends
    rw [List.nil_append]
    split
    · rw [if_pos ‹_›] at hends
      obtain ⟨link, more, heq, hword, hplain⟩ := hends
      exact ⟨link, more, heq, Kind.isWord_false hword, hplain⟩
    · rwa [if_neg ‹_›] at hends
  · rw [if_pos hdot]
    exact ⟨word, more ++ tail, rfl, hfalse, Kind.plain_of_isWord htrue⟩

namespace Phrase

/-- What is left of a name after its first word, as a name without reserved words and what that leaves. -/
theorem exists_unreserved (head : Link) {dot : Link} {tail : List Link}
    (htail : DottedName.Tail true (dot :: tail))
    (hspells : ∀ link ∈ dot :: tail, Spells link.kind link.raw.toList) :
    ∃ (name : Name false) (rest : List Link),
      (rest = [] ∨ ∃ word more, rest = word :: more ∧ word.kind.isWord true = true) ∧
      ∀ {back xs links}, Laid back (.name true ⟨head, dot :: tail⟩ :: xs) links →
        Laid back (.token head :: (name.terminals ++ (rest.map .token ++ xs))) links := by
  obtain ⟨first, front, rest, heq, hfront, hrest⟩ := htail.exists_front (by simp)
  obtain ⟨rfl, rfl⟩ := List.cons.inj heq
  refine ⟨⟨⟨dot, front⟩, .inl hfront, fun link hl => hspells link ?_⟩, rest, ?_, fun hlaid => ?_⟩
  · rcases List.mem_cons.1 hl with rfl | hl
    · exact List.mem_cons_self
    · simp [hl]
  · exact hrest.imp_right fun ⟨_, word, more, hmore, _, hword⟩ => ⟨word, more, hmore, hword⟩
  · obtain ⟨gap, links, rfl, hgap, htrivia, -, hback⟩ := hlaid.behead.exists_gap
    exact .of_gap hgap (.of_token (htrivia head List.mem_cons_self) (hback.split_name hrest))

/-- A function without result and with nothing between its parentheses or after them. -/
def Function.resultless (word : Word .void) (name : Name false) (opening : Mark .leftParen)
    (closing : Mark .rightParen) : Function where
  oneway := none
  result := .void word
  name := name
  opening := opening
  args := []
  closing := closing
  tail := .none
  separator := none
  onewayed := fun _ => by simp [Result.head, word.fits]
  stops := trivial

end Phrase

namespace Grammar

variable {ys : List Terminal}

/-- A function without result fails where its arguments do not begin. -/
theorem function_refuses_void (word : Word .void) (name : Name false)
    (h : ∀ rest : Children ThriftSyntax.Field × Link → Parse ThriftSyntax.Function,
      Refuses s (mark .leftParen >>= fun _ => fieldsUntil .rightParen >>= rest) xs) :
    Refuses s function (word.terminals ++ (name.terminals ++ xs)) := by
  refine refuses_first (.inr (by rw [Terminal.head_token, word.fits]; rfl)) fun first hfirst => ?_
  have hhead : AcceptsPast s (.token word.link) first (functionHead first)
      ([] ++ .name false name.words :: xs) (.name false name.words :: xs) _ :=
    functionHead_accepts none (.void word) rfl hfirst name.starts.fresh.parenthesis
      (fun _ => by simp [Result.head, word.fits]) trivial
  exact hhead.refuses fun _ _ => (name_accepts name).refuses fun _ _ => h _

/-- What comes after a function may be refused. -/
theorem functions_refuse_after {y : Terminal} {ys : List Terminal} (phrase : Phrase.Function)
    (hx : phrase.terminals = x :: xs) (hraw : x.head.raw ≠ "") (hy : y.head.kind.Fresh)
    (hstops : phrase.StopsBefore y.head) (h : Refuses s (itemsUntil .rightBrace function) (y :: ys)) :
    Refuses s (itemsUntil .rightBrace function) (phrase.terminals ++ y :: ys) := by
  have hhead : phrase.terminals.head? = some x := by rw [hx]; rfl
  have hnext : Next (· ≠ .punct .rightBrace) (phrase.terminals ++ y :: ys) := by
    obtain ⟨z, zs, hz, hzhead⟩ := phrase.exists_terminals
    exact ⟨z, _, by rw [hz]; rfl, hzhead ▸ ((startsName_function phrase).begins (by decide)).unclosed⟩
  have hfunction : Accepts s function (phrase.terminals ++ y :: ys) (y :: ys) _ :=
    function_accepts phrase hy hstops
  rw [hx, List.cons_append] at hnext hfunction ⊢
  refine Accepts.repeatUntil_refuses hraw ((mark?_none (by decide) hnext).bind fun found hfound => ?_) h
  rw [hfound]
  exact hfunction.map fun node _ => ⟨node, rfl⟩

section

variable (word : Word .void) (name : Name false)

theorem functions_refuse_arguments
    (h : ∀ rest : Children ThriftSyntax.Field × Link → Parse ThriftSyntax.Function,
      Refuses s (mark .leftParen >>= fun _ => fieldsUntil .rightParen >>= rest) xs) :
    Refuses s (itemsUntil .rightBrace function) (word.terminals ++ (name.terminals ++ xs)) :=
  itemsUntil_refuses (by decide) ⟨.token word.link, _, rfl, by simp [word.fits]⟩
    (function_refuses_void word name h)

/-- Without a parenthesis no arguments begin. -/
theorem functions_refuse_unopened (hxs : Next (· ≠ .punct .leftParen) xs) :
    Refuses s (itemsUntil .rightBrace function) (word.terminals ++ (name.terminals ++ xs)) :=
  functions_refuse_arguments word name fun _ => (mark_refuses (by decide) hxs).bind

/-- Annotations are no arguments, and parentheses with none of them end a function. -/
theorem functions_refuse_annotations (annotations : Annotations)
    (hys : Next (fun kind => kind.Fresh ∧ kind ≠ .keyword .throws) ys)
    (h : Refuses s (itemsUntil .rightBrace function) ys) :
    Refuses s (itemsUntil .rightBrace function)
      (word.terminals ++ (name.terminals ++ (annotations.terminals ++ ys))) := by
  obtain ⟨opening, items, closing⟩ := annotations
  cases items with
  | nil =>
    obtain ⟨y, ys, rfl, hfresh, hthrows⟩ := hys
    have hraw : word.link.raw ≠ "" := by
      rw [word.spelled_word]
      decide
    exact functions_refuse_after (.resultless word name opening closing) rfl hraw hfresh
      (fun _ _ => hthrows) h
  | cons item items =>
    refine functions_refuse_arguments word name fun _ => ?_
    simp only [Annotations.terminals, List.flatMap_cons, List.append_assoc]
    have hstarts : item.phrase.name.words.head.kind.StartsName := item.phrase.name.starts
    have hfield : ∀ zs, Refuses s field (item.terminals Annotation.terminals ++ zs) := fun zs =>
      (integer_refuses ⟨.name false item.phrase.name.words, _, rfl, hstarts⟩).bind
    refine (mark_accepts opening).refuses fun _ _ =>
      (itemsUntil_refuses (show IsLone .rightParen by decide) ?_ (hfield _)).bind.bind
    exact ⟨.name false item.phrase.name.words, _, rfl, (hstarts.begins (by decide)).unclosed⟩

/-- The name that follows `void` in one word with it is no name of a function, or else what comes after
that function is refused. -/
theorem functions_refuse_void {rest : List Link} (annotations : Option Annotations)
    (hrest : rest = [] ∨ ∃ next more, rest = next :: more ∧ next.kind.isWord true = true)
    (hys : Next (fun kind => kind.Fresh ∧ kind ≠ .keyword .throws) ys)
    (h : Refuses s (itemsUntil .rightBrace function) ys) :
    Refuses s (itemsUntil .rightBrace function) (word.terminals ++ (name.terminals ++
      (rest.map .token ++ (optional Annotations.terminals annotations ++ ys)))) := by
  rcases hrest with rfl | ⟨next, more, rfl, hword⟩
  · cases annotations with
    | none =>
      obtain ⟨y, ys, rfl, hfresh, -⟩ := hys
      exact functions_refuse_unopened word name ⟨y, ys, rfl, hfresh.parenthesis⟩
    | some annotations => exact functions_refuse_annotations word name annotations hys h
  · refine functions_refuse_unopened word name ⟨.token next, _, rfl, ?_⟩
    exact (Kind.StartsName.of_isWord hword).fresh.parenthesis

end

/-- A type by itself is no function. -/
theorem functions_refuse_type (type : Phrase.FieldType)
    (hfirst : type.head.kind ≠ .keyword .void ∧ type.head.kind ≠ .keyword .oneway)
    (closing : Mark .rightBrace) :
    Refuses s (itemsUntil .rightBrace function) (type.terminals ++ (closing.terminals ++ xs)) := by
  have hclosing : ¬ closing.link.kind.StartsName := by
    rw [closing.fits]
    rintro (h | h) <;> cases h
  have hraw : closing.link.raw ≠ "cpp_type" := raw_ne_of_mark closing
  exact functions_refuse_result none (.type type hfirst.1) (fun _ => hfirst.2)
    (FieldType.stopsBefore_of_ne fun _ => hraw) (by simp [closing.fits]) hclosing

/-! ## A list before the word `cpp_type` -/

/-- After the word comes a string. -/
theorem cppType?_refuses (particle : Particle "cpp_type")
    (hxs : Next (fun kind => kind ≠ .string ∧ kind ≠ .punct .quote ∧ kind ≠ .punct .apostrophe) xs) :
    Refuses s cppType? (particle.terminals ++ xs) := by
  have hword : particle.link.kind.isWord true = true := by
    rw [particle.fits.1]
    rfl
  refine (word?_accepts hword).refuses fun found hfound => ?_
  obtain ⟨word, rfl, hlink⟩ := hfound
  dsimp only
  rw [if_pos (hlink.raw.trans particle.fits.2)]
  exact (string_refuses hxs).map

/-- A list that ends with its angle bracket takes in the word that follows it. -/
theorem fieldType_refuses (hbare : type.EndsBare) (particle : Particle "cpp_type")
    (hxs : Next (fun kind => kind ≠ .string ∧ kind ≠ .punct .quote ∧ kind ≠ .punct .apostrophe) xs) :
    Refuses s fieldType (type.terminals ++ (particle.terminals ++ xs)) := by
  cases type with
  | list word isList less element greater cppType annotations =>
    cases cppType <;> cases annotations <;> try exact hbare.elim
    simp only [FieldType.terminals, Phrase.optional, Option.elim_none, List.append_nil, List.append_assoc]
    have hraw : word.words.head.raw ≠ "" := fun hraw =>
      (word.shaped.spells _ List.mem_cons_self).ne_nil word.starts.ne_endOfInput (by rw [hraw]; rfl)
    refine Refuses.nested fun inner hinner => (name_accepts word).refuses fun found hfound => ?_
    refine Refuses.bind ?_
    rw [openType_eq, hfound.text, if_neg (by simp [isList]), if_neg (by simp [isList]), if_pos isList]
    refine (mark_accepts less).refuses fun _ _ => ?_
    have helement : Accepts s fieldType
        (element.terminals ++ (greater.terminals ++ (particle.terminals ++ xs)))
        (greater.terminals ++ (particle.terminals ++ xs)) _ :=
      fieldType_accepts element (by simp [greater.fits]) (stopsBefore_mark greater element)
    refine (hinner ⟨_, _, rfl, List.suffix_append less.terminals _, hraw⟩ helement).refuses fun _ _ => ?_
    exact (mark_accepts greater).refuses fun _ _ => (cppType?_refuses particle hxs).bind
  | _ => exact hbare.elim

theorem fieldType_refuses_mark (hbare : type.EndsBare) (particle : Particle "cpp_type") {mark : Punct}
    (leaf : Mark mark) (hquote : mark ≠ .quote) (hapostrophe : mark ≠ .apostrophe) :
    Refuses s fieldType (type.terminals ++ (particle.terminals ++ (leaf.terminals ++ xs))) :=
  fieldType_refuses hbare particle ⟨_, _, rfl, by simp [leaf.fits, hquote, hapostrophe]⟩

theorem field_refuses_type (integer : Integer) (colon : Mark .colon)
    (hxs : Next (fun kind => kind ≠ .keyword .required ∧ kind ≠ .keyword .optional) xs)
    (h : Refuses s fieldType xs) :
    Refuses s field (integer.terminals ++ (colon.terminals ++ xs)) := by
  refine (integer_accepts integer).refuses fun _ _ => (mark_accepts colon).refuses fun _ _ => ?_
  exact (requiredness?_accepts none fun _ => hxs).refuses fun _ _ => h.bind

theorem functions_refuse_result_type
    (hxs : Next (fun kind => kind.StartsName ∧ kind ≠ .keyword .void ∧ kind ≠ .keyword .oneway) xs)
    (h : Refuses s fieldType xs) : Refuses s (itemsUntil .rightBrace function) xs := by
  obtain ⟨x, xs, rfl, hx, hvoid, honeway⟩ := hxs
  refine itemsUntil_refuses (by decide) ⟨x, xs, rfl, (hx.begins (by decide)).unclosed⟩ ?_
  refine refuses_first hx fun first hfirst => ?_
  have hresult : RefusesPast s x first (resultType first) xs := by
    unfold resultType
    rw [if_neg (by rwa [hfirst.kind])]
    exact .putBack h.map
  have hhead : RefusesPast s x first (functionHead first) xs := by
    unfold functionHead
    rw [if_neg (by rwa [hfirst.kind])]
    exact hresult.bind
  exact hhead.bind

/-! ## Documents -/

theorem document_refuses_definition {options : Options} {word : Keyword} (leaf : Word word)
    (h : ∀ head : Link, head.kind = .keyword word → Refuses s (definition options head) xs) :
    Refuses s (document options) (leaf.terminals ++ xs) := by
  have hword : leaf.link.kind.isWord true = true := by
    rw [leaf.fits]
    rfl
  have hstep : Refuses s (definitionStep options) (leaf.terminals ++ xs) := by
    refine (accepts_takeSignificant (Kind.plain_of_isWord hword)
      (Kind.ne_endOfInput_of_isWord hword)).refuses fun head hhead => ?_
    have hkind := hhead.kind.trans leaf.fits
    rw [if_neg (by simp [hkind])]
    exact (h head hkind).map
  exact hstep.repeatUntil.bind

end Grammar

namespace SyntaxTree

variable (options : Options) {more : String} {own : List Link} {n : Nat}

/-- A text is refused where its terminals are, within a frame. -/
theorem error_of_cut (frame : Frame n) (hcut : Link.Cut xs more.toList [] own)
    (h : ∀ s, Refuses s (Grammar.document options) (frame.opening ++ xs)) :
    ∃ error, ofText (frame.before ++ more) options = .error error := by
  have hwhole := (frame.cut_before _).append hcut (List.append_nil _).symm
  obtain ⟨error, after, hrun⟩ := h _ _ (hwhole.lexed.awaits (fun _ => 0) (fun _ => 0) hwhole.whole
    (by rw [hwhole.spelled, String.toList_append]) fun _ _ => rfl)
  exact ⟨error, by rw [ofText, hrun]⟩

end SyntaxTree

end ThriftSyntax
