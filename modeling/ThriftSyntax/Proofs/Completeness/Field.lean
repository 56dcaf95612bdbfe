import ThriftSyntax.Grammar.Field
import ThriftSyntax.Proofs.Completeness.ConstValue
import ThriftSyntax.Proofs.Derivation.Document

/-!
# Completeness of fields

A field is read where its terminals come next and after them something that belongs to no field.
-/

namespace ThriftSyntax.Grammar

open Parse Reader Phrase

variable {s : Setting} {x : Terminal} {xs : List Terminal}

/-! ## What comes after a clause -/

theorem next_separator {P : Kind → Prop} {separator : Option Separator}
    (hcomma : P (.punct .comma)) (hsemicolon : P (.punct .semicolon)) (hxs : Next P xs) :
    Next P (optional Leaf.terminals separator ++ xs) := by
  cases separator with
  | none => exact hxs
  | some separator =>
    refine ⟨.token separator.link, _, rfl, ?_⟩
    rw [Terminal.head_token]
    rcases separator.fits with h | h
    · rw [h]
      exact hcomma
    · rw [h]
      exact hsemicolon

theorem next_annotations {P : Kind → Prop} {annotations : Option Annotations}
    (hopening : P (.punct .leftParen)) (hxs : Next P xs) :
    Next P (optional Annotations.terminals annotations ++ xs) := by
  cases annotations with
  | none => exact hxs
  | some phrase =>
    refine ⟨.token phrase.opening.link, _, rfl, ?_⟩
    rw [Terminal.head_token, phrase.opening.fits]
    exact hopening

theorem lastToken_of_rel {separator : Option Separator} {found : Option Link} {last last' : Nat}
    (h : Option.Rel (fun leaf link => leaf.link.Alike s link) separator found)
    (hlast : s.new last = s.old last') :
    s.new (lastToken last found) = s.old (separator.elim last' (·.link.id)) := by
  cases h with
  | none => exact hlast
  | some h => exact h.id

theorem separator_of_rel {separator : Option Separator} {found : Option Link}
    (h : Option.Rel (fun leaf link => leaf.link.Alike s link) separator found) :
    (found.map Link.id).map s.new = (separator.map (·.link.id)).map s.old := by
  cases h with
  | none => rfl
  | some h => exact congrArg some h.id

/-! ## Fields -/

theorem requiredness?_accepts (demand : Option Demand)
    (hxs : demand = none →
      Next (fun kind => kind ≠ .keyword .required ∧ kind ≠ .keyword .optional) xs) :
    Accepts s requiredness? (optional Demand.terminals demand ++ xs) xs
      (· = demand.map (·.form)) := by
  cases demand with
  | some demand =>
    obtain ⟨form, word⟩ := demand
    have hword : word.link.kind.isWord true = true := by
      rw [word.fits]
      rfl
    refine (word?_accepts hword).bind fun found hfound => ?_
    obtain ⟨other, rfl, hother⟩ := hfound
    dsimp only
    rw [hother.kind, word.fits]
    cases form <;> exact .pure rfl
  | none =>
    obtain ⟨x, xs, rfl, hk⟩ := hxs rfl
    refine word?_unclaimed rfl (fun word hword => ?_) rfl
    dsimp only
    rw [hword.kind]
    split
    · exact absurd ‹_› hk.1
    · exact absurd ‹_› hk.2
    · rfl

/-- Two values that may be missing are the same but for numbers. -/
def DefaultAlike (s : Setting) : Option Default → Option ThriftSyntax.ConstValue → Prop :=
  Option.Rel fun phrase node => node.relabel s.new = phrase.value.node.relabel s.old

theorem default_of_rel {phrase : Option Default} {found : Option ThriftSyntax.ConstValue}
    (h : DefaultAlike s phrase found) : found.map (ConstValue.relabel s.new) =
      (phrase.map (·.value.node)).map (ConstValue.relabel s.old) := by
  cases h with
  | none => rfl
  | some h => exact congrArg some h

theorem default_last_of_rel {phrase : Option Default} {found : Option ThriftSyntax.ConstValue}
    {last last' : Nat} (h : DefaultAlike s phrase found) (hlast : s.new last = s.old last') :
    s.new ((found.map (·.span.last)).getD last) =
      s.old (phrase.elim last' (·.value.node.span.last)) := by
  cases h with
  | none => exact hlast
  | some h =>
    have hspan := congrArg ConstValue.span h
    rw [ConstValue.span_relabel, ConstValue.span_relabel] at hspan
    exact congrArg Span.last hspan

theorem default?_accepts (default : Option Default)
    (hxs : default = none → Next (· ≠ .punct .equals) xs) :
    Accepts s default? (optional Default.terminals default ++ xs) xs
      (DefaultAlike s default) := by
  cases default with
  | some default =>
    simp only [Phrase.optional, Option.elim_some, Default.terminals, List.append_assoc]
    refine (mark?_some default.equals).bind fun found hfound => ?_
    obtain ⟨link, rfl, -⟩ := hfound
    exact (constValue_accepts default.value).map fun node hnode => .some hnode
  | none =>
    refine (mark?_none (by decide) (hxs rfl)).bind fun found hfound => ?_
    rw [hfound]
    exact .pure .none

theorem field_accepts (phrase : Phrase.Field) (hx : x.head.kind.Fresh) :
    Accepts s field (phrase.terminals ++ x :: xs) (x :: xs)
      fun node => node.relabel s.new = phrase.node.relabel s.old := by
  simp only [Phrase.Field.terminals, List.append_assoc]
  have hfollow : ∀ {P : Kind → Prop}, P (.punct .comma) → P (.punct .semicolon) →
      P x.head.kind → Next P (optional Leaf.terminals phrase.separator ++ x :: xs) :=
    fun hcomma hsemicolon hx => next_separator hcomma hsemicolon ⟨x, xs, rfl, hx⟩
  refine (integer_accepts phrase.id).bind fun id hid => ?_
  refine (mark_accepts phrase.colon).bind fun _ _ => ?_
  refine (requiredness?_accepts phrase.demand fun hdemand => ?_).bind fun demand hdemand => ?_
  · obtain ⟨y, ys, hy, hhead⟩ := phrase.type.exists_terminals
    exact ⟨y, _, by rw [hy]; rfl, hhead ▸ phrase.demanded hdemand⟩
  refine (fieldType_accepts (x := .name false phrase.name.words) phrase.type
    phrase.name.starts.fresh.parenthesis phrase.stops).bind
    fun type htype => ?_
  refine (name_accepts phrase.name).bind fun name hname => ?_
  refine (default?_accepts phrase.default fun _ => next_annotations (by simp)
    (hfollow (by simp) (by simp) hx.equals)).bind fun default hdefault => ?_
  have hlast : s.new ((default.map (·.span.last)).getD name.last.id) = s.old phrase.last :=
    default_last_of_rel hdefault hname.last.id
  refine (trailingAnnotations_accepts phrase.annotations (by simp) hlast
    (hfollow (by simp) (by simp) hx.parenthesis)).bind fun annotations hannotations => ?_
  refine (separator?_accepts phrase.separator ⟨x, xs, rfl, hx⟩).bind
    fun separator hseparator => span_accepts ?_
  simp only [Field.relabel, Phrase.Field.node, Span.relabel, hid.1.id, hid.2,
    lastToken_of_rel hseparator hannotations.2, hdemand, htype, hname.text,
    default_of_rel hdefault,
    hannotations.1, separator_of_rel hseparator]

/-- Parts with an index are the same but for numbers if the parts are and have the same names. -/
theorem ofItems_relabel {α β : Type} {chain : TokenChain} {span : α → Span} {name : α → String}
    {f g : α → α} {items : List α} {phrases : List β} {node : β → α}
    {entry : β → Token.Key × String} (h : items.map f = phrases.map fun phrase => g (node phrase))
    (hname : ∀ item, name (f item) = name item)
    (hentry : ∀ phrase, (entry phrase).2 = name (g (node phrase))) :
    (Children.ofItems chain span name items).relabel f =
      (Children.mk (phrases.map node) ⟨phrases.map entry⟩).relabel g := by
  have hindex : (items.map fun item => ((default : Token.Key), name item)) =
      phrases.map fun phrase => (default, (entry phrase).2) := by
    have := congrArg (List.map fun item => ((default : Token.Key), name item)) h
    simpa only [List.map_map, Function.comp_def, hname, hentry] using this
  simp only [Children.relabel, Children.ofItems, ChildIndex.relabel, List.map_map,
    Function.comp_def, h, hindex]

theorem fieldsUntil_accepts {close : Punct} (hclose : close = .rightBrace ∨ close = .rightParen)
    (phrases : List Phrase.Field) (leaf : Mark close) :
    Accepts s (fieldsUntil close)
      (phrases.flatMap Phrase.Field.terminals ++ (leaf.terminals ++ xs)) xs
      fun result => result.1.relabel (Field.relabel s.new) =
        (Phrase.Field.children phrases).relabel (Field.relabel s.old) ∧
          leaf.link.Alike s result.2 := by
  have hlone : Lexeme.IsLone close := by rcases hclose with rfl | rfl <;> decide
  have hfresh : (Kind.punct close).Fresh := by
    rcases hclose with rfl | rfl <;> constructor <;> simp
  refine (freshItemsUntil_accepts hlone hfresh (fun phrase => phrase.node.relabel s.old)
    (Field.relabel s.new) leaf List.suffix_rfl ?_ ?_).bind fun result hresult => ?_
  · refine fun phrase _ => ⟨.token phrase.id.link, _, rfl, ?_⟩
    rw [Terminal.head_token, phrase.id.fits.1]
    exact ⟨by constructor <;> simp, by simp, by simp⟩
  · exact fun phrase _ x zs _ hx => field_accepts phrase hx
  · refine index_accepts fun chain => ⟨?_, hresult.2⟩
    exact ofItems_relabel hresult.1 (fun _ => rfl) fun _ => rfl

end ThriftSyntax.Grammar
