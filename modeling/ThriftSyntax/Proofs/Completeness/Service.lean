import ThriftSyntax.Grammar.Service
import ThriftSyntax.Proofs.Completeness.Field

/-!
# Completeness of functions and services

The first token of a function is read before it is known what it begins, and put back if it begins a
type.
-/

namespace ThriftSyntax.Grammar

open Parse Reader Phrase

variable {s : Setting} {α β : Type} {P : α → Prop} {Q : β → Prop}
variable {x : Terminal} {xs ys zs : List Terminal}

/-! ## After a first token -/

/-- The same as `Accepts`, for a reader that has taken the first token of `x`. -/
def AcceptsPast (s : Setting) (x : Terminal) (found : Link) (p : Parse α) (xs ys : List Terminal)
    (P : α → Prop) : Prop :=
  ∀ reader, Passed s x xs found reader →
    Attains (fun a after => P a ∧ after.Awaits s ys) (p reader)

theorem AcceptsPast.bind {found : Link} {p : Parse α} {f : α → Parse β}
    (hp : AcceptsPast s x found p xs ys P) (hf : ∀ a, P a → Accepts s (f a) ys zs Q) :
    AcceptsPast s x found (p >>= f) xs zs Q :=
  fun reader hr => (hp reader hr).bind fun _ ⟨ha, hbetween⟩ => hf _ ha _ hbetween

/-- A token that is a terminal by itself is read for good. -/
theorem Accepts.past {link found : Link} {p : Parse α} (h : Accepts s p xs ys P) :
    AcceptsPast s (.token link) found p xs ys P :=
  fun reader hr => h reader (hr.passes link rfl)

/-- A token that was put back comes next again. -/
theorem Accepts.putBack {found : Link} {p : Parse α} (h : Accepts s p (x :: xs) ys P) :
    AcceptsPast s x found (do putBackLast found; p) xs ys P := by
  intro reader hr
  rw [bind_of_ok (putBackLast_eq hr.held hr.last)]
  exact h _ hr.hold

theorem accepts_first {f : Link → Parse β} (hk : x.head.kind.StartsName)
    (h : ∀ found, x.head.Alike s found → AcceptsPast s x found (f found) xs ys Q) :
    Accepts s (takeSignificant >>= f) (x :: xs) ys Q := by
  intro reader hr
  obtain ⟨found, between, htake, hpassed⟩ := takeSignificant_passed hr hk.plain hk.ne_endOfInput
  rw [bind_of_ok htake]
  exact h found hpassed.alike between hpassed

/-! ## Results -/

theorem startsName_type (type : Phrase.FieldType) : type.head.kind.StartsName := by
  cases type with
  | simple name => exact name.starts
  | map word | set word | list word => exact word.starts

theorem startsName_result (result : Result) : result.head.kind.StartsName := by
  cases result with
  | void word =>
    refine .inr ?_
    rw [Result.head, word.fits]
    rfl
  | type type => exact startsName_type type

theorem startsName_function (phrase : Phrase.Function) : phrase.head.kind.StartsName := by
  obtain ⟨oneway, result, name, opening, args, closing, tail, separator, onewayed, stops⟩ := phrase
  cases oneway with
  | none => exact startsName_result result
  | some word =>
    refine .inr ?_
    rw [Phrase.Function.head, Option.elim_some, word.fits]
    rfl

theorem Result.exists_terminals (result : Result) :
    ∃ x xs, result.terminals = x :: xs ∧ x.head = result.head := by
  cases result with
  | void word => exact ⟨_, _, rfl, rfl⟩
  | type type => exact type.exists_terminals

/-- Two results are the same but for numbers. -/
def ResultAlike (s : Setting) (result : Result) (node : Option FieldType) : Prop :=
  node.map (FieldType.relabel s.new) = result.node.map (FieldType.relabel s.old)

theorem resultType_accepts (result : Result) {y : Terminal} {first : Link}
    (hresult : result.terminals = x :: xs) (hfirst : x.head.Alike s first)
    (hk : y.head.kind ≠ .punct .leftParen) (hs : result.StopsBefore y.head) :
    AcceptsPast s x first (resultType first) (xs ++ y :: ys) (y :: ys)
      (ResultAlike s result) := by
  unfold resultType
  cases result with
  | void word =>
    cases hresult
    rw [if_pos (hfirst.kind.trans word.fits)]
    exact Accepts.past (.pure rfl)
  | type type returned =>
    obtain ⟨z, zs, hz, hhead⟩ := type.exists_terminals
    rw [Result.terminals] at hresult
    obtain ⟨rfl, rfl⟩ := List.cons.inj (hz.symm.trans hresult)
    rw [if_neg (by rw [hfirst.kind, hhead]; exact returned)]
    refine Accepts.putBack ?_
    have htype : Accepts s fieldType (type.terminals ++ y :: ys) (y :: ys) _ :=
      fieldType_accepts type hk hs
    rw [hz, List.cons_append] at htype
    exact htype.map fun node hnode => congrArg some hnode

theorem functionHead_accepts (oneway : Option (Word .oneway)) (result : Result) {y : Terminal}
    {first : Link} (hhead : optional Leaf.terminals oneway ++ result.terminals = x :: xs)
    (hfirst : x.head.Alike s first) (hk : y.head.kind ≠ .punct .leftParen)
    (honeway : oneway = none → result.head.kind ≠ .keyword .oneway)
    (hs : result.StopsBefore y.head) :
    AcceptsPast s x first (functionHead first) (xs ++ y :: ys) (y :: ys)
      fun head => head.1 = oneway.isSome ∧ ResultAlike s result head.2 := by
  obtain ⟨z, zs, hz, hzhead⟩ := Result.exists_terminals result
  unfold functionHead
  cases oneway with
  | some word =>
    cases hhead
    rw [if_pos (hfirst.kind.trans word.fits), hz]
    refine Accepts.past (accepts_first (hzhead ▸ startsName_result result) fun found hfound => ?_)
    exact (resultType_accepts result hz hfound hk hs).bind fun node hnode => .pure ⟨rfl, hnode⟩
  | none =>
    obtain ⟨rfl, rfl⟩ := List.cons.inj (hz.symm.trans hhead)
    rw [if_neg (by rw [hfirst.kind, hzhead]; exact honeway rfl)]
    exact (resultType_accepts result hz hfirst hk hs).bind fun node hnode => .pure ⟨rfl, hnode⟩

/-! ## Exceptions and annotations -/

/-- The exceptions of a function are the same but for numbers. -/
def ThrowsAlike (s : Setting) (throws : Option Throws)
    (node : Option (Children ThriftSyntax.Field)) : Prop :=
  node.map (Children.relabel (Field.relabel s.new)) =
    (throws.map (Phrase.Field.children ·.fields)).map (Children.relabel (Field.relabel s.old))

theorem throws_accepts {last last' : Nat} (phrase : Option Throws)
    (hxs : phrase = none → Next (· ≠ .keyword .throws) xs) (hlast : s.new last = s.old last') :
    Accepts s (throws last) (optional Throws.terminals phrase ++ xs) xs
      fun result => ThrowsAlike s phrase result.1 ∧
        s.new result.2 = s.old (phrase.elim last' (·.closing.link.id)) := by
  cases phrase with
  | some phrase =>
    simp only [Phrase.optional, Option.elim_some, Throws.terminals, List.append_assoc]
    have hword : phrase.word.link.kind.isWord true = true := by
      rw [phrase.word.fits]
      rfl
    refine (word?_accepts hword).bind fun found hfound => ?_
    obtain ⟨word, rfl, hlink⟩ := hfound
    dsimp only
    rw [if_pos (hlink.kind.trans phrase.word.fits)]
    refine (mark_accepts phrase.opening).bind fun _ _ => ?_
    refine (fieldsUntil_accepts (.inr rfl) phrase.fields phrase.closing).bind
      fun result hresult => .pure ?_
    exact ⟨congrArg some hresult.1, hresult.2.id⟩
  | none =>
    obtain ⟨x, xs, rfl, hk⟩ := hxs rfl
    refine word?_unclaimed rfl (fun word hword => ?_) ⟨rfl, hlast⟩
    dsimp only
    rw [if_neg (hword.kind ▸ hk)]

/-- What follows the arguments of a function is the same but for numbers. -/
def TailAlike (s : Setting) (tail : FunctionTail) (last : Nat)
    (result : List ThriftSyntax.Annotation × Option (Children ThriftSyntax.Field) × Nat) : Prop :=
  relabelAnnotations s.new result.1 =
      relabelAnnotations s.old (Annotations.nodes tail.annotations) ∧
    ThrowsAlike s tail.throws result.2.1 ∧ s.new result.2.2 = s.old (tail.last last)

theorem functionTail_accepts {last last' : Nat} (tail : FunctionTail)
    (hxs : Next (· ≠ .punct .leftParen) xs)
    (hthrows : tail.throws = none → Next (· ≠ .keyword .throws) xs)
    (hlast : s.new last = s.old last') :
    Accepts s (functionTail last) (tail.terminals ++ xs) xs (TailAlike s tail last') := by
  cases tail with
  | none =>
    refine (annotations?_none hxs).bind fun found hfound => ?_
    rw [hfound]
    refine (throws_accepts none hthrows hlast).bind fun result hresult => ?_
    exact (trailingAnnotations_accepts none (by simp) hresult.2 hxs).bind
      fun result' hresult' => .pure ⟨hresult'.1, hresult.1, hresult'.2⟩
  | annotated annotations throws =>
    rw [FunctionTail.terminals, List.append_assoc]
    refine (annotations?_some annotations (by simp)).bind fun found hfound => ?_
    obtain ⟨nodes, closing, rfl, hnodes, hclosing⟩ := hfound
    exact (throws_accepts throws hthrows hclosing.id).bind
      fun result hresult => .pure ⟨hnodes, hresult⟩
  | throwing throws annotations =>
    rw [FunctionTail.terminals, List.append_assoc]
    refine (annotations?_none ⟨.token throws.word.link, _, rfl, ?_⟩).bind fun found hfound => ?_
    · simp [throws.word.fits]
    rw [hfound]
    refine (throws_accepts (some throws) (by simp) hlast).bind fun result hresult => ?_
    exact (trailingAnnotations_accepts annotations (by simp) hresult.2 hxs).bind
      fun result' hresult' => .pure ⟨hresult'.1, hresult.1, hresult'.2⟩

/-! ## Functions -/

theorem function_accepts (phrase : Phrase.Function) (hx : x.head.kind.Fresh)
    (hstops : phrase.StopsBefore x.head) :
    Accepts s function (phrase.terminals ++ x :: xs) (x :: xs)
      fun node => node.relabel s.new = phrase.node.relabel s.old := by
  obtain ⟨y, ys, hy, hhead⟩ : ∃ y ys,
      optional Leaf.terminals phrase.oneway ++ phrase.result.terminals = y :: ys ∧
        y.head = phrase.head := by
    obtain ⟨z, zs, hz, hzhead⟩ := Result.exists_terminals phrase.result
    rw [Phrase.Function.head, hz]
    cases phrase.oneway with
    | none => exact ⟨z, zs, rfl, hzhead⟩
    | some word => exact ⟨_, _, rfl, rfl⟩
  simp only [Phrase.Function.terminals, List.append_assoc]
  rw [← List.append_assoc (optional _ _), hy]
  have hthrows : phrase.tail.throws = none → Next (· ≠ .keyword .throws)
      (optional Leaf.terminals phrase.separator ++ x :: xs) := by
    intro ht
    cases hseparator : phrase.separator with
    | none => exact ⟨x, xs, rfl, hstops ht hseparator⟩
    | some separator =>
      refine ⟨.token separator.link, _, rfl, ?_⟩
      rcases separator.fits with hk | hk <;> simp [hk]
  refine accepts_first (hhead ▸ startsName_function phrase) fun first hfirst => ?_
  refine (functionHead_accepts (y := .name false phrase.name.words) phrase.oneway phrase.result hy
    hfirst phrase.name.starts.fresh.parenthesis phrase.onewayed phrase.stops).bind
    fun head hresult => ?_
  refine (name_accepts phrase.name).bind fun name hname => ?_
  refine (mark_accepts phrase.opening).bind fun _ _ => ?_
  refine (fieldsUntil_accepts (.inr rfl) phrase.args phrase.closing).bind fun args hargs => ?_
  refine (functionTail_accepts phrase.tail (next_separator (by simp) (by simp)
    ⟨x, xs, rfl, hx.parenthesis⟩) hthrows hargs.2.id).bind fun tail htail => ?_
  refine (separator?_accepts phrase.separator ⟨x, xs, rfl, hx⟩).bind
    fun separator hseparator => span_accepts ?_
  have hid := hfirst.id
  rw [hhead] at hid
  have hresult' := hresult.2
  have hthrows' := htail.2.1
  simp only [ResultAlike, ThrowsAlike] at hresult' hthrows'
  simp only [Function.relabel, Phrase.Function.node, Span.relabel, hid, hresult.1, hresult',
    hname.text, hargs.1, hthrows', htail.1, lastToken_of_rel hseparator htail.2.2,
    separator_of_rel hseparator]

theorem functionsUntil_accepts (phrases : List Phrase.Function) (leaf : Mark .rightBrace)
    (hstops : phrases.IsChain fun function next => function.StopsBefore next.head) :
    Accepts s (functionsUntil .rightBrace)
      (phrases.flatMap Phrase.Function.terminals ++ (leaf.terminals ++ xs)) xs
      fun result => result.1.relabel (Function.relabel s.new) =
        (Phrase.Function.children phrases).relabel (Function.relabel s.old) ∧
          leaf.link.Alike s result.2 := by
  refine (itemsUntil_accepts (by decide) (by constructor <;> simp)
    Phrase.Function.StopsBefore (fun phrase => phrase.node.relabel s.old)
    (Function.relabel s.new) leaf List.suffix_rfl
    (fun phrase _ x zs _ hx hstops => function_accepts phrase hx hstops) ?_ ?_ ?_).bind
    fun result hresult => ?_
  · intro phrase _
    obtain ⟨x, tail, hx, hhead⟩ := phrase.exists_terminals
    exact ⟨x, tail, hx, hhead ▸ (startsName_function phrase).begins (by decide)⟩
  · refine hstops.imp fun function next h x hx => ?_
    obtain ⟨y, ys, hy, hhead⟩ := next.exists_terminals
    rw [hy] at hx
    cases hx
    rw [hhead]
    exact h
  · intro phrase _ _ _
    simp [leaf.fits]
  · refine index_accepts fun chain => ⟨?_, hresult.2⟩
    exact ofItems_relabel hresult.1 (fun _ => rfl) fun _ => rfl

/-! ## Services -/

theorem base?_accepts (base : Option Base)
    (hxs : base = none → Next (·.isWord true = false) xs) :
    Accepts s base? (optional Base.terminals base ++ xs) xs
      (Option.Rel (fun phrase found => phrase.name.words.Alike s found) base) := by
  cases base with
  | some base =>
    simp only [Phrase.optional, Option.elim_some, Base.terminals, List.append_assoc]
    have hword : base.particle.link.kind.isWord true = true := by
      rw [base.particle.fits.1]
      rfl
    refine (word?_accepts hword).bind fun found hfound => ?_
    obtain ⟨word, rfl, hlink⟩ := hfound
    dsimp only
    rw [if_pos (hlink.raw.trans base.particle.fits.2)]
    exact (name_accepts base.name).map fun found hfound => .some hfound
  | none =>
    refine (word?_absent (hxs rfl)).bind fun found hfound => ?_
    rw [hfound]
    exact .pure .none

theorem base_of_rel {base : Option Base} {found : Option DottedName}
    (h : Option.Rel (fun phrase found => phrase.name.words.Alike s found) base found) :
    found.map DottedName.text = base.map (·.name.words.text) := by
  cases h with
  | none => rfl
  | some h => exact congrArg some h.text

/-- The word that begins a definition is read before the rest of it. -/
theorem service_accepts (phrase : Phrase.Service) {keyword : Link}
    (hk : phrase.word.link.Alike s keyword) (hxs : Next (· ≠ .punct .leftParen) xs) :
    Accepts s (service keyword) (phrase.terminals.tail ++ xs) xs
      fun node => node.relabel s.new = phrase.node.relabel s.old := by
  simp only [Phrase.Service.terminals, Leaf.terminals, List.cons_append, List.nil_append,
    List.tail_cons, List.append_assoc]
  refine (name_accepts phrase.name).bind fun name hname => ?_
  refine (base?_accepts phrase.base fun _ => ⟨.token phrase.opening.link, _, rfl, ?_⟩).bind
    fun base hbase => ?_
  · simp [phrase.opening.fits, Kind.isWord]
  refine (mark_accepts phrase.opening).bind fun _ _ => ?_
  refine (functionsUntil_accepts phrase.functions phrase.closing phrase.stops).bind
    fun functions hfunctions => ?_
  refine (trailingAnnotations_accepts phrase.annotations (by simp) hfunctions.2.id hxs).bind
    fun annotations hannotations => span_accepts ?_
  simp only [Service.relabel, Phrase.Service.node, Span.relabel, hk.id, hname.text,
    base_of_rel hbase, hfunctions.1, hannotations.1, hannotations.2]

end ThriftSyntax.Grammar
