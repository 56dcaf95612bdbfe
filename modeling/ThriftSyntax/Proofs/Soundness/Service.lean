import ThriftSyntax.Grammar.Service
import ThriftSyntax.Proofs.Soundness.Field

/-!
# Soundness of functions and services

What is read as a function or a service is a phrase of that rule. A function that has no exceptions
says that the word that begins them does not come next.
-/

namespace ThriftSyntax.Grammar

open Parse Reader Phrase

variable {reader after : Reader}

/-! ## Functions -/

/-- A type that is read after its first token was put back begins with that token. -/
theorem resultType_sound {head : Link} {between : Reader} (htook : reader.Took head between)
    (hp : head.Plain) (hk : head.kind.isTrivia = false) {node : Option FieldType}
    (h : resultType head between = .ok node after) :
    ∃ result : Result, result.node = node ∧ result.head = head ∧
      reader.Reads result.terminals after ∧ after.Meets result.StopsBefore := by
  unfold resultType at h
  split at h
  · rename_i hvoid
    obtain ⟨rfl, rfl⟩ := pure_eq_ok.1 h
    exact ⟨.void ⟨head, htook.spells, hvoid⟩, rfl, rfl, htook.reads hk (by simp [hvoid]),
      fun _ _ _ _ _ => trivial⟩
  · rename_i hvoid
    obtain ⟨_, start, hback, h⟩ := bind_eq_ok.1 h
    rw [putBackLast_of_took htook] at hback
    cases hback
    obtain ⟨node, htype, rfl⟩ := map_eq_ok.1 h
    have hstart := htook.reads_hold hp
    obtain ⟨type, rfl, hreads, hstops⟩ := fieldType_sound hstart.valid htype
    have hhead : type.head = head := by
      obtain ⟨x, xs, hx, hhead⟩ := type.exists_terminals
      rw [← hhead]
      exact (htook.hold_meets hk).head (hx ▸ hreads)
    exact ⟨.type type (hhead ▸ hvoid), rfl, hhead, hstart.trans hreads, hstops⟩

theorem functionHead_sound {first : Link} {between : Reader} (htook : reader.Took first between)
    (hp : first.Plain) (hk : first.kind.isTrivia = false) {oneway : Bool}
    {node : Option FieldType} (h : functionHead first between = .ok (oneway, node) after) :
    ∃ (word : Option (Word .oneway)) (result : Result), word.isSome = oneway ∧
      result.node = node ∧ word.elim result.head (·.link) = first ∧
      (word = none → result.head.kind ≠ .keyword .oneway) ∧
      reader.Reads (optional Leaf.terminals word ++ result.terminals) after ∧
      after.Meets result.StopsBefore := by
  unfold functionHead at h
  split at h
  · rename_i honeway
    obtain ⟨head, next, htake, h⟩ := bind_eq_ok.1 h
    obtain ⟨node, last, hresult, h⟩ := bind_eq_ok.1 h
    obtain ⟨heq, rfl⟩ := pure_eq_ok.1 h
    cases heq
    have hword := htook.reads hk (by simp [honeway])
    obtain ⟨start, hstart, htook', hp', hk'⟩ := takeSignificant_sound hword.valid htake
    obtain ⟨result, rfl, -, hreads, hstops⟩ := resultType_sound htook' hp' hk' hresult
    exact ⟨some ⟨first, htook.spells, honeway⟩, result, rfl, rfl, rfl, by simp,
      hword.trans (hstart.trans hreads), hstops⟩
  · rename_i honeway
    obtain ⟨node, last, hresult, h⟩ := bind_eq_ok.1 h
    obtain ⟨heq, rfl⟩ := pure_eq_ok.1 h
    cases heq
    obtain ⟨result, rfl, rfl, hreads, hstops⟩ := resultType_sound htook hp hk hresult
    exact ⟨none, result, rfl, rfl, rfl, fun _ => honeway, hreads, hstops⟩

theorem throws_sound {last : Nat} (hr : reader.Valid)
    {found : Option (Children ThriftSyntax.Field) × Nat}
    (h : throws last reader = .ok found after) :
    ∃ phrase : Option Throws,
      found = (phrase.map (Phrase.Field.children ·.fields), phrase.elim last (·.closing.link.id)) ∧
      reader.Reads (optional Throws.terminals phrase) after ∧
      (phrase = none → after.Meets (·.kind ≠ .keyword .throws)) := by
  obtain ⟨word, between, hword, h⟩ := bind_eq_ok.1 h
  cases word with
  | none =>
    obtain ⟨rfl, rfl⟩ := pure_eq_ok.1 h
    obtain ⟨hreads, hmeets⟩ := word?_none hr hword
    refine ⟨none, rfl, hreads, fun _ all rest x xs hf hk => ?_⟩
    have : x.head.kind.isWord true = false := hmeets all rest x xs hf
    rw [hk] at this
    cases this
  | some word =>
    dsimp only at h
    split at h
    · rename_i hk
      obtain ⟨_, r₁, h₁, h⟩ := bind_eq_ok.1 h
      obtain ⟨⟨_, _⟩, r₂, h₂, h⟩ := bind_eq_ok.1 h
      obtain ⟨rfl, rfl⟩ := pure_eq_ok.1 h
      obtain ⟨start, hreads, htook, -, hw⟩ := word?_some hr hword
      have hthrows := hreads.trans
        (htook.reads (Kind.not_trivia_of_isWord hw) (Kind.ne_endOfInput_of_isWord hw))
      obtain ⟨opening, -, hopening⟩ := mark_sound hthrows.valid h₁
      obtain ⟨fields, closing, rfl, rfl, hfields⟩ :=
        fieldsUntil_sound (by decide) hopening.valid h₂
      exact ⟨some ⟨⟨word, htook.spells, hk⟩, opening, fields, closing⟩, rfl,
        hthrows.trans (hopening.trans hfields), by simp⟩
    · rename_i hk
      obtain ⟨_, between', hback, h⟩ := bind_eq_ok.1 h
      obtain ⟨rfl, rfl⟩ := pure_eq_ok.1 h
      obtain ⟨hreads, hmeets⟩ := word?_putBack hr hword hback
      refine ⟨none, rfl, hreads, fun _ all rest x xs hf => ?_⟩
      rw [hmeets all rest x xs hf]
      exact hk

theorem functionTail_sound {last : Nat} (hr : reader.Valid)
    {found : List ThriftSyntax.Annotation × Option (Children ThriftSyntax.Field) × Nat}
    (h : functionTail last reader = .ok found after) :
    ∃ tail : FunctionTail,
      found = (Annotations.nodes tail.annotations,
        tail.throws.map (Phrase.Field.children ·.fields), tail.last last) ∧
      reader.Reads tail.terminals after ∧
      (tail.throws = none → after.Meets (·.kind ≠ .keyword .throws)) := by
  obtain ⟨found, r₁, h₁, h⟩ := bind_eq_ok.1 h
  obtain ⟨annotations, rfl, hannotations, -, hopening⟩ := annotations?_sound hr h₁
  cases annotations with
  | some annotations =>
    obtain ⟨_, r₂, h₂, h⟩ := bind_eq_ok.1 h
    obtain ⟨rfl, rfl⟩ := pure_eq_ok.1 h
    obtain ⟨throws, rfl, hthrows, hnone⟩ := throws_sound hannotations.valid h₂
    exact ⟨.annotated annotations throws, rfl, hannotations.trans hthrows, hnone⟩
  | none =>
    obtain ⟨_, r₂, h₂, h⟩ := bind_eq_ok.1 h
    obtain ⟨⟨_, _⟩, r₃, h₃, h⟩ := bind_eq_ok.1 h
    obtain ⟨rfl, rfl⟩ := pure_eq_ok.1 h
    obtain ⟨throws, rfl, hthrows, hnone⟩ := throws_sound hannotations.valid h₂
    obtain ⟨annotations', rfl, rfl, hannotations', -⟩ :=
      trailingAnnotations_sound hthrows.valid h₃
    have hreads := hannotations.trans (hthrows.trans hannotations')
    cases throws with
    | some throws => exact ⟨.throwing throws annotations', rfl, hreads, by simp [FunctionTail.throws]⟩
    | none =>
      cases annotations' with
      | none => exact ⟨.none, rfl, hreads, fun _ => (hnone rfl).of_reads hannotations'⟩
      | some annotations' =>
        -- The parenthesis that was not found would have to come next.
        have hmeets := (hopening rfl).of_reads hthrows
        exact absurd annotations'.opening.fits
          (hmeets.head (x := .token annotations'.opening.link) hannotations')

theorem function_sound (hr : reader.Valid) {node : ThriftSyntax.Function}
    (h : function reader = .ok node after) :
    ∃ phrase : Phrase.Function, phrase.node = node ∧ reader.Reads phrase.terminals after ∧
      after.Meets phrase.StopsBefore := by
  obtain ⟨first, r₁, h₁, h⟩ := bind_eq_ok.1 h
  obtain ⟨⟨_, _⟩, r₂, h₂, h⟩ := bind_eq_ok.1 h
  obtain ⟨_, r₃, h₃, h⟩ := bind_eq_ok.1 h
  obtain ⟨_, r₄, h₄, h⟩ := bind_eq_ok.1 h
  obtain ⟨⟨_, _⟩, r₅, h₅, h⟩ := bind_eq_ok.1 h
  obtain ⟨_, r₆, h₆, h⟩ := bind_eq_ok.1 h
  obtain ⟨_, r₇, h₇, h⟩ := bind_eq_ok.1 h
  obtain ⟨-, h⟩ := span_bind_eq_ok.1 h
  obtain ⟨rfl, rfl⟩ := pure_eq_ok.1 h
  obtain ⟨start, hstart, htook, hp, hk⟩ := takeSignificant_sound hr h₁
  obtain ⟨oneway, result, rfl, rfl, rfl, honewayed, hhead, hstops⟩ :=
    functionHead_sound htook hp hk h₂
  obtain ⟨name, rfl, hname⟩ := name_sound hhead.valid h₃
  obtain ⟨opening, -, hopening⟩ := mark_sound hname.valid h₄
  obtain ⟨args, closing, rfl, rfl, hargs⟩ := fieldsUntil_sound (by decide) hopening.valid h₅
  obtain ⟨tail, rfl, htail, hthrows⟩ := functionTail_sound hargs.valid h₆
  obtain ⟨separator, rfl, hseparator⟩ := separator?_sound htail.valid h₇
  refine ⟨⟨oneway, result, name, opening, args, closing, tail, separator, honewayed, ?_⟩, ?_, ?_, ?_⟩
  · exact hstops.head (x := .name false name.words) hname
  · rw [lastToken_eq]
    cases separator <;> rfl
  · have := hstart.trans (hhead.trans (hname.trans (hopening.trans (hargs.trans
      (htail.trans hseparator)))))
    simpa only [Phrase.Function.terminals, List.append_assoc, List.nil_append] using this
  · cases separator with
    | some separator => exact fun _ _ _ _ _ _ h => by cases h
    | none => exact fun all rest x xs hf ht _ => (hthrows ht).of_reads hseparator all rest x xs hf

theorem functionsUntil_sound {close : Punct} (hclose : Lexeme.IsLone close) (hr : reader.Valid)
    {children : Children ThriftSyntax.Function} {closing : Link}
    (h : functionsUntil close reader = .ok (children, closing) after) :
    ∃ (functions : List Phrase.Function) (leaf : Mark close),
      children = Phrase.Function.children functions ∧ leaf.link = closing ∧
      reader.Reads (functions.flatMap Phrase.Function.terminals ++ leaf.terminals) after ∧
      functions.IsChain fun function next => function.StopsBefore next.head := by
  obtain ⟨⟨nodes, closing⟩, between, hitems, h⟩ := bind_eq_ok.1 h
  obtain ⟨_, _, hindex, h⟩ := bind_eq_ok.1 h
  obtain ⟨rfl, rfl⟩ := index_eq_ok hindex
  obtain ⟨heq, rfl⟩ := pure_eq_ok.1 h
  cases heq
  obtain ⟨functions, leaf, rfl, rfl, hreads, hchain, -⟩ :=
    itemsUntil_sound hclose _ _ _ (fun hr h => function_sound hr h) hr hitems
  have hmem : ∀ phrase ∈ functions, phrase.head ∈ between.chain.links := by
    intro phrase hphrase
    obtain ⟨x, xs, hx, hhead⟩ := phrase.exists_terminals
    refine hreads.mem_chain (x := x) ?_ (hhead ▸ List.mem_cons_self)
    exact List.mem_append_left _ (List.mem_flatMap.2 ⟨phrase, hphrase, hx ▸ List.mem_cons_self⟩)
  refine ⟨functions, leaf, ofItems_eq (·.head) hmem (fun _ => rfl) (fun _ => rfl), rfl, hreads, ?_⟩
  refine hchain.imp fun function next hstops => ?_
  obtain ⟨x, xs, hx, hhead⟩ := next.exists_terminals
  exact hhead ▸ hstops x (by simp [hx])

/-! ## Services -/

theorem base?_sound (hr : reader.Valid) {found : Option DottedName}
    (h : base? reader = .ok found after) :
    ∃ base : Option Base, base.map (·.name.words) = found ∧
      reader.Reads (optional Base.terminals base) after := by
  obtain ⟨word, between, hword, h⟩ := bind_eq_ok.1 h
  cases word with
  | none =>
    obtain ⟨rfl, rfl⟩ := pure_eq_ok.1 h
    exact ⟨none, rfl, (word?_none hr hword).1⟩
  | some word =>
    dsimp only at h
    split at h
    · rename_i hraw
      obtain ⟨words, hwords, rfl⟩ := map_eq_ok.1 h
      obtain ⟨start, hreads, htook, -, hk⟩ := word?_some hr hword
      have hident : word.kind = .ident := (hraw ▸ htook.spells).eq_ident hk (by decide)
      have hparticle := hreads.trans
        (htook.reads (Kind.not_trivia_of_isWord hk) (Kind.ne_endOfInput_of_isWord hk))
      obtain ⟨name, rfl, hname⟩ := name_sound hparticle.valid hwords
      exact ⟨some ⟨⟨word, htook.spells, hident, hraw⟩, name⟩, rfl, hparticle.trans hname⟩
    · cases h

/-- The word that begins a definition is read before the rest of it. -/
theorem service_sound {keyword : Link} {between : Reader} (htook : reader.Took keyword between)
    (hk : keyword.kind = .keyword .service) {node : ThriftSyntax.Service}
    (h : service keyword between = .ok node after) :
    ∃ phrase : Phrase.Service, phrase.node = node ∧ reader.Reads phrase.terminals after := by
  have hword := htook.reads (by rw [hk]; rfl) (by simp [hk])
  obtain ⟨_, r₁, h₁, h⟩ := bind_eq_ok.1 h
  obtain ⟨_, r₂, h₂, h⟩ := bind_eq_ok.1 h
  obtain ⟨_, r₃, h₃, h⟩ := bind_eq_ok.1 h
  obtain ⟨⟨_, _⟩, r₄, h₄, h⟩ := bind_eq_ok.1 h
  obtain ⟨⟨_, _⟩, r₅, h₅, h⟩ := bind_eq_ok.1 h
  obtain ⟨-, h⟩ := span_bind_eq_ok.1 h
  obtain ⟨rfl, rfl⟩ := pure_eq_ok.1 h
  obtain ⟨name, rfl, hname⟩ := name_sound hword.valid h₁
  obtain ⟨base, rfl, hbase⟩ := base?_sound hname.valid h₂
  obtain ⟨opening, -, hopening⟩ := mark_sound hbase.valid h₃
  obtain ⟨functions, closing, rfl, rfl, hfunctions, hstops⟩ :=
    functionsUntil_sound (by decide) hopening.valid h₄
  obtain ⟨annotations, rfl, rfl, hannotations, -⟩ := trailingAnnotations_sound hfunctions.valid h₅
  refine ⟨⟨⟨keyword, htook.spells, hk⟩, name, base, opening, functions, closing, annotations,
    hstops⟩, ?_, ?_⟩
  · cases base <;> rfl
  · have := hword.trans (hname.trans (hbase.trans (hopening.trans
      (hfunctions.trans hannotations))))
    simpa only [Phrase.Service.terminals, Leaf.terminals, List.append_assoc] using this

end ThriftSyntax.Grammar
