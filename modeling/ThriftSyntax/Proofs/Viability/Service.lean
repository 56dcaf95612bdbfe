import ThriftSyntax.Proofs.Soundness.Service
import ThriftSyntax.Proofs.Viability.Value

/-!
# Beginnings of fields, functions and services

A clause that may be left out is left out where it was not begun. What the grammar then excludes, such as
a type that begins with the word `required`, is excluded by the token that comes next.
-/

namespace ThriftSyntax

namespace Phrase

/-! ## Samples -/

/-- The name `a` may follow every type. -/
theorem FieldType.stopsBefore_sample {reserved : Bool} (type : FieldType) :
    type.StopsBefore (Name.sample reserved).words.head := by
  unfold StopsBefore
  split
  · exact (by decide : ("a" : String) ≠ "cpp_type")
  · trivial

/-- The shortest field with this type. -/
def Field.typed (id : Integer) (colon : Mark .colon) (demand : Option Demand) (type : FieldType)
    (demanded : demand = none →
      type.head.kind ≠ .keyword .required ∧ type.head.kind ≠ .keyword .optional) : Field where
  id := id
  colon := colon
  demand := demand
  type := type
  name := .sample false
  default := none
  annotations := none
  separator := none
  demanded := demanded
  stops := type.stopsBefore_sample

theorem FieldType.sample_head_kind : FieldType.sample.head.kind = .ident := rfl

/-- A type that was begun has begun with its head. -/
theorem FieldType.head_of_prefix {type : FieldType} {x : Terminal} {xs : List Terminal}
    (h : x :: xs <+: type.terminals) : x.head = type.head := by
  obtain ⟨y, ys, hy, hhead⟩ := type.exists_terminals
  rw [hy, List.cons_prefix_cons] at h
  rw [← hhead, h.1]

theorem Result.stopsBefore_sample {reserved : Bool} (result : Result) :
    result.StopsBefore (Name.sample reserved).words.head := by
  cases result with
  | void word => trivial
  | type type returned => exact type.stopsBefore_sample

/-- The shortest function with this result. -/
def Function.returning (oneway : Option (Word .oneway)) (result : Result)
    (onewayed : oneway = none → result.head.kind ≠ .keyword .oneway) : Function where
  oneway := oneway
  result := result
  name := .sample false
  opening := .ofMark .leftParen
  args := []
  closing := .ofMark .rightParen
  tail := .none
  separator := none
  onewayed := onewayed
  stops := result.stopsBefore_sample

end Phrase

namespace Grammar

open Parse Reader Phrase

variable {start reader between : Reader}

/-! ## Fields -/

theorem lexical_requiredness? : Lexical requiredness? := by
  rw [requiredness?_eq]
  refine lexical_word?.bind fun word => ?_
  cases word with
  | none => exact lexical_pure none
  | some word =>
    dsimp only
    split
    · exact lexical_pure _
    split
    · exact lexical_pure _
    · exact (lexical_putBackLast word).bind fun _ => lexical_pure none

theorem default?_viable (hr : reader.Valid) :
    reader.Viable (Begins Default.terminals) (default? reader) := by
  refine .bind (.lexical (lexical_mark? .equals)) fun _ r₁ h₁ => ?_
  rcases mark?_sound (by decide) hr h₁ with ⟨rfl, -⟩ | ⟨equals, rfl, hequals⟩
  · exact .lexical (lexical_pure none)
  · refine .map ((constValue_viable hequals.valid).after hequals ?_)
    rintro xs ⟨value, hxs⟩
    exact ⟨⟨equals, value⟩, (List.prefix_append_right_inj _).2 hxs⟩

theorem field_viable (hr : reader.Valid) :
    reader.Viable (Begins Phrase.Field.terminals) (field reader) := by
  have hident := FieldType.sample_head_kind
  refine .bind (integer_viable.viable (.refl hr) ⟨.typed Leaf.sampleInteger (.ofMark .colon) none
    .sample (by simp [hident]), List.nil_prefix⟩) fun _ r₁ h₁ => ?_
  obtain ⟨id, -, -, hid⟩ := integer_sound hr h₁
  refine .bind ((mark_viable .colon).viable hid ⟨.typed id (.ofMark .colon) none .sample
    (by simp [hident]), List.prefix_append _ _⟩) fun _ r₂ h₂ => ?_
  obtain ⟨colon, -, hcolon⟩ := mark_sound hid.valid h₂
  refine .bind (.lexical lexical_requiredness?) fun _ r₃ h₃ => ?_
  obtain ⟨demand, -, hdemand, hnone⟩ := requiredness?_sound hcolon.valid h₃
  have hreads := hid.trans (hcolon.trans hdemand)
  have hmeets : r₃.Meets fun next => demand = none →
      next.kind ≠ .keyword .required ∧ next.kind ≠ .keyword .optional :=
    fun _ _ _ _ hf hd => hnone hd _ _ _ _ hf
  refine .bind (((fieldType_viable hdemand.valid).meets hmeets).after hreads ?_) fun _ r₄ h₄ => ?_
  · -- Where nothing of a type was read, any type will do.
    rintro xs ⟨hbegun, hhead⟩
    cases xs with
    | nil =>
      refine ⟨.typed id colon demand .sample (by simp [hident]), ?_⟩
      simp [Phrase.Field.terminals, Field.typed]
    | cons x xs =>
      obtain ⟨type, htype⟩ := hbegun.begins
      refine ⟨.typed id colon demand type (FieldType.head_of_prefix htype ▸ hhead x rfl), ?_⟩
      simp [Phrase.Field.terminals, Field.typed, List.prefix_append_of_prefix htype]
  obtain ⟨type, -, htype, hstops⟩ := fieldType_sound hdemand.valid h₄
  have hdemanded : demand = none →
      type.head.kind ≠ .keyword .required ∧ type.head.kind ≠ .keyword .optional := by
    obtain ⟨x, xs, hx, hhead⟩ := type.exists_terminals
    rw [← hhead]
    exact hmeets.head (hx ▸ htype)
  have hreads := hreads.trans htype
  refine .bind ((name_viable false).viable hreads ⟨.typed id colon demand type hdemanded, ?_⟩)
    fun _ r₅ h₅ => ?_
  · simp [Phrase.Field.terminals, Field.typed]
  obtain ⟨name, rfl, hname⟩ := name_sound htype.valid h₅
  have hreads := hreads.trans hname
  have hstops := hstops.head (x := .name false name.words) hname
  refine .bind ((default?_viable hname.valid).after hreads ?_) fun _ r₆ h₆ => ?_
  · rintro xs ⟨default, hxs⟩
    refine ⟨⟨id, colon, demand, type, name, some default, none, none, hdemanded, hstops⟩, ?_⟩
    simpa [Phrase.Field.terminals, Phrase.optional] using hxs
  obtain ⟨default, -, hdefault⟩ := default?_sound hname.valid h₆
  refine .bind ((trailingAnnotations_viable _ .allow hdefault.valid).after (hreads.trans hdefault) ?_)
    fun _ _ _ => .bind (.lexical lexical_separator?) fun _ _ _ => .lexical (lexical_spanned ..)
  rintro xs ⟨annotations, inside, hopen⟩
  refine ⟨⟨id, colon, demand, type, name, default, some annotations, none, hdemanded, hstops⟩, ?_⟩
  simpa [Phrase.Field.terminals, Phrase.optional] using hopen.begins

theorem fieldsUntil_viable {close : Punct} (hclose : Lexeme.IsLone close) (hr : reader.Valid) :
    reader.Viable (fun xs => ∃ fields : List Phrase.Field, xs <+: fields.flatMap Phrase.Field.terminals)
      (fieldsUntil close reader) := by
  refine .bind ((itemsUntil_viable (fun _ _ => True) hclose
    (fun _ => by simp [Phrase.Field.terminals, Leaf.terminals]) (fun hr h => ?_) field_viable hr).mono ?_)
    fun _ _ _ => .bind (.lexical (lexical_index _)) fun _ _ _ => .lexical (lexical_pure _)
  · obtain ⟨phrase, -, hreads⟩ := field_sound hr h
    exact ⟨phrase, hreads, fun _ _ _ _ _ => trivial⟩
  · rintro xs ⟨fields, hxs, -⟩
    exact ⟨fields, hxs⟩

/-! ## Functions -/

/-- A result that was begun begins with the token that was put back. -/
theorem resultType_viable {head : Link} (htook : start.Took head between) (hp : head.Plain)
    (hk : head.kind.isTrivia = false) :
    start.Viable (fun xs => xs = [] ∨ ∃ result : Result, xs <+: result.terminals ∧ result.head = head)
      (resultType head between) := by
  unfold resultType
  split
  · exact .lexical (lexical_pure none)
  · rename_i hvoid
    refine .bind (.lexical (lexical_putBackLast head)) fun _ r₁ h₁ => ?_
    rw [putBackLast_of_took htook] at h₁
    cases h₁
    have hstart := htook.reads_hold hp
    refine .map (((fieldType_viable hstart.valid).meets (htook.hold_meets hk)).after hstart ?_)
    rintro xs ⟨hbegun, hmeets⟩
    cases xs with
    | nil => exact .inl rfl
    | cons x xs =>
      obtain ⟨type, htype⟩ := hbegun.begins
      have hhead : type.head = head := (FieldType.head_of_prefix htype).symm.trans (hmeets x rfl)
      exact .inr ⟨.type type (hhead ▸ hvoid), htype, hhead⟩

/-- The beginning of a function up to its result. -/
def FunctionHeadBegun (xs : List Terminal) : Prop :=
  ∃ (oneway : Option (Word .oneway)) (result : Result),
    (oneway = none → result.head.kind ≠ .keyword .oneway) ∧
    xs <+: optional Leaf.terminals oneway ++ result.terminals

theorem functionHeadBegun_nil : FunctionHeadBegun [] :=
  ⟨none, .type .sample (by simp [FieldType.sample_head_kind]),
    fun _ => by simp [Result.head, FieldType.sample_head_kind], List.nil_prefix⟩

theorem functionHead_viable {first : Link} (htook : start.Took first between) (hp : first.Plain)
    (hk : first.kind.isTrivia = false) :
    start.Viable FunctionHeadBegun (functionHead first between) := by
  unfold functionHead
  split
  · rename_i honeway
    have hword := htook.reads hk (by simp [honeway])
    let word : Word .oneway := ⟨first, htook.spells, honeway⟩
    refine .bind (.lexical lexical_takeSignificant) fun head r₁ h₁ => ?_
    obtain ⟨next, hnext, htook', hp', hk'⟩ := takeSignificant_sound hword.valid h₁
    refine .bind ((resultType_viable htook' hp' hk').after (hword.trans hnext) ?_)
      fun _ _ _ => .lexical (lexical_pure _)
    rintro xs (rfl | ⟨result, hxs, -⟩)
    · refine ⟨some word, .type .sample (by simp [FieldType.sample_head_kind]), by simp, ?_⟩
      exact List.prefix_append _ _
    · exact ⟨some word, result, by simp, (List.prefix_append_right_inj _).2 hxs⟩
  · rename_i honeway
    refine .bind ((resultType_viable htook hp hk).mono ?_) fun _ _ _ => .lexical (lexical_pure _)
    rintro xs (rfl | ⟨result, hxs, rfl⟩)
    · exact functionHeadBegun_nil
    · exact ⟨none, result, fun _ => honeway, hxs⟩

theorem throws_viable (last : Nat) (hr : reader.Valid) :
    reader.Viable (Begins Throws.terminals) (throws last reader) := by
  refine .bind (.lexical lexical_word?) fun word r₁ h₁ => ?_
  cases word with
  | none => exact .lexical (lexical_pure _)
  | some word =>
    dsimp only
    split
    · rename_i hk
      obtain ⟨next, hnext, htook, -, hw⟩ := word?_some hr h₁
      have hthrows := hnext.trans
        (htook.reads (Kind.not_trivia_of_isWord hw) (Kind.ne_endOfInput_of_isWord hw))
      let word : Word .throws := ⟨word, htook.spells, hk⟩
      refine .bind ((mark_viable .leftParen).viable hthrows
        ⟨⟨word, .ofMark .leftParen, [], .ofMark .rightParen⟩, List.prefix_append _ _⟩) fun _ r₂ h₂ => ?_
      obtain ⟨opening, -, hopening⟩ := mark_sound hthrows.valid h₂
      refine .bind ((fieldsUntil_viable (by decide) hopening.valid).after (hthrows.trans hopening) ?_)
        fun _ _ _ => .lexical (lexical_pure _)
      rintro xs ⟨fields, hxs⟩
      refine ⟨⟨word, opening, fields, .ofMark .rightParen⟩, ?_⟩
      rw [List.append_assoc, List.nil_append]
      exact (List.prefix_append_right_inj _).2
        ((List.prefix_append_right_inj _).2 (List.prefix_append_of_prefix hxs))
    · exact .bind (.lexical (lexical_putBackLast word)) fun _ _ _ => .lexical (lexical_pure _)

theorem functionTail_viable (last : Nat) (hr : reader.Valid) :
    reader.Viable (Begins FunctionTail.terminals) (functionTail last reader) := by
  refine .bind ((annotations?_viable .allow hr).mono ?_) fun _ r₁ h₁ => ?_
  · rintro xs ⟨annotations, inside, hopen⟩
    exact ⟨.annotated annotations none, List.prefix_append_of_prefix hopen.begins⟩
  obtain ⟨annotations, rfl, hannotations, -⟩ := annotations?_sound hr h₁
  cases annotations with
  | some annotations =>
    refine .bind ((throws_viable _ hannotations.valid).after hannotations ?_)
      fun _ _ _ => .lexical (lexical_pure _)
    rintro xs ⟨throws, hxs⟩
    exact ⟨.annotated annotations (some throws), (List.prefix_append_right_inj _).2 hxs⟩
  | none =>
    refine .bind ((throws_viable _ hannotations.valid).after hannotations ?_) fun _ r₂ h₂ => ?_
    · rintro xs ⟨throws, hxs⟩
      exact ⟨.throwing throws none, List.prefix_append_of_prefix hxs⟩
    obtain ⟨throws, -, hthrows, -⟩ := throws_sound hannotations.valid h₂
    refine .bind ((trailingAnnotations_viable _ .allow hthrows.valid).after
      (hannotations.trans hthrows) ?_) fun _ _ _ => .lexical (lexical_pure _)
    rintro xs ⟨annotations, inside, hopen⟩
    cases throws with
    | none => exact ⟨.annotated annotations none, List.prefix_append_of_prefix hopen.begins⟩
    | some throws =>
      exact ⟨.throwing throws (some annotations), (List.prefix_append_right_inj _).2 hopen.begins⟩

theorem function_viable (hr : reader.Valid) :
    reader.Viable (Begins Phrase.Function.terminals) (function reader) := by
  refine .bind (.lexical lexical_takeSignificant) fun first r₁ h₁ => ?_
  obtain ⟨start, hstart, htook, hp, hk⟩ := takeSignificant_sound hr h₁
  refine .bind ((functionHead_viable htook hp hk).after hstart ?_) fun _ r₂ h₂ => ?_
  · rintro xs ⟨oneway, result, honewayed, hxs⟩
    refine ⟨.returning oneway result honewayed, ?_⟩
    rw [Phrase.Function.terminals, ← List.append_assoc]
    exact List.prefix_append_of_prefix hxs
  obtain ⟨oneway, result, -, -, -, honewayed, hhead, hstops⟩ := functionHead_sound htook hp hk h₂
  have hreads := hstart.trans hhead
  refine .bind ((name_viable false).viable hreads ⟨.returning oneway result honewayed, ?_⟩)
    fun _ r₃ h₃ => ?_
  · simp [Phrase.Function.terminals, Function.returning]
  obtain ⟨name, rfl, hname⟩ := name_sound hhead.valid h₃
  have hreads := hreads.trans hname
  have hstops := hstops.head (x := .name false name.words) hname
  refine .bind ((mark_viable .leftParen).viable hreads ⟨⟨oneway, result, name, .ofMark .leftParen, [],
    .ofMark .rightParen, .none, none, honewayed, hstops⟩, ?_⟩) fun _ r₄ h₄ => ?_
  · simp [Phrase.Function.terminals]
  obtain ⟨opening, -, hopening⟩ := mark_sound hname.valid h₄
  have hreads := hreads.trans hopening
  refine .bind ((fieldsUntil_viable (by decide) hopening.valid).after hreads ?_) fun _ r₅ h₅ => ?_
  · rintro xs ⟨args, hxs⟩
    refine ⟨⟨oneway, result, name, opening, args, .ofMark .rightParen, .none, none, honewayed, hstops⟩,
      ?_⟩
    simp [Phrase.Function.terminals, List.prefix_append_of_prefix hxs]
  obtain ⟨args, closing, -, -, hargs⟩ := fieldsUntil_sound (by decide) hopening.valid h₅
  have hreads := hreads.trans hargs
  refine .bind ((functionTail_viable _ hargs.valid).after hreads ?_) fun _ _ _ =>
    .bind (.lexical lexical_separator?) fun _ _ _ => .lexical (lexical_spanned ..)
  rintro xs ⟨tail, hxs⟩
  refine ⟨⟨oneway, result, name, opening, args, closing, tail, none, honewayed, hstops⟩, ?_⟩
  simpa [Phrase.Function.terminals, Phrase.optional] using hxs

theorem functionsUntil_viable {close : Punct} (hclose : Lexeme.IsLone close) (hr : reader.Valid) :
    reader.Viable (fun xs => ∃ functions : List Phrase.Function,
        xs <+: functions.flatMap Phrase.Function.terminals ∧
        functions.IsChain fun function next => function.StopsBefore next.head)
      (functionsUntil close reader) := by
  refine .bind ((itemsUntil_viable Phrase.Function.StopsBefore hclose (fun phrase => ?_)
    (fun hr h => ?_) function_viable hr).mono ?_)
    fun _ _ _ => .bind (.lexical (lexical_index _)) fun _ _ _ => .lexical (lexical_pure _)
  · obtain ⟨x, xs, hx, -⟩ := phrase.exists_terminals
    simp [hx]
  · obtain ⟨phrase, -, hreads⟩ := function_sound hr h
    exact ⟨phrase, hreads⟩
  · rintro xs ⟨functions, hxs, -, hchain⟩
    refine ⟨functions, hxs, hchain.imp fun function next hstops => ?_⟩
    obtain ⟨x, xs, hx, hhead⟩ := next.exists_terminals
    exact hhead ▸ hstops x (by simp [hx])

/-! ## Services -/

/-- A word that is not `extends` is refused. -/
theorem base?_viable (hr : reader.Valid) :
    reader.Viable (Begins (Phrase.optional Base.terminals)) (base? reader) := by
  refine .bind (.lexical lexical_word?) fun word r₁ h₁ => ?_
  cases word with
  | none => exact .lexical (lexical_pure none)
  | some word =>
    obtain ⟨next, hnext, htook, -, hk⟩ := word?_some hr h₁
    dsimp only
    split
    · rename_i hraw
      have hident : word.kind = .ident := (hraw ▸ htook.spells).eq_ident hk (by decide)
      have hparticle := hnext.trans
        (htook.reads (Kind.not_trivia_of_isWord hk) (Kind.ne_endOfInput_of_isWord hk))
      exact .map ((name_viable false).viable hparticle
        ⟨some ⟨⟨word, htook.spells, hident, hraw⟩, .sample false⟩, List.prefix_append _ _⟩)
    · exact .refused ⟨next, r₁, hnext, htook, Kind.not_trivia_of_isWord hk⟩ ⟨none, List.nil_prefix⟩

theorem service_viable {keyword : Link} (htook : start.Took keyword between)
    (hk : keyword.kind = .keyword .service) :
    start.Viable (Begins Phrase.Service.terminals) (service keyword between) := by
  have hword := htook.reads (by rw [hk]; rfl) (by simp [hk])
  let word : Word .service := ⟨keyword, htook.spells, hk⟩
  refine .bind ((name_viable false).viable hword ⟨⟨word, .sample false, none, .ofMark .leftBrace, [],
    .ofMark .rightBrace, none, .nil⟩, List.prefix_append _ _⟩) fun _ r₁ h₁ => ?_
  obtain ⟨name, -, hname⟩ := name_sound hword.valid h₁
  have hreads := hword.trans hname
  refine .bind ((base?_viable hname.valid).after hreads ?_) fun _ r₂ h₂ => ?_
  · rintro xs ⟨base, hxs⟩
    refine ⟨⟨word, name, base, .ofMark .leftBrace, [], .ofMark .rightBrace, none, .nil⟩, ?_⟩
    simp [Phrase.Service.terminals, Leaf.terminals, word, List.prefix_append_of_prefix hxs]
  obtain ⟨base, -, hbase⟩ := base?_sound hname.valid h₂
  have hreads := hreads.trans hbase
  refine .bind ((mark_viable .leftBrace).viable hreads ⟨⟨word, name, base, .ofMark .leftBrace, [],
    .ofMark .rightBrace, none, .nil⟩, ?_⟩) fun _ r₃ h₃ => ?_
  · simp [Phrase.Service.terminals, Leaf.terminals, word]
  obtain ⟨opening, -, hopening⟩ := mark_sound hbase.valid h₃
  have hreads := hreads.trans hopening
  refine .bind ((functionsUntil_viable (by decide) hopening.valid).after hreads ?_) fun _ r₄ h₄ => ?_
  · rintro xs ⟨functions, hxs, hstops⟩
    refine ⟨⟨word, name, base, opening, functions, .ofMark .rightBrace, none, hstops⟩, ?_⟩
    simp [Phrase.Service.terminals, Leaf.terminals, word, List.prefix_append_of_prefix hxs]
  obtain ⟨functions, closing, -, -, hfunctions, hstops⟩ :=
    functionsUntil_sound (by decide) hopening.valid h₄
  have hreads := hreads.trans hfunctions
  refine .bind ((trailingAnnotations_viable _ .allow hfunctions.valid).after hreads ?_)
    fun _ _ _ => .lexical (lexical_spanned ..)
  rintro xs ⟨annotations, inside, hopen⟩
  refine ⟨⟨word, name, base, opening, functions, closing, some annotations, hstops⟩, ?_⟩
  simpa [Phrase.Service.terminals, Leaf.terminals, Phrase.optional, word] using hopen.begins

end Grammar

end ThriftSyntax
