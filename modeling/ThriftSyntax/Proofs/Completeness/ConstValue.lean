import ThriftSyntax.Proofs.Completeness.FieldType
import ThriftSyntax.Proofs.Soundness.ConstValue

/-!
# Completeness of constant values

Where the terminals of a constant value come next, it is read, whatever comes after it.
-/

namespace ThriftSyntax

/-- The point of a number tells its form. -/
theorem Lexeme.Spells.form_eq {raw : String} (h : Spells .number raw.toList) :
    Numeral.form? raw = some (if '.' ∈ raw.toList then .decimal else .integer) := by
  have hpoint : ∀ {whole : List Char}, Numeral.isDigits whole = true →
      ∀ c ∈ whole, (c != '.') = true := by
    intro whole hw c hc
    have hd : c.isDigit = true := (isDigits_iff.1 hw).2 c hc
    rw [bne_iff_ne]
    rintro rfl
    exact absurd hd (by decide)
  have hsign : ∀ {sign whole : List Char} (tail : List Char), sign = [] ∨ sign = ['-'] →
      Numeral.isDigits whole = true → ∃ negative,
        Numeral.unsigned (sign ++ (whole ++ tail)) = (negative, whole ++ tail) := by
    intro sign whole tail hs hw
    rcases hs with rfl | rfl
    · refine ⟨false, ?_⟩
      obtain ⟨c, digits, rfl⟩ := List.exists_cons_of_ne_nil (isDigits_iff.1 hw).1
      have hd : c.isDigit = true := (isDigits_iff.1 hw).2 c List.mem_cons_self
      unfold Numeral.unsigned
      split
      · rename_i heq
        cases heq
        exact absurd hd (by decide)
      · rfl
    · exact ⟨true, rfl⟩
  unfold Numeral.form? Numeral.Parts.ofText
  generalize raw.toList = text at h
  cases h with
  | @integer sign whole hs hw =>
    obtain ⟨negative, heq⟩ := hsign [] hs hw
    have hdot : '.' ∉ sign ++ whole := by
      rcases hs with rfl | rfl <;> simp [dot_notMem hw]
    rw [List.append_nil] at heq
    rw [if_neg hdot]
    simp [heq, List.takeWhile_eq_self_iff.2 (hpoint hw), hw]
  | @decimal sign whole fraction hs hw hf =>
    obtain ⟨negative, heq⟩ := hsign ('.' :: fraction) hs hw
    have htake : (whole ++ '.' :: fraction).takeWhile (· != '.') = whole := by
      rw [List.takeWhile_append_of_pos (hpoint hw)]
      simp
    rw [if_pos (by simp)]
    simp [heq, htake, hw, hf]

/-- A spelled number has a form. -/
theorem Lexeme.Spells.form_isSome {raw : String} (h : Spells .number raw.toList) :
    (Numeral.form? raw).isSome := by
  rw [h.form_eq]
  rfl

namespace Phrase.ConstValue

/-- The first token of a value may begin an item of a list or an entry of a map. -/
theorem begins (value : ConstValue) {close : Punct}
    (hclose : close = .rightBracket ∨ close = .rightBrace) :
    Next (Kind.Begins close) value.terminals := by
  have hkind : ∀ {kind : Kind}, kind ∈ [.number, .string, .ident, .punct .leftBracket,
      .punct .leftBrace] → kind.Begins close := by
    intro kind hk
    rcases hclose with rfl | rfl <;> simp at hk <;> rcases hk with rfl | rfl | rfl | rfl | rfl <;>
      exact ⟨by constructor <;> simp, by simp, by simp⟩
  cases value with
  | number numeral => exact ⟨_, _, rfl, hkind (by simp [numeral.fits])⟩
  | string literal => exact ⟨_, _, rfl, hkind (by simp [literal.fits])⟩
  | name reference proper => exact ⟨_, _, rfl, hkind (by simp [proper.1])⟩
  | list opening items closing =>
    rw [terminals]
    exact ⟨.token opening.link, _, rfl, hkind (by simp [opening.fits])⟩
  | map opening entries closing =>
    rw [terminals]
    exact ⟨.token opening.link, _, rfl, hkind (by simp [opening.fits])⟩

end Phrase.ConstValue

namespace Grammar

open Parse Reader Phrase

variable {s : Setting} {x : Terminal} {xs : List Terminal}

theorem numberValue_accepts (numeral : Number) :
    Accepts s numberValue (numeral.terminals ++ xs) xs
      fun node => node.relabel s.new = (Phrase.ConstValue.number numeral).node.relabel s.old := by
  refine (takeNumber_accepts numeral.fits).bind fun link hlink => ?_
  have hspells := numeral.spells
  rw [numeral.fits] at hspells
  obtain ⟨form, hform⟩ := Option.isSome_iff_exists.1 hspells.form_isSome
  rw [hlink.kind, numeral.fits, hlink.raw, hform]
  cases form with
  | integer | decimal =>
    refine .pure ?_
    simp [Phrase.ConstValue.node, ConstValue.relabel, hform, Span.single, Span.relabel, hlink.id]

theorem stringValue_accepts (literal : Literal) :
    Accepts s stringValue (literal.terminals ++ xs) xs
      fun node => node.relabel s.new = (Phrase.ConstValue.string literal).node.relabel s.old := by
  refine (string_accepts literal).bind fun link hlink => .pure ?_
  simp only [Phrase.ConstValue.node, ConstValue.relabel, Span.single, Span.relabel, hlink.id,
    value_of_alike hlink]

theorem nameValue_accepts (reference : Name false)
    (proper : reference.words.head.kind = .ident ∧ reference.words.last.kind = .ident) :
    Accepts s nameValue (reference.terminals ++ xs) xs fun node =>
      node.relabel s.new = (Phrase.ConstValue.name reference proper).node.relabel s.old := by
  refine (name_accepts reference).bind fun name hname => ?_
  rw [hname.head.kind, hname.last.kind, if_pos proper]
  refine span_accepts ?_
  simp only [Phrase.ConstValue.node, ConstValue.relabel, DottedName.span, Span.relabel,
    hname.head.id, hname.last.id, hname.text]

section Containers

variable {value : Parse ThriftSyntax.ConstValue}

theorem raw_ne_nil_of_mark {mark : Punct} (leaf : Mark mark) : leaf.link.raw ≠ "" := by
  intro hraw
  have hhead := head_mark leaf
  rw [hraw] at hhead
  cases hhead

theorem listValue_accepts {opening : Mark .leftBracket}
    {items : List (Separated Phrase.ConstValue)} {closing : Mark .rightBracket}
    (hvalue : ∀ item ∈ items, ∀ zs,
      item.phrase.terminals ++ zs <:+
        items.flatMap (·.terminals Phrase.ConstValue.terminals) ++ (closing.terminals ++ xs) →
      Accepts s value (item.phrase.terminals ++ zs) zs
        fun node => node.relabel s.new = item.phrase.node.relabel s.old) :
    AcceptsAt s (listValue value)
      (opening.terminals ++ (items.flatMap (·.terminals Phrase.ConstValue.terminals) ++
        (closing.terminals ++ xs))) xs
      fun node => node.relabel s.new =
        (Phrase.ConstValue.list opening items closing).node.relabel s.old := by
  rw [Phrase.ConstValue.node, Phrase.ConstValue.itemNodes_eq]
  refine (acceptsAt_take (plain_mark opening) (by simp [opening.fits])).bind fun first hfirst => ?_
  refine (freshItemsUntil_accepts (by decide) (by constructor <;> simp)
    (fun item => item.phrase.node.relabel s.old) (ConstValue.relabel s.new) closing
    List.suffix_rfl ?_ ?_).bind fun result hresult => span_accepts ?_
  · intro item _
    obtain ⟨x, tail, hx, hbegins⟩ := item.phrase.begins (.inl rfl)
    exact ⟨x, _, by rw [Separated.terminals, hx]; rfl, hbegins⟩
  · intro item hitem x zs hz hx
    obtain ⟨phrase, separator⟩ := item
    simp only [Separated.terminals, List.append_assoc] at hz ⊢
    refine (hvalue _ hitem _ hz).bind fun node hnode => ?_
    exact (separator?_accepts separator ⟨x, zs, rfl, hx⟩).bind fun _ _ => .pure hnode
  · rw [ConstValue.relabel, ConstValue.relabel, ConstValue.relabelItems_eq,
      ConstValue.relabelItems_eq, hresult.1, List.map_map]
    simp only [Span.relabel, hfirst.id, hresult.2.id]
    rfl

theorem mapValue_accepts {opening : Mark .leftBrace} {entries : List Phrase.ConstValue.Entry}
    {closing : Mark .rightBrace}
    (hvalue : ∀ entry ∈ entries, ∀ phrase, phrase = entry.1 ∨ phrase = entry.2.2.phrase → ∀ zs,
      phrase.terminals ++ zs <:+
        entries.flatMap Phrase.ConstValue.Entry.terminals ++ (closing.terminals ++ xs) →
      Accepts s value (phrase.terminals ++ zs) zs
        fun node => node.relabel s.new = phrase.node.relabel s.old) :
    AcceptsAt s (mapValue value)
      (opening.terminals ++ (entries.flatMap Phrase.ConstValue.Entry.terminals ++
        (closing.terminals ++ xs))) xs
      fun node => node.relabel s.new =
        (Phrase.ConstValue.map opening entries closing).node.relabel s.old := by
  rw [Phrase.ConstValue.node, Phrase.ConstValue.entryNodes_eq]
  refine (acceptsAt_take (plain_mark opening) (by simp [opening.fits])).bind fun first hfirst => ?_
  refine (freshItemsUntil_accepts (by decide) (by constructor <;> simp)
    (fun entry => (entry.node.1.relabel s.old, entry.node.2.relabel s.old))
    (fun node => (node.1.relabel s.new, node.2.relabel s.new)) closing
    List.suffix_rfl ?_ ?_).bind fun result hresult => span_accepts ?_
  · intro entry _
    obtain ⟨x, tail, hx, hbegins⟩ := entry.1.begins (.inr rfl)
    exact ⟨x, _, by rw [Phrase.ConstValue.Entry.terminals, hx]; rfl, hbegins⟩
  · intro entry hentry x zs hz hx
    obtain ⟨key, colon, phrase, separator⟩ := entry
    simp only [Phrase.ConstValue.Entry.terminals, Separated.terminals, List.append_assoc] at hz ⊢
    refine (hvalue _ hentry key (.inl rfl) _ hz).bind fun knode hknode => ?_
    refine (mark_accepts colon).bind fun _ _ => ?_
    have hz' := ((List.suffix_append _ _).trans (List.suffix_append _ _)).trans hz
    refine (hvalue _ hentry phrase (.inr rfl) _ hz').bind fun vnode hvnode => ?_
    refine (separator?_accepts separator ⟨x, zs, rfl, hx⟩).bind fun _ _ => .pure ?_
    exact Prod.ext hknode hvnode
  · rw [ConstValue.relabel, ConstValue.relabel, ConstValue.relabelEntries_eq,
      ConstValue.relabelEntries_eq, hresult.1, List.map_map]
    simp only [Span.relabel, hfirst.id, hresult.2.id]
    rfl

end Containers

theorem constValue_accepts (value : Phrase.ConstValue) :
    Accepts s constValue (value.terminals ++ xs) xs
      fun node => node.relabel s.new = value.node.relabel s.old := by
  induction value using Phrase.ConstValue.induction generalizing xs with
  | number numeral =>
    refine Accepts.nested fun value _ => accepts_of_spells (x := .token numeral.link) fun hs => ?_
    obtain ⟨c, hc, ho⟩ := hs.exists_opens (by simp [numeral.fits])
    refine accepts_peek ?_
    rw [hc]
    dsimp only
    rw [if_pos (ho.number_iff.2 (.inl numeral.fits))]
    exact (numberValue_accepts numeral).atToken
  | string literal =>
    refine Accepts.nested fun value _ => accepts_of_spells (x := .token literal.link) fun hs => ?_
    obtain ⟨c, hc, ho⟩ := hs.exists_opens (by simp [literal.fits])
    refine accepts_peek ?_
    rw [hc]
    dsimp only
    rw [if_neg (by simp [ho.number_iff, literal.fits]), if_pos (ho.quote_iff.2 (.inl literal.fits))]
    exact (stringValue_accepts literal).atToken
  | name reference proper =>
    refine Accepts.nested fun value _ =>
      accepts_of_spells (x := .name false reference.words) fun hs => ?_
    obtain ⟨c, hc, ho⟩ := hs.exists_opens (by simp [proper.1])
    have hmark : ∀ mark : Punct, Lexeme.IsLone mark → c ≠ mark.char := by
      rintro mark hm rfl
      have hk := ho.eq_punct hm
      rw [Terminal.head_name, proper.1] at hk
      cases hk
    refine accepts_peek ?_
    rw [hc]
    dsimp only
    rw [if_neg (by simp [ho.number_iff, proper.1]), if_neg (by simp [ho.quote_iff, proper.1]),
      if_neg (show c ≠ '[' from hmark .leftBracket (by decide)),
      if_neg (show c ≠ '\x7b' from hmark .leftBrace (by decide))]
    exact (nameValue_accepts reference proper).atToken
  | list opening items closing ih =>
    rw [Phrase.ConstValue.terminals, Phrase.ConstValue.itemsTerminals_eq, List.append_assoc,
      List.append_assoc]
    refine Accepts.nested fun value hvalue => accepts_peek (x := .token opening.link) ?_
    rw [Terminal.head_token, head_mark]
    exact listValue_accepts fun item hitem zs hz =>
      hvalue ⟨_, _, rfl, hz, raw_ne_nil_of_mark opening⟩ (ih item hitem)
  | map opening entries closing ih =>
    rw [Phrase.ConstValue.terminals, Phrase.ConstValue.entriesTerminals_eq, List.append_assoc,
      List.append_assoc]
    refine Accepts.nested fun value hvalue => accepts_peek (x := .token opening.link) ?_
    rw [Terminal.head_token, head_mark]
    refine mapValue_accepts fun entry hentry phrase hphrase zs hz =>
      hvalue ⟨_, _, rfl, hz, raw_ne_nil_of_mark opening⟩ ?_
    rcases hphrase with rfl | rfl
    · exact (ih entry hentry).1
    · exact (ih entry hentry).2

end Grammar

end ThriftSyntax
