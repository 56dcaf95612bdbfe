import ThriftSyntax.Grammar.ConstValue
import ThriftSyntax.Proofs.Soundness.Basic

/-!
# Soundness of constant values

What is read as a constant value is a phrase of one.
-/

namespace ThriftSyntax.Grammar

open Parse Reader Phrase

variable {reader after : Reader} {node : ThriftSyntax.ConstValue}

def ReadsValue (reader : Reader) (node : ThriftSyntax.ConstValue) (after : Reader) : Prop :=
  ∃ phrase : Phrase.ConstValue, phrase.node = node ∧ reader.Reads phrase.terminals after

theorem numberValue_sound (hr : reader.Valid) (h : numberValue reader = .ok node after) :
    ReadsValue reader node after := by
  obtain ⟨link, between, hnumber, h⟩ := bind_eq_ok.1 h
  have hvalue : ∀ form : ScalarForm, link.kind = .number →
      (if Numeral.form? link.raw = some .integer then .integer else .decimal) = form →
      (pure (.scalar form link.raw (.single link.id)) : Parse _) between = .ok node after →
      ReadsValue reader node after := by
    rintro form hk rfl h
    obtain ⟨rfl, rfl⟩ := pure_eq_ok.1 h
    obtain ⟨hspells, hreads⟩ := takeNumber_sound hr hnumber hk
    exact ⟨.number ⟨link, hspells, hk⟩, rfl, hreads⟩
  cases hk : link.kind with
  | number =>
    cases hf : Numeral.form? link.raw with
    | none => simp [hk, hf, throw_eq_ok] at h
    | some form =>
      rw [hk, hf] at h
      cases form with
      | integer => exact hvalue .integer hk (by simp [hf]) h
      | decimal => exact hvalue .decimal hk (by simp [hf]) h
  | _ => simp [hk, throw_eq_ok] at h

theorem stringValue_sound (hr : reader.Valid) (h : stringValue reader = .ok node after) :
    ReadsValue reader node after := by
  obtain ⟨link, between, hstring, h⟩ := bind_eq_ok.1 h
  obtain ⟨rfl, rfl⟩ := pure_eq_ok.1 h
  obtain ⟨literal, rfl, hreads⟩ := string_sound hr hstring
  exact ⟨.string literal, rfl, hreads⟩

theorem nameValue_sound (hr : reader.Valid) (h : nameValue reader = .ok node after) :
    ReadsValue reader node after := by
  obtain ⟨words, between, hname, h⟩ := bind_eq_ok.1 h
  obtain ⟨name, rfl, hreads⟩ := name_sound hr hname
  split at h
  · rename_i hproper
    obtain ⟨-, h⟩ := span_bind_eq_ok.1 h
    obtain ⟨rfl, rfl⟩ := pure_eq_ok.1 h
    exact ⟨.name name hproper, rfl, hreads⟩
  · cases h

/-! ## Lists and maps -/

/-- An item of a list, with the separator after it. -/
def listItem (value : Parse ThriftSyntax.ConstValue) : Parse ThriftSyntax.ConstValue := do
  let item ← value
  let _ ← separator?
  return item

/-- An entry of a map, with the separator after it. -/
def mapItem (value : Parse ThriftSyntax.ConstValue) :
    Parse (ThriftSyntax.ConstValue × ThriftSyntax.ConstValue) := do
  let key ← value
  let _ ← mark .colon
  let entry := (key, ← value)
  let _ ← separator?
  return entry

theorem listValue_eq (value : Parse ThriftSyntax.ConstValue) :
    listValue value = (do
      let opening ← take
      let (items, closing) ← itemsUntil .rightBracket (listItem value)
      return .list items (← span opening.id closing.id)) := rfl

theorem mapValue_eq (value : Parse ThriftSyntax.ConstValue) :
    mapValue value = (do
      let opening ← take
      let (entries, closing) ← itemsUntil .rightBrace (mapItem value)
      return .map entries (← span opening.id closing.id)) := rfl

section Containers

variable {value : Parse ThriftSyntax.ConstValue}
  (hvalue : ∀ {reader node after}, reader.Valid → value reader = .ok node after →
    ReadsValue reader node after)

include hvalue

theorem listItem_sound (hr : reader.Valid) (h : listItem value reader = .ok node after) :
    ∃ item : Separated Phrase.ConstValue, item.phrase.node = node ∧
      reader.Reads (item.terminals Phrase.ConstValue.terminals) after ∧
      after.Meets fun _ => True := by
  obtain ⟨node, r₁, h₁, h⟩ := bind_eq_ok.1 h
  obtain ⟨found, r₂, h₂, h⟩ := bind_eq_ok.1 h
  obtain ⟨rfl, rfl⟩ := pure_eq_ok.1 h
  obtain ⟨phrase, rfl, hphrase⟩ := hvalue hr h₁
  obtain ⟨separator, -, hseparator⟩ := separator?_sound hphrase.valid h₂
  exact ⟨⟨phrase, separator⟩, rfl, hphrase.trans hseparator, fun _ _ _ _ _ => trivial⟩

theorem listValue_sound (hr : reader.Valid) (hc : reader.Peeks (some '['))
    (h : listValue value reader = .ok node after) : ReadsValue reader node after := by
  rw [listValue_eq] at h
  obtain ⟨_, between, htake, h⟩ := bind_eq_ok.1 h
  obtain ⟨⟨nodes, closing⟩, last, hitems, h⟩ := bind_eq_ok.1 h
  obtain ⟨-, h⟩ := span_bind_eq_ok.1 h
  obtain ⟨rfl, rfl⟩ := pure_eq_ok.1 h
  obtain ⟨opening, rfl, hopening⟩ := take_mark .leftBracket (by decide) hr hc htake
  obtain ⟨items, closing, rfl, rfl, hreads, -⟩ := itemsUntil_sound (by decide) _ _ (fun _ _ => True)
    (fun hr h => listItem_sound hvalue hr h) hopening.valid hitems
  refine ⟨.list opening items closing, ?_, ?_⟩
  · rw [Phrase.ConstValue.node, Phrase.ConstValue.itemNodes_eq]
  · rw [Phrase.ConstValue.terminals, Phrase.ConstValue.itemsTerminals_eq]
    exact hopening.trans hreads

theorem mapItem_sound (hr : reader.Valid)
    {node : ThriftSyntax.ConstValue × ThriftSyntax.ConstValue}
    (h : mapItem value reader = .ok node after) :
    ∃ entry : Phrase.ConstValue.Entry, entry.node = node ∧
      reader.Reads entry.terminals after ∧ after.Meets fun _ => True := by
  obtain ⟨keyNode, r₁, h₁, h⟩ := bind_eq_ok.1 h
  obtain ⟨_, r₂, h₂, h⟩ := bind_eq_ok.1 h
  obtain ⟨valueNode, r₃, h₃, h⟩ := bind_eq_ok.1 h
  obtain ⟨found, r₄, h₄, h⟩ := bind_eq_ok.1 h
  obtain ⟨rfl, rfl⟩ := pure_eq_ok.1 h
  obtain ⟨key, rfl, hkey⟩ := hvalue hr h₁
  obtain ⟨colon, -, hcolon⟩ := mark_sound hkey.valid h₂
  obtain ⟨phrase, rfl, hphrase⟩ := hvalue hcolon.valid h₃
  obtain ⟨separator, -, hseparator⟩ := separator?_sound hphrase.valid h₄
  exact ⟨(key, colon, ⟨phrase, separator⟩), rfl,
    hkey.trans (hcolon.trans (hphrase.trans hseparator)), fun _ _ _ _ _ => trivial⟩

theorem mapValue_sound (hr : reader.Valid) (hc : reader.Peeks (some '\x7b'))
    (h : mapValue value reader = .ok node after) : ReadsValue reader node after := by
  rw [mapValue_eq] at h
  obtain ⟨_, between, htake, h⟩ := bind_eq_ok.1 h
  obtain ⟨⟨nodes, closing⟩, last, hitems, h⟩ := bind_eq_ok.1 h
  obtain ⟨-, h⟩ := span_bind_eq_ok.1 h
  obtain ⟨rfl, rfl⟩ := pure_eq_ok.1 h
  obtain ⟨opening, rfl, hopening⟩ := take_mark .leftBrace (by decide) hr hc htake
  obtain ⟨entries, closing, rfl, rfl, hreads, -⟩ := itemsUntil_sound (by decide) _ _
    (fun _ _ => True) (fun hr h => mapItem_sound hvalue hr h) hopening.valid hitems
  refine ⟨.map opening entries closing, ?_, ?_⟩
  · rw [Phrase.ConstValue.node, Phrase.ConstValue.entryNodes_eq]
  · rw [Phrase.ConstValue.terminals, Phrase.ConstValue.entriesTerminals_eq]
    exact hopening.trans hreads

end Containers

theorem constValue_sound (hr : reader.Valid) (h : constValue reader = .ok node after) :
    ReadsValue reader node after := by
  refine nested_induction (motive := fun reader node after => reader.Valid →
    ReadsValue reader node after) (fun h hr => ?_) ?_ h hr
  · obtain ⟨phrase, rfl, hphrase⟩ := h hr.round
    exact ⟨phrase, rfl, hphrase.of_round⟩
  intro value reader node after hvalue h hr
  obtain ⟨c, between, hpeek, h⟩ := bind_eq_ok.1 h
  obtain ⟨hreads, hc⟩ := peekSignificant_sound hr hpeek
  suffices ReadsValue between node after by
    obtain ⟨phrase, rfl, hphrase⟩ := this
    exact ⟨phrase, rfl, hreads.trans hphrase⟩
  cases c with
  | none => exact nameValue_sound hreads.valid h
  | some c =>
    dsimp only at h
    split at h
    · exact numberValue_sound hreads.valid h
    split at h
    · exact stringValue_sound hreads.valid h
    split at h
    · rename_i hc'
      exact listValue_sound (fun hr h => hvalue h hr) hreads.valid (hc' ▸ hc) h
    split at h
    · rename_i hc'
      exact mapValue_sound (fun hr h => hvalue h hr) hreads.valid (hc' ▸ hc) h
    · exact nameValue_sound hreads.valid h

end ThriftSyntax.Grammar
