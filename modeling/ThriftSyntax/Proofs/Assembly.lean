import ThriftSyntax.Grammar.Basic
import ThriftSyntax.Proofs.Reader.Reading

/-!
# Putting nodes together

A node gets a span, which may not end before it begins, and a list of fields or functions gets an index,
for which the first token of each is looked up. To build one reads nothing: it only can fail.
-/

namespace ThriftSyntax.Grammar

open Parse

variable {α β : Type} {first last : Nat} {reader after : Reader} {span : α → Span}
  {name : α → String} {items : List α}

theorem span_or (first last : Nat) (reader : Reader) :
    Grammar.span first last reader = .ok ⟨first, last⟩ reader ∨
      Grammar.span first last reader = .error .stalled reader := by
  unfold Grammar.span
  split
  · exact .inl rfl
  · exact .inr rfl

theorem span_bind (h : first ≤ last) (f : Span → Parse β) :
    (Grammar.span first last >>= f) = f ⟨first, last⟩ := by
  rw [Grammar.span, if_pos h, pure_bind]

theorem span_bind_eq_ok {f : Span → Parse β} {b : β} :
    (Grammar.span first last >>= f) reader = .ok b after ↔
      first ≤ last ∧ f ⟨first, last⟩ reader = .ok b after := by
  by_cases h : first ≤ last
  · rw [span_bind h]
    exact (and_iff_right h).symm
  · rw [Grammar.span, if_neg h]
    exact ⟨nofun, fun hb => absurd hb.1 h⟩

theorem forM_or {step : α → Parse Unit}
    (h : ∀ item, step item reader = .ok () reader ∨ step item reader = .error .stalled reader)
    (items : List α) : items.forM step reader = .ok () reader ∨
      items.forM step reader = .error .stalled reader := by
  induction items with
  | nil => exact .inl rfl
  | cons item items ih =>
    obtain hitem | hitem := h item
    · exact ih.imp (fun hrest => bind_eq_ok.2 ⟨(), reader, hitem, hrest⟩)
        fun hrest => bind_eq_error.2 (.inr ⟨(), reader, hitem, hrest⟩)
    · exact .inr (bind_eq_error.2 (.inl hitem))

theorem forM_eq {step : α → Parse Unit} (h : ∀ item ∈ items, step item reader = .ok () reader) :
    items.forM step reader = .ok () reader := by
  induction items with
  | nil => rfl
  | cons item items ih =>
    obtain ⟨hitem, h⟩ := List.forall_mem_cons.1 h
    exact bind_eq_ok.2 ⟨(), reader, hitem, ih h⟩

theorem index_or (span : α → Span) (name : α → String) (items : List α) (reader : Reader) :
    index span name items reader = .ok (.ofItems reader.chain span name items) reader ∨
      index span name items reader = .error .stalled reader := by
  have hitem : ∀ item, (discard (token (span item).first) : Parse Unit) reader = .ok () reader ∨
      (discard (token (span item).first) : Parse Unit) reader = .error .stalled reader := by
    intro item
    obtain ⟨link, -, -, h⟩ | h := token_or (span item).first reader
    · exact .inl (map_eq_ok.2 ⟨link, h, rfl⟩)
    · exact .inr (map_eq_error.2 h)
  obtain h | h := forM_or hitem items
  · exact .inl (bind_eq_ok.2 ⟨(), reader, h, rfl⟩)
  · exact .inr (bind_eq_error.2 (.inl h))

theorem index_eq (h : ∀ item ∈ items, (span item).first < reader.chain.size) :
    index span name items reader = .ok (.ofItems reader.chain span name items) reader := by
  refine bind_eq_ok.2 ⟨(), reader, forM_eq fun item hitem => ?_, rfl⟩
  obtain ⟨link, hl, hid⟩ := TokenChain.exists_link (h item hitem)
  exact map_eq_ok.2 ⟨link, hid ▸ token_eq hl, rfl⟩

theorem index_eq_ok {children : Children α} (h : index span name items reader = .ok children after) :
    children = .ofItems reader.chain span name items ∧ reader = after := by
  obtain hok | herror := index_or span name items reader
  · cases hok.symm.trans h
    exact ⟨rfl, rfl⟩
  · cases herror.symm.trans h

end ThriftSyntax.Grammar
