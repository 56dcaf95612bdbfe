import ThriftSyntax.Grammar.Field
import ThriftSyntax.Proofs.Derivation.Document
import ThriftSyntax.Proofs.Soundness.ConstValue
import ThriftSyntax.Proofs.Soundness.FieldType

/-!
# Soundness of fields

What is read as a field or a list of fields is made of phrases of that rule. The entries of
an index are those of the phrases too, because the tokens of a phrase are in the chain.
-/

namespace ThriftSyntax.Grammar

open Parse Reader Phrase

variable {reader after : Reader}

/-! ## Fields -/

theorem requiredness?_eq : requiredness? = do
    match ← word? with
    | some word =>
      if word.kind = .keyword .required then return some .required
      else if word.kind = .keyword .optional then return some .optional
      else
        putBackLast word
        return none
    | none => return none := by
  unfold requiredness?
  congr 1
  funext word
  cases word with
  | none => rfl
  | some word =>
    dsimp only
    split <;> simp_all

theorem requiredness?_sound (hr : reader.Valid) {found : Option Requiredness}
    (h : requiredness? reader = .ok found after) :
    ∃ demand : Option Demand, demand.map (·.form) = found ∧
      reader.Reads (optional Demand.terminals demand) after ∧
      (demand = none → after.Meets fun next =>
        next.kind ≠ .keyword .required ∧ next.kind ≠ .keyword .optional) := by
  rw [requiredness?_eq] at h
  obtain ⟨word, between, hword, h⟩ := bind_eq_ok.1 h
  cases word with
  | none =>
    obtain ⟨rfl, rfl⟩ := pure_eq_ok.1 h
    obtain ⟨hreads, hmeets⟩ := word?_none hr hword
    refine ⟨none, rfl, hreads, fun _ all rest x xs hf => ?_⟩
    have : x.head.kind.isWord true = false := hmeets all rest x xs hf
    constructor <;> (intro hk; rw [hk] at this; cases this)
  | some word =>
    dsimp only at h
    have hdemand : ∀ form, word.kind = .keyword (requirednessWord form) →
        (pure (some form) : Parse _) between = .ok found after →
        ∃ demand : Option Demand, demand.map (·.form) = found ∧
          reader.Reads (optional Demand.terminals demand) after ∧
          (demand = none → after.Meets fun next =>
            next.kind ≠ .keyword .required ∧ next.kind ≠ .keyword .optional) := by
      intro form hk h
      obtain ⟨rfl, rfl⟩ := pure_eq_ok.1 h
      obtain ⟨start, hreads, htook, -, hw⟩ := word?_some hr hword
      exact ⟨some ⟨form, word, htook.spells, hk⟩, rfl, hreads.trans
        (htook.reads (Kind.not_trivia_of_isWord hw) (Kind.ne_endOfInput_of_isWord hw)), by simp⟩
    split at h
    · exact hdemand .required ‹_› h
    split at h
    · exact hdemand .optional ‹_› h
    · rename_i hrequired hoptional
      obtain ⟨_, between', hback, h⟩ := bind_eq_ok.1 h
      obtain ⟨rfl, rfl⟩ := pure_eq_ok.1 h
      obtain ⟨hreads, hmeets⟩ := word?_putBack hr hword hback
      refine ⟨none, rfl, hreads, fun _ all rest x xs hf => ?_⟩
      rw [hmeets all rest x xs hf]
      exact ⟨hrequired, hoptional⟩

theorem default?_sound (hr : reader.Valid) {found : Option ThriftSyntax.ConstValue}
    (h : default? reader = .ok found after) :
    ∃ default : Option Default, default.map (·.value.node) = found ∧
      reader.Reads (optional Default.terminals default) after := by
  obtain ⟨equals, between, hmark, h⟩ := bind_eq_ok.1 h
  rcases mark?_sound (by decide) hr hmark with ⟨rfl, hreads, -⟩ | ⟨equals, rfl, hequals⟩
  · obtain ⟨rfl, rfl⟩ := pure_eq_ok.1 h
    exact ⟨none, rfl, hreads⟩
  · obtain ⟨node, hvalue, rfl⟩ := map_eq_ok.1 h
    obtain ⟨value, rfl, hreads⟩ := constValue_sound hequals.valid hvalue
    exact ⟨some ⟨equals, value⟩, rfl, hequals.trans hreads⟩

theorem lastToken_eq (last : Nat) (separator : Option Separator) :
    lastToken last (separator.map Leaf.link) = separator.elim last (·.link.id) := by
  cases separator <;> rfl

theorem field_sound (hr : reader.Valid) {node : ThriftSyntax.Field}
    (h : field reader = .ok node after) :
    ∃ phrase : Phrase.Field, phrase.node = node ∧ reader.Reads phrase.terminals after := by
  obtain ⟨⟨_, _⟩, r₁, h₁, h⟩ := bind_eq_ok.1 h
  obtain ⟨_, r₂, h₂, h⟩ := bind_eq_ok.1 h
  obtain ⟨_, r₃, h₃, h⟩ := bind_eq_ok.1 h
  obtain ⟨_, r₄, h₄, h⟩ := bind_eq_ok.1 h
  obtain ⟨_, r₅, h₅, h⟩ := bind_eq_ok.1 h
  obtain ⟨_, r₆, h₆, h⟩ := bind_eq_ok.1 h
  obtain ⟨⟨_, _⟩, r₇, h₇, h⟩ := bind_eq_ok.1 h
  obtain ⟨_, r₈, h₈, h⟩ := bind_eq_ok.1 h
  obtain ⟨-, h⟩ := span_bind_eq_ok.1 h
  obtain ⟨rfl, rfl⟩ := pure_eq_ok.1 h
  obtain ⟨id, rfl, rfl, hid⟩ := integer_sound hr h₁
  obtain ⟨colon, -, hcolon⟩ := mark_sound hid.valid h₂
  obtain ⟨demand, rfl, hdemand, hnone⟩ := requiredness?_sound hcolon.valid h₃
  obtain ⟨type, rfl, htype, hstops⟩ := fieldType_sound hdemand.valid h₄
  obtain ⟨name, rfl, hname⟩ := name_sound htype.valid h₅
  obtain ⟨default, rfl, hdefault⟩ := default?_sound hname.valid h₆
  obtain ⟨annotations, rfl, rfl, hannotations, -⟩ := trailingAnnotations_sound hdefault.valid h₇
  obtain ⟨separator, rfl, hseparator⟩ := separator?_sound hannotations.valid h₈
  refine ⟨⟨id, colon, demand, type, name, default, annotations, separator, ?_, ?_⟩, ?_, ?_⟩
  · intro hd
    obtain ⟨x, xs, hx, hhead⟩ := type.exists_terminals
    rw [← hhead]
    exact (hnone hd).head (hx ▸ htype)
  · exact hstops.head (x := .name false name.words) hname
  · rw [lastToken_eq]
    cases default <;> cases separator <;> rfl
  · exact hid.trans (hcolon.trans (hdemand.trans (htype.trans (hname.trans (hdefault.trans
      (hannotations.trans hseparator))))))

/-- The index of children finds each by the first token of its phrase. -/
theorem ofItems_eq {α β : Type} {span : α → Span} {name : α → String} {node : β → α}
    {entry : β → Token.Key × String} {phrases : List β} {chain : TokenChain} (first : β → Link)
    (hmem : ∀ phrase ∈ phrases, first phrase ∈ chain.links)
    (hspan : ∀ phrase, (span (node phrase)).first = (first phrase).id)
    (hentry : ∀ phrase, entry phrase = ((first phrase).token.key, name (node phrase))) :
    Children.ofItems chain span name (phrases.map node) =
      ⟨phrases.map node, ⟨phrases.map entry⟩⟩ := by
  unfold Children.ofItems
  congr 2
  rw [List.map_map]
  apply List.map_congr_left
  intro phrase hphrase
  rw [Function.comp_apply, hspan, TokenChain.key?_of_mem (hmem phrase hphrase), hentry]
  rfl

theorem fieldsUntil_sound {close : Punct} (hclose : Lexeme.IsLone close) (hr : reader.Valid)
    {children : Children ThriftSyntax.Field} {closing : Link}
    (h : fieldsUntil close reader = .ok (children, closing) after) :
    ∃ (fields : List Phrase.Field) (leaf : Mark close), children = Phrase.Field.children fields ∧
      leaf.link = closing ∧
      reader.Reads (fields.flatMap Phrase.Field.terminals ++ leaf.terminals) after := by
  obtain ⟨⟨nodes, closing⟩, between, hitems, h⟩ := bind_eq_ok.1 h
  obtain ⟨_, _, hindex, h⟩ := bind_eq_ok.1 h
  obtain ⟨rfl, rfl⟩ := index_eq_ok hindex
  obtain ⟨heq, rfl⟩ := pure_eq_ok.1 h
  cases heq
  have hfield : ∀ {reader node after}, reader.Valid → field reader = .ok node after →
      ∃ phrase : Phrase.Field, phrase.node = node ∧ reader.Reads phrase.terminals after ∧
        after.Meets fun _ => True := by
    intro reader node after hr h
    obtain ⟨phrase, rfl, hreads⟩ := field_sound hr h
    exact ⟨phrase, rfl, hreads, fun _ _ _ _ _ => trivial⟩
  obtain ⟨fields, leaf, rfl, rfl, hreads, -⟩ :=
    itemsUntil_sound hclose _ _ (fun _ _ => True) hfield hr hitems
  have hmem : ∀ phrase ∈ fields, phrase.id.link ∈ between.chain.links := by
    intro phrase hphrase
    refine hreads.mem_chain (x := .token phrase.id.link) ?_ List.mem_cons_self
    exact List.mem_append_left _ (List.mem_flatMap.2 ⟨phrase, hphrase, List.mem_cons_self⟩)
  exact ⟨fields, leaf, ofItems_eq (·.id.link) hmem (fun _ => rfl) (fun _ => rfl), rfl, hreads⟩

end ThriftSyntax.Grammar
