import ThriftSyntax.Proofs.Assembly
import ThriftSyntax.Proofs.Derivation.Phrase
import ThriftSyntax.Proofs.Reader.Literal

/-!
# Soundness of the smallest rules

What a rule has read, if it succeeds, is a phrase of that rule, and the result says what the phrase
says. A rule that looks for a word of its own and finds none says so about what comes next.
-/

namespace ThriftSyntax.Grammar

open Parse Reader Phrase

variable {reader after : Reader} {α : Type} {link : Link}

theorem not_unexpected {expected : Expectation} {a : α} :
    unexpected expected reader ≠ .ok a after := by
  intro h
  obtain ⟨link, between, -, h⟩ := bind_eq_ok.1 h
  exact throw_eq_ok.1 h

theorem mark_sound {mark : Punct} (hr : reader.Valid) (h : Grammar.mark mark reader = .ok link after) :
    ∃ leaf : Mark mark, leaf.link = link ∧ reader.Reads leaf.terminals after := by
  obtain ⟨link, next, htake, h⟩ := bind_eq_ok.1 h
  obtain ⟨between, hreads, htook, hp, hk⟩ := takeSignificant_sound hr htake
  split at h
  · rename_i hm
    obtain ⟨rfl, rfl⟩ := pure_eq_ok.1 h
    exact ⟨⟨link, htook.spells, hm⟩, rfl, hreads.trans (htook.reads hk (by simp [hm]))⟩
  · cases h

theorem take_mark (mark : Punct) (hm : Lexeme.IsLone mark) (hr : reader.Valid)
    (hc : reader.Peeks (some mark.char)) (h : take reader = .ok link after) :
    ∃ leaf : Mark mark, leaf.link = link ∧ reader.Reads leaf.terminals after := by
  obtain ⟨htook, -, hk, hhead⟩ := take_peeked hr hc h
  have hmark : link.kind = .punct mark := (htook.spells.opens hhead).eq_punct hm
  exact ⟨⟨link, htook.spells, hmark⟩, rfl, htook.reads hk (by simp [hmark])⟩

theorem mark?_sound {mark : Punct} (hm : Lexeme.IsLone mark) (hr : reader.Valid)
    {found : Option Link} (h : mark? mark reader = .ok found after) :
    (found = none ∧ reader.Reads [] after ∧ after.Meets (·.kind ≠ .punct mark)) ∨
      ∃ leaf : Mark mark, found = some leaf.link ∧ reader.Reads leaf.terminals after := by
  obtain ⟨c, between, hpeek, h⟩ := bind_eq_ok.1 h
  obtain ⟨hreads, hc⟩ := peekSignificant_sound hr hpeek
  split at h
  · rename_i heq
    obtain ⟨link, htake, rfl⟩ := map_eq_ok.1 h
    obtain ⟨leaf, rfl, hleaf⟩ := take_mark mark hm hreads.valid (heq ▸ hc) htake
    exact .inr ⟨leaf, rfl, hreads.trans hleaf⟩
  · rename_i hne
    obtain ⟨rfl, rfl⟩ := pure_eq_ok.1 h
    exact .inl ⟨rfl, hreads, hc.meets_ne hreads.valid hne⟩

theorem name_sound {reserved : Bool} (hr : reader.Valid) {words : DottedName}
    (h : Grammar.name reserved reader = .ok words after) :
    ∃ name : Name reserved, name.words = words ∧ reader.Reads name.terminals after := by
  obtain ⟨found, between, hname, h⟩ := bind_eq_ok.1 h
  cases found with
  | none => exact absurd h not_unexpected
  | some words =>
    obtain ⟨rfl, rfl⟩ := pure_eq_ok.1 h
    obtain ⟨hshape, hreads⟩ := takeName?_sound hr hname
    exact ⟨⟨words, hshape⟩, rfl, hreads⟩

theorem string_sound (hr : reader.Valid) (h : Grammar.string reader = .ok link after) :
    ∃ literal : Literal, literal.link = link ∧ reader.Reads literal.terminals after := by
  obtain ⟨found, between, hstring, h⟩ := bind_eq_ok.1 h
  cases found with
  | none => exact absurd h not_unexpected
  | some link =>
    obtain ⟨rfl, rfl⟩ := pure_eq_ok.1 h
    obtain ⟨hk, hspells, hreads⟩ := takeString?_sound hr hstring
    exact ⟨⟨link, hspells, hk⟩, rfl, hreads⟩

theorem integer_sound (hr : reader.Valid) {value : Int}
    (h : Grammar.integer reader = .ok (link, value) after) :
    ∃ number : Integer, number.link = link ∧ number.value = value ∧
      reader.Reads number.terminals after := by
  obtain ⟨link, between, hnumber, h⟩ := bind_eq_ok.1 h
  split at h
  · rename_i hk
    cases hv : Numeral.integer? link.raw with
    | none =>
      rw [hv] at h
      cases h
    | some value =>
      rw [hv] at h
      obtain ⟨heq, rfl⟩ := pure_eq_ok.1 h
      cases heq
      obtain ⟨hspells, hreads⟩ := takeNumber_sound hr hnumber hk
      exact ⟨⟨link, hspells, hk, by simp [hv]⟩, rfl, by simp [Integer.value, hv], hreads⟩
  · cases h

theorem separator?_eq : separator? = do
    let c ← peekSignificant
    if c = some Punct.comma.char ∨ c = some Punct.semicolon.char then some <$> take
    else return none := by
  unfold separator?
  congr 1
  funext c
  split <;> simp_all [Punct.char]

theorem separator?_sound (hr : reader.Valid) {found : Option Link}
    (h : separator? reader = .ok found after) :
    ∃ separator : Option Separator, separator.map Leaf.link = found ∧
      reader.Reads (optional Leaf.terminals separator) after := by
  rw [separator?_eq] at h
  obtain ⟨c, between, hpeek, h⟩ := bind_eq_ok.1 h
  obtain ⟨hreads, hc⟩ := peekSignificant_sound hr hpeek
  split at h
  · rename_i hs
    obtain ⟨link, htake, rfl⟩ := map_eq_ok.1 h
    rcases hs with rfl | rfl
    · obtain ⟨leaf, rfl, hleaf⟩ := take_mark .comma (by decide) hreads.valid hc htake
      exact ⟨some ⟨leaf.link, leaf.spells, .inl leaf.fits⟩, rfl, hreads.trans hleaf⟩
    · obtain ⟨leaf, rfl, hleaf⟩ := take_mark .semicolon (by decide) hreads.valid hc htake
      exact ⟨some ⟨leaf.link, leaf.spells, .inr leaf.fits⟩, rfl, hreads.trans hleaf⟩
  · obtain ⟨rfl, rfl⟩ := pure_eq_ok.1 h
    exact ⟨none, rfl, hreads⟩

/-! ## Words that begin a clause -/

theorem word?_none (hr : reader.Valid) (h : word? reader = .ok none after) :
    reader.Reads [] after ∧ after.Meets (·.kind.isWord true = false) := by
  obtain ⟨c, between, hpeek, h⟩ := bind_eq_ok.1 h
  obtain ⟨hreads, hc⟩ := peekSignificant_sound hr hpeek
  have hmeets : (∀ d, c = some d → Lexeme.startsWord d = false) →
      between.Meets (·.kind.isWord true = false) := by
    intro hd all rest x xs hf
    obtain ⟨ahead, hb, -⟩ := hc.atToken.exists_before hf
    have hspells := hf.spells hreads.valid
    by_cases hk : x.head.kind = .endOfInput
    · simp [hk, Kind.isWord]
    · obtain ⟨d, hd', ho⟩ := hspells.exists_opens hk
      have := hd d ((hc.head hb).symm.trans hd')
      rw [Bool.eq_false_iff, ne_eq, ← ho.word_iff, this]
      simp
  split at h
  · rename_i d
    split at h
    · simp [map_eq_ok] at h
    · rename_i hd
      obtain ⟨-, rfl⟩ := pure_eq_ok.1 h
      refine ⟨hreads, hmeets ?_⟩
      rintro _ ⟨⟩
      simpa using hd
  · obtain ⟨-, rfl⟩ := pure_eq_ok.1 h
    exact ⟨hreads, hmeets (by simp)⟩

theorem word?_some (hr : reader.Valid) {word : Link} (h : word? reader = .ok (some word) after) :
    ∃ between, reader.Reads [] between ∧ between.Took word after ∧ word.Plain ∧
      word.kind.isWord true = true := by
  obtain ⟨c, between, hpeek, h⟩ := bind_eq_ok.1 h
  obtain ⟨hreads, hc⟩ := peekSignificant_sound hr hpeek
  split at h
  · rename_i d
    split at h
    · rename_i hd
      obtain ⟨link, htake, heq⟩ := map_eq_ok.1 h
      cases heq
      obtain ⟨htook, hp, -, hhead⟩ := take_peeked hreads.valid hc htake
      exact ⟨between, hreads, htook, hp, (htook.spells.opens hhead).word_iff.1 hd⟩
    · simp [pure_eq_ok] at h
  · simp [pure_eq_ok] at h

/-- A word that is put back comes next again. -/
theorem word?_putBack (hr : reader.Valid) {word : Link} {between : Reader} {u : Unit}
    (h : word? reader = .ok (some word) between) (hb : putBackLast word between = .ok u after) :
    reader.Reads [] after ∧ after.Meets (· = word) := by
  obtain ⟨start, hreads, htook, hp, hk⟩ := word?_some hr h
  rw [putBackLast_of_took htook] at hb
  cases hb
  exact ⟨hreads.trans (htook.reads_hold hp), htook.hold_meets (Kind.not_trivia_of_isWord hk)⟩

/-! ## Items up to a closing mark -/

/-- If an item is a phrase that leaves something to say about what comes next, a run of items is a
list of such phrases, and each is followed by what it may be followed by. -/
theorem itemsUntil_sound {β : Type} {item : Parse α} {close : Punct}
    (hclose : Lexeme.IsLone close) (node : β → α) (terminals : β → List Terminal)
    (Stops : β → Link → Prop)
    (hitem : ∀ {reader a after}, reader.Valid → item reader = .ok a after →
      ∃ phrase, node phrase = a ∧ reader.Reads (terminals phrase) after ∧
        after.Meets (Stops phrase))
    (hr : reader.Valid) {items : List α} {closing : Link}
    (h : itemsUntil close item reader = .ok (items, closing) after) :
    ∃ (phrases : List β) (leaf : Mark close), phrases.map node = items ∧ leaf.link = closing ∧
      reader.Reads (phrases.flatMap terminals ++ leaf.terminals) after ∧
      (phrases.IsChain fun p q => ∀ x ∈ (terminals q).head?, Stops p x.head) ∧
      ∀ p ∈ phrases.getLast?, Stops p leaf.link := by
  revert hr
  refine repeatUntil_induction (motive := fun reader items closing after => reader.Valid →
    ∃ (phrases : List β) (leaf : Mark close), phrases.map node = items ∧ leaf.link = closing ∧
      reader.Reads (phrases.flatMap terminals ++ leaf.terminals) after ∧
      (phrases.IsChain fun p q => ∀ x ∈ (terminals q).head?, Stops p x.head) ∧
      ∀ p ∈ phrases.getLast?, Stops p leaf.link) (fun h hr => ?_) ?_ ?_ h
  · obtain ⟨phrases, leaf, hnodes, hleaf, hreads, hstops⟩ := h hr.round
    exact ⟨phrases, leaf, hnodes, hleaf, hreads.of_round, hstops⟩
  · intro reader closing after hs hr
    obtain ⟨found, between, hmark, hs⟩ := bind_eq_ok.1 hs
    rcases mark?_sound hclose hr hmark with ⟨rfl, -⟩ | ⟨leaf, rfl, hreads⟩
    · simp [map_eq_ok] at hs
    · obtain ⟨heq, rfl⟩ := pure_eq_ok.1 hs
      cases heq
      exact ⟨[], leaf, rfl, rfl, hreads, .nil, by simp⟩
  · intro reader a between items closing after hs ih hr
    obtain ⟨found, start, hmark, hs⟩ := bind_eq_ok.1 hs
    rcases mark?_sound hclose hr hmark with ⟨rfl, hstart, -⟩ | ⟨leaf, rfl, -⟩
    · obtain ⟨a, hs, heq⟩ := map_eq_ok.1 hs
      cases heq
      obtain ⟨phrase, rfl, hphrase, hmeets⟩ := hitem hstart.valid hs
      obtain ⟨phrases, leaf, rfl, rfl, hreads, hchain, hlast⟩ := ih hphrase.valid
      refine ⟨phrase :: phrases, leaf, rfl, rfl, ?_, ?_, ?_⟩
      · rw [List.flatMap_cons, List.append_assoc]
        exact hstart.trans (hphrase.trans hreads)
      · cases phrases with
        | nil => exact .singleton phrase
        | cons next rest =>
          refine .cons_cons (fun x hx => ?_) hchain
          obtain ⟨xs, hxs⟩ : ∃ xs, terminals next = x :: xs :=
            ⟨(terminals next).tail, (List.cons_head?_tail hx).symm⟩
          rw [List.flatMap_cons, hxs] at hreads
          exact hmeets.head hreads
      · cases phrases with
        | nil =>
          rintro p ⟨⟩
          exact hmeets.head (x := .token leaf.link) hreads
        | cons next rest => simpa using hlast
    · simp [pure_eq_ok] at hs

end ThriftSyntax.Grammar
