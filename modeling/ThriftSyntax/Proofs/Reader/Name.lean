import ThriftSyntax.Proofs.Derivation.Reads

/-!
# Reading names

`DottedName.Shaped` says which runs of tokens are names. `takeName?` reads such a run as far as it
goes, and where one stands it reads it whole.
-/

namespace ThriftSyntax

/-! ## Words -/

namespace Kind

variable {kind : Kind} {reserved : Bool}

theorem ne_dot_of_isWord (h : kind.isWord reserved = true) : kind ≠ .punct .dot := by
  rintro rfl
  cases h

theorem ne_endOfInput_of_isWord (h : kind.isWord reserved = true) : kind ≠ .endOfInput := by
  rintro rfl
  cases h

theorem not_trivia_of_isWord (h : kind.isWord reserved = true) : kind.isTrivia = false := by
  cases kind <;> first | rfl | cases h

theorem not_word_of_isTrivia (h : kind.isTrivia = true) : kind.isWord reserved = false := by
  cases kind <;> first | rfl | cases h

theorem not_keyword_of_isWord (h : kind.isWord false = true) : kind.isKeyword = false := by
  cases kind <;> first | rfl | cases h

theorem plain_of_isWord {raw : List Char} (h : kind.isWord reserved = true) :
    Lexeme.Plain kind raw := by
  constructor <;> (rintro rfl; cases h)

end Kind

/-! ## Names -/

namespace DottedName

/-- What may follow a word of a name: dots, each with a word after it, and perhaps one more dot. -/
inductive Tail (reserved : Bool) : List Link → Prop where
  | nil : Tail reserved []
  | dot {dot : Link} (hd : dot.kind = .punct .dot) : Tail reserved [dot]
  | word {dot word : Link} {tail : List Link} (hd : dot.kind = .punct .dot)
      (hw : word.kind.isWord reserved = true) (h : Tail reserved tail) :
      Tail reserved (dot :: word :: tail)

/-- A name begins with a word or with a dot; a dot alone is a name too. -/
structure Shaped (reserved : Bool) (name : DottedName) : Prop where
  shape : Tail reserved name.links ∨
    name.head.kind.isWord reserved = true ∧ Tail reserved name.tail
  spells : ∀ link ∈ name.links, Lexeme.Spells link.kind link.raw.toList

theorem last_cons (head next : Link) (tail : List Link) :
    (DottedName.mk head (next :: tail)).last = (DottedName.mk next tail).last := by
  cases tail <;> rfl

/-- A name that ends with a word or a dot stops there. -/
def Ends (reserved : Bool) (name : DottedName) (following : List Link) (rest : List Char) : Prop :=
  (Terminal.name reserved name).Ends following rest

theorem ends_cons (reserved : Bool) (head next : Link) (tail following : List Link)
    (rest : List Char) : (DottedName.mk head (next :: tail)).Ends reserved following rest ↔
      (DottedName.mk next tail).Ends reserved following rest := by
  unfold Ends Terminal.Ends
  dsimp only
  rw [last_cons]

theorem ends_word {reserved : Bool} {word : Link} (hw : word.kind ≠ .punct .dot)
    {following : List Link} {rest : List Char} :
    (DottedName.mk word []).Ends reserved following rest ↔
      (Link.spelled following ++ rest).head? ≠ some '.' := by
  unfold Ends Terminal.Ends
  dsimp only
  rw [if_neg (show ¬ (DottedName.mk word []).last.kind = .punct .dot from hw)]

theorem ends_dot {reserved : Bool} {dot : Link} (hd : dot.kind = .punct .dot)
    {following : List Link} {rest : List Char} :
    (DottedName.mk dot []).Ends reserved following rest ↔
      ∃ link tail, following = link :: tail ∧ link.kind.isWord reserved = false ∧
        Lexeme.Plain link.kind link.raw.toList := by
  unfold Ends Terminal.Ends
  dsimp only
  rw [if_pos (show (DottedName.mk dot []).last.kind = .punct .dot from hd)]

theorem Tail.dot_or_word {reserved : Bool} {tail : List Link} (h : Tail reserved tail) :
    ∀ link ∈ tail, link.kind = .punct .dot ∨ link.kind.isWord reserved = true := by
  induction h with
  | nil => simp
  | dot hd =>
    rintro link (_ | ⟨_, ⟨⟩⟩)
    exact .inl hd
  | word hd hw h ih =>
    rintro link (_ | ⟨_, _ | ⟨_, hl⟩⟩)
    · exact .inl hd
    · exact .inr hw
    · exact ih link hl

theorem Shaped.dot_or_word {reserved : Bool} {name : DottedName} (h : name.Shaped reserved) :
    ∀ link ∈ name.links, link.kind = .punct .dot ∨ link.kind.isWord reserved = true := by
  rcases h.shape with h | ⟨hw, h⟩
  · exact h.dot_or_word
  · rintro link (_ | ⟨_, hl⟩)
    · exact .inr hw
    · exact h.dot_or_word link hl

theorem Shaped.not_trivia {reserved : Bool} {name : DottedName} (h : name.Shaped reserved) :
    ∀ link ∈ name.links, link.kind.isTrivia = false := by
  intro link hl
  obtain hd | hw := h.dot_or_word link hl
  · rw [hd]
    rfl
  · exact Kind.not_trivia_of_isWord hw

theorem last_mem (name : DottedName) : name.last ∈ name.links := List.getLastD_mem_cons

theorem getLast?_links (name : DottedName) : name.links.getLast? = some name.last := by
  rw [links, List.getLast?_cons, last, List.getLastD_eq_getLast?]

theorem toList_text (name : DottedName) : name.text.toList = Link.spelled name.links := by
  rw [Link.spelled_eq]
  rfl

end DottedName

namespace Parse

open Reader

variable {reader after : Reader} {reserved : Bool} {all ahead : List Link} {rest : List Char}

theorem plain_punct (mark : Punct) (raw : List Char) : Lexeme.Plain (.punct mark) raw := by
  constructor <;> (intro h; cases h)

/-- What is peeked is the first character of what is taken next. -/
theorem head_of_peek {link : Link} {c : Option Char} {same : Reader}
    (h : reader.Took link after) (hc : peek reader = .ok c same) : link.raw.toList.head? = c := by
  obtain ⟨all, rest, hb⟩ := h.exists_before
  rw [peek_of_before hb] at hc
  cases hc
  rfl

theorem take_dot (hr : reader.Valid) (hh : reader.held = none)
    (hpeek : reader.cursor.peek? = some '.') {dot : Link} (h : take reader = .ok dot after) :
    dot.kind = .punct .dot ∧ reader.Took dot after := by
  obtain ⟨htook, -⟩ := take_sound hr h
  have hc : peek reader = .ok (some '.') reader := by
    rw [peek_eq fun link hl => hr.held_mem hl, hh, ← hpeek]
    rfl
  have ho : Lexeme.Opens dot.kind Punct.dot.char := htook.spells.opens (head_of_peek htook hc)
  exact ⟨ho.eq_punct (by decide), htook⟩

theorem wordAfterDot?_sound (hr : reader.Valid) {found : Option Link}
    (h : wordAfterDot? reserved reader = .ok found after) :
    (∃ word, found = some word ∧ word.kind.isWord reserved = true ∧ reader.Took word after) ∨
      ∃ link, found = none ∧ link.kind.isWord reserved = false ∧ link.Plain ∧
        after.Valid ∧ after.held = some link ∧ reader.Passes [] after := by
  obtain ⟨link, between, htake, h⟩ := bind_eq_ok.1 h
  obtain ⟨htook, hp⟩ := take_sound hr htake
  split at h
  · rename_i hw
    obtain ⟨rfl, rfl⟩ := pure_eq_ok.1 h
    exact .inl ⟨link, rfl, hw, htook⟩
  · rename_i hw
    obtain ⟨_, last, hback, h⟩ := bind_eq_ok.1 h
    obtain ⟨rfl, rfl⟩ := pure_eq_ok.1 h
    rw [putBackLast_of_took htook] at hback
    cases hback
    exact .inr ⟨link, rfl, by simpa using hw, hp, htook.valid_hold hp, rfl, htook.passes_hold⟩

theorem wordAfterDot?_eq_some (hr : reader.Valid) {word : Link}
    (h : wordAfterDot? reserved reader = .ok (some word) after) :
    word.kind.isWord reserved = true ∧ reader.Took word after := by
  obtain ⟨_, heq, htook⟩ | ⟨_, heq, -⟩ := wordAfterDot?_sound hr h
  · cases heq
    exact htook
  · cases heq

theorem wordAfterDot?_eq_none (hr : reader.Valid)
    (h : wordAfterDot? reserved reader = .ok none after) :
    ∃ link, link.kind.isWord reserved = false ∧ link.Plain ∧ after.Valid ∧
      after.held = some link ∧ reader.Passes [] after := by
  obtain ⟨_, heq, -⟩ | ⟨link, -, hback⟩ := wordAfterDot?_sound hr h
  · cases heq
  · exact ⟨link, hback⟩

/-! ## A dot and the word behind it -/

section
variable {between : Reader} {dot : Link} (hdot : reader.cursor.peek? = some '.')
  (htake : take reader = .ok dot between)
include hdot htake

theorem nameSegment_word {word : Link} (h : wordAfterDot? reserved between = .ok (some word) after) :
    nameSegment reserved reader = .ok (.inl [dot, word]) after := by
  rw [nameSegment, get_bind, if_pos hdot]
  exact bind_eq_ok.2 ⟨_, _, htake, bind_eq_ok.2 ⟨_, _, h, rfl⟩⟩

theorem nameSegment_other (h : wordAfterDot? reserved between = .ok none after) :
    nameSegment reserved reader = .ok (.inr [dot]) after := by
  rw [nameSegment, get_bind, if_pos hdot]
  exact bind_eq_ok.2 ⟨_, _, htake, bind_eq_ok.2 ⟨_, _, h, rfl⟩⟩

theorem nameSegment_fails {error : Error} (h : wordAfterDot? reserved between = .error error after) :
    nameSegment reserved reader = .error error after := by
  rw [nameSegment, get_bind, if_pos hdot]
  exact bind_eq_error.2 (.inr ⟨_, _, htake, bind_eq_error.2 (.inl h)⟩)

end

theorem nameSegment_none (hdot : reader.cursor.peek? ≠ some '.') :
    nameSegment reserved reader = .ok (.inr []) reader := by
  rw [nameSegment, get_bind, if_neg hdot]
  rfl

/-- What a name goes on with behind a word: no dot, or a dot and a word, or a dot that ends it. -/
inductive FindsSegment (reserved : Bool) (reader : Reader) :
    List Link ⊕ List Link → Reader → Prop
  | none (hdot : reader.cursor.peek? ≠ some '.') : FindsSegment reserved reader (.inr []) reader
  | word {dot word : Link} {between after : Reader} (hd : dot.kind = .punct .dot)
      (htook : reader.Took dot between) (hw : word.kind.isWord reserved = true)
      (htook' : between.Took word after) : FindsSegment reserved reader (.inl [dot, word]) after
  | other {dot : Link} {between after : Reader} (hd : dot.kind = .punct .dot)
      (htook : reader.Took dot between) (hword : wordAfterDot? reserved between = .ok none after) :
      FindsSegment reserved reader (.inr [dot]) after

theorem nameSegment_sound (hr : reader.Valid) (hh : reader.held = none)
    {found : List Link ⊕ List Link} (h : nameSegment reserved reader = .ok found after) :
    FindsSegment reserved reader found after := by
  rw [nameSegment, get_bind] at h
  split at h
  · rename_i hpeek
    obtain ⟨dot, between, htake, h⟩ := bind_eq_ok.1 h
    obtain ⟨found, last, hword, h⟩ := bind_eq_ok.1 h
    obtain ⟨hd, htook⟩ := take_dot hr hh hpeek htake
    cases found with
    | none =>
      obtain ⟨rfl, rfl⟩ := pure_eq_ok.1 h
      exact .other hd htook hword
    | some word =>
      obtain ⟨rfl, rfl⟩ := pure_eq_ok.1 h
      obtain ⟨hw, htook'⟩ := wordAfterDot?_eq_some (htook.valid (by simp [hd])) hword
      exact .word hd htook hw htook'
  · rename_i hdot
    obtain ⟨rfl, rfl⟩ := pure_eq_ok.1 h
    exact .none hdot

/-! ## The rest of a name -/

/-- From `reader` to `after`, `tail` is read, and it could not be longer. -/
structure ReadsTail (reserved : Bool) (reader : Reader) (tail : List Link) (after : Reader) :
    Prop where
  valid : after.Valid
  shape : DottedName.Tail reserved tail
  spells : ∀ link ∈ tail, Lexeme.Spells link.kind link.raw.toList
  passes : reader.Passes tail after
  ends : ∀ word : Link, word.kind ≠ .punct .dot → ∀ all rest ahead, after.Before all rest ahead →
    (DottedName.mk word tail).Ends reserved ahead rest

namespace ReadsTail

variable {between next : Reader} {tail : List Link}

theorem of_round (h : ReadsTail reserved reader.round tail after) :
    ReadsTail reserved reader tail after :=
  ⟨h.valid, h.shape, h.spells, h.passes, h.ends⟩

/-- Without a dot the name ends with the word before. -/
theorem nil (hr : reader.Valid) (hh : reader.held = none) (hdot : reader.cursor.peek? ≠ some '.') :
    ReadsTail reserved reader [] reader where
  valid := hr
  shape := .nil
  spells := by simp
  passes := Passes.refl reader
  ends word hword all rest ahead hb := by
    obtain ⟨done, tail, -, -, hlinks, hrest, -⟩ := hb
    rw [hh] at hlinks
    obtain rfl : ahead = tail := by simpa using hlinks
    rw [DottedName.ends_word hword]
    rwa [← hrest]

/-- A dot without a word behind it ends the name. -/
theorem dot {dot : Link} (hd : dot.kind = .punct .dot) (htook : reader.Took dot between)
    (hword : wordAfterDot? reserved between = .ok none after) :
    ReadsTail reserved reader [dot] after := by
  obtain ⟨link, hw, hp, hafter, hheld, hpasses⟩ :=
    wordAfterDot?_eq_none (htook.valid (by simp [hd])) hword
  refine ⟨hafter, .dot hd, by simpa using htook.spells, htook.passes.trans hpasses, ?_⟩
  intro word _ all rest ahead hb
  obtain ⟨done, tail, -, -, hlinks, -, -⟩ := hb
  rw [hheld] at hlinks
  exact (DottedName.ends_cons ..).2 ((DottedName.ends_dot hd).2 ⟨link, tail, hlinks, hw, hp.plain⟩)

/-- A dot and a word continue the name. -/
theorem word {dot word : Link} (hd : dot.kind = .punct .dot) (htook : reader.Took dot between)
    (hw : word.kind.isWord reserved = true) (htook' : between.Took word next)
    (h : ReadsTail reserved next tail after) :
    ReadsTail reserved reader (dot :: word :: tail) after where
  valid := h.valid
  shape := .word hd hw h.shape
  spells := List.forall_mem_cons.2 ⟨htook.spells, List.forall_mem_cons.2 ⟨htook'.spells, h.spells⟩⟩
  passes := (htook.passes.trans htook'.passes).trans h.passes
  ends _ _ all rest ahead hb :=
    (DottedName.ends_cons ..).2 ((DottedName.ends_cons ..).2
      (h.ends word (Kind.ne_dot_of_isWord hw) all rest ahead hb))

end ReadsTail

theorem nameTail_sound (hr : reader.Valid) (hh : reader.held = none) {tail : List Link}
    (h : nameTail reserved reader = .ok tail after) : ReadsTail reserved reader tail after := by
  obtain ⟨⟨segments, last⟩, between, hrun, h⟩ := bind_eq_ok.1 h
  obtain ⟨rfl, rfl⟩ := pure_eq_ok.1 h
  revert hr hh
  refine repeatUntil_induction (motive := fun reader segments last after => reader.Valid →
    reader.held = none → ReadsTail reserved reader (segments.flatten ++ last) after)
    (fun h hr hh => (h hr.round hh).of_round) ?_ ?_ hrun
  · intro reader last after hs hr hh
    cases nameSegment_sound hr hh hs with
    | none hdot => exact .nil hr hh hdot
    | other hd htook hword => exact .dot hd htook hword
  · intro reader segment between segments last after hs ih hr hh
    cases nameSegment_sound hr hh hs with
    | word hd htook hw htook' =>
      exact .word hd htook hw htook' (ih (htook'.valid (Kind.ne_endOfInput_of_isWord hw)) htook'.held)

/-- A name that is read whole is a terminal. -/
theorem reads_name {between : Reader} {name : DottedName} (hr : reader.Reads [] between)
    (hshape : name.Shaped reserved) (ha : after.Valid) (hp : between.Passes name.links after)
    (hends : ∀ all rest ahead, after.Before all rest ahead → name.Ends reserved ahead rest) :
    reader.Reads [.name reserved name] after where
  valid := ha
  faces all rest ys := by
    rintro ⟨links, hb, hl⟩
    exact hr.faces _ _ _ ⟨name.links ++ links, hp _ _ _ hb,
      .terminal (x := .name reserved name) hshape.not_trivia (hends _ _ _ hb) hl⟩

/-- What a name goes on with behind a word is a name by itself, if it begins with a dot. -/
theorem ReadsTail.reads_dotted {between : Reader} {dot : Link} {tail : List Link}
    (h : ReadsTail reserved between (dot :: tail) after) (hr : reader.Reads [] between) :
    (DottedName.mk dot tail).Shaped reserved ∧ reader.Reads [.name reserved ⟨dot, tail⟩] after := by
  have hshape : (DottedName.mk dot tail).Shaped reserved := ⟨.inl h.shape, h.spells⟩
  refine ⟨hshape, reads_name hr hshape h.valid h.passes fun all rest ahead hb => ?_⟩
  -- Where the tail ends is the same behind any token that is no dot.
  exact (DottedName.ends_cons ..).1 (h.ends ⟨0, .endOfInput, "", .start⟩ nofun all rest ahead hb)

theorem restore_or {link : Link} (hh : reader.held = none) (waiting : Option Link) :
    restore waiting link reader = .ok () (reader.hold link) ∨
      restore waiting link reader = .error .stalled reader := by
  unfold restore
  split
  · exact .inl (putBack_eq hh link)
  · exact putBackLast_or hh link

theorem restore_eq {link : Link} (hh : reader.held = none)
    (hl : reader.chain.links.getLast? = some link) (waiting : Option Link) :
    restore waiting link reader = .ok () (reader.hold link) := by
  unfold restore
  split
  · exact putBack_eq hh link
  · exact putBackLast_eq hh hl

theorem restore_of_took {link : Link} {start : Reader} (h : start.Took link reader)
    (waiting : Option Link) : restore waiting link reader = .ok () (reader.hold link) :=
  restore_eq h.held h.last waiting

/-- What a name is read as: a word and what it goes on with, a dot, a dot with a word behind it, or no
name at all. -/
inductive FindsName (reserved : Bool) (reader : Reader) : Option DottedName → Reader → Prop
  | word {head : Link} {tail : List Link} {between after : Reader}
      (hfirst : takeSignificant reader = .ok head between) (hw : head.kind.isWord reserved = true)
      (htail : nameTail reserved between = .ok tail after) :
      FindsName reserved reader (some ⟨head, tail⟩) after
  | dot {head : Link} {between after : Reader} (hfirst : takeSignificant reader = .ok head between)
      (hd : head.kind = .punct .dot) (hword : wordAfterDot? reserved between = .ok none after) :
      FindsName reserved reader (some ⟨head, []⟩) after
  | dotWord {head word : Link} {tail : List Link} {between next after : Reader}
      (hfirst : takeSignificant reader = .ok head between) (hd : head.kind = .punct .dot)
      (hword : wordAfterDot? reserved between = .ok (some word) next)
      (htail : nameTail reserved next = .ok tail after) :
      FindsName reserved reader (some ⟨head, word :: tail⟩) after
  | none {link : Link} {between after : Reader}
      (hfirst : takeSignificant reader = .ok link between)
      (hw : link.kind.isWord reserved = false) (hd : link.kind ≠ .punct .dot)
      (hback : restore reader.held link between = .ok () after) : FindsName reserved reader none after

theorem takeName?_finds {found : Option DottedName}
    (h : takeName? reserved reader = .ok found after) : FindsName reserved reader found after := by
  rw [takeName?, get_bind] at h
  obtain ⟨first, between, hfirst, h⟩ := bind_eq_ok.1 h
  split at h
  · rename_i hw
    obtain ⟨tail, last, htail, h⟩ := bind_eq_ok.1 h
    obtain ⟨rfl, rfl⟩ := pure_eq_ok.1 h
    exact .word hfirst hw htail
  rename_i hw
  split at h
  · rename_i hd
    obtain ⟨word, next, hword, h⟩ := bind_eq_ok.1 h
    cases word with
    | none =>
      obtain ⟨rfl, rfl⟩ := pure_eq_ok.1 h
      exact .dot hfirst hd hword
    | some word =>
      obtain ⟨tail, last, htail, h⟩ := bind_eq_ok.1 h
      obtain ⟨rfl, rfl⟩ := pure_eq_ok.1 h
      exact .dotWord hfirst hd hword htail
  · rename_i hd
    obtain ⟨last, hback, h⟩ := unit_bind_eq_ok.1 h
    obtain ⟨rfl, rfl⟩ := pure_eq_ok.1 h
    exact .none hfirst (by simpa using hw) hd hback

theorem takeName?_sound (hr : reader.Valid) {name : DottedName}
    (h : takeName? reserved reader = .ok (some name) after) :
    name.Shaped reserved ∧ reader.Reads [.name reserved name] after := by
  cases takeName?_finds h with
  | @word head tail _ _ hfirst hw htail =>
    obtain ⟨between, hreads, htook, -, -⟩ := takeSignificant_sound hr hfirst
    have hrest := nameTail_sound (htook.valid (Kind.ne_endOfInput_of_isWord hw)) htook.held htail
    have hshape : (DottedName.mk head tail).Shaped reserved :=
      ⟨.inr ⟨hw, hrest.shape⟩, List.forall_mem_cons.2 ⟨htook.spells, hrest.spells⟩⟩
    exact ⟨hshape, reads_name hreads hshape hrest.valid (htook.passes.trans hrest.passes)
      (hrest.ends head (Kind.ne_dot_of_isWord hw))⟩
  | dot hfirst hd hword =>
    obtain ⟨between, hreads, htook, -, -⟩ := takeSignificant_sound hr hfirst
    exact (ReadsTail.dot hd htook hword).reads_dotted hreads
  | dotWord hfirst hd hword htail =>
    obtain ⟨between, hreads, htook, -, -⟩ := takeSignificant_sound hr hfirst
    obtain ⟨hw, htook'⟩ := wordAfterDot?_eq_some (htook.valid (by simp [hd])) hword
    have hrest := nameTail_sound (htook'.valid (Kind.ne_endOfInput_of_isWord hw)) htook'.held htail
    exact (hrest.word hd htook hw htook').reads_dotted hreads

/-! ## Reading a whole name -/

/-- A token that only spells a dot begins with one. -/
theorem head_dot {dot : Link} (hd : dot.kind = .punct .dot)
    (hs : Lexeme.Spells dot.kind dot.raw.toList) : dot.raw.toList = ['.'] := by
  rw [hd] at hs
  generalize dot.raw.toList = raw at hs
  cases hs
  rfl

theorem wordAfterDot?_word (hr : reader.Valid) {word : Link}
    (hw : word.kind.isWord reserved = true) (h : reader.Before all rest (word :: ahead)) :
    ∃ after, wordAfterDot? reserved reader = .ok (some word) after ∧ reader.Took word after ∧
      after.Before all rest ahead := by
  obtain ⟨after, htake, hafter⟩ := take_complete hr (Kind.plain_of_isWord hw) h
  refine ⟨after, bind_eq_ok.2 ⟨word, after, htake, ?_⟩, (take_sound hr htake).1, hafter⟩
  rw [if_pos hw]
  rfl

theorem wordAfterDot?_none (hr : reader.Valid) {link : Link}
    (hw : link.kind.isWord reserved = false) (hp : Lexeme.Plain link.kind link.raw.toList)
    (h : reader.Before all rest (link :: ahead)) :
    ∃ after, wordAfterDot? reserved reader = .ok none after ∧ after.Valid ∧
      after.Before all rest (link :: ahead) := by
  obtain ⟨between, htake, hbetween⟩ := take_complete hr hp h
  obtain ⟨htook, hplain⟩ := take_sound hr htake
  refine ⟨between.hold link, bind_eq_ok.2 ⟨link, between, htake, ?_⟩, htook.valid_hold hplain,
    (before_hold htook.last htook.held).2 hbetween⟩
  rw [if_neg (by simp [hw])]
  exact bind_eq_ok.2 ⟨(), _, putBackLast_of_took htook, rfl⟩

/-- Before a dot the cursor is at it. -/
theorem peek?_dot {dot : Link} (hr : reader.Valid) (hh : reader.held = none)
    (hd : dot.kind = .punct .dot) (h : reader.Before all rest (dot :: ahead)) :
    reader.cursor.peek? = some '.' := by
  rw [Cursor.peek?, (pass_of_before hh h).1, head_dot hd (h.spells hr dot List.mem_cons_self)]
  rfl

theorem take_dot_complete {dot : Link} (hr : reader.Valid) (hd : dot.kind = .punct .dot)
    (h : reader.Before all rest (dot :: ahead)) :
    ∃ after, take reader = .ok dot after ∧ after.Valid ∧ reader.Took dot after ∧
      after.Before all rest ahead := by
  obtain ⟨after, htake, hafter⟩ := take_complete hr (hd ▸ plain_punct .dot _) h
  obtain ⟨htook, -⟩ := take_sound hr htake
  exact ⟨after, htake, htook.valid (by simp [hd]), htook, hafter⟩

theorem nameTail_complete {tail : List Link} {word : Link} (hr : reader.Valid)
    (hh : reader.held = none) (ht : DottedName.Tail reserved tail) (hw : word.kind ≠ .punct .dot)
    (hends : (DottedName.mk word tail).Ends reserved ahead rest)
    (h : reader.Before all rest (tail ++ ahead)) :
    ∃ after, nameTail reserved reader = .ok tail after ∧ after.Valid ∧
      after.Before all rest ahead := by
  suffices ∃ segments last after, segments.flatten ++ last = tail ∧
      repeatUntil (nameSegment reserved) reader = .ok (segments, last) after ∧
      after.Valid ∧ after.Before all rest ahead by
    obtain ⟨segments, last, after, rfl, hrun, hafter⟩ := this
    exact ⟨after, bind_eq_ok.2 ⟨_, _, hrun, rfl⟩, hafter⟩
  induction ht generalizing reader word with
  | nil =>
    rw [DottedName.ends_word hw] at hends
    obtain ⟨done, behind, -, -, hlinks, hrest, -⟩ := id h
    rw [hh] at hlinks
    obtain rfl : ahead = behind := by simpa using hlinks
    have hdot : reader.round.cursor.peek? ≠ some '.' := by rwa [cursor_round, Cursor.peek?, hrest]
    exact ⟨[], [], reader.round, rfl, repeatUntil_last (nameSegment_none hdot), hr.round,
      before_round.2 h⟩
  | @dot dot hd =>
    rw [DottedName.ends_cons, DottedName.ends_dot hd] at hends
    obtain ⟨link, behind, rfl, hlink, hp⟩ := hends
    obtain ⟨between, htake, hbetween, -, hbefore⟩ := take_dot_complete hr.round hd (before_round.2 h)
    obtain ⟨after, hword, hafter⟩ := wordAfterDot?_none hbetween hlink hp hbefore
    have hpeek : reader.round.cursor.peek? = some '.' := peek?_dot hr.round hh hd (before_round.2 h)
    exact ⟨[], [dot], after, rfl, repeatUntil_last (nameSegment_other hpeek htake hword), hafter⟩
  | @word dot next tail hd hnext ht ih =>
    rw [DottedName.ends_cons, DottedName.ends_cons] at hends
    rw [List.cons_append, List.cons_append] at h
    obtain ⟨between, htake, hbetween, htook, hbefore⟩ :=
      take_dot_complete hr.round hd (before_round.2 h)
    obtain ⟨start, hword, htook', hstart⟩ := wordAfterDot?_word hbetween hnext hbefore
    obtain ⟨segments, last, after, rfl, hrun, hafter⟩ :=
      ih (htook'.valid (Kind.ne_endOfInput_of_isWord hnext)) htook'.held
        (Kind.ne_dot_of_isWord hnext) hends hstart
    have hpeek : reader.round.cursor.peek? = some '.' := peek?_dot hr.round hh hd (before_round.2 h)
    refine ⟨[dot, next] :: segments, last, after, rfl,
      repeatUntil_next (nameSegment_word hpeek htake hword) ?_ hrun, hafter⟩
    rw [hstart.unread_eq, h.unread_eq]
    simp only [Link.spelled_cons, List.append_assoc, List.length_append,
      head_dot hd htook.spells, List.length_cons]
    omega

section
variable {between next : Reader} {head : Link} (hfirst : takeSignificant reader = .ok head between)
include hfirst

theorem takeName?_of_word {tail : List Link} (hw : head.kind.isWord reserved = true)
    (htail : nameTail reserved between = .ok tail after) :
    takeName? reserved reader = .ok (some ⟨head, tail⟩) after := by
  rw [takeName?, get_bind, bind_of_ok hfirst, if_pos hw]
  exact bind_eq_ok.2 ⟨tail, after, htail, rfl⟩

theorem takeName?_of_dot (hd : head.kind = .punct .dot)
    (hword : wordAfterDot? reserved between = .ok none after) :
    takeName? reserved reader = .ok (some ⟨head, []⟩) after := by
  rw [takeName?, get_bind, bind_of_ok hfirst, if_neg (by rw [hd]; simp [Kind.isWord]), if_pos hd]
  exact bind_eq_ok.2 ⟨none, after, hword, rfl⟩

theorem takeName?_of_dot_word {word : Link} {tail : List Link} (hd : head.kind = .punct .dot)
    (hword : wordAfterDot? reserved between = .ok (some word) next)
    (htail : nameTail reserved next = .ok tail after) :
    takeName? reserved reader = .ok (some ⟨head, word :: tail⟩) after := by
  rw [takeName?, get_bind, bind_of_ok hfirst, if_neg (by rw [hd]; simp [Kind.isWord]), if_pos hd]
  exact bind_eq_ok.2 ⟨some word, next, hword, bind_eq_ok.2 ⟨tail, after, htail, rfl⟩⟩

end

theorem takeName?_complete {name : DottedName} {xs : List Terminal} (hr : reader.Valid)
    (hs : name.Shaped reserved) (h : reader.Faces all rest (.name reserved name :: xs)) :
    ∃ after, takeName? reserved reader = .ok (some name) after ∧ after.Valid ∧
      after.Faces all rest xs := by
  obtain ⟨start, hskip, hvalid, hat, hf⟩ := skipTrivia_faces hr h
  obtain ⟨ahead, hstart, -, hends, hxs⟩ := hat.exists_before hf
  obtain ⟨head, tail⟩ := name
  rcases hs.shape with hshape | ⟨hw, hshape⟩
  · have hd : head.kind = .punct .dot := by cases hshape <;> assumption
    obtain ⟨between, htake, hv, -, hbetween⟩ := take_dot_complete hvalid hd hstart
    have hfirst : takeSignificant reader = .ok head between := bind_eq_ok.2 ⟨(), _, hskip, htake⟩
    cases hshape with
    | dot =>
      obtain ⟨link, behind, rfl, hlink, hp⟩ := (DottedName.ends_dot hd).1 hends
      obtain ⟨after, hword, hvalid, hafter⟩ := wordAfterDot?_none hv hlink hp hbetween
      exact ⟨after, takeName?_of_dot hfirst hd hword, hvalid, _, hafter, hxs⟩
    | @word _ word tail _ hw hshape =>
      obtain ⟨next, hword, htook', hnext⟩ := wordAfterDot?_word hv hw hbetween
      obtain ⟨after, htail, hvalid, hafter⟩ :=
        nameTail_complete (htook'.valid (Kind.ne_endOfInput_of_isWord hw)) htook'.held hshape
          (Kind.ne_dot_of_isWord hw) ((DottedName.ends_cons ..).1 hends) hnext
      exact ⟨after, takeName?_of_dot_word hfirst hd hword htail, hvalid, ahead, hafter, hxs⟩
  · obtain ⟨between, htake, hbetween⟩ := take_complete hvalid (Kind.plain_of_isWord hw) hstart
    obtain ⟨htook, -⟩ := take_sound hvalid htake
    obtain ⟨after, htail, hvalid, hafter⟩ :=
      nameTail_complete (htook.valid (Kind.ne_endOfInput_of_isWord hw)) htook.held hshape
        (Kind.ne_dot_of_isWord hw) hends hbetween
    exact ⟨after, takeName?_of_word (bind_eq_ok.2 ⟨(), _, hskip, htake⟩) hw htail, hvalid, ahead,
      hafter, hxs⟩

end Parse

end ThriftSyntax
