import ThriftSyntax.Proofs.Viability.Lexical

/-!
# Beginnings of phrases

A rule that refuses a token has read the beginning of a phrase before it. `start.Viable P result` says what
was read from `start` on, if a run has come to refuse a token: terminals that satisfy `P`. As with
soundness there is one rule for each way of composing actions and one theorem for each rule of the
grammar.
-/

namespace ThriftSyntax

variable {α β : Type}

/-! ## Refused tokens -/

/-- A word is of one piece. -/
theorem Lexeme.Spells.continues {kind : Kind} {raw : List Char} {reserved : Bool}
    (h : Spells kind raw) (hk : kind.isWord reserved = true) : ∀ c ∈ raw, continuesWord c = true := by
  cases h with
  | ident hc ht hn => exact List.forall_mem_cons.2 ⟨continuesWord_of_startsWord hc, ht⟩
  | keyword word =>
    obtain ⟨c, text, heq, hc, ht, -⟩ := exists_keyword word
    rw [heq]
    exact List.forall_mem_cons.2 ⟨continuesWord_of_startsWord hc, ht⟩
  | _ => cases hk

/-- No token but the end of the input is called so. -/
theorem Token.describe_ne {token : Token} (h : Lexeme.Spells token.kind token.raw.toList)
    (hk : token.kind ≠ .endOfInput) : token.describe ≠ "end of file" := by
  intro heq
  have hraw : token.raw = "end of file" := by
    unfold describe at heq
    split at heq
    · exact absurd ‹_› hk
    · exact heq
  rw [hraw] at h
  have hword := (h.opens rfl).word_iff.1 (show Lexeme.startsWord 'e' = true by decide)
  exact absurd (h.continues hword ' ' (by decide)) (by decide)

/-- Nor is a name called so, which has no blanks in it. -/
theorem DottedName.Shaped.text_ne {reserved : Bool} {name : DottedName} (h : name.Shaped reserved) :
    name.text ≠ "end of file" := by
  intro heq
  have hspelled : Link.spelled name.links = "end of file".toList := by
    rw [Link.spelled_eq, ← heq]
    rfl
  obtain ⟨link, hl, hblank⟩ := List.mem_flatMap.1
    (show ' ' ∈ Link.spelled name.links by rw [hspelled]; decide)
  have hspells := h.spells link hl
  rcases h.dot_or_word link hl with hk | hk
  · rw [Parse.head_dot hk hspells] at hblank
    exact absurd hblank (by decide)
  · exact absurd (hspells.continues hk ' ' hblank) (by decide)

/-- An error about a token calls it `found` and says where it stands. -/
structure Link.RefusedAs (link : Link) (found : String) (place : Location) : Prop where
  location : link.location = place
  ended : found = "end of file" → link.kind = .endOfInput

namespace Reader

variable {start reader between : Reader} {link : Link} {xs ws : List Terminal}
variable {P Q : List Terminal → Prop} {p : Parse α} {f : α → Parse β}

/-- The terminals `xs` are read, and the next token that is neither a blank nor a comment is `link`. -/
def ReadsTo (start : Reader) (xs : List Terminal) (link : Link) : Prop :=
  ∃ between after, start.Reads xs between ∧ between.Took link after ∧ link.kind.isTrivia = false

theorem ReadsTo.after (h : between.ReadsTo xs link) (hreads : start.Reads ws between) :
    start.ReadsTo (ws ++ xs) link := by
  obtain ⟨next, after, hxs, htook⟩ := h
  exact ⟨next, after, hreads.trans hxs, htook⟩

theorem ReadsTo.meets {P : Link → Prop} (h : start.ReadsTo xs link) (hP : start.Meets P) :
    ∀ x ∈ xs.head?, P x.head := by
  obtain ⟨between, after, hreads, -⟩ := h
  cases xs with
  | nil => simp
  | cons x xs =>
    rintro _ ⟨⟩
    exact hP.head hreads

theorem ReadsTo.refusedAs (h : start.ReadsTo xs link) :
    link.RefusedAs link.token.describe link.location := by
  obtain ⟨between, after, -, htook, -⟩ := h
  refine ⟨rfl, fun hfound => ?_⟩
  by_contra hk
  exact Token.describe_ne htook.spells hk hfound

/-- A token is refused, which the error calls `found` and places, and the terminals that were read before it
satisfy `P`. -/
def Refuses (start : Reader) (P : List Terminal → Prop) (found : String) (place : Location) : Prop :=
  ∃ xs link, start.ReadsTo xs link ∧ link.RefusedAs found place ∧ P xs

theorem Refuses.of_round {found : String} {place : Location} (h : start.round.Refuses P found place) :
    start.Refuses P found place := by
  obtain ⟨xs, link, ⟨between, after, hreads, htook⟩, hlink⟩ := h
  exact ⟨xs, link, ⟨between, after, hreads.of_round, htook⟩, hlink⟩

/-- If the run has refused a token, the terminals that were read before it satisfy `P`. -/
def Viable (start : Reader) (P : List Terminal → Prop) (result : EStateM.Result Error Reader α) : Prop :=
  ∀ ⦃found expected place after⦄, result = .error (.unexpectedToken found expected place) after →
    start.Refuses P found place

namespace Viable

open Parse

theorem lexical (hp : Lexical p) : start.Viable P (p reader) :=
  fun _ _ _ _ h => absurd trivial (hp h)

theorem bind (hp : start.Viable P (p reader))
    (hf : ∀ a between, p reader = .ok a between → start.Viable P (f a between)) :
    start.Viable P ((p >>= f) reader) := by
  intro found expected place after h
  rcases bind_eq_error.1 h with h | ⟨a, between, hrun, h⟩
  · exact hp h
  · exact hf a between hrun h

theorem map {g : α → β} (h : start.Viable P (p reader)) : start.Viable P ((g <$> p) reader) :=
  fun _ _ _ _ hrun => h (map_eq_error.1 hrun)

theorem mono {result : EStateM.Result Error Reader α} (h : start.Viable P result)
    (hP : ∀ xs, P xs → Q xs) : start.Viable Q result := by
  intro found expected place after hrun
  obtain ⟨xs, link, hreads, hlink, hxs⟩ := h hrun
  exact ⟨xs, link, hreads, hlink, hP xs hxs⟩

/-- What is read first satisfies what any next terminal does. -/
theorem meets {result : EStateM.Result Error Reader α} {M : Link → Prop} (h : start.Viable P result)
    (hM : start.Meets M) : start.Viable (fun xs => P xs ∧ ∀ x ∈ xs.head?, M x.head) result := by
  intro found expected place after hrun
  obtain ⟨xs, link, hreads, hlink, hxs⟩ := h hrun
  exact ⟨xs, link, hreads, hlink, hxs, hreads.meets hM⟩

/-- What is read from `between` on comes after what was read up to there. -/
theorem after {result : EStateM.Result Error Reader α} (h : between.Viable P result)
    (hreads : start.Reads ws between)
    (hP : ∀ xs, P xs → Q (ws ++ xs)) : start.Viable Q result := by
  intro found expected place last hrun
  obtain ⟨xs, link, hxs, hlink, h⟩ := h hrun
  exact ⟨ws ++ xs, link, hxs.after hreads, hlink, hP xs h⟩

/-- The token that comes next is refused. -/
theorem refused {expected : Expectation} (h : start.ReadsTo xs link) (hP : P xs) :
    start.Viable P ((throw (.unexpected link expected) : Parse α) reader) := by
  rintro _ _ _ _ ⟨⟩
  exact ⟨xs, link, h, h.refusedAs, hP⟩

/-- The body of a recursion may use the whole recursion for what lies within. -/
theorem nested {body : Parse α → Parse α}
    (hbody : ∀ {inner : Parse α},
      (∀ {reader a after}, inner reader = .ok a after → Parse.nested body reader = .ok a after) →
      (∀ {reader : Reader}, reader.Valid → reader.Viable P (inner reader)) →
      ∀ {reader : Reader}, reader.Valid → reader.Viable P (body inner reader))
    (hr : reader.Valid) : reader.Viable P (Parse.nested body reader) := by
  intro found expected place after h
  refine nested_error_induction (motive := fun reader error _ => reader.Valid →
    ∀ {found expected place}, error = .unexpectedToken found expected place →
      reader.Refuses P found place)
    (fun h hr _ _ _ heq => (h hr.round heq).of_round) (fun hok herror _ hrun hr _ _ _ heq => ?_)
    (by simp) h hr rfl
  subst heq
  exact hbody hok (fun hr _ _ _ _ hrun => herror (by simp) hrun hr rfl) hr hrun

/-- What a round of a repetition reads comes before what the rounds after it read. -/
theorem repeatUntil {step : Parse (α ⊕ β)}
    (hstep : ∀ {reader : Reader}, reader.Valid → reader.Viable P (step reader))
    (hnext : ∀ {reader a between}, reader.Valid → step reader = .ok (.inl a) between →
      ∃ ws M, reader.Reads ws between ∧ between.Meets M ∧
        ∀ xs, P xs → (∀ x ∈ xs.head?, M x.head) → P (ws ++ xs))
    (hr : reader.Valid) : reader.Viable P (Parse.repeatUntil step reader) := by
  intro found expected place after h
  refine repeatUntil_error_induction (motive := fun reader error _ => reader.Valid →
    ∀ {found expected place}, error = .unexpectedToken found expected place →
      reader.Refuses P found place)
    (fun h hr _ _ _ heq => (h hr.round heq).of_round) (fun hs hr _ _ _ heq => ?_)
    (fun hs ih hr _ _ _ heq => ?_) h (by simp) hr rfl
  · subst heq
    exact hstep hr hs
  · subst heq
    obtain ⟨ws, M, hreads, hmeets, hP⟩ := hnext hr hs
    obtain ⟨xs, link, hxs, hlink, h⟩ := ih hreads.valid rfl
    exact ⟨ws ++ xs, link, hxs.after hreads, hlink, hP xs h (hxs.meets hmeets)⟩

end Viable

end Reader

namespace Parse

open Reader

variable {reader after : Reader} {link : Link}

theorem takeSignificant_readsTo (hr : reader.Valid) (h : takeSignificant reader = .ok link after) :
    reader.ReadsTo [] link := by
  obtain ⟨between, hreads, htook, -, hk⟩ := takeSignificant_sound hr h
  exact ⟨between, after, hreads, htook, hk⟩

/-- What begins no name is put back. -/
theorem takeName?_none {reserved : Bool} (hr : reader.Valid)
    (h : takeName? reserved reader = .ok none after) : reader.Reads [] after := by
  cases takeName?_finds h with
  | none hfirst _ _ hback =>
    obtain ⟨start, hreads, htook, hp, -⟩ := takeSignificant_sound hr hfirst
    rw [restore_of_took htook] at hback
    cases hback
    exact hreads.trans (htook.reads_hold hp)

theorem takeName?_readsTo {reserved : Bool} (hr : reader.Valid) {words : DottedName}
    (h : takeName? reserved reader = .ok (some words) after) : reader.ReadsTo [] words.head := by
  cases takeName?_finds h with
  | word hfirst | dot hfirst | dotWord hfirst => exact takeSignificant_readsTo hr hfirst

theorem takeString?_none (hr : reader.Valid) (h : takeString? reader = .ok none after) :
    reader.Reads [] after := by
  obtain ⟨between, hskip, hhere⟩ := takeString?_eq_ok.1 h
  have hfinds := stringHere_finds between
  rw [hhere] at hfinds
  cases hfinds
  exact (skipTrivia_reads hr hskip).1

/-- A token that is no number is read without a sign. -/
theorem takeNumber_readsTo (hr : reader.Valid) (h : takeNumber reader = .ok link after)
    (hk : link.kind ≠ .number) : reader.ReadsTo [] link := by
  obtain ⟨between, hskip, hhere⟩ := takeNumber_eq_ok.1 h
  have hfinds := numberHere_finds between
  generalize hresult : numberHere between = result at hfinds
  cases hfinds with
  | plain =>
    exact takeSignificant_readsTo hr (bind_eq_ok.2 ⟨(), between, hskip, hresult.symm.trans hhere⟩)
  | signed =>
    cases hresult.symm.trans hhere
    exact absurd rfl hk

end Parse

namespace Grammar

open Parse Reader Phrase

variable {start reader : Reader} {P : List Terminal → Prop}

/-! ## The smallest rules -/

/-- A rule for a single terminal has read nothing before the token that it refuses. -/
def Single (p : Parse α) : Prop :=
  ∀ ⦃reader : Reader⦄, reader.Valid → reader.Viable (· = []) (p reader)

/-- A rule for a single terminal is run after the terminals `ws`. -/
theorem Single.viable {p : Parse α} {between : Reader} {ws : List Terminal} (h : Single p)
    (hreads : start.Reads ws between) (hP : P ws) : start.Viable P (p between) := by
  refine (h hreads.valid).after hreads ?_
  rintro _ rfl
  rwa [List.append_nil]

theorem unexpected_viable (expected : Expectation) : Single (unexpected expected : Parse α) := by
  intro reader hr
  refine .bind (.lexical lexical_takeSignificant) fun link between h => ?_
  exact .refused (takeSignificant_readsTo hr h) rfl

theorem mark_viable (mark : Punct) : Single (Grammar.mark mark) := by
  intro reader hr
  refine .bind (.lexical lexical_takeSignificant) fun link between h => ?_
  split
  · exact .lexical (lexical_pure link)
  · exact .refused (takeSignificant_readsTo hr h) rfl

theorem name_viable (reserved : Bool) : Single (name reserved) := by
  intro reader hr
  refine .bind (.lexical (lexical_takeName? reserved)) fun words between h => ?_
  cases words with
  | some words => exact .lexical (lexical_pure words)
  | none =>
    have hreads := takeName?_none hr h
    exact (unexpected_viable .identifier).viable hreads rfl

theorem name_readsTo {reserved : Bool} {words : DottedName} {after : Reader} (hr : reader.Valid)
    (h : name reserved reader = .ok words after) : reader.ReadsTo [] words.head := by
  obtain ⟨found, between, hname, h⟩ := bind_eq_ok.1 h
  cases found with
  | none => exact absurd h not_unexpected
  | some words =>
    obtain ⟨rfl, rfl⟩ := pure_eq_ok.1 h
    exact takeName?_readsTo hr hname

theorem string_viable : Single string := by
  intro reader hr
  refine .bind (.lexical lexical_takeString?) fun found between h => ?_
  cases found with
  | some link => exact .lexical (lexical_pure link)
  | none =>
    have hreads := takeString?_none hr h
    exact (unexpected_viable .string).viable hreads rfl

theorem integer_viable : Single integer := by
  intro reader hr
  refine .bind (.lexical lexical_takeNumber) fun link between h => ?_
  split
  · cases Numeral.integer? link.raw with
    | some value => exact .lexical (lexical_pure _)
    | none => rintro _ _ _ _ ⟨⟩
  · exact .refused (takeNumber_readsTo hr h ‹_›) rfl

/-! ## Items up to a closing mark -/

/-- The terminals are the beginning of a phrase. -/
def Begins (terminals : β → List Terminal) (xs : List Terminal) : Prop :=
  ∃ phrase, xs <+: terminals phrase

/-- The terminals are the beginning of a run of phrases, each followed by what it may be followed by. -/
def BeginsRun (terminals : β → List Terminal) (Stops : β → Link → Prop) (xs : List Terminal) : Prop :=
  ∃ phrases : List β, xs <+: phrases.flatMap terminals ∧ (xs = [] → phrases = []) ∧
    phrases.IsChain fun p q => ∀ x ∈ (terminals q).head?, Stops p x.head

variable {terminals : β → List Terminal} {Stops : β → Link → Prop} {xs ys : List Terminal}

theorem Begins.run (h : Begins terminals xs) : BeginsRun terminals Stops xs := by
  obtain ⟨phrase, h⟩ := h
  cases xs with
  | nil => exact ⟨[], List.nil_prefix, fun _ => rfl, .nil⟩
  | cons x xs => exact ⟨[phrase], by simpa using h, by simp, .singleton phrase⟩

theorem BeginsRun.next {phrase : β} (hne : ∀ phrase, terminals phrase ≠ [])
    (h : BeginsRun terminals Stops xs) (hstops : ∀ x ∈ xs.head?, Stops phrase x.head) :
    BeginsRun terminals Stops (terminals phrase ++ xs) := by
  obtain ⟨phrases, hprefix, hnil, hchain⟩ := h
  refine ⟨phrase :: phrases, ?_, fun h => absurd (List.append_eq_nil_iff.1 h).1 (hne phrase), ?_⟩
  · rw [List.flatMap_cons]
    exact (List.prefix_append_right_inj _).2 hprefix
  · cases phrases with
    | nil => exact .singleton phrase
    | cons next phrases =>
      refine .cons_cons (fun x hx => hstops x ?_) hchain
      obtain ⟨y, ys, rfl⟩ : ∃ y ys, xs = y :: ys := List.exists_cons_of_ne_nil (by simpa using hnil)
      rw [List.flatMap_cons, ← List.cons_head?_tail hx, List.cons_append] at hprefix
      rw [(List.cons_prefix_cons.1 hprefix).1]
      rfl

/-- Where an item is refused, it comes after whole items. -/
theorem itemsUntil_viable (Stops : β → Link → Prop) {item : Parse α} {close : Punct}
    (hclose : Lexeme.IsLone close)
    (hne : ∀ phrase, terminals phrase ≠ [])
    (hsound : ∀ {reader a after}, reader.Valid → item reader = .ok a after →
      ∃ phrase, reader.Reads (terminals phrase) after ∧ after.Meets (Stops phrase))
    (hitem : ∀ {reader : Reader}, reader.Valid → reader.Viable (Begins terminals) (item reader))
    (hr : reader.Valid) :
    reader.Viable (BeginsRun terminals Stops) (itemsUntil close item reader) := by
  refine .repeatUntil (fun hr => ?_) (fun hr h => ?_) hr
  · refine .bind (.lexical (lexical_mark? close)) fun mark next hmark => ?_
    rcases mark?_sound hclose hr hmark with ⟨rfl, hstart, -⟩ | ⟨leaf, rfl, -⟩
    · exact .map ((hitem hstart.valid).after hstart fun _ => Begins.run)
    · exact .lexical (lexical_pure _)
  · obtain ⟨mark, next, hmark, h⟩ := bind_eq_ok.1 h
    rcases mark?_sound hclose hr hmark with ⟨rfl, hstart, -⟩ | ⟨leaf, rfl, -⟩
    · obtain ⟨a, h, heq⟩ := map_eq_ok.1 h
      cases heq
      obtain ⟨phrase, hreads, hmeets⟩ := hsound hstart.valid h
      exact ⟨_, _, hstart.trans hreads, hmeets, fun xs hxs hhead => hxs.next hne hhead⟩
    · simp [pure_eq_ok] at h

end Grammar

end ThriftSyntax
