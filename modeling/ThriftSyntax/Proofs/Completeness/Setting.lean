import Mathlib.Data.List.Forall2
import ThriftSyntax.Proofs.Derivation.Reads
import ThriftSyntax.Proofs.Reader.Name

/-!
# Accepting terminals

`Accepts s p xs ys P`: wherever the terminals `xs` come next, or others that are alike, the action
`p` succeeds with a result that satisfies `P`, and `ys` come next. The rules of this module follow
the ways of composing actions, so that the proof for a rule of the grammar follows the rule.

That no action stalls is not for the terminals to say, but for the runs of a call: it depends on the
tokens read before. So what is stated here is that a run succeeds unless it stalls.
-/

namespace ThriftSyntax

/-- The text that is read, and two numberings: `old` for the tokens of a phrase and `new` for those of
the text. -/
structure Setting where
  all : List Link
  rest : List Char
  old : Nat → Nat
  new : Nat → Nat

variable {s : Setting}

/-- `found` is the same token as `link`, except for where it stands. -/
structure Link.Alike (s : Setting) (link found : Link) : Prop where
  kind : found.kind = link.kind
  raw : found.raw = link.raw
  id : s.new found.id = s.old link.id

/-- What is said of kinds and texts holds of tokens that are alike. -/
theorem forall_of_alike {P : Kind → String → Prop} {xs ys : List Link}
    (h : List.Forall₂ (Link.Alike s) xs ys) (hx : ∀ link ∈ xs, P link.kind link.raw) :
    ∀ link ∈ ys, P link.kind link.raw := by
  induction h with
  | nil => simp
  | cons h _ ih =>
    obtain ⟨hlink, hx⟩ := List.forall_mem_cons.1 hx
    refine List.forall_mem_cons.2 ⟨?_, ih hx⟩
    rw [h.kind, h.raw]
    exact hlink

namespace DottedName

structure Alike (s : Setting) (name found : DottedName) : Prop where
  head : name.head.Alike s found.head
  tail : List.Forall₂ (Link.Alike s) name.tail found.tail

variable {name found : DottedName}

theorem Alike.links (h : name.Alike s found) :
    List.Forall₂ (Link.Alike s) name.links found.links := .cons h.head h.tail

theorem Alike.text (h : name.Alike s found) : found.text = name.text := by
  have hraw : ∀ {xs ys}, List.Forall₂ (Link.Alike s) xs ys →
      (ys.map Link.token).map Token.raw = (xs.map Link.token).map Token.raw := by
    intro xs ys h
    induction h with
    | nil => rfl
    | cons h _ ih => rw [List.map_cons, List.map_cons, List.map_cons, List.map_cons, ih,
        show Token.raw _ = _ from h.raw]; rfl
  rw [DottedName.text, TokenChain.spell, hraw h.links]
  rfl

theorem Alike.last (h : name.Alike s found) : name.last.Alike s found.last := by
  obtain ⟨head, tail⟩ := name
  obtain ⟨head', tail'⟩ := found
  obtain ⟨hhead, htail⟩ := h
  dsimp only at hhead htail
  induction htail generalizing head head' with
  | nil => exact hhead
  | cons hnext _ ih =>
    rw [last_cons, last_cons]
    exact ih _ _ hnext

theorem Tail.of_alike {reserved : Bool} {tail tail' : List Link}
    (h : List.Forall₂ (Link.Alike s) tail tail') (ht : Tail reserved tail) :
    Tail reserved tail' := by
  induction ht generalizing tail' with
  | nil =>
    cases h
    exact .nil
  | dot hd =>
    obtain ⟨_, _, hdot, hnil, rfl⟩ := List.forall₂_cons_left_iff.1 h
    cases hnil
    exact .dot (hdot.kind.trans hd)
  | word hd hw ht ih =>
    obtain ⟨_, _, hdot, hrest, rfl⟩ := List.forall₂_cons_left_iff.1 h
    obtain ⟨_, _, hword, hnext, rfl⟩ := List.forall₂_cons_left_iff.1 hrest
    exact .word (hdot.kind.trans hd) (hword.kind ▸ hw) (ih hnext)

theorem Shaped.of_alike {reserved : Bool} (h : name.Alike s found) (hs : name.Shaped reserved) :
    found.Shaped reserved where
  shape := by
    rcases hs.shape with ht | ⟨hw, ht⟩
    · exact .inl (ht.of_alike h.links)
    · exact .inr ⟨h.head.kind ▸ hw, ht.of_alike h.tail⟩
  spells := forall_of_alike (P := fun kind raw => Lexeme.Spells kind raw.toList) h.links hs.spells

end DottedName

inductive Terminal.Alike (s : Setting) : Terminal → Terminal → Prop where
  | token {link found : Link} (h : link.Alike s found) : Alike s (.token link) (.token found)
  | name {reserved : Bool} {name found : DottedName} (h : name.Alike s found) :
      Alike s (.name reserved name) (.name reserved found)

theorem Terminal.Alike.head {x found : Terminal} (h : x.Alike s found) :
    x.head.Alike s found.head := by
  cases h with
  | token h => exact h
  | name h => exact h.head

theorem Terminal.length_links_of_alike {xs found : List Terminal}
    (h : List.Forall₂ (Terminal.Alike s) xs found) :
    (xs.flatMap Terminal.links).length = (found.flatMap Terminal.links).length := by
  induction h with
  | nil => rfl
  | cons h _ ih =>
    rw [List.flatMap_cons, List.flatMap_cons, List.length_append, List.length_append, ih]
    cases h with
    | token h => rfl
    | name h => rw [links_name, links_name, h.links.length_eq]

/-- The reader stands before terminals like `xs`. -/
structure Reader.Awaits (s : Setting) (reader : Reader) (xs : List Terminal) : Prop where
  valid : reader.Valid
  faces : ∃ found, List.Forall₂ (Terminal.Alike s) xs found ∧ reader.Faces s.all s.rest found

theorem Reader.Awaits.round {reader : Reader} {xs : List Terminal} (h : reader.Awaits s xs) :
    reader.round.Awaits s xs :=
  ⟨h.valid.round, h.faces⟩

/-- The next terminal is spelled as its kind says. -/
theorem Reader.Awaits.spells {reader : Reader} {x : Terminal} {xs : List Terminal}
    (h : reader.Awaits s (x :: xs)) : Lexeme.Spells x.head.kind x.head.raw.toList := by
  obtain ⟨found, halike, hf⟩ := h.faces
  obtain ⟨y, _, hy, -, rfl⟩ := List.forall₂_cons_left_iff.1 halike
  have hspells := hf.spells h.valid
  rwa [hy.head.kind, hy.head.raw] at hspells

namespace Parse

open Reader

variable {α β : Type} {p : Parse α} {xs ys zs : List Terminal} {P : α → Prop} {Q : β → Prop}

/-! ## Runs that may stall -/

/-- A run has succeeded in a way that satisfies `Post`, or has stalled. -/
inductive Attains (Post : α → Reader → Prop) : Result α → Prop where
  | ok {a : α} {after : Reader} (h : Post a after) : Attains Post (.ok a after)
  | stalled {after : Reader} : Attains Post (.error .stalled after)

namespace Attains

variable {reader after : Reader} {Post : α → Reader → Prop} {Post' : β → Reader → Prop}

theorem exists_ok {x : Result α} (h : Attains Post x) (hx : ∀ after, x ≠ .error .stalled after) :
    ∃ a after, x = .ok a after ∧ Post a after := by
  cases h with
  | ok h => exact ⟨_, _, rfl, h⟩
  | stalled => exact absurd rfl (hx _)

theorem of_eq_ok {a : α} (hrun : p reader = .ok a after) (h : Post a after) :
    Attains Post (p reader) := by
  rw [hrun]
  exact .ok h

theorem of_eq_stalled (hrun : p reader = .error .stalled after) : Attains Post (p reader) := by
  rw [hrun]
  exact .stalled

theorem cases_run (h : Attains Post (p reader)) :
    (∃ a after, p reader = .ok a after ∧ Post a after) ∨
      ∃ after, p reader = .error .stalled after := by
  cases hrun : p reader with
  | ok a after =>
    cases hrun ▸ h with
    | ok h => exact .inl ⟨a, after, rfl, h⟩
  | error error after =>
    cases hrun ▸ h with
    | stalled => exact .inr ⟨after, rfl⟩

theorem bind {f : α → Parse β} (h : Attains Post (p reader))
    (hf : ∀ {a between}, p reader = .ok a between → Post a between → Attains Post' (f a between)) :
    Attains Post' ((p >>= f) reader) := by
  obtain ⟨a, between, hrun, ha⟩ | ⟨between, hrun⟩ := h.cases_run
  · rw [bind_of_ok hrun]
    exact hf hrun ha
  · exact .of_eq_stalled (bind_eq_error.2 (.inl hrun))

theorem map {f : α → β} (h : Attains Post (p reader))
    (hf : ∀ {a after}, Post a after → Post' (f a) after) : Attains Post' ((f <$> p) reader) := by
  obtain ⟨a, after, hrun, ha⟩ | ⟨after, hrun⟩ := h.cases_run
  · exact .of_eq_ok (map_eq_ok.2 ⟨a, hrun, rfl⟩) (hf ha)
  · exact .of_eq_stalled (map_eq_error.2 hrun)

theorem mono {x : Result α} {Post' : α → Reader → Prop} (h : Attains Post x)
    (hpost : ∀ {a after}, Post a after → Post' a after) : Attains Post' x := by
  cases h with
  | ok h => exact .ok (hpost h)
  | stalled => exact .stalled

/-- A round of a repetition, and the rounds after it. -/
theorem of_repeatUntil_next {step : Parse (α ⊕ β)} {a : α} {Post Post' : List α × β → Reader → Prop}
    (hrun : step reader.round = .ok (.inl a) after) (hlt : after.unread < reader.unread)
    (h : Attains Post (repeatUntil step after))
    (hpost : ∀ {result after}, Post result after → Post' (a :: result.1, result.2) after) :
    Attains Post' (repeatUntil step reader) := by
  obtain ⟨result, after, hrest, hresult⟩ | ⟨after, hrest⟩ := h.cases_run
  · exact .of_eq_ok (repeatUntil_next hrun hlt hrest) (hpost hresult)
  · exact .of_eq_stalled (repeatUntil_next_fails hrun hlt hrest)

/-- What comes after a run may fail. -/
theorem bind_fails {f : α → Parse β} (h : Attains Post (p reader))
    (hf : ∀ {a between}, Post a between → ∃ error after, f a between = .error error after) :
    ∃ error after, (p >>= f) reader = .error error after := by
  obtain ⟨a, between, hrun, ha⟩ | ⟨between, hrun⟩ := h.cases_run
  · rw [bind_of_ok hrun]
    exact hf ha
  · exact ⟨_, between, bind_eq_error.2 (.inl hrun)⟩

end Attains

/-- Wherever `xs` come next, `p` succeeds, and then `ys` come next. -/
def Accepts (s : Setting) (p : Parse α) (xs ys : List Terminal) (P : α → Prop) : Prop :=
  ∀ reader, reader.Awaits s xs → Attains (fun a after => P a ∧ after.Awaits s ys) (p reader)

namespace Accepts

theorem pure {a : α} (h : P a) : Accepts s (pure a) xs xs P :=
  fun _ hr => .ok ⟨h, hr⟩

theorem bind {f : α → Parse β} (hp : Accepts s p xs ys P)
    (hf : ∀ a, P a → Accepts s (f a) ys zs Q) : Accepts s (p >>= f) xs zs Q :=
  fun reader hr => (hp reader hr).bind fun _ ⟨ha, hbetween⟩ => hf _ ha _ hbetween

theorem map {f : α → β} (hp : Accepts s p xs ys P) (hf : ∀ a, P a → Q (f a)) :
    Accepts s (f <$> p) xs ys Q :=
  fun reader hr => (hp reader hr).map (.imp_left (hf _))

theorem mono {P' : α → Prop} (hp : Accepts s p xs ys P) (h : ∀ a, P a → P' a) :
    Accepts s p xs ys P' :=
  fun reader hr => (hp reader hr).mono (.imp_left (h _))

/-- An action that leaves the reader as it is, and may stall. -/
theorem of_still {a : α} (h : ∀ reader, p reader = .ok a reader ∨ p reader = .error .stalled reader)
    (ha : P a) : Accepts s p xs xs P :=
  fun reader hr => (h reader).elim (.of_eq_ok · ⟨ha, hr⟩) .of_eq_stalled

end Accepts

/-- Where a terminal with a text lies between two positions, less is unread at the second. -/
theorem unread_lt {reader after : Reader} {x : Terminal} (h : reader.Awaits s (x :: (xs ++ ys)))
    (h' : after.Awaits s ys) (hx : x.head.raw ≠ "") : after.unread < reader.unread := by
  obtain ⟨found, halike, hf⟩ := h.faces
  obtain ⟨found', halike', hf'⟩ := h'.faces
  obtain ⟨_, _, hhead, htail, rfl⟩ := List.forall₂_cons_left_iff.1 halike
  refine hf.unread_lt hf' ?_ ?_
  · rw [← Terminal.length_links_of_alike halike', ← Terminal.length_links_of_alike htail,
      List.flatMap_append, List.length_append]
    omega
  · rw [hhead.head.raw]
    exact fun hnil => hx (String.toList_inj.1 hnil)

/-! ## Recursions -/

/-- A repetition that ends at once. -/
theorem Accepts.last {step : Parse (α ⊕ β)}
    (h : Accepts s step xs ys fun result => ∃ b, result = .inr b ∧ Q b) :
    Accepts s (repeatUntil step) xs ys fun result => result.1 = [] ∧ Q result.2 := by
  intro reader hr
  obtain ⟨_, after, hrun, ⟨b, rfl, hb⟩, hafter⟩ | ⟨after, hrun⟩ := (h reader.round hr.round).cases_run
  · exact .of_eq_ok (repeatUntil_last hrun) ⟨⟨rfl, hb⟩, hafter⟩
  · exact .of_eq_stalled (repeatUntil_fails hrun)

/-- A round of a repetition that reads something, and the rounds after it. -/
theorem Accepts.next {step : Parse (α ⊕ β)} {x : Terminal} {R : List α → Prop}
    (hx : x.head.raw ≠ "")
    (h : Accepts s step (x :: (xs ++ ys)) ys fun result => ∃ a, result = .inl a ∧ P a)
    (hrest : Accepts s (repeatUntil step) ys zs fun result => R result.1 ∧ Q result.2) :
    Accepts s (repeatUntil step) (x :: (xs ++ ys)) zs fun result =>
      (∃ a items, result.1 = a :: items ∧ P a ∧ R items) ∧ Q result.2 := by
  intro reader hr
  obtain ⟨_, between, hrun, ⟨a, rfl, ha⟩, hbetween⟩ | ⟨after, hrun⟩ :=
    (h reader.round hr.round).cases_run
  · exact .of_repeatUntil_next hrun (unread_lt hr hbetween hx) (hrest between hbetween)
      fun ⟨⟨hitems, hb⟩, hafter⟩ => ⟨⟨⟨a, _, rfl, ha, hitems⟩, hb⟩, hafter⟩
  · exact .of_eq_stalled (repeatUntil_fails hrun)

/-- The terminals `ys` come after some of `xs`, the first of which has a text. -/
def Within (xs ys : List Terminal) : Prop :=
  ∃ x tail, xs = x :: tail ∧ ys <:+ tail ∧ x.head.raw ≠ ""

/-- An inner part of a recursion accepts what the whole recursion does. -/
theorem Accepts.below {reader : Reader} (hr : reader.Awaits s xs) (hwithin : Within xs ys)
    (h : Accepts s p ys zs P) : Accepts s (below reader.unread p) ys zs P := by
  intro inside hi
  obtain ⟨x, _, rfl, ⟨front, rfl⟩, hx⟩ := hwithin
  rw [Parse.below, if_pos (unread_lt hr hi hx)]
  exact h inside hi

/-- The body of a recursion may use the whole recursion for what lies within. -/
theorem Accepts.nested {body : Parse α → Parse α}
    (h : ∀ inner : Parse α, (∀ {zs zs' P'}, Within xs zs →
      Accepts s (nested body) zs zs' P' → Accepts s inner zs zs' P') →
      Accepts s (body inner) xs ys P) : Accepts s (nested body) xs ys P := by
  intro reader hr
  rw [nested_apply]
  exact h _ (.below hr) reader.round hr.round

end Parse

end ThriftSyntax
