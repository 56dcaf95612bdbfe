import ThriftSyntax.Proofs.Completeness.Definition
import ThriftSyntax.Proofs.Soundness.Field

/-!
# Refusing terminals

`Refuses s p xs`: wherever the terminals `xs` come next, or others that are alike, the action `p` fails.
An action refuses what its first part refuses, and what is refused after the terminals that its first part
accepts. Where a rule succeeds it has read a phrase, so it refuses what begins with no such phrase.
-/

namespace ThriftSyntax

open Parse Reader

variable {s : Setting} {α β : Type} {P : α → Prop} {p : Parse α} {f : α → Parse β}
variable {x : Terminal} {xs ys : List Terminal}

/-! ## What comes next is known by its first character -/

/-- Whatever is read next begins like the terminal that is awaited. -/
theorem Reader.Awaits.head?_eq {reader after : Reader} {z : Terminal} {zs : List Terminal}
    (h : reader.Awaits s (x :: xs)) (hr : reader.Reads (z :: zs) after) :
    z.head.raw.toList.head? = x.head.raw.toList.head? := by
  obtain ⟨found, halike, hf⟩ := h.faces
  obtain ⟨y, _, hy, -, rfl⟩ := List.forall₂_cons_left_iff.1 halike
  obtain ⟨ys, hys⟩ := hr.valid.faces_self
  obtain ⟨_, hpeek, -⟩ := peekSignificant_faces h.valid hf
  obtain ⟨_, hpeek', -⟩ := peekSignificant_faces h.valid (hr.faces _ _ _ hys)
  rw [hpeek, hy.head.raw] at hpeek'
  injection hpeek' with hhead
  exact hhead.symm

namespace Lexeme

variable {kind kind' : Kind} {raw raw' : List Char}

theorem Spells.eq_punct_of_head? {mark : Punct} (h : Spells kind raw) (h' : Spells (.punct mark) raw')
    (hm : IsLone mark) (hraw : raw'.head? = raw.head?) : kind = .punct mark := by
  cases h'
  exact (h.opens hraw.symm).eq_punct hm

theorem Spells.startsName_of_head? (h : Spells kind raw) (h' : Spells kind' raw') (hk : kind'.StartsName)
    (hraw : raw'.head? = raw.head?) : kind.StartsName := by
  rcases hk with rfl | hw
  · exact .inl (h.eq_punct_of_head? h' (by decide) hraw)
  · obtain ⟨c, hc, ho⟩ := h'.exists_opens (Kind.ne_endOfInput_of_isWord hw)
    exact .inr ((h.opens (hraw ▸ hc)).word_iff.1 (ho.word_iff.2 hw))

theorem Spells.not_startsName_of_head? (h : Spells kind raw) (h' : Spells .number raw')
    (hraw : raw'.head? = raw.head?) : ¬ kind.StartsName := by
  obtain ⟨c, hc, ho⟩ := h'.exists_opens (by simp)
  have hkind := (h.opens (hraw ▸ hc)).number_iff.1 (ho.number_iff.2 (.inl rfl))
  rintro (hdot | hw)
  · rw [hdot] at hkind
    rcases hkind with hkind | hkind <;> cases hkind
  · rcases hkind with hkind | hkind <;> (rw [hkind] at hw; cases hw)

end Lexeme

/-- If a name may begin with what is read, one may begin with what is awaited. -/
theorem Reader.Awaits.startsName {reader after : Reader} {z : Terminal} {zs : List Terminal}
    (h : reader.Awaits s (x :: xs)) (hr : reader.Reads (z :: zs) after) (hz : z.head.kind.StartsName) :
    x.head.kind.StartsName := by
  obtain ⟨ys, hys⟩ := hr.valid.faces_self
  exact h.spells.startsName_of_head? ((hr.faces _ _ _ hys).spells h.valid) hz (h.head?_eq hr)

namespace Parse

/-- Wherever `xs` come next, `p` fails. -/
def Refuses (s : Setting) (p : Parse α) (xs : List Terminal) : Prop :=
  ∀ reader, reader.Awaits s xs → ∃ error after, p reader = .error error after

namespace Refuses

theorem bind (h : Refuses s p xs) : Refuses s (p >>= f) xs := by
  intro reader hr
  obtain ⟨error, after, hrun⟩ := h reader hr
  exact ⟨error, after, bind_eq_error.2 (.inl hrun)⟩

theorem map {f : α → β} (h : Refuses s p xs) : Refuses s (f <$> p) xs := by
  intro reader hr
  obtain ⟨error, after, hrun⟩ := h reader hr
  exact ⟨error, after, map_eq_error.2 hrun⟩

/-- An action refuses what it could not have read from there. -/
theorem of_success (h : ∀ {reader after : Reader} {a : α}, reader.Awaits s xs → p reader ≠ .ok a after) :
    Refuses s p xs := by
  intro reader hr
  cases hrun : p reader with
  | ok a after => exact absurd hrun (h hr)
  | error error after => exact ⟨error, after, rfl⟩

end Refuses

theorem Accepts.refuses (hp : Accepts s p xs ys P) (hf : ∀ a, P a → Refuses s (f a) ys) :
    Refuses s (p >>= f) xs :=
  fun reader hr => (hp reader hr).bind_fails fun ⟨ha, hbetween⟩ => hf _ ha _ hbetween

theorem Refuses.repeatUntil {step : Parse (α ⊕ β)} (h : Refuses s step xs) :
    Refuses s (repeatUntil step) xs := by
  intro reader hr
  obtain ⟨error, after, hrun⟩ := h reader.round hr.round
  exact ⟨error, after, repeatUntil_fails hrun⟩

/-- A later round may fail too. -/
theorem Accepts.repeatUntil_refuses {step : Parse (α ⊕ β)} (hx : x.head.raw ≠ "")
    (h : Accepts s step (x :: (xs ++ ys)) ys fun result => ∃ a, result = .inl a)
    (hrest : Refuses s (Parse.repeatUntil step) ys) :
    Refuses s (Parse.repeatUntil step) (x :: (xs ++ ys)) := by
  intro reader hr
  obtain ⟨_, between, hrun, ⟨a, rfl⟩, hbetween⟩ | ⟨after, hrun⟩ := (h reader.round hr.round).cases_run
  · obtain ⟨error, after, hfails⟩ := hrest between hbetween
    exact ⟨error, after, repeatUntil_next_fails hrun (unread_lt hr hbetween hx) hfails⟩
  · exact ⟨_, after, repeatUntil_fails hrun⟩

/-- The body of a recursion may refuse what it reads after an inner part. -/
theorem Refuses.nested {body : Parse α → Parse α}
    (h : ∀ inner : Parse α, (∀ {zs zs' P'}, Within xs zs →
      Accepts s (Parse.nested body) zs zs' P' → Accepts s inner zs zs' P') → Refuses s (body inner) xs) :
    Refuses s (Parse.nested body) xs := by
  intro reader hr
  rw [nested_apply]
  exact h _ (.below hr) reader.round hr.round

/-- The same as `Refuses`, for a reader that has taken the first token of `x`. -/
def RefusesPast (s : Setting) (x : Terminal) (found : Link) (p : Parse α) (xs : List Terminal) : Prop :=
  ∀ reader, Passed s x xs found reader → ∃ error after, p reader = .error error after

namespace RefusesPast

variable {found : Link}

theorem bind (h : RefusesPast s x found p xs) : RefusesPast s x found (p >>= f) xs := by
  intro reader hr
  obtain ⟨error, after, hrun⟩ := h reader hr
  exact ⟨error, after, bind_eq_error.2 (.inl hrun)⟩

/-- A token that was put back comes next again. -/
theorem putBack (h : Refuses s p (x :: xs)) : RefusesPast s x found (do putBackLast found; p) xs := by
  intro reader hr
  rw [bind_of_ok (putBackLast_eq hr.held hr.last)]
  exact h _ hr.hold

end RefusesPast

end Parse

namespace Grammar

open Phrase

theorem AcceptsPast.refuses {found : Link} (hp : AcceptsPast s x found p xs ys P)
    (hf : ∀ a, P a → Refuses s (f a) ys) : RefusesPast s x found (p >>= f) xs :=
  fun reader hr => (hp reader hr).bind_fails fun ⟨ha, hbetween⟩ => hf _ ha _ hbetween

theorem refuses_first {f : Link → Parse β} (hk : x.head.kind.StartsName)
    (h : ∀ found, x.head.Alike s found → RefusesPast s x found (f found) xs) :
    Refuses s (takeSignificant >>= f) (x :: xs) := by
  intro reader hr
  obtain ⟨found, between, htake, hpassed⟩ := takeSignificant_passed hr hk.plain hk.ne_endOfInput
  obtain ⟨error, after, hrun⟩ := h found hpassed.alike between hpassed
  exact ⟨error, after, bind_eq_error.2 (.inr ⟨found, between, htake, hrun⟩)⟩

/-! ## The smallest rules -/

theorem mark_refuses {mark : Punct} (hm : Lexeme.IsLone mark) (hxs : Next (· ≠ .punct mark) xs) :
    Refuses s (Grammar.mark mark) xs := by
  obtain ⟨x, xs, rfl, hk⟩ := hxs
  refine .of_success fun hr hrun => ?_
  obtain ⟨leaf, -, hreads⟩ := mark_sound hr.valid hrun
  have hspells := leaf.spells
  rw [leaf.fits] at hspells
  exact hk (hr.spells.eq_punct_of_head? hspells hm (hr.head?_eq hreads))

theorem name_refuses {reserved : Bool} (hxs : Next (fun kind => ¬ kind.StartsName) xs) :
    Refuses s (Grammar.name reserved) xs := by
  obtain ⟨x, xs, rfl, hk⟩ := hxs
  refine .of_success fun hr hrun => ?_
  obtain ⟨name, -, hreads⟩ := name_sound hr.valid hrun
  exact hk (hr.startsName hreads name.starts)

theorem integer_refuses (hxs : Next Kind.StartsName xs) : Refuses s Grammar.integer xs := by
  obtain ⟨x, xs, rfl, hk⟩ := hxs
  refine .of_success fun hr hrun => ?_
  obtain ⟨number, -, -, hreads⟩ := integer_sound hr.valid hrun
  have hspells := number.spells
  rw [number.fits.1] at hspells
  exact hr.spells.not_startsName_of_head? hspells (hr.head?_eq hreads) hk

/-- A quotation mark that is not closed is no string, but begins like one. -/
theorem string_refuses
    (hxs : Next (fun kind => kind ≠ .string ∧ kind ≠ .punct .quote ∧ kind ≠ .punct .apostrophe) xs) :
    Refuses s Grammar.string xs := by
  obtain ⟨x, xs, rfl, hstring, hquote, hapostrophe⟩ := hxs
  refine .of_success fun hr hrun => ?_
  obtain ⟨literal, -, hreads⟩ := string_sound hr.valid hrun
  obtain ⟨c, hc, hopens⟩ := literal.spells.exists_opens (by simp [literal.fits])
  have hopened := hr.spells.opens (hr.head?_eq hreads ▸ hc)
  rcases hopened.quote_iff.1 (hopens.quote_iff.2 (.inl literal.fits)) with h | h | h
  · exact hstring h
  · exact hquote h
  · exact hapostrophe h

/-- An item is refused that is not the first sign of the end. -/
theorem itemsUntil_refuses {close : Punct} (hclose : Lexeme.IsLone close)
    (hxs : Next (· ≠ .punct close) xs) (h : Refuses s p xs) : Refuses s (itemsUntil close p) xs :=
  Refuses.repeatUntil ((mark?_none hclose hxs).refuses fun found hfound => by
    rw [hfound]
    exact h.map)

end Grammar

end ThriftSyntax
