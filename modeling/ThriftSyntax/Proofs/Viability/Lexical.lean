import ThriftSyntax.Proofs.Reader.Law
import ThriftSyntax.Proofs.Soundness.Basic

/-!
# Actions that refuse no token

An action is `Lexical` if it never fails for a reason of grammar: all that it may fail for is that the
text goes on with no lexeme. Tokens are made, passed over and put back by such actions, and what a rule
looks for and need not find is found by one.
-/

namespace ThriftSyntax

variable {α β : Type}

/-- The error is about a token that the grammar does not go on with. -/
def Error.IsRefusal : Error → Prop
  | .unexpectedToken .. => True
  | _ => False

/-! ## Actions that refuse no token -/

namespace Parse

variable {p : Parse α} {f : α → Parse β}

/-- The action never refuses a token. -/
def Lexical (p : Parse α) : Prop :=
  ∀ ⦃reader error after⦄, p reader = .error error after → ¬ error.IsRefusal

theorem lexical_pure (a : α) : Lexical (pure a) := by
  rintro _ _ _ ⟨⟩

theorem lexical_get : Lexical (get : Parse Reader) := by
  rintro _ _ _ ⟨⟩

theorem Lexical.bind (hp : Lexical p) (hf : ∀ a, Lexical (f a)) : Lexical (p >>= f) := by
  intro reader error after h
  rcases bind_eq_error.1 h with h | ⟨a, between, -, h⟩
  · exact hp h
  · exact hf a h

theorem Lexical.map {g : α → β} (hp : Lexical p) : Lexical (g <$> p) :=
  fun _ _ _ h => hp (map_eq_error.1 h)

theorem lexical_stalled : Lexical (throw .stalled : Parse α) := by
  rintro _ _ _ ⟨⟩
  exact id

theorem law_lexical : Law (fun _ => True) fun error _ => ¬ error.IsRefusal where
  alike _ _ _ := trivial
  placeless {error _} h _ := by
    cases error with
    | unexpectedToken => cases h
    | _ => exact id
  finds _ hfinds := by
    cases hfinds with
    | again | lexeme => trivial
    | fault => exact id

/-- What keeps all that scanning upholds refuses no token. -/
theorem lexical_of_law (h : ∀ {I : Reader → Prop} {E : Error → Reader → Prop}, Law I E → Upholds I E p) :
    Lexical p := by
  intro reader error after hrun
  have hafter := h law_lexical reader trivial
  rwa [hrun] at hafter

theorem lexical_token (id : Nat) : Lexical (token id) := lexical_of_law fun law => law.token id

theorem lexical_take : Lexical take := lexical_of_law Law.take

theorem lexical_putBackLast (link : Link) : Lexical (putBackLast link) :=
  lexical_of_law fun law => law.putBackLast link

theorem lexical_peekSignificant : Lexical peekSignificant := lexical_of_law Law.peekSignificant

theorem lexical_takeSignificant : Lexical takeSignificant := lexical_of_law Law.takeSignificant

theorem lexical_takeName? (reserved : Bool) : Lexical (takeName? reserved) :=
  lexical_of_law fun law => law.takeName? reserved

theorem lexical_takeString? : Lexical takeString? := by
  rw [takeString?_eq]
  refine (lexical_of_law Law.skipTrivia).bind fun _ reader error after hrun => ?_
  have hfinds := stringHere_finds reader
  rw [hrun] at hfinds
  cases hfinds
  exact id

theorem lexical_takeNumber : Lexical takeNumber := by
  rw [takeNumber_eq]
  refine (lexical_of_law Law.skipTrivia).bind fun _ reader error after hrun => ?_
  have hfinds := numberHere_finds reader
  generalize hresult : numberHere reader = result at hfinds
  cases hfinds with
  | plain => exact lexical_take (hresult.symm.trans hrun)
  | signed => cases hresult.symm.trans hrun

end Parse

namespace Grammar

open Parse

theorem lexical_mark? (mark : Punct) : Lexical (mark? mark) := by
  refine lexical_peekSignificant.bind fun c => ?_
  split
  · exact lexical_take.map
  · exact lexical_pure none

theorem lexical_separator? : Lexical separator? := by
  rw [separator?_eq]
  refine lexical_peekSignificant.bind fun c => ?_
  split
  · exact lexical_take.map
  · exact lexical_pure none

theorem lexical_word? : Lexical word? := by
  refine lexical_peekSignificant.bind fun c => ?_
  split
  · split
    · exact lexical_take.map
    · exact lexical_pure none
  · exact lexical_pure none

theorem lexical_span (first last : Nat) : Lexical (span first last) := by
  unfold span
  split
  · exact lexical_pure _
  · exact lexical_stalled

/-- A node that only lacks its span. -/
theorem lexical_spanned (first last : Nat) (build : Span → α) :
    Lexical (span first last >>= fun span => pure (build span)) :=
  (lexical_span first last).bind fun _ => lexical_pure _

theorem lexical_index {span : α → Span} {name : α → String} (items : List α) :
    Lexical (index span name items) := by
  refine Lexical.bind ?_ fun _ => lexical_get.bind fun _ => lexical_pure _
  induction items with
  | nil => exact lexical_pure _
  | cons item items ih => exact (lexical_token _).map.bind fun _ => ih

end Grammar

end ThriftSyntax
