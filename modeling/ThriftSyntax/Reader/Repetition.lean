import ThriftSyntax.Reader.Basic

/-!
# Repetition

`Parse.repeatUntil` repeats an action and `Parse.nested` lets one run itself on what lies within.
Each run of the action is a round. Both go on only after something was read, that is, with fewer
characters unread than before, so both come to an end. `repeatUntil_apply` and `nested_apply` unfold
one round of each.
-/

namespace ThriftSyntax.Parse

variable {α β : Type}

/-- Runs `action` if fewer than `limit` characters are unread. -/
def below (limit : Nat) (action : Parse α) : Parse α := fun reader =>
  if reader.unread < limit then action reader else .error .stalled reader

/-- Runs `step` until it gives a last result, and collects the results before that. -/
def repeatUntil (step : Parse (α ⊕ β)) : Parse (List α × β) := fun reader =>
  go reader.unread [] reader
where
  /-- `limit` is the number of unread characters, `found` what there is so far, last first. -/
  go (limit : Nat) (found : List α) : Parse (List α × β) := fun reader =>
    match step reader.round with
    | .error error reader => .error error reader
    | .ok (.inr last) reader => .ok (found.reverse, last) reader
    | .ok (.inl item) reader =>
      if reader.unread < limit then go reader.unread (item :: found) reader
      else .error .stalled reader
  termination_by limit

/-- Runs `body`, which gets itself as an argument for what lies within. -/
def nested (body : Parse α → Parse α) : Parse α := fun reader => go reader.unread reader
where
  /-- `limit` is the number of unread characters. -/
  go (limit : Nat) : Parse α := fun reader =>
    body (fun inside =>
      if inside.unread < limit then go inside.unread inside else .error .stalled inside) reader.round
  termination_by limit

theorem repeatUntil_go_eq (step : Parse (α ⊕ β)) (limit : Nat) (found : List α) (reader : Reader) :
    repeatUntil.go step limit found reader =
      match repeatUntil.go step limit [] reader with
      | .error error reader => .error error reader
      | .ok (items, last) reader => .ok (found.reverse ++ items, last) reader := by
  induction limit using Nat.strongRecOn generalizing found reader with
  | ind limit ih =>
    rw [repeatUntil.go, repeatUntil.go]
    cases step reader.round with
    | error error reader => rfl
    | ok result reader =>
      cases result with
      | inr last => simp
      | inl item =>
        by_cases h : reader.unread < limit
        · simp only [h, ↓reduceIte]
          rw [ih _ h (item :: found), ih _ h [item]]
          cases repeatUntil.go step reader.unread [] reader <;> simp
        · simp only [h, ↓reduceIte]

theorem repeatUntil_apply (step : Parse (α ⊕ β)) (reader : Reader) :
    repeatUntil step reader =
      match step reader.round with
      | .error error reader => .error error reader
      | .ok (.inr last) reader => .ok ([], last) reader
      | .ok (.inl item) next =>
        below reader.unread
          (do let (items, last) ← repeatUntil step; return (item :: items, last)) next := by
  unfold repeatUntil
  rw [repeatUntil.go]
  cases step reader.round with
  | error error reader => rfl
  | ok result next =>
    cases result with
    | inr last => rfl
    | inl item =>
      by_cases h : next.unread < reader.unread
      · simp only [below, h, ↓reduceIte]
        rw [repeatUntil_go_eq]
        simp only [bind, EStateM.bind]
        cases repeatUntil.go step next.unread [] next <;> rfl
      · simp only [below, h, ↓reduceIte]

theorem nested_apply (body : Parse α → Parse α) (reader : Reader) :
    nested body reader = body (below reader.unread (nested body)) reader.round := by
  unfold nested
  rw [nested.go]
  rfl

end ThriftSyntax.Parse
