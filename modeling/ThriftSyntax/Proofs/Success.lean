import ThriftSyntax.Reader.Repetition

/-!
# Successful actions

What it takes for a composed action to succeed, or to fail: one equivalence for each way of composing,
and for the two recursions a rule of induction over a successful run.
-/

namespace ThriftSyntax.Parse

variable {α β : Type} {reader after : Reader}

/-- What a run has come to. -/
abbrev Result (α : Type) := EStateM.Result Error Reader α

theorem bind_eq_ok {p : Parse α} {f : α → Parse β} {b : β} :
    (p >>= f) reader = .ok b after ↔
      ∃ a between, p reader = .ok a between ∧ f a between = .ok b after := by
  show EStateM.bind p f reader = .ok b after ↔ _
  unfold EStateM.bind
  cases p reader with
  | ok a between =>
    constructor
    · intro h
      exact ⟨a, between, rfl, h⟩
    · rintro ⟨_, _, h, h'⟩
      cases h
      exact h'
  | error error between => simp

theorem unit_bind_eq_ok {p : Parse Unit} {q : Parse β} {b : β} :
    (p >>= fun _ => q) reader = .ok b after ↔
      ∃ between, p reader = .ok () between ∧ q between = .ok b after :=
  bind_eq_ok.trans ⟨fun ⟨_, between, h⟩ => ⟨between, h⟩, fun ⟨between, h⟩ => ⟨(), between, h⟩⟩

/-- After a success the rest is run. -/
theorem bind_of_ok {p : Parse α} {f : α → Parse β} {a : α} (h : p reader = .ok a after) :
    (p >>= f) reader = f a after := by
  show EStateM.bind p f reader = _
  rw [EStateM.bind, h]

theorem pure_eq_ok {a b : α} : (pure a : Parse α) reader = .ok b after ↔ a = b ∧ reader = after := by
  show EStateM.Result.ok a reader = .ok b after ↔ _
  simp

theorem map_eq_ok {p : Parse α} {f : α → β} {b : β} :
    (f <$> p) reader = .ok b after ↔ ∃ a, p reader = .ok a after ∧ f a = b := by
  show EStateM.map f p reader = .ok b after ↔ _
  unfold EStateM.map
  cases p reader with
  | ok a between =>
    constructor
    · intro h
      cases h
      exact ⟨a, rfl, rfl⟩
    · rintro ⟨_, h, rfl⟩
      cases h
      rfl
  | error error between => simp

theorem throw_eq_ok {error : Error} {a : α} :
    (throw error : Parse α) reader = .ok a after ↔ False := by
  show EStateM.Result.error error reader = .ok a after ↔ _
  simp

theorem get_eq_ok {a : Reader} :
    (get : Parse Reader) reader = .ok a after ↔ reader = a ∧ reader = after := by
  show EStateM.Result.ok reader reader = .ok a after ↔ _
  simp

theorem get_bind (f : Reader → Parse α) (reader : Reader) :
    (get >>= f) reader = f reader reader := rfl

theorem discard_eq_ok {p : Parse α} {a : PUnit} :
    (discard p) reader = .ok a after ↔ ∃ b, p reader = .ok b after := by
  show (Function.const α PUnit.unit <$> p) reader = .ok a after ↔ _
  simp [map_eq_ok]

theorem run'_of_ok {p : Parse α} {a : α} (h : p reader = .ok a after) : p.run' reader = some a :=
  congrArg (fun result => @EStateM.run' Error Reader α (fun _ => result) reader) h

theorem run'_of_error {p : Parse α} {error : Error} (h : p reader = .error error after) :
    p.run' reader = none :=
  congrArg (fun result => @EStateM.run' Error Reader α (fun _ => result) reader) h

theorem exists_of_run' {p : Parse α} {a : α} (h : p.run' reader = some a) :
    ∃ after, p reader = .ok a after := by
  cases hp : p reader with
  | ok b after =>
    cases h.symm.trans (run'_of_ok hp)
    exact ⟨after, rfl⟩
  | error error after => cases h.symm.trans (run'_of_error hp)

theorem below_eq_ok {p : Parse α} {limit : Nat} {a : α} :
    below limit p reader = .ok a after ↔ reader.unread < limit ∧ p reader = .ok a after := by
  unfold below
  split <;> simp [*]

/-! ## Failures -/

theorem bind_eq_error {p : Parse α} {f : α → Parse β} {error : Error} :
    (p >>= f) reader = .error error after ↔ p reader = .error error after ∨
      ∃ a between, p reader = .ok a between ∧ f a between = .error error after := by
  show EStateM.bind p f reader = .error error after ↔ _
  unfold EStateM.bind
  cases p reader with
  | ok a between =>
    constructor
    · intro h
      exact .inr ⟨a, between, rfl, h⟩
    · rintro (h | ⟨_, _, h, h'⟩)
      · cases h
      · cases h
        exact h'
  | error error between => simp

theorem map_eq_error {p : Parse α} {f : α → β} {error : Error} :
    (f <$> p) reader = .error error after ↔ p reader = .error error after := by
  show EStateM.map f p reader = .error error after ↔ _
  unfold EStateM.map
  cases p reader <;> simp

/-! ## Recursions -/

/-- What holds of a last round, and of a round before a run of which it holds, holds of every
successful repetition, if it does not depend on the count of rounds. -/
theorem repeatUntil_induction {step : Parse (α ⊕ β)}
    {motive : Reader → List α → β → Reader → Prop}
    (round : ∀ {reader items b after}, motive reader.round items b after →
      motive reader items b after)
    (last : ∀ {reader b after}, step reader = .ok (.inr b) after → motive reader [] b after)
    (next : ∀ {reader a between items b after}, step reader = .ok (.inl a) between →
      motive between items b after → motive reader (a :: items) b after)
    {items : List α} {b : β} (h : repeatUntil step reader = .ok (items, b) after) :
    motive reader items b after := by
  induction hn : reader.unread using Nat.strongRecOn generalizing reader items with
  | ind n ih =>
    rw [repeatUntil_apply] at h
    cases hs : step reader.round with
    | error error between => simp [hs] at h
    | ok result between =>
      cases result with
      | inr b' =>
        simp only [hs, EStateM.Result.ok.injEq, Prod.mk.injEq] at h
        obtain ⟨⟨rfl, rfl⟩, rfl⟩ := h
        exact round (last hs)
      | inl a =>
        simp only [hs, below_eq_ok, bind_eq_ok, pure_eq_ok, Prod.exists, Prod.mk.injEq] at h
        obtain ⟨hlt, items', b', end', hrest, ⟨rfl, rfl⟩, rfl⟩ := h
        exact round (next hs (ih _ (hn ▸ hlt) hrest rfl))

theorem repeatUntil_last {step : Parse (α ⊕ β)} {b : β}
    (h : step reader.round = .ok (.inr b) after) : repeatUntil step reader = .ok ([], b) after := by
  rw [repeatUntil_apply, h]

theorem repeatUntil_next {step : Parse (α ⊕ β)} {a : α} {between : Reader} {items : List α} {b : β}
    (h : step reader.round = .ok (.inl a) between) (hlt : between.unread < reader.unread)
    (hrest : repeatUntil step between = .ok (items, b) after) :
    repeatUntil step reader = .ok (a :: items, b) after := by
  rw [repeatUntil_apply, h]
  exact below_eq_ok.2 ⟨hlt, bind_eq_ok.2 ⟨_, _, hrest, rfl⟩⟩

/-- What the body keeps, when the action it runs within keeps it, holds of every successful run of
the recursion, if it does not depend on the count of rounds. -/
theorem nested_induction {body : Parse α → Parse α} {motive : Reader → α → Reader → Prop}
    (round : ∀ {reader a after}, motive reader.round a after → motive reader a after)
    (step : ∀ {inner : Parse α} {reader a after},
      (∀ {reader a after}, inner reader = .ok a after → motive reader a after) →
      body inner reader = .ok a after → motive reader a after)
    {a : α} (h : nested body reader = .ok a after) : motive reader a after := by
  induction hn : reader.unread using Nat.strongRecOn generalizing reader a after with
  | ind n ih =>
    rw [nested_apply] at h
    refine round (step (fun {inside b outside} hb => ?_) h)
    rw [below_eq_ok] at hb
    exact ih _ (hn ▸ hb.1) hb.2 rfl

/-! ## Recursions that fail -/

theorem below_eq_error {p : Parse α} {limit : Nat} {error : Error}
    (h : below limit p reader = .error error after) (hne : error ≠ .stalled) :
    reader.unread < limit ∧ p reader = .error error after := by
  unfold below at h
  split at h
  · exact ⟨‹_›, h⟩
  · cases h
    exact absurd rfl hne

/-- What holds of a round that fails, and of a round before a failing run of which it holds, holds of
every repetition that fails. -/
theorem repeatUntil_error_induction {step : Parse (α ⊕ β)} {motive : Reader → Error → Reader → Prop}
    (round : ∀ {reader error after}, motive reader.round error after → motive reader error after)
    (fails : ∀ {reader error after}, step reader = .error error after → motive reader error after)
    (next : ∀ {reader a between error after}, step reader = .ok (.inl a) between →
      motive between error after → motive reader error after)
    {error : Error} (h : repeatUntil step reader = .error error after) (hne : error ≠ .stalled) :
    motive reader error after := by
  induction hn : reader.unread using Nat.strongRecOn generalizing reader with
  | ind n ih =>
    rw [repeatUntil_apply] at h
    cases hs : step reader.round with
    | error error' between =>
      simp only [hs, EStateM.Result.error.injEq] at h
      obtain ⟨rfl, rfl⟩ := h
      exact round (fails hs)
    | ok result between =>
      cases result with
      | inr b => simp [hs] at h
      | inl a =>
        simp only [hs] at h
        obtain ⟨hlt, h⟩ := below_eq_error h hne
        rcases bind_eq_error.1 h with h | ⟨_, _, -, h⟩
        · exact round (next hs (ih _ (hn ▸ hlt) h rfl))
        · cases h

theorem repeatUntil_fails {step : Parse (α ⊕ β)} {error : Error}
    (h : step reader.round = .error error after) :
    repeatUntil step reader = .error error after := by
  rw [repeatUntil_apply, h]

theorem repeatUntil_next_fails {step : Parse (α ⊕ β)} {a : α} {between : Reader} {error : Error}
    (h : step reader.round = .ok (.inl a) between) (hlt : between.unread < reader.unread)
    (hrest : repeatUntil step between = .error error after) :
    repeatUntil step reader = .error error after := by
  rw [repeatUntil_apply, h]
  dsimp only
  unfold below
  rw [if_pos hlt]
  exact bind_eq_error.2 (.inl hrest)

/-- What holds of a failing run of the body, when it holds of every failing run within and what
succeeds within is a run of the recursion, holds of every recursion that fails. -/
theorem nested_error_induction {body : Parse α → Parse α} {motive : Reader → Error → Reader → Prop}
    (round : ∀ {reader error after}, motive reader.round error after → motive reader error after)
    (step : ∀ {inner : Parse α} {reader error after},
      (∀ {reader a after}, inner reader = .ok a after → nested body reader = .ok a after) →
      (∀ {reader error after}, error ≠ .stalled → inner reader = .error error after →
        motive reader error after) →
      error ≠ .stalled → body inner reader = .error error after → motive reader error after)
    {error : Error} (hne : error ≠ .stalled) (h : nested body reader = .error error after) :
    motive reader error after := by
  induction hn : reader.unread using Nat.strongRecOn generalizing reader error after with
  | ind n ih =>
    rw [nested_apply] at h
    refine round (step (fun hb => (below_eq_ok.1 hb).2) (fun hne hb => ?_) hne h)
    obtain ⟨hlt, hb⟩ := below_eq_error hb hne
    exact ih _ (hn ▸ hlt) hne hb rfl

end ThriftSyntax.Parse
