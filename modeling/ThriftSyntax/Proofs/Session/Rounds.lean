import ThriftSyntax.Proofs.Coupling.Token

/-!
# The count of rounds is not looked at

Readers that differ in the count of rounds only match: every action on tokens gives the same result or the
same error from both, and they go on to match. `Carries` is the judgement for this and for other relations
between two readers, also after an error. There is one rule for each way of composing actions.
-/

namespace ThriftSyntax

open Lexeme

variable {α β : Type} {P Q R E E' : Reader → Reader → Prop} {r s : Reader}

/-! ## Runs that coincide -/

namespace Parse

/-- Both runs give the same result and end with readers related by `P`, or both meet the same error and
end with readers related by `E`. -/
inductive Result.Coincide (P E : Reader → Reader → Prop) : Result α → Result α → Prop
  | ok (a : α) {r s : Reader} (h : P r s) : Coincide P E (.ok a r) (.ok a s)
  | error (error : Error) {r s : Reader} (h : E r s) : Coincide P E (.error error r) (.error error s)

theorem Result.Coincide.mono {x y : Result α} (h : Coincide P E x y) (hP : ∀ {r s}, P r s → Q r s)
    (hE : ∀ {r s}, E r s → E' r s) : Coincide Q E' x y := by
  cases h with
  | ok a h => exact .ok a (hP h)
  | error error h => exact .error error (hE h)

theorem Result.Coincide.bind {p q : Parse α} {f : α → Parse β} (h : Coincide P E (p r) (q s))
    (hf : ∀ a r s, P r s → Coincide Q E (f a r) (f a s)) : Coincide Q E ((p >>= f) r) ((q >>= f) s) := by
  show Coincide Q E (EStateM.bind p f r) (EStateM.bind q f s)
  unfold EStateM.bind
  generalize p r = x at h
  generalize q s = y at h
  cases h with
  | ok a h => exact hf a _ _ h
  | error error h => exact .error error h

/-- Readers related by `P` are led by the action to the same result and are related by `Q` then, or to the
same error and are related by `E`. -/
def Carries (P Q E : Reader → Reader → Prop) (p : Parse α) : Prop :=
  ∀ r s, P r s → Result.Coincide Q E (p r) (p s)

namespace Carries

variable {p : Parse α}

theorem pure (a : α) : Carries P P E (Pure.pure a : Parse α) := fun _ _ h => .ok a h

theorem mono (hp : Carries P Q E p) (hQ : ∀ {r s}, Q r s → R r s) : Carries P R E p :=
  fun r s h => (hp r s h).mono hQ id

theorem bind {f : α → Parse β} (hp : Carries P Q E p) (hf : ∀ a, Carries Q R E (f a)) :
    Carries P R E (p >>= f) :=
  fun r s h => (hp r s h).bind hf

theorem map {g : α → β} (hp : Carries P Q E p) : Carries P Q E (g <$> p) := by
  rw [map_eq_pure_bind]
  exact hp.bind fun a => .pure (g a)

end Carries

end Parse

/-! ## The count of rounds -/

/-- The readers are the same but for the count of rounds. -/
def Reader.Matches (r s : Reader) : Prop := ∃ rounds, s = r.atRound rounds

namespace Parse

open Reader

/-- The action does not look at the count of rounds. -/
abbrev Blind (p : Parse α) : Prop := Carries Matches Matches Matches p

namespace Blind

variable {p : Parse α}

/-- A success does not hang on the count of rounds. -/
theorem exists_ok {a : α} (hp : Blind p) (h : p r = .ok a s) (rounds : Nat) :
    ∃ rounds', p (r.atRound rounds) = .ok a (s.atRound rounds') := by
  have hrun := hp r (r.atRound rounds) ⟨rounds, rfl⟩
  rw [h] at hrun
  generalize p (r.atRound rounds) = result at hrun
  cases hrun with
  | ok _ h =>
    obtain ⟨rounds', rfl⟩ := h
    exact ⟨rounds', rfl⟩

/-- It may look at all else. -/
theorem get_bind {f : Reader → Parse α} (hf : ∀ reader, Blind (f reader))
    (heq : ∀ reader rounds, f (reader.atRound rounds) = f reader) : Blind (get >>= f) := by
  rintro r _ ⟨rounds, rfl⟩
  rw [Parse.get_bind, Parse.get_bind, heq]
  exact hf r r _ ⟨rounds, rfl⟩

theorem repeatUntil {step : Parse (α ⊕ β)} (h : Blind step) : Blind (repeatUntil step) := by
  intro r s hrs
  -- As much is unread in both readers, so that both repetitions go on or both stop for that.
  induction hn : r.unread using Nat.strongRecOn generalizing r s with
  | ind n ih =>
    obtain ⟨rounds, rfl⟩ := hrs
    have hstep := h r.round (r.atRound rounds).round ⟨_, rfl⟩
    rw [repeatUntil_apply, repeatUntil_apply]
    generalize step r.round = x at hstep
    generalize step (r.atRound rounds).round = y at hstep
    cases hstep with
    | error error h => exact .error error h
    | @ok result between _ h =>
      cases result with
      | inr last => exact .ok _ h
      | inl item =>
        obtain ⟨rounds', rfl⟩ := h
        show Result.Coincide Matches Matches (Parse.below r.unread _ between)
          (Parse.below r.unread _ (between.atRound rounds'))
        unfold Parse.below
        rw [show (between.atRound rounds').unread = between.unread from rfl]
        split
        · rename_i hlt
          have hrest := ih between.unread (hn ▸ hlt) between (between.atRound rounds') ⟨_, rfl⟩ rfl
          exact hrest.bind fun _ => Carries.pure _
        · exact .error _ ⟨rounds', rfl⟩

theorem modify {change : Reader → Reader}
    (h : ∀ reader rounds, change (reader.atRound rounds) = (change reader).atRound rounds) :
    Blind (modify change : Parse Unit) := by
  rintro r _ ⟨rounds, rfl⟩
  exact .ok () ⟨rounds, h r rounds⟩

theorem stalled : Blind (throw .stalled : Parse α) := by
  rintro r _ ⟨rounds, rfl⟩
  exact .error _ ⟨rounds, rfl⟩

theorem token (id : Nat) : Blind (token id) := by
  refine .get_bind (fun reader => ?_) fun _ _ => rfl
  split
  · exact .pure _
  · exact stalled

theorem held? : Blind held? := by
  refine .get_bind (fun reader => ?_) fun _ _ => rfl
  split
  · exact (token _).map
  · exact .pure none

theorem scan : Blind scan := by
  refine .get_bind (fun reader => ?_) fun _ _ => rfl
  have hchain : ∀ kind length, Blind (chainLexeme kind length) := by
    rintro kind length r _ ⟨rounds, rfl⟩
    by_cases hh : r.held = none
    · have hh' : (r.atRound rounds).held = none := hh
      rw [chainLexeme_eq hh, chainLexeme_eq hh']
      exact .ok _ ⟨rounds, rfl⟩
    · have hh' : (r.atRound rounds).held ≠ none := hh
      rw [chainLexeme, Parse.get_bind, Parse.get_bind, if_neg hh, if_neg hh']
      exact .error _ ⟨rounds, rfl⟩
  have hfail : ∀ fault length, Blind (fail fault length : Parse Link) := by
    rintro fault length r _ ⟨rounds, rfl⟩
    exact .error _ ⟨rounds, rfl⟩
  cases reader.chain.ending? with
  | some link => exact .pure link
  | none =>
    dsimp only
    cases first reader.cursor.rest with
    | ok result => exact hchain _ _
    | error fault => cases fault <;> exact hfail _ _

theorem take : Blind take := by
  refine held?.bind fun held => ?_
  split
  · exact (modify fun _ _ => rfl).bind fun _ => .pure _
  · exact scan

theorem putBack (link : Link) : Blind (putBack link) := by
  refine .get_bind (fun reader => ?_) fun _ _ => rfl
  cases reader.held with
  | none => exact modify fun _ _ => rfl
  | some waiting =>
    rintro r _ ⟨rounds, rfl⟩
    exact .error _ ⟨rounds, rfl⟩

theorem peek : Blind peek := by
  refine held?.bind fun held => ?_
  split
  · exact .pure _
  · exact Blind.get_bind (fun reader => .pure _) fun _ _ => rfl

theorem putBackLast (link : Link) : Blind (putBackLast link) := by
  refine .get_bind (fun reader => ?_) fun _ _ => rfl
  split
  · exact putBack link
  · exact stalled

theorem restore (waiting : Option Link) (link : Link) : Blind (restore waiting link) := by
  unfold Parse.restore
  split
  · exact putBack link
  · exact putBackLast link

theorem chainTrivia : Blind chainTrivia := by
  rw [chainTrivia_eq]
  refine (repeatUntil (.get_bind (fun reader => ?_) fun _ _ => rfl)).map
  split
  · exact scan.map
  · exact .pure _

theorem skipTrivia : Blind skipTrivia := by
  refine held?.bind fun held => ?_
  split
  · exact chainTrivia
  · split
    · exact (modify fun _ _ => rfl).bind fun _ => chainTrivia
    · exact .pure _

theorem wordAfterDot? (reserved : Bool) : Blind (wordAfterDot? reserved) := by
  refine take.bind fun link => ?_
  split
  · exact .pure _
  · exact (putBackLast link).bind fun _ => .pure _

theorem nameSegment (reserved : Bool) : Blind (nameSegment reserved) := by
  refine .get_bind (fun reader => ?_) fun _ _ => rfl
  split
  · refine take.bind fun dot => (wordAfterDot? reserved).bind fun word => ?_
    cases word <;> exact .pure _
  · exact .pure _

theorem nameTail (reserved : Bool) : Blind (nameTail reserved) :=
  (repeatUntil (nameSegment reserved)).bind fun _ => .pure _

end Blind

end Parse

end ThriftSyntax
