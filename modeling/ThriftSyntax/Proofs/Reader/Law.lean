import ThriftSyntax.Proofs.Reader.Reading
import ThriftSyntax.Reader.Name

/-!
# What the readers of tokens keep

`Upholds I E p` says that the action `p` keeps the property `I` of readers, and that an error and the
reader at which it is met satisfy `E`. All actions on tokens come down to scanning and to changes of the
held token. So a property of the cursor and the chain that scanning upholds, a `Law`, is upheld by them
all.
-/

namespace ThriftSyntax

namespace Parse

variable {α β : Type} {I : Reader → Prop} {E : Error → Reader → Prop}

/-- A success leaves a reader with the property, and a failure an error that is allowed. -/
def Result.Meets (I : Reader → Prop) (E : Error → Reader → Prop) : Result α → Prop
  | .ok _ after => I after
  | .error error after => E error after

def Upholds (I : Reader → Prop) (E : Error → Reader → Prop) (p : Parse α) : Prop :=
  ∀ reader, I reader → Result.Meets I E (p reader)

namespace Upholds

variable {p : Parse α}

theorem pure (a : α) : Upholds I E (Pure.pure a : Parse α) := fun _ h => h

theorem get : Upholds I E (MonadState.get : Parse Reader) := fun _ h => h

theorem bind {f : α → Parse β} (hp : Upholds I E p) (hf : ∀ a, Upholds I E (f a)) :
    Upholds I E (p >>= f) := by
  intro reader h
  have hfirst := hp reader h
  show Result.Meets I E (EStateM.bind p f reader)
  unfold EStateM.bind
  cases hres : p reader with
  | error error after => rwa [hres] at hfirst
  | ok a between =>
    rw [hres] at hfirst
    exact hf a between hfirst

theorem map {f : α → β} (hp : Upholds I E p) : Upholds I E (f <$> p) := by
  rw [map_eq_pure_bind]
  exact hp.bind fun a => .pure (f a)

end Upholds

/-- A property of the cursor and the chain that scanning upholds. Errors that are about no place of the
text are allowed. -/
structure Law (I : Reader → Prop) (E : Error → Reader → Prop) : Prop where
  alike : ∀ {r s : Reader}, I r → s.cursor = r.cursor → s.chain = r.chain → I s
  placeless : ∀ {error : Error} {r : Reader}, error.location? = none → I r → E error r
  finds : ∀ {reader : Reader} {result : Result Link}, I reader → FindsLexeme reader result →
    Result.Meets I E result

namespace Law

variable (law : Law I E)

include law

theorem repeatUntil {step : Parse (α ⊕ β)} (h : Upholds I E step) : Upholds I E (repeatUntil step) := by
  intro reader hi
  induction hn : reader.unread using Nat.strongRecOn generalizing reader with
  | ind n ih =>
    have hstep := h reader.round (law.alike hi rfl rfl)
    rw [repeatUntil_apply]
    cases hres : step reader.round with
    | error error after => rwa [hres] at hstep
    | ok result between =>
      rw [hres] at hstep
      cases result with
      | inr b => exact hstep
      | inl a =>
        show Result.Meets I E (Parse.below reader.unread _ between)
        unfold Parse.below
        split
        · rename_i hlt
          have hrest := ih between.unread (hn ▸ hlt) between hstep rfl
          show Result.Meets I E (EStateM.bind (Parse.repeatUntil step) _ between)
          unfold EStateM.bind
          cases hrun : Parse.repeatUntil step between <;> rwa [hrun] at hrest
        · exact law.placeless rfl hstep

theorem stalled : Upholds I E (throw .stalled : Parse α) := fun _ h => law.placeless rfl h

theorem scan : Upholds I E scan := by
  intro reader h
  obtain hfinds | ⟨-, hstalled⟩ := scan_or reader
  · exact law.finds h hfinds
  · rw [hstalled]
    exact law.placeless rfl h

theorem token (id : Nat) : Upholds I E (token id) := by
  refine Upholds.get.bind fun reader => ?_
  split
  · exact .pure _
  · exact law.stalled

theorem held? : Upholds I E held? := by
  refine Upholds.get.bind fun reader => ?_
  split
  · exact (law.token _).map
  · exact .pure none

theorem release : Upholds I E (modify ({ · with held := none }) : Parse PUnit) :=
  fun _ h => law.alike h rfl rfl

theorem take : Upholds I E take := by
  refine law.held?.bind fun held => ?_
  split
  · exact law.release.bind fun _ => .pure _
  · exact law.scan

theorem putBack (link : Link) : Upholds I E (putBack link) := by
  intro reader h
  rw [Parse.putBack, get_bind]
  cases reader.held with
  | some waiting => exact law.placeless rfl h
  | none => exact law.alike h rfl rfl

theorem putBackLast (link : Link) : Upholds I E (putBackLast link) := by
  refine Upholds.get.bind fun reader => ?_
  split
  · exact law.putBack link
  · exact law.stalled

theorem restore (waiting : Option Link) (link : Link) : Upholds I E (restore waiting link) := by
  unfold Parse.restore
  split
  · exact law.putBack link
  · exact law.putBackLast link

theorem peek : Upholds I E peek := by
  refine law.held?.bind fun held => ?_
  split
  · exact .pure _
  · exact Upholds.get.bind fun _ => .pure _

theorem chainTrivia : Upholds I E chainTrivia := by
  refine (law.repeatUntil (Upholds.get.bind fun reader => ?_)).map
  split
  · exact law.scan.map
  · exact .pure _

theorem skipTrivia : Upholds I E skipTrivia := by
  refine law.held?.bind fun held => ?_
  split
  · exact law.chainTrivia
  · split
    · exact law.release.bind fun _ => law.chainTrivia
    · exact .pure _

theorem takeSignificant : Upholds I E takeSignificant := law.skipTrivia.bind fun _ => law.take

theorem peekSignificant : Upholds I E peekSignificant := law.skipTrivia.bind fun _ => law.peek

theorem wordAfterDot? (reserved : Bool) : Upholds I E (wordAfterDot? reserved) := by
  refine law.take.bind fun link => ?_
  split
  · exact .pure _
  · exact (law.putBackLast link).bind fun _ => .pure _

theorem nameSegment (reserved : Bool) : Upholds I E (nameSegment reserved) := by
  refine Upholds.get.bind fun reader => ?_
  split
  · refine law.take.bind fun dot => (law.wordAfterDot? reserved).bind fun word => ?_
    cases word <;> exact .pure _
  · exact .pure _

theorem nameTail (reserved : Bool) : Upholds I E (nameTail reserved) :=
  (law.repeatUntil (law.nameSegment reserved)).bind fun _ => .pure _

theorem takeName? (reserved : Bool) : Upholds I E (takeName? reserved) := by
  refine Upholds.get.bind fun reader => law.takeSignificant.bind fun first => ?_
  split
  · exact (law.nameTail reserved).bind fun _ => .pure _
  · split
    · refine (law.wordAfterDot? reserved).bind fun word => ?_
      cases word with
      | some word => exact (law.nameTail reserved).bind fun _ => .pure _
      | none => exact .pure _
    · exact (law.restore _ first).bind fun _ => .pure _

end Law

end Parse

end ThriftSyntax
