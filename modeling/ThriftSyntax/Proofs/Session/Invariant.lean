import ThriftSyntax.Proofs.Reader.Law
import ThriftSyntax.Proofs.Session.Lexing

/-!
# What a session keeps

What reading a token upholds, every request of a session upholds, and so does every session that goes on
after errors.
-/

namespace ThriftSyntax

namespace Request

open Parse Reader

variable {I : Reader → Prop} {E : Error → Reader → Prop} {requests : List Request} {reader : Reader}

/-- Whether the request reads what stands next, whatever it is, or only looks ahead or puts back: a
string and a signed number are read only where one is asked for. -/
def isPlain : Request → Bool
  | takeString | takeNumber => false
  | _ => true

theorem act_upholds (law : Law I E) {request : Request} (h : request.isPlain = true) :
    Upholds I E request.act := by
  cases request with
  | take => exact law.take.map
  | takeSignificant => exact law.takeSignificant.map
  | takeName reserved => exact (law.takeName? reserved).map
  | takeString => cases h
  | takeNumber => cases h
  | peek => exact law.peek.map
  | peekSignificant => exact law.peekSignificant.map
  | putBack id =>
    refine Upholds.get.bind fun reader => ?_
    split
    · exact law.putBack _
    · exact .pure _

/-- What each request of a session upholds holds after the session, and its errors are all allowed, if
the property holds again after each of them. -/
theorem answer_upholds (h : ∀ request ∈ requests, Upholds I E request.act)
    (hgo : ∀ error ∈ (answer requests reader).1, ∀ after, E error after → I after) (hi : I reader) :
    I (answer requests reader).2 ∧ ∀ error ∈ (answer requests reader).1, ∃ after, E error after := by
  induction requests generalizing reader with
  | nil => exact ⟨hi, by simp [answer]⟩
  | cons request requests ih =>
    obtain ⟨hrequest, h⟩ := List.forall_mem_cons.1 h
    have hact := hrequest reader hi
    rw [answer] at hgo ⊢
    cases hres : request.act reader with
    | ok u after =>
      rw [hres] at hact hgo
      exact ih h hgo hact
    | error error after =>
      rw [hres] at hact hgo
      obtain ⟨herror, hgo⟩ := List.forall_mem_cons.1 hgo
      obtain ⟨hlast, herrors⟩ := ih h hgo (herror after hact)
      exact ⟨hlast, List.forall_mem_cons.2 ⟨⟨after, hact⟩, herrors⟩⟩

end Request

end ThriftSyntax
