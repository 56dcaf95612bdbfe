import ThriftSyntax.Proofs.Coupling.Basic
import ThriftSyntax.Proofs.Lexeme.Fault
import ThriftSyntax.Proofs.Session.Invariant

/-!
# Looking ahead does not change the tokens

A text is read eagerly when one token after the other is taken. Names may be asked for instead, blanks
and comments be passed over, and tokens be put back and taken again: what is chained is what eager
reading chains, no token twice and none left out.
-/

namespace ThriftSyntax

/-- The error that a comment is not closed. -/
def Error.IsOpenComment : Error → Prop
  | .lexical .unterminatedComment _ => True
  | _ => False

namespace Request

open Parse Reader

variable {text : String} {requests others : List Request} {reader : Reader} {m n : Nat}

/-- The reader from which `n` tokens have been taken, one after the other. -/
def eager (text : String) (n : Nat) : Reader := (session text (.replicate n .take)).2

theorem answer_singleton (request : Request) (reader : Reader) :
    (answer [request] reader).2 = Result.final (request.act reader) := by
  rw [answer]
  cases request.act reader <;> rfl

theorem eager_succ (text : String) (n : Nat) :
    eager text (n + 1) = Result.final (Parse.take (eager text n)) := by
  have hact : ∀ reader, Result.final (act take reader) = Result.final (Parse.take reader) :=
    fun reader => by
      show Result.final (EStateM.map _ Parse.take reader) = _
      unfold EStateM.map
      cases Parse.take reader <;> rfl
  rw [eager, session, List.replicate_succ', answer_append, answer_singleton, hact]
  rfl

/-- Nothing is put back where tokens are only taken. -/
theorem held_eager (text : String) (n : Nat) : (eager text n).held = none := by
  induction n with
  | zero => rfl
  | succ n ih =>
    rw [eager_succ, take_of_none ih]
    have hfinds := scan_finds ih
    generalize scan (eager text n) = result at hfinds ⊢
    cases hfinds <;> exact ih

/-- A token that is chained in eager reading is not touched any more. -/
theorem eager_extends (text : String) (h : m ≤ n) :
    (eager text m).chain.toList <+: (eager text n).chain.toList := by
  obtain ⟨k, rfl⟩ := Nat.exists_eq_add_of_le h
  have hsound := (answer_follows (.replicate m .take) (sound_ofText text.toList)).sound
    (sound_ofText text.toList)
  have hmore := (answer_follows (.replicate k .take) hsound).extends_links
  rw [← answer_append, List.replicate_append_replicate] at hmore
  rw [← TokenChain.map_token_links, ← TokenChain.map_token_links]
  exact hmore.map Link.token

end Request

namespace Reader

open Parse Request

variable {reader : Reader} {text : String}

/-- The reader has chained what eager reading chains, and has come as far. -/
structure Eager (reader : Reader) (text : String) : Prop where
  cursor : reader.cursor = (eager text reader.chain.size).cursor
  chain : reader.chain = (eager text reader.chain.size).chain

theorem eager_ofText (text : String) : (Reader.ofText text.toList).Eager text := ⟨rfl, rfl⟩

/-- A lexeme is chained by eager reading as well. -/
theorem Eager.pass (h : reader.Eager text) {kind : Kind} {length : Nat}
    (hend : reader.chain.ending? = none)
    (hfirst : Lexeme.first reader.cursor.rest = .ok (kind, length)) :
    (reader.pass kind length).Eager text := by
  have hsize : (reader.pass kind length).chain.size = reader.chain.size + 1 :=
    TokenChain.size_push _ _
  have hnext : eager text (reader.chain.size + 1) =
      (eager text reader.chain.size).pass kind length := by
    rw [eager_succ, take_of_none (held_eager text _),
      scan_of_first (held_eager text _) (h.chain ▸ hend) (h.cursor ▸ hfirst)]
    rfl
  have htoken : (reader.nextLink kind length).token =
      ((eager text reader.chain.size).nextLink kind length).token := by
    unfold nextLink
    rw [← h.cursor]
  constructor
  all_goals rw [hsize, hnext]
  · show reader.cursor.advance length = (eager text reader.chain.size).cursor.advance length
    rw [← h.cursor]
  · show reader.chain.push (reader.nextLink kind length).token =
      (eager text reader.chain.size).chain.push _
    rw [htoken, ← h.chain]

theorem Eager.finds {result : Result Link} (h : reader.Eager text) (hfinds : FindsLexeme reader result) :
    Result.Meets (Eager · text) (fun error after => ¬ error.IsOpenComment → after.Eager text) result := by
  cases hfinds with
  | again => exact h
  | lexeme hend ht hl hp =>
    refine h.pass hend ?_
    rw [ht]
    exact Lexeme.first_of_isLexeme hl hp
  | @fault fault n _ _ hdrop =>
    intro hclosed
    have hne : fault ≠ .unterminatedComment := by
      rintro rfl
      exact hclosed trivial
    show (reader.drop n).Eager text
    rwa [hdrop hne, drop_zero]

theorem law_eager (text : String) : Law (Eager · text)
    fun error after => ¬ error.IsOpenComment → after.Eager text where
  alike h hcursor hchain := ⟨by rw [hcursor, hchain]; exact h.cursor, by rw [hchain]; exact h.chain⟩
  placeless _ h _ := h
  finds h hfinds := h.finds hfinds

end Reader

namespace Request

open Reader

variable {text : String} {requests : List Request}

theorem eager_session (hplain : ∀ request ∈ requests, request.isPlain = true)
    (hclosed : ∀ error ∈ (session text requests).1, ¬ error.IsOpenComment) :
    (session text requests).2.Eager text :=
  (answer_upholds (fun request hr => act_upholds (law_eager text) (hplain request hr))
    (fun error he _ hafter => hafter (hclosed error he)) (eager_ofText text)).1

/-- In whatever order tokens and names are asked for, looked ahead for and put back, as long as every
comment is closed: the chain is that of eager reading, and so all further tokens are the same. Of two
such sessions one has the tokens of the other, and maybe more. -/
theorem session_eager (hplain : ∀ request ∈ requests, request.isPlain = true)
    (hclosed : ∀ error ∈ (session text requests).1, ¬ error.IsOpenComment) :
    (session text requests).2.chain = (eager text (session text requests).2.chain.size).chain ∧
    (∀ n, (session text requests).2.chain.size ≤ n →
      (session text requests).2.chain.toList <+: (eager text n).chain.toList) ∧
    ∀ others, (∀ request ∈ others, request.isPlain = true) →
      (∀ error ∈ (session text others).1, ¬ error.IsOpenComment) →
      (session text requests).2.chain.toList <+: (session text others).2.chain.toList ∨
        (session text others).2.chain.toList <+: (session text requests).2.chain.toList := by
  have hchain := (eager_session hplain hclosed).chain
  refine ⟨hchain, fun n hn => ?_, fun others hplain' hclosed' => ?_⟩
  · rw [hchain]
    exact eager_extends text hn
  · have hchain' := (eager_session hplain' hclosed').chain
    rw [hchain, hchain']
    exact (Nat.le_total _ _).imp (eager_extends text) (eager_extends text)

/-- A blank that is held is dropped, a token is put back and taken again, and the character that begins
no lexeme is met twice. -/
theorem session_eager_dots :
    let requests := [peekSignificant, takeName true, putBack 0, take, takeName true, putBack 1, peek,
      takeSignificant, takeName false, putBack 0, take, take]
    (session "a .b. c%" requests).1 =
        .replicate 2 (.lexical (.unexpectedCharacter '%') ⟨7, 1, 8⟩) ∧
      (session "a .b. c%" requests).2.chain.toList.map Token.raw = ["a", " ", ".", "b", ".", " ", "c"] ∧
      (session "a .b. c%" requests).2.chain.toList <+: (eager "a .b. c%" 9).chain.toList := by
  intro requests
  have herrors : (session "a .b. c%" requests).1 =
      .replicate 2 (.lexical (.unexpectedCharacter '%') ⟨7, 1, 8⟩) := by decide +kernel
  have hraws : (session "a .b. c%" requests).2.chain.toList.map Token.raw =
      ["a", " ", ".", "b", ".", " ", "c"] := by decide +kernel
  have hsize : (session "a .b. c%" requests).2.chain.size ≤ 9 := by decide +kernel
  obtain ⟨-, hprefix, -⟩ := @session_eager "a .b. c%" requests (by decide)
    (by rw [herrors]; simp [Error.IsOpenComment])
  exact ⟨herrors, hraws, hprefix 9 hsize⟩

end Request

end ThriftSyntax
