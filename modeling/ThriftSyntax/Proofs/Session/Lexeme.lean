import ThriftSyntax.Proofs.Errors.Location
import ThriftSyntax.Proofs.Session.Invariant

/-!
# The tokens of a session are lexemes

In any session, of lexing or of parsing and also after errors, every token is the lexeme of its kind
that stands in the text at the place of the token, and what an error says is so at its place.
-/

namespace ThriftSyntax

open Lexeme

/-- What stands in the text at the place of the token is a lexeme of its kind, and ends where the token
does. -/
def Token.IsLexemeOf (token : Token) (text : List Char) : Prop :=
  ∃ rest, token.location.Shows text (token.raw.toList ++ rest) ∧
    IsLexeme token.kind token.raw.toList rest

theorem Location.Shows.advance {place : Location} {text raw tail : List Char}
    (h : place.Shows text (raw ++ tail)) :
    (place.advance raw.length (raw ++ tail)).Shows text tail := by
  obtain ⟨front, rfl, -, rfl⟩ := h
  rw [← advance_append]
  exact shows_of_eq (by rw [List.append_assoc])

namespace Reader

/-- The cursor stands in the text, and the tokens are lexemes of it. -/
structure Lexes (reader : Reader) (text : List Char) : Prop where
  shows : reader.cursor.location.Shows text reader.cursor.rest
  tokens : ∀ token ∈ reader.chain.toList, token.IsLexemeOf text

variable {reader after : Reader} {kind : Kind} {raw tail text : List Char}

theorem lexes_ofText (text : List Char) : (Reader.ofText text).Lexes text where
  shows := @Location.shows_of_eq text text [] rfl
  tokens token h := by simp [ofText, TokenChain.toList, TokenChain.empty] at h

theorem Lexes.drop (h : reader.Lexes text) (n : Nat) : (reader.drop n).Lexes text where
  shows := by
    have hshows := h.shows
    rw [← List.take_append_drop n reader.cursor.rest] at hshows
    have hplace := hshows.advance
    rwa [List.take_append_drop, List.length_take, Location.advance_min] at hplace
  tokens := h.tokens

theorem Lexes.pass (h : reader.Lexes text) (ht : reader.cursor.rest = raw ++ tail)
    (hl : IsLexeme kind raw tail) : (reader.pass kind raw.length).Lexes text where
  shows := (h.drop raw.length).shows
  tokens token hmem := by
    rw [Reader.pass, TokenChain.toList_push, List.mem_append, List.mem_singleton] at hmem
    obtain hmem | rfl := hmem
    · exact h.tokens token hmem
    · have hraw : (reader.nextLink kind raw.length).token.raw.toList = raw := nextLink_raw ht kind
      refine ⟨tail, ?_, ?_⟩
      all_goals rw [hraw]
      · exact ht ▸ h.shows
      · exact hl

theorem Moves.lexes (hm : Moves reader after) (h : reader.Lexes text) : after.Lexes text := by
  induction hm with
  | refl => exact h
  | tail _ hmove ih =>
    cases hmove with
    | lexeme hh hn ht hl => exact ih.pass ht hl
    | round => exact ⟨ih.shows, ih.tokens⟩
    | release => exact ⟨ih.shows, ih.tokens⟩
    | hold => exact ⟨ih.shows, ih.tokens⟩

/-- What an error at a reader says of the text is so. -/
def Points (text : List Char) (error : Error) (reader : Reader) : Prop :=
  reader.Lexes text ∧ (error.location?.isSome = true → error.PointsInto text)

theorem Lexes.points {fault : Fault} (h : reader.Lexes text) (hf : fault.Stands reader.cursor.rest)
    (n : Nat) : Points text (.lexical fault reader.cursor.location) (reader.drop n) :=
  ⟨h.drop n, fun _ => ⟨_, h.shows, hf⟩⟩

open Parse

theorem Lexes.finds {result : Result Link} (h : reader.Lexes text) (hfinds : FindsLexeme reader result) :
    Result.Meets (Lexes · text) (Points text) result := by
  cases hfinds with
  | again => exact h
  | lexeme _ ht hl => exact h.pass ht hl
  | fault _ hfirst => exact h.points (stands_of_first hfirst) _

/-- Whatever is scanned, the tokens are lexemes of the text. -/
theorem law_lexes (text : List Char) : Law (Lexes · text) (Points text) where
  alike h hcursor hchain := ⟨hcursor ▸ h.shows, hchain ▸ h.tokens⟩
  placeless he h := ⟨h, fun hsome => by rw [he] at hsome; cases hsome⟩
  finds h hfinds := h.finds hfinds

theorem lexes_stringHere : Upholds (Lexes · text) (Points text) stringHere := by
  intro reader h
  have hfinds := stringHere_finds reader
  generalize stringHere reader = result at hfinds ⊢
  cases hfinds with
  | absent => exact h
  | closed hh ht hl => exact h.pass ht hl
  | unclosed hh ht hq hstring => exact h.points (ht ▸ stands_of_string hq hstring) _

theorem lexes_numberHere : Upholds (Lexes · text) (Points text) numberHere := by
  intro reader h
  have hfinds := numberHere_finds reader
  generalize numberHere reader = result at hfinds ⊢
  cases hfinds with
  | plain => exact (law_lexes text).take reader h
  | signed hh ht hl => exact h.pass ht hl

end Reader

/-! ## Sessions -/

namespace Request

open Parse Reader

variable {reader : Reader} {text : List Char}

theorem lexes_act (request : Request) : Upholds (Lexes · text) (Points text) request.act := by
  cases request with
  | takeString => exact ((law_lexes text).skipTrivia.bind fun _ => lexes_stringHere).map
  | takeNumber => exact ((law_lexes text).skipTrivia.bind fun _ => lexes_numberHere).map
  | _ => exact act_upholds (law_lexes text) rfl

/-- To put back never fails: where it cannot be done, it is not. -/
theorem act_putBack_ok (id : Nat) (reader : Reader) : ∃ after, (putBack id).act reader = .ok () after := by
  rw [act, get_bind]
  cases hh : reader.held with
  | some held => exact ⟨reader, rfl⟩
  | none =>
    cases reader.chain.link? id with
    | none => exact ⟨reader, rfl⟩
    | some link => exact ⟨_, putBack_eq hh link⟩

/-- Every error that a session of lexing meets is about a place of the text. -/
theorem answer_located (requests : List Request) (hs : reader.Sound) :
    ∀ error ∈ (answer requests reader).1, error.location?.isSome = true := by
  induction requests generalizing reader with
  | nil => simp [answer]
  | cons request requests ih =>
    obtain ⟨hok, herror⟩ := act_follows request hs
    rw [answer]
    cases hact : request.act reader with
    | ok u after => exact ih ((hok u after hact).sound hs)
    | error error after =>
      refine List.forall_mem_cons.2 ⟨?_, ih ((herror error after hact).sound hs)⟩
      by_cases hback : ∃ id, request = putBack id
      · obtain ⟨id, rfl⟩ := hback
        obtain ⟨back, hok⟩ := act_putBack_ok id reader
        cases hok.symm.trans hact
      · exact ((act_runs (fun id hid => hback ⟨id, hid⟩) hs).error error after hact).located

theorem session_lexes (text : String) (requests : List Request) :
    (session text requests).2.Lexes text.toList ∧
      ∀ error ∈ (session text requests).1, error.PointsInto text.toList := by
  have hacts : ∀ request ∈ requests, Upholds (Lexes · text.toList)
      (Points text.toList) request.act := fun request _ => lexes_act request
  obtain ⟨hlexes, herrors⟩ := answer_upholds hacts (fun _ _ _ h => h.1) (lexes_ofText text.toList)
  refine ⟨hlexes, fun error herror => ?_⟩
  obtain ⟨after, -, hpoints⟩ := herrors error herror
  exact hpoints (answer_located requests (sound_ofText text.toList) error herror)

end Request

namespace Call

open Reader

theorem resume_lexes (text : String) (calls : List Call) :
    (resume calls (.ofText text.toList)).Lexes text.toList :=
  resume_induction (fun hm h => hm.lexes h) (fun n h => h.drop n) calls (steady_ofText text.toList)
    (lexes_ofText text.toList)

theorem run_pointsInto (text : String) (calls : List Call) (call : Call) :
    ∀ error ∈ Parse.Result.error? (call.run (resume calls (.ofText text.toList))),
      error.PointsInto text.toList := by
  intro error herror
  exact ((call.run_ready (resume_steady calls (steady_ofText text.toList))
    (resume_ready calls (steady_ofText _) (tracks_ofText _).ready)).2 error _
      (Parse.Result.eq_error herror)).2

end Call

end ThriftSyntax
