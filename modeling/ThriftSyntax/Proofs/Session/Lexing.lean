import ThriftSyntax.Proofs.Session.Token

/-!
# Sessions of lexing

Tokens may be asked for in any way and in any order, and asked for again after an error. Whatever the
session, the chain only grows, its tokens stand in the text where they say, and while no string or
comment was left open they make up the text that the cursor has passed.
-/

namespace ThriftSyntax

/-- What may be asked of a reader. -/
inductive Request where
  | take
  | takeSignificant
  | takeName (reserved : Bool)
  | takeString
  | takeNumber
  | peek
  | peekSignificant
  /-- Puts back the token `id`, if it is one of the chain and no other one waits. -/
  | putBack (id : Nat)
deriving DecidableEq, Repr

namespace Request

def act : Request → Parse Unit
  | take => discard Parse.take
  | takeSignificant => discard Parse.takeSignificant
  | takeName reserved => discard (Parse.takeName? reserved)
  | takeString => discard Parse.takeString?
  | takeNumber => discard Parse.takeNumber
  | peek => discard Parse.peek
  | peekSignificant => discard Parse.peekSignificant
  | putBack id => do
    let reader ← get
    match reader.held, reader.chain.link? id with
    | none, some link => Parse.putBack link
    | _, _ => return ()

/-- The errors that a session meets, and the reader after it. -/
def answer : List Request → Reader → List Error × Reader
  | [], reader => ([], reader)
  | request :: requests, reader =>
    match request.act reader with
    | .ok _ after => answer requests after
    | .error error after => ((answer requests after).1.cons error, (answer requests after).2)

end Request

namespace Reader

variable {reader after : Reader} {text : List Char} {errors : List Error}

/-- What one request may do: it makes moves, or it meets an error. -/
structure Follows (reader : Reader) (errors : List Error) (after : Reader) : Prop where
  extends_links : reader.chain.links <+: after.chain.links
  sound : reader.Sound → after.Sound
  standsIn : ∀ {text}, reader.StandsIn text → after.StandsIn text
  keeps : (∀ error ∈ errors, ¬ error.IsUnterminated) → ∀ {text}, reader.Keeps text → after.Keeps text

theorem Moves.follows (h : Moves reader after) : reader.Follows [] after :=
  ⟨h.links_prefix, h.sound, h.standsIn, fun _ => h.keeps⟩

theorem Follows.trans {between : Reader} {more : List Error} (h : reader.Follows errors between)
    (h' : between.Follows more after) : reader.Follows (errors ++ more) after where
  extends_links := h.extends_links.trans h'.extends_links
  sound hs := h'.sound (h.sound hs)
  standsIn hs := h'.standsIn (h.standsIn hs)
  keeps herrors _ hk := by
    obtain ⟨herrors, hmore⟩ := List.forall_mem_append.1 herrors
    exact h'.keeps hmore (h.keeps herrors hk)

theorem Fails.follows {error : Error} {c : Int} (h : reader.Fails c error after) :
    reader.Follows [error] after := by
  obtain ⟨-, between, hleads, rfl | ⟨hun, n, rfl⟩⟩ := h
  · exact ⟨hleads.moves.links_prefix, hleads.moves.sound, hleads.moves.standsIn,
      fun _ => hleads.moves.keeps⟩
  · exact ⟨hleads.moves.links_prefix, fun hs => (hleads.moves.sound hs).drop n,
      fun hs => (hleads.moves.standsIn hs).drop n, fun herrors => absurd hun (herrors error (by simp))⟩

end Reader

namespace Request

open Reader

variable {reader after : Reader}

theorem discard_runs {α : Type} {p : Parse α} {c e : Int} {Q : α → Reader → Prop}
    (h : reader.Runs p c e Q) : reader.Runs (discard p) c e fun _ _ => True :=
  Yields.map (h.mono (Int.le_refl c) (Int.le_refl e) fun _ _ _ _ => trivial)

/-- Apart from putting back, a request is an action on tokens like any other. -/
theorem act_runs {request : Request} (h : ∀ id, request ≠ putBack id) (hs : reader.Sound) :
    reader.Runs request.act 2 2 fun _ _ => True := by
  have hruns : ∀ {p : Parse Unit} {c e : Int}, c ≤ 2 → e ≤ 2 → reader.Runs p c e (fun _ _ => True) →
      reader.Runs p 2 2 fun _ _ => True := fun hc he hp => hp.mono hc he fun _ _ _ hq => hq
  cases request with
  | take => exact hruns (by decide) (by decide) (discard_runs (Parse.take_runs hs))
  | takeSignificant =>
    exact hruns (by decide) (by decide) (discard_runs (Parse.takeSignificant_runs hs))
  | takeName reserved =>
    exact hruns (by decide) (by decide) (discard_runs (Parse.takeName?_runs reserved hs))
  | takeString => exact hruns (by decide) (by decide) (discard_runs (Parse.takeString?_runs hs))
  | takeNumber => exact hruns (by decide) (by decide) (discard_runs (Parse.takeNumber_runs hs))
  | peek => exact hruns (by decide) (by decide) (discard_runs (Parse.peek_runs hs))
  | peekSignificant =>
    exact hruns (by decide) (by decide) (discard_runs (Parse.peekSignificant_runs hs))
  | putBack id => exact absurd rfl (h id)

/-- What comes of one request: moves, or an error. -/
theorem act_follows (request : Request) (hs : reader.Sound) :
    (∀ u after, request.act reader = .ok u after → reader.Follows [] after) ∧
      ∀ error after, request.act reader = .error error after → reader.Follows [error] after := by
  have hruns : ∀ {p : Parse Unit} {c e : Int}, reader.Runs p c e (fun _ _ => True) →
      (∀ u after, p reader = .ok u after → reader.Follows [] after) ∧
        ∀ error after, p reader = .error error after → reader.Follows [error] after :=
    fun h => ⟨fun u after ha => (h.ok u after ha).1.moves.follows,
      fun error after ha => (h.error error after ha).follows⟩
  cases request with
  | putBack id =>
    rw [act, Parse.get_bind]
    have hnothing : reader.Runs (pure ()) 0 0 fun _ _ => True :=
      (Leads.refl reader).pure (Int.le_refl 0) trivial
    cases hh : reader.held with
    | some held => exact hruns hnothing
    | none =>
      cases hlink : reader.chain.link? id with
      | none => exact hruns hnothing
      | some link =>
        have hmem : link ∈ reader.chain.links := by
          obtain ⟨token, htoken, rfl⟩ := Option.map_eq_some_iff.1 hlink
          exact TokenChain.mem_links htoken
        refine ⟨fun u after h => ?_, fun error after h => ?_⟩
        · obtain ⟨-, rfl⟩ := EStateM.Result.ok.inj ((Parse.putBack_eq hh link).symm.trans h)
          exact ⟨List.prefix_refl _, fun hs => hs.hold hmem,
            fun hs => ⟨hs.passed, hs.tokens, hs.apart, hs.behind⟩, fun _ _ hk => hk⟩
        · cases (Parse.putBack_eq hh link).symm.trans h
  | _ => exact hruns (act_runs (by simp) hs)

theorem answer_follows (requests : List Request) (hs : reader.Sound) :
    reader.Follows (answer requests reader).1 (answer requests reader).2 := by
  induction requests generalizing reader with
  | nil => exact Moves.follows .refl
  | cons request requests ih =>
    obtain ⟨hok, herror⟩ := act_follows request hs
    rw [answer]
    cases hact : request.act reader with
    | ok u after =>
      have h := hok u after hact
      exact h.trans (ih (h.sound hs))
    | error error after =>
      have h := herror error after hact
      exact h.trans (ih (h.sound hs))

theorem answer_append (requests more : List Request) (reader : Reader) :
    (answer (requests ++ more) reader).2 = (answer more (answer requests reader).2).2 := by
  induction requests generalizing reader with
  | nil => rfl
  | cons request requests ih =>
    rw [List.cons_append, answer, answer]
    cases request.act reader with
    | ok u after => exact ih after
    | error error after => exact ih after

end Request

/-- What the chain says about the text it was read from. -/
structure Reader.Faithful (reader : Reader) (text : String) : Prop where
  /-- Each token stands in the text at the byte it says. -/
  slices : ∀ token ∈ reader.chain.toList, IsSlice text token.location.offset token.raw
  /-- The tokens stand one behind the other. -/
  apart : reader.chain.toList.Pairwise fun a b => a.stop ≤ b.location.offset
  /-- Every token but the end of the input has a text. -/
  spelled : ∀ token ∈ reader.chain.toList, token.kind ≠ .endOfInput → token.raw ≠ ""
  /-- The end of the input is the last token, and nothing is left to be read. -/
  ended : ∀ id token, reader.chain.get? id = some token → token.kind = .endOfInput →
    id + 1 = reader.chain.size ∧ reader.cursor.rest = []

namespace Reader

variable {reader : Reader}

theorem Sound.faithful (hs : reader.Sound) {text : String} (ht : reader.StandsIn text.toList) :
    reader.Faithful text where
  slices token h := (ht.tokens token h).isSlice
  apart := ht.apart
  spelled token h hk hraw := by
    obtain ⟨id, hid⟩ := List.getElem?_of_mem h
    have hmem : ⟨id, token⟩ ∈ reader.chain.links :=
      TokenChain.mem_links (by simpa [TokenChain.get?, TokenChain.toList] using hid)
    refine hs.raw_ne_nil hmem hk ?_
    simpa [Link.raw] using hraw
  ended id token hid hk := by
    obtain ⟨hlast, hrest⟩ := hs.ended ⟨id, token⟩ (TokenChain.mem_links hid) hk
    exact ⟨TokenChain.id_of_getLast? hlast, hrest⟩

end Reader

namespace Request

open Reader

/-- A session on a text: the errors it meets, and the reader after it. -/
def session (text : String) (requests : List Request) : List Error × Reader :=
  answer requests (.ofText text.toList)

/-- Whatever is asked for, also after errors: no token ever changes, the tokens are what stands in the
text, and they are all that was passed unless a string or a comment was left open. -/
theorem session_faithful (text : String) (requests more : List Request) :
    (∀ id token, (session text requests).2.chain.get? id = some token →
      (session text (requests ++ more)).2.chain.get? id = some token) ∧
    (session text requests).2.Faithful text ∧
    ∃ passed, text = passed ++ String.ofList (session text requests).2.cursor.rest ∧
      (session text requests).2.cursor.location.offset = passed.utf8ByteSize ∧
      ((∀ error ∈ (session text requests).1, ¬ error.IsUnterminated) →
        (session text requests).2.chain.source = passed) := by
  have hfollows := answer_follows requests (sound_ofText text.toList)
  have hsound := hfollows.sound (sound_ofText text.toList)
  have hstands := hfollows.standsIn (standsIn_ofText text.toList)
  refine ⟨fun id token hid => ?_, hsound.faithful hstands, ?_⟩
  · have hmore := (answer_follows more hsound).extends_links
    rw [session, answer_append]
    exact TokenChain.get?_of_mem (hmore.subset (TokenChain.mem_links hid))
  · obtain ⟨passed, htext, hplace⟩ := hstands.passed
    have hoffset : (session text requests).2.cursor.location.offset = byteSize passed := by
      rw [session, hplace, htext, Location.offset_advance]
      exact Nat.zero_add _
    refine ⟨String.ofList passed, ?_, hoffset, fun herrors => ?_⟩
    · rw [← String.toList_inj, String.toList_append, String.toList_ofList, String.toList_ofList]
      exact htext
    · have hkeeps := hfollows.keeps herrors (keeps_ofText text.toList)
      rw [← String.toList_inj, String.toList_ofList]
      exact List.append_cancel_right (hkeeps.trans htext)

/-- A character that begins no lexeme is met twice; a token put back in between is given out again. -/
theorem session_faithful_percent :
    let session := session "a: %" [.take, .take, .take, .take, .putBack 1, .peek, .take, .take]
    session.1 = .replicate 2 (.lexical (.unexpectedCharacter '%') ⟨3, 1, 4⟩) ∧
      session.2.Faithful "a: %" ∧ session.2.chain.source = "a: " := by
  obtain ⟨-, hfaithful, passed, htext, -, hsource⟩ := session_faithful "a: %"
    [.take, .take, .take, .take, .putBack 1, .peek, .take, .take] []
  have herrors : (session "a: %" [.take, .take, .take, .take, .putBack 1, .peek, .take, .take]).1 =
      .replicate 2 (.lexical (.unexpectedCharacter '%') ⟨3, 1, 4⟩) := by decide
  have hrest : (session "a: %" [.take, .take, .take, .take, .putBack 1, .peek, .take,
      .take]).2.cursor.rest = ['%'] := by decide
  refine ⟨herrors, hfaithful, ?_⟩
  rw [hsource (by rw [herrors]; simp [Error.IsUnterminated])]
  rw [hrest, show "a: %" = "a: " ++ String.ofList ['%'] by decide] at htext
  exact (String.append_left_inj _).1 htext.symm

end Request

end ThriftSyntax
