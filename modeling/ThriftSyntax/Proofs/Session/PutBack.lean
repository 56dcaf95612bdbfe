import ThriftSyntax.Proofs.Session.Name
import ThriftSyntax.Proofs.Session.Rounds

/-!
# Taking a token and putting it back

Once the next token was taken and put back, it waits and its text is behind the cursor. Whatever asks for
the next token, word or character from then on treats it as it would treat the text: a blank or a comment
is passed over, and any other token begins what is read. So the results and errors are the same, and each
time the same text is left unread. Only the count of rounds may differ.
-/

namespace ThriftSyntax

open Parse Lexeme

variable {α : Type} {r s : Reader}

/-! ## The reader before a token, and the one that has put it back -/

namespace Reader

variable {reader next : Reader} {link : Link}

/-- What it is to have taken the token `link` and to be at `next` then. -/
structure Gives (reader : Reader) (link : Link) (next : Reader) : Prop where
  held : next.held = none
  mem : link ∈ next.chain.links
  text : reader.cursor.rest = link.raw.toList ++ next.cursor.rest
  head : reader.cursor.peek? = link.raw.toList.head?
  starts : startsTrivia reader.cursor.rest = link.kind.isTrivia
  /-- A blank or a comment that was taken is the first of those that would be passed over. -/
  skips : link.kind.isTrivia = true → ∀ rounds,
    Result.Coincide Matches Matches (chainTrivia reader) (chainTrivia (next.atRound rounds))

theorem Sound.gives (hs : reader.Sound) (hh : reader.held = none) (htake : take reader = .ok link next) :
    reader.Gives link next := by
  obtain ⟨-, hhands, hhead⟩ := (take_runs hs).ok link next htake
  rw [next?, hh] at hhead
  rw [take_of_none hh] at htake
  have hfinds := scan_finds hh
  rw [htake] at hfinds
  cases hfinds with
  | again hend =>
    obtain ⟨hlast, hk⟩ := ending?_eq_some hend
    have hmem := List.mem_of_getLast? hlast
    have hrest := (hs.ended link hmem hk).2
    refine ⟨hh, hmem, ?_, hhead.symm, ?_, ?_⟩
    · rw [hs.raw_eq_nil hmem hk, List.nil_append]
    · rw [hrest, hk]
      rfl
    · rw [hk]
      rintro ⟨⟩
  | lexeme hend ht hl =>
    refine ⟨hh, reader.nextLink_mem _ _, ?_, hhead.symm, ?_, fun hk rounds => ?_⟩
    · rw [nextLink_raw ht, rest_pass ht, ht]
    · rw [ht, hl.startsTrivia_eq]
      rfl
    · rw [(⟨hs, hh, hend⟩ : reader.Open).chainTrivia_pass ht hl hk]
      exact Blind.chainTrivia _ _ ⟨rounds, rfl⟩

/-- To take the token once more is to be where it was taken first. -/
theorem Gives.release_hold (h : reader.Gives link next) (rounds : Nat) :
    ((next.hold link).atRound rounds).release = next.atRound rounds :=
  congrArg (Reader.atRound · rounds) (Reader.release_hold h.held)

/-- The readers are the same but for the count of rounds, or the second one is the first after it has
taken its next token and put it back. -/
inductive Resembles (r s : Reader) : Prop
  | matching (h : r.Matches s)
  | waiting {link : Link} {next : Reader} (hs : r.Sound) (hh : r.held = none)
      (htake : take r = .ok link next) (h : (next.hold link).Matches s)

/-- The same text comes next. -/
def SameText (r s : Reader) : Prop := r.pending = s.pending

theorem Resembles.sameText (h : r.Resembles s) : r.SameText s := by
  cases h with
  | matching h =>
    obtain ⟨rounds, rfl⟩ := h
    rfl
  | waiting hs hh htake h =>
    obtain ⟨rounds, rfl⟩ := h
    have htext := (hs.gives hh htake).text
    rw [SameText, pending, hh]
    simpa [pending, atRound, hold] using htext

end Reader

/-! ## What is read from both -/

namespace Parse

open Reader

theorem take_resembles : Carries Resembles Matches Matches take := by
  intro r s h
  cases h with
  | matching h => exact Blind.take r s h
  | @waiting link next hs hh htake h =>
    obtain ⟨rounds, rfl⟩ := h
    have hgives := hs.gives hh htake
    have hheld : ((next.hold link).atRound rounds).held = some link := rfl
    rw [htake, take_of_held hheld hgives.mem, hgives.release_hold]
    exact .ok link ⟨rounds, rfl⟩

theorem peek_resembles : Carries Resembles Resembles Matches peek := by
  intro r s h
  cases h with
  | matching h => exact (Blind.peek r s h).mono .matching id
  | @waiting link next hs hh htake h =>
    obtain ⟨rounds, rfl⟩ := id h
    have hgives := hs.gives hh htake
    have hback : peek ((next.hold link).atRound rounds) =
        .ok link.raw.toList.head? ((next.hold link).atRound rounds) :=
      peek_eq fun other ho => Option.some.inj ho ▸ hgives.mem
    rw [peek_eq (by simp [hh]), hh, hback]
    exact hgives.head ▸ .ok _ (.waiting hs hh htake h)

/-- A significant token stays in the text of the one reader and with the other, and a blank or a comment
is chained with those behind it. -/
theorem skipTrivia_resembles : Carries Resembles Resembles Matches skipTrivia := by
  intro r s h
  cases h with
  | matching h => exact (Blind.skipTrivia r s h).mono .matching id
  | @waiting link next hs hh htake h =>
    obtain ⟨rounds, rfl⟩ := h
    have hgives := hs.gives hh htake
    have hheld : ((next.hold link).atRound rounds).held = some link := rfl
    rw [skipTrivia_of_held hheld hgives.mem]
    split
    · rename_i hk
      rw [skipTrivia_of_none hh, hgives.release_hold]
      exact (hgives.skips hk rounds).mono .matching id
    · rename_i hk
      rw [Bool.not_eq_true] at hk
      rw [skipTrivia_of_rest hh (hgives.starts.trans hk)]
      obtain ⟨rounds', htake'⟩ := Blind.take.exists_ok htake r.round.rounds
      exact .ok () (.waiting ((Move.round r).sound hs) hh htake' ⟨rounds, rfl⟩)

theorem takeSignificant_resembles : Carries Resembles Matches Matches takeSignificant :=
  skipTrivia_resembles.bind fun _ => take_resembles

theorem peekSignificant_resembles : Carries Resembles Resembles Matches peekSignificant :=
  skipTrivia_resembles.bind fun _ => peek_resembles

/-- What is read of a name from its first token on, where `waiting` was put back before. -/
def nameFrom (reserved : Bool) (waiting : Option Link) (first : Link) : Parse (Option DottedName) := do
  if first.kind.isWord reserved then
    return some ⟨first, ← nameTail reserved⟩
  else if first.kind = .punct .dot then
    match ← wordAfterDot? reserved with
    | some word => return some ⟨first, word :: (← nameTail reserved)⟩
    | none => return some ⟨first, []⟩
  else
    restore waiting first
    return none

theorem takeName?_apply (reserved : Bool) (reader : Reader) :
    takeName? reserved reader = (takeSignificant >>= nameFrom reserved reader.held) reader := rfl

theorem blind_nameFrom (reserved : Bool) (waiting : Option Link) (first : Link) :
    Blind (nameFrom reserved waiting first) := by
  unfold nameFrom
  split
  · exact (Blind.nameTail reserved).bind fun _ => .pure _
  · split
    · refine (Blind.wordAfterDot? reserved).bind fun word => ?_
      cases word with
      | some word => exact (Blind.nameTail reserved).bind fun _ => .pure _
      | none => exact .pure _
    · exact (Blind.restore waiting first).bind fun _ => .pure _

/-- Where nothing was put back, the first token is the last of the chain, and it makes no difference what
is said to have been put back. -/
theorem takeName?_of_none (hs : r.Sound) (hh : r.held = none) (reserved : Bool) (waiting : Option Link) :
    takeName? reserved r = (takeSignificant >>= nameFrom reserved waiting) r := by
  rw [takeName?_apply]
  cases htake : takeSignificant r with
  | error error next => rw [bind_eq_error.2 (.inl htake), bind_eq_error.2 (.inl htake)]
  | ok first next =>
    have hhands := ((takeSignificant_runs hs).ok first next htake).2
    have hlast := hhands.last (hs.steady hh)
    rw [bind_of_ok htake, bind_of_ok htake]
    unfold nameFrom
    split
    · rfl
    · split
      · rfl
      · rw [bind_of_ok (restore_eq hhands.held hlast r.held),
          bind_of_ok (restore_eq hhands.held hlast waiting)]

/-- From the first token of a name on both readers have come equally far. -/
theorem takeName?_resembles (reserved : Bool) : Carries Resembles Matches Matches (takeName? reserved) := by
  intro r s h
  have hrun := (takeSignificant_resembles.bind (blind_nameFrom reserved s.held)) r s h
  rw [takeName?_apply reserved s]
  cases h with
  | matching h =>
    obtain ⟨rounds, rfl⟩ := h
    exact hrun
  | waiting hs hh => rwa [takeName?_of_none hs hh reserved s.held]

end Parse

/-! ## One action after the other -/

/-- The actions that read tokens and names or look at what comes next, by the type of what they give. -/
inductive WordAction : Type → Type
  | take : WordAction Link
  | takeSignificant : WordAction Link
  | takeName (reserved : Bool) : WordAction (Option DottedName)
  | peek : WordAction (Option Char)
  | peekSignificant : WordAction (Option Char)

namespace WordAction

open Reader

def run : WordAction α → Parse α
  | take => Parse.take
  | takeSignificant => Parse.takeSignificant
  | takeName reserved => Parse.takeName? reserved
  | peek => Parse.peek
  | peekSignificant => Parse.peekSignificant

/-- What each of the actions gives, where an error does not end their course, and the reader after it. -/
def answers : List (Sigma WordAction) → Reader → List (Sigma (Except Error)) × Reader
  | [], reader => ([], reader)
  | ⟨α, action⟩ :: actions, reader =>
    match action.run reader with
    | .ok a after => ((answers actions after).1.cons ⟨α, .ok a⟩, (answers actions after).2)
    | .error error after =>
      ((answers actions after).1.cons ⟨α, .error error⟩, (answers actions after).2)

theorem run_resembles (action : WordAction α) : Carries Resembles Resembles Matches action.run := by
  cases action with
  | take => exact take_resembles.mono .matching
  | takeSignificant => exact takeSignificant_resembles.mono .matching
  | takeName reserved => exact (takeName?_resembles reserved).mono .matching
  | peek => exact peek_resembles
  | peekSignificant => exact peekSignificant_resembles

theorem answers_resembles (actions : List (Sigma WordAction)) (h : r.Resembles s) :
    (answers actions r).1 = (answers actions s).1 ∧
      (answers actions r).2.Resembles (answers actions s).2 := by
  induction actions generalizing r s with
  | nil => exact ⟨rfl, h⟩
  | cons first actions ih =>
    obtain ⟨α, action⟩ := first
    have hrun := action.run_resembles r s h
    rw [answers, answers]
    generalize action.run r = x at hrun
    generalize action.run s = y at hrun
    cases hrun with
    | ok a h =>
      obtain ⟨hanswers, hlast⟩ := ih h
      exact ⟨congrArg (List.cons _) hanswers, hlast⟩
    | error error h =>
      obtain ⟨hanswers, hlast⟩ := ih (.matching h)
      exact ⟨congrArg (List.cons _) hanswers, hlast⟩

end WordAction

namespace Reader

open WordAction

/-- No action on words can tell the readers apart. -/
structure Indistinct (r s : Reader) : Prop where
  /-- Each gives the same result or error, and leaves the same text to be read. -/
  action : ∀ {α} (action : WordAction α), Result.Coincide SameText SameText (action.run r) (action.run s)
  /-- So does each of many, one after the other. -/
  actions : ∀ actions, (answers actions r).1 = (answers actions s).1 ∧
    (answers actions r).2.SameText (answers actions s).2

theorem Resembles.indistinct (h : r.Resembles s) : r.Indistinct s where
  action action := (action.run_resembles r s h).mono Resembles.sameText fun h =>
    Resembles.sameText (.matching h)
  actions actions := by
    obtain ⟨hanswers, hlast⟩ := answers_resembles actions h
    exact ⟨hanswers, hlast.sameText⟩

/-- Where nothing waits, a token that is taken may be put back, and that makes no difference. -/
def TakesBack (reader : Reader) : Prop :=
  reader.held = none → ∀ {link next}, Parse.take reader = .ok link next →
    ∃ back, putBack link next = .ok () back ∧ reader.Indistinct back

theorem Sound.takesBack {reader : Reader} (hs : reader.Sound) : reader.TakesBack := by
  intro hh link next htake
  exact ⟨next.hold link, putBack_eq (hs.gives hh htake).held link,
    (Resembles.waiting hs hh htake ⟨_, rfl⟩).indistinct⟩

end Reader

/-- Whatever was asked of a reader, or called upon a parser and at every point of a further call, also
after errors: to take the next token and to put it back is not noticed by any action on words. -/
theorem session_takesBack (text : String) :
    (∀ requests, (Request.session text requests).2.TakesBack) ∧
      ∀ calls inside, Reader.Moves (Call.resume calls (.ofText text.toList)) inside →
        inside.TakesBack := by
  refine ⟨fun requests => (Request.session_sound text requests).takesBack, fun calls inside h => ?_⟩
  have hs := Call.resume_steady calls (Reader.steady_ofText text.toList)
  exact (h.sound hs.toSound).takesBack

/-- A blank is put back in front of a comment and a name. The name is read all the same, and the blank and
the open comment behind its last dot are left. -/
theorem session_takesBack_comment :
    let reader := (Request.session "x /*c*/a. /*" [.take]).2
    ∃ link next back words after, Parse.take reader = .ok link next ∧ link.kind = .blank .space ∧
      Parse.putBack link next = .ok () back ∧ Parse.takeName? false back = .ok (some words) after ∧
      words.text = "a." ∧ after.pending = [' ', '/', '*'] := by
  intro reader
  obtain ⟨next, htake⟩ := exists_of_run'
    (show Parse.take.run' reader = some ⟨1, .blank .space, " ", ⟨1, 1, 2⟩⟩ by decide)
  obtain ⟨back, hback, hsame⟩ :=
    (session_takesBack "x /*c*/a. /*").1 [.take] (show reader.held = none by decide) htake
  obtain ⟨found, last, hrun, hlast⟩ : ∃ found last, Parse.takeName? false reader = .ok found last ∧
      (found.map DottedName.text, last.pending) = (some "a.", [' ', '/', '*']) := by
    obtain ⟨_, h⟩ := exists_of_run' (show (do
      let found ← Parse.takeName? false
      return (found.map DottedName.text, (← get).pending)).run' reader =
        some (some "a.", [' ', '/', '*']) by decide +kernel)
    obtain ⟨found, last, hrun, hrest⟩ := bind_eq_ok.1 h
    exact ⟨found, last, hrun, (pure_eq_ok.1 hrest).1⟩
  obtain ⟨hfound, hpending⟩ := Prod.mk.inj hlast
  obtain ⟨words, rfl, htext⟩ := Option.map_eq_some_iff.1 hfound
  have hname := hsame.action (.takeName false)
  rw [show (WordAction.takeName false).run reader = _ from hrun] at hname
  generalize hrun' : (WordAction.takeName false).run back = result at hname
  cases hname with
  | ok _ h => exact ⟨_, next, back, words, _, htake, rfl, hback, hrun', htext, h.symm.trans hpending⟩

end ThriftSyntax
