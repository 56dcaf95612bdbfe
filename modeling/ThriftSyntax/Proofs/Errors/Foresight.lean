import ThriftSyntax.Parse
import ThriftSyntax.Proofs.Coupling.Definition
import ThriftSyntax.Proofs.Lexeme.Fault

/-!
# How far a parse looks ahead

To know a lexeme it is enough to know two characters behind it. So a text that fails is refused for what
was read of it and at most two characters more: whatever comes after that, the error is the same.
-/

namespace ThriftSyntax

namespace Lexeme

/-! ## Two characters ahead -/

/-- Two texts that begin with the same two characters, or are the same and shorter. -/
inductive Alike : List Char → List Char → Prop
  | nil : Alike [] []
  | one (c : Char) : Alike [c] [c]
  | more (c d : Char) (text text' : List Char) : Alike (c :: d :: text) (c :: d :: text')

variable {kind : Kind} {raw rest rest' : List Char}

theorem alike_of_take (h : rest.take 2 = rest'.take 2) : Alike rest rest' := by
  match rest, rest', h with
  | [], [], _ => exact .nil
  | [c], [d], h =>
    obtain rfl : c = d := by simpa using h
    exact .one c
  | c :: d :: text, c' :: d' :: text', h =>
    obtain ⟨rfl, rfl⟩ : c = c' ∧ d = d' := by simpa using h
    exact .more c d text text'

/-- A text that begins like another one, also in the two characters that come next. -/
theorem exists_alike {front text : List Char}
    (h : text.take (front.length + 2) = (front ++ rest).take (front.length + 2)) :
    ∃ rest', text = front ++ rest' ∧ Alike rest rest' := by
  rw [List.take_length_add_append] at h
  have hfront := congrArg (List.take front.length) h
  have hrest := congrArg (List.drop front.length) h
  rw [List.take_take, Nat.min_eq_left (by omega), List.take_left] at hfront
  rw [List.drop_left, List.drop_take, Nat.add_sub_cancel_left] at hrest
  exact ⟨text.drop front.length,
    (List.take_append_drop front.length text).symm.trans (by rw [hfront]), alike_of_take hrest.symm⟩

namespace Alike

theorem append (h : Alike rest rest') (front : List Char) : Alike (front ++ rest) (front ++ rest') := by
  match front with
  | [] => exact h
  | [c] => cases h with
    | nil => exact .one c
    | one d => exact .more c d [] []
    | more d e text text' => exact .more c d _ _
  | c :: d :: front => exact .more c d _ _

theorem head?_eq (h : Alike rest rest') : rest.head? = rest'.head? := by
  cases h <;> rfl

theorem startsComment_eq (h : Alike rest rest') : startsComment rest = startsComment rest' := by
  cases h with
  | nil | one => rfl
  | more c d text text' =>
    unfold startsComment
    split <;> simp_all

theorem startsTrivia_eq (h : Alike rest rest') : startsTrivia rest = startsTrivia rest' := by
  have hcomment := h.startsComment_eq
  cases h with
  | nil | one => rfl
  | more c d text text' => rw [startsTrivia, startsTrivia, hcomment]

theorem signed?_eq (h : Alike rest rest') : (signed? rest).isSome = (signed? rest').isSome := by
  cases h with
  | nil | one => rfl
  | more c d text text' =>
    unfold signed?
    split <;> split <;> simp_all

theorem endsBefore (h : Alike rest rest') (hend : EndsBefore kind raw rest) :
    EndsBefore kind raw rest' := by
  cases kind with
  | endOfInput =>
    obtain rfl : rest = [] := hend
    cases h
    rfl
  | ident | keyword word =>
    intro c hc
    exact hend c (h.head?_eq ▸ hc)
  | number =>
    refine ⟨fun c hc => hend.1 c (h.head?_eq ▸ hc), hend.2.imp_right fun hpoint => ?_⟩
    rintro c text rfl
    cases h with
    | more _ _ text => exact hpoint c text rfl
  | comment => exact hend.imp_right fun hline c hc => hline c (h.head?_eq ▸ hc)
  | string | blank | punct => trivial

theorem isLexeme (h : Alike rest rest') (hl : IsLexeme kind raw rest) : IsLexeme kind raw rest' :=
  ⟨hl.spells, h.endsBefore hl.ends⟩

theorem stray {c : Char} (h : Alike rest rest') (hs : Stray c rest) : Stray c rest' :=
  { hs with head := h.head?_eq ▸ hs.head, comment := h.startsComment_eq ▸ hs.comment }

end Alike

end Lexeme

/-! ## Texts that agree up to a place

The first text is read up to where `y` begins, and the other goes on with `y'` there. -/

variable {y y' : List Char} {r s : Reader} {kind : Kind} {raw tail : List Char}

open Parse Lexeme

namespace Reader

/-- Two readers with nothing put back that have read the same, and have the same to read up to where the
one goes on with `y` and the other with `y'`. -/
structure Agree (y y' : List Char) (r s : Reader) : Prop where
  freed : r.held = none ∧ s.held = none
  sound : r.Sound
  chain : r.chain = s.chain
  location : r.cursor.location = s.cursor.location
  rest : ∃ x, r.cursor.rest = x ++ y ∧ s.cursor.rest = x ++ y'

namespace Agree

theorem round (h : Agree y y' r s) : Agree y y' r.round s.round :=
  ⟨h.freed, (Move.round r).sound h.sound, h.chain, h.location, h.rest⟩

theorem alike (h : Agree y y' r s) (hy : Alike y y') : Alike r.cursor.rest s.cursor.rest := by
  obtain ⟨x, hr, hs⟩ := h.rest
  rw [hr, hs]
  exact hy.append x

/-- A lexeme of the first text is beyond the place where the texts part, or else it is one of the other
text too, and what is read of it is the same. -/
theorem read (h : Agree y y' r s) (hy : Alike y y') (hn : raw = [] → r.chain.ending? = none)
    (ht : r.cursor.rest = raw ++ tail) (hl : IsLexeme kind raw tail) :
    tail.length < y.length ∨ ∃ tail', s.cursor.rest = raw ++ tail' ∧ IsLexeme kind raw tail' ∧
      r.nextLink kind raw.length = s.nextLink kind raw.length ∧
      Agree y y' (r.pass kind raw.length) (s.pass kind raw.length) := by
  obtain ⟨x, hr, hs⟩ := h.rest
  obtain hlt | ⟨x, rfl, rfl⟩ : tail.length < y.length ∨ ∃ x', x = raw ++ x' ∧ tail = x' ++ y := by
    rcases List.append_eq_append_iff.1 (hr.symm.trans ht) with ⟨more, rfl, rfl⟩ | ⟨x, rfl, rfl⟩
    · cases more with
      | nil => exact .inr ⟨[], by simp⟩
      | cons c more =>
        refine .inl ?_
        rw [List.length_append, List.length_cons]
        omega
    · exact .inr ⟨x, rfl, rfl⟩
  · exact .inl hlt
  have hlike := hy.append x
  rw [List.append_assoc] at hs
  have hnext : r.nextLink kind raw.length = s.nextLink kind raw.length := by
    rw [nextLink, nextLink, h.chain, h.location, ht, hs, List.take_left, List.take_left]
  refine .inr ⟨x ++ y', hs, hlike.isLexeme hl, hnext, h.freed,
    (h.sound.lexeme h.freed.1 hn ht hl).sound h.sound, ?_, ?_, x, rest_pass ht kind, rest_pass hs kind⟩
  · rw [pass, pass, h.chain, hnext]
  · rw [pass, pass, Cursor.location_advance, Cursor.location_advance, h.location, ht, hs]
    exact Location.advance_congr _ _ hlike.head?_eq

end Agree

end Reader

theorem Reader.Agree.fault {fault : Fault} (h : Reader.Agree y y' r s) (hy : Alike y y')
    (hfirst : first r.cursor.rest = .error fault) :
    fault = .unterminatedComment ∨ first s.cursor.rest = .error fault := by
  rcases first_eq_error hfirst with ⟨c, rfl, hstray⟩ | ⟨hfault, -⟩
  · exact .inr (first_of_stray ((h.alike hy).stray hstray))
  · exact .inl hfault

/-! ## The coupling of two texts -/

/-- Runs of two texts that agree up to a place, as long as the first one is not beyond it. -/
def foreseeing (y y' : List Char) (hy : Alike y y') : TokenCoupling where
  errors := Eq
  failed _ := True
  gone reader := reader.cursor.rest.length < y.length
  exempt error _ := error = .stalled ∨ error.IsUnterminated
  gone_onward h hgone := Nat.lt_of_le_of_lt h.rest.length_le hgone
  exempt_stalled _ := .inl rfl
  left := id
  right := id
  links := Eq
  words := Eq
  trail xs ys r s := xs = ys ∧ Reader.Agree y y' r s
  amid := Reader.Agree y y'
  kind_eq := congrArg Link.kind
  raw_eq := congrArg Link.raw
  id_eq := congrArg Link.id
  links_of_words := by
    rintro xs _ rfl
    exact List.forall₂_same.2 fun _ _ => rfl
  words_of_trail h := h.1
  freed h := h.2.freed
  free_of_trail h := ⟨rfl, h.2⟩
  trail_round h := ⟨h.1, h.2.round⟩
  amid_round h := h.round
  amid_freed h := h.freed
  amid_of_free h := h.2
  dot_iff h := by rw [Cursor.peek?, Cursor.peek?, (h.2.alike hy).head?_eq]
  peek_eq h _ := (h.2.alike hy).head?_eq
  signed_eq h _ := (h.2.alike hy).signed?_eq
  ending := by
    rintro xs _ r s ⟨rfl, h⟩
    rw [← h.chain]
    cases r.chain.ending? with
    | none => exact .inl ⟨rfl, rfl⟩
    | some link => exact .inr ⟨link, link, rfl, rfl, rfl, rfl, h⟩
  read := by
    rintro xs _ r s kind raw tail ⟨rfl, h⟩ hn ht hl -
    rcases h.read hy hn ht hl with hlt | ⟨tail', hs, hl', hlink, hpass⟩
    · exact .inl (by rwa [Reader.rest_pass ht])
    · exact .inr ⟨tail', hs, hl', hlink, by rw [hlink], hpass⟩
  readTrivia := by
    rintro r s kind raw tail ⟨-, h⟩ ht hl hk
    have hne := hl.spells.ne_nil (ne_endOfInput_of_trivia hk)
    rcases h.read hy (absurd · hne) ht hl with hlt | ⟨tail', hs, hl', -, hpass⟩
    · exact .inl (by rwa [Reader.rest_pass ht])
    · exact .inr ⟨kind, raw, tail', hs, hl', hk, hpass⟩
  chainTrivia := by
    refine (chainTrivia_couples (P := Reader.Agree y y') (fun h => h.freed) (fun h => h.round)
      (fun h => (h.alike hy).startsTrivia_eq) ?_ ?_ ?_).weaken fun h => ⟨⟨rfl, h.1⟩, h.2⟩
    · intro r s h hrest
      have hn := h.sound.ending?_eq_none (ne_nil_of_startsTrivia hrest)
      exact ⟨hn, h.chain ▸ hn⟩
    · intro r s kind raw tail h ht hl hk
      have hne := hl.spells.ne_nil (ne_endOfInput_of_trivia hk)
      rcases h.read hy (absurd · hne) ht hl with hlt | ⟨tail', hs, hl', -, hpass⟩
      · refine .inl ?_
        dsimp only
        rwa [Reader.rest_pass ht]
      · exact .inr ⟨tail', hs, hl', hpass⟩
    · intro r s fault h hfirst
      rcases h.fault hy hfirst with rfl | hfirst'
      · exact .inl fun _ => .inr trivial
      · exact .inr ⟨hfirst', fun _ => trivial, by rw [h.location]⟩
  fault := by
    rintro r s fault ⟨-, h⟩ hfirst
    rcases h.fault hy hfirst with rfl | hfirst'
    · exact .inl fun _ => .inr trivial
    · exact .inr ⟨hfirst', fun _ => trivial, by rw [h.location]⟩
  unclosed _ _ _ _ := .inl fun _ => .inr trivial
  failed_of_free _ := trivial
  failed_hold _ _ _ := trivial
  failed_trivia _ _ := trivial
  unexpected h _ := by rw [h]
  invalid h _ := by rw [h]
  misplaced := by
    rintro ⟨_, _⟩ ⟨_, _⟩ h -
    cases h
    rfl
  named := by
    rintro ⟨_, _⟩ ⟨_, _⟩ h -
    cases h
    rfl

namespace SyntaxTree

variable {text text' : String} {options : Options} {error : Error} {after : Reader}

/-- A text that is refused, but not for a comment or a string without an end, is refused for what was
read of it and two characters more: every text that begins in the same way is refused for the same
reason, at the same place. -/
theorem ofText_error_of_take (h : Grammar.document options (.ofText text.toList) = .error error after)
    (herror : ¬ error.IsUnterminated)
    (htake : text'.toList.take (text.length - after.cursor.left + 2) =
      text.toList.take (text.length - after.cursor.left + 2)) :
    ofText text' options = .error error := by
  have hrun : (Call.document options).run (.ofText text.toList) = .error error after :=
    map_eq_error.2 h
  have honward := (Call.run_couples (S := foreseeing [] [] .nil) (.document options)).onward
    (.ofText text.toList)
  rw [hrun] at honward
  obtain ⟨front, hfront⟩ : after.cursor.rest <:+ text.toList := honward.rest
  have hlength : text.length - after.cursor.left = front.length := by
    rw [after.cursor.left_eq, ← String.length_toList, ← hfront, List.length_append]
    omega
  rw [hlength, ← hfront] at htake
  obtain ⟨rest', hrest', hy⟩ := exists_alike htake
  have hagree : Reader.Agree after.cursor.rest rest' (.ofText text.toList) (.ofText text'.toList) :=
    ⟨⟨rfl, rfl⟩, Reader.sound_ofText _, rfl, rfl, front, hfront.symm, hrest'⟩
  have hcouples := (Call.run_couples (S := foreseeing _ _ hy) (.document options)).outcome
    (.free ⟨rfl, hagree⟩)
  have hstalled := Call.ne_stalled (.document options) (Reader.steady_ofText text.toList) hrun
  have hstalled' := fun after =>
    @Call.ne_stalled (.document options) _ after .stalled (Reader.steady_ofText text'.toList)
  rw [hrun] at hcouples
  generalize hrun' : (Call.document options).run (.ofText text'.toList) = result at hcouples
  cases hcouples with
  | error heq =>
    obtain rfl := heq
    rw [ofText, map_eq_error.1 hrun']
  | gone hgone => exact absurd hgone (Nat.lt_irrefl _)
  | exempt h => exact (h.elim hstalled herror).elim
  | stalled => exact (hstalled' _ hrun' rfl).elim

/-- A text that does not begin with a definition is refused for its first word. -/
theorem ofText_error_of_take_words :
    ∃ error after, Grammar.document {} (.ofText "i32 x;".toList) = .error error after ∧
      ¬ error.IsUnterminated ∧
      "i32 xyz (".toList.take ("i32 x;".length - after.cursor.left + 2) =
        "i32 x;".toList.take ("i32 x;".length - after.cursor.left + 2) ∧
      ofText "i32 xyz (" {} = .error error := by
  let run : Parse.Result Document := Grammar.document {} (.ofText "i32 x;".toList)
  have h : run = .error (.unexpectedToken "i32" .definition .start) run.final :=
    Result.eq_error (by decide +kernel)
  have hleft : run.final.cursor.left = 3 := by decide +kernel
  have htake : "i32 xyz (".toList.take ("i32 x;".length - run.final.cursor.left + 2) =
      "i32 x;".toList.take ("i32 x;".length - run.final.cursor.left + 2) := by
    rw [hleft]
    rfl
  exact ⟨_, _, h, fun h => h, htake, ofText_error_of_take h (fun h => h) htake⟩

end SyntaxTree

end ThriftSyntax
