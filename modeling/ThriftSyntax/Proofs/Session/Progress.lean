import ThriftSyntax.Proofs.Session.Recursion
import ThriftSyntax.Proofs.Session.Safety

/-!
# Progress of sessions of parsing

Whatever the text, every round of a repetition and every recursive run of a rule comes after tokens
were read, where a token that was put back does not count as read. So the rounds are linear in the length
of the text, and neither the levels of recursion nor the tokens are more than its characters and one.
-/

namespace ThriftSyntax

namespace Reader

variable {reader after : Reader} {limit : Nat}

/-! ## Tokens that were read -/

/-- How many tokens were read and not put back. -/
def consumed (reader : Reader) : Nat := reader.chain.size - reader.held.elim 0 fun _ => 1

/-- What was consumed and what is unread are the tokens and the text that is left. -/
theorem Steady.spelled_consumed (hs : reader.Steady) :
    (Link.spelled (reader.chain.links.take reader.consumed)).length + reader.unread =
      (Link.spelled reader.chain.links).length + reader.cursor.rest.length := by
  unfold consumed unread
  rw [reader.cursor.left_eq]
  cases hh : reader.held with
  | none => simp [← TokenChain.length_links]
  | some link =>
    obtain ⟨front, hlinks⟩ := List.getLast?_eq_some_iff.1 (hs.slot link hh)
    have hsize : reader.chain.size - 1 = front.length := by
      simp [← TokenChain.length_links, hlinks]
    simp only [Option.elim_some, hsize, hlinks, List.take_left, Link.spelled_append,
      Link.spelled_cons, Link.spelled_nil, List.append_nil, List.length_append, String.length_toList]
    omega

theorem Moves.spelled_length (h : Moves reader after) :
    (Link.spelled after.chain.links).length + after.cursor.rest.length =
      (Link.spelled reader.chain.links).length + reader.cursor.rest.length := by
  have hkeeps : after.Keeps (reader.chain.source.toList ++ reader.cursor.rest) := h.keeps rfl
  simpa [Keeps, Link.toList_source] using congrArg List.length hkeeps

/-- Where less text is left, more tokens were consumed. -/
theorem Moves.consumed_lt (h : Moves reader after) (hs : reader.Steady)
    (hlt : after.unread < reader.unread) : reader.consumed < after.consumed := by
  have hbefore := hs.spelled_consumed
  have hafter := (h.steady hs).spelled_consumed
  have hlength := h.spelled_length
  by_contra hle
  have hprefix : (after.chain.links.take after.consumed) <+:
      reader.chain.links.take reader.consumed := by
    obtain ⟨more, hmore⟩ := h.links_prefix
    have hsize : reader.consumed ≤ reader.chain.links.length := by
      rw [TokenChain.length_links]
      exact Nat.sub_le _ _
    rw [← hmore, List.take_append_of_le_length (by omega),
      ← Nat.min_eq_left (Nat.not_lt.1 hle), ← List.take_take]
    exact List.take_prefix _ _
  obtain ⟨more, hmore⟩ := hprefix
  rw [← hmore, Link.spelled_append, List.length_append] at hbefore
  omega

/-! ## The length of the chain -/

/-- The tokens and the text that is left have at most `limit` characters. -/
def FitsIn (limit : Nat) (reader : Reader) : Prop :=
  (Link.spelled reader.chain.links).length + reader.cursor.rest.length ≤ limit

theorem Moves.fitsIn (h : Moves reader after) (hf : reader.FitsIn limit) : after.FitsIn limit := by
  unfold FitsIn
  rw [h.spelled_length]
  exact hf

theorem FitsIn.drop (hf : reader.FitsIn limit) (n : Nat) : (reader.drop n).FitsIn limit := by
  have : (reader.cursor.rest.drop n).length ≤ reader.cursor.rest.length := by simp
  unfold FitsIn at hf ⊢
  show (Link.spelled reader.chain.links).length + (reader.cursor.rest.drop n).length ≤ limit
  omega

theorem Steady.unread_le (hs : reader.Steady) (hf : reader.FitsIn limit) : reader.unread ≤ limit := by
  have := hs.spelled_consumed
  unfold FitsIn at hf
  omega

theorem length_le_spelled {links : List Link} (h : ∀ link ∈ links, link.raw.toList ≠ []) :
    links.length ≤ (Link.spelled links).length := by
  induction links with
  | nil => simp
  | cons link links ih =>
    obtain ⟨hlink, h⟩ := List.forall_mem_cons.1 h
    have := List.length_pos_of_ne_nil hlink
    have := ih h
    simp only [List.length_cons, Link.spelled_cons, List.length_append]
    omega

/-- Every token has a character of its own, but for the end of the input. -/
theorem Sound.size_le (hs : reader.Sound) (hf : reader.FitsIn limit) :
    reader.chain.size ≤ limit + 1 := by
  unfold FitsIn at hf
  rw [← TokenChain.length_links]
  obtain hnil | ⟨front, last, hlinks⟩ := List.eq_nil_or_concat' reader.chain.links
  · simp [hnil]
  have hfront : ∀ link ∈ front, link.raw.toList ≠ [] := by
    intro link hlink
    have hmem : link ∈ reader.chain.links := hlinks ▸ List.mem_append_left _ hlink
    refine hs.raw_ne_nil hmem fun hk => ?_
    -- The end of the input has the greatest id, and a token in front has the id of its place.
    have hid := TokenChain.id_of_getLast? (hs.ended link hmem hk).1
    obtain ⟨place, hplace, hget⟩ := List.getElem_of_mem hlink
    have hat : reader.chain.links[place]? = some link := by
      rw [hlinks, List.getElem?_append_left hplace, List.getElem?_eq_getElem hplace, hget]
    have hsize := congrArg List.length hlinks
    simp only [TokenChain.links, List.getElem?_mapIdx, Option.map_eq_some_iff] at hat
    obtain ⟨token, -, rfl⟩ := hat
    simp only [TokenChain.length_links, List.length_append, List.length_singleton] at hsize hid
    omega
  have := length_le_spelled hfront
  rw [hlinks] at hf ⊢
  simp only [Link.spelled_append, List.length_append, List.length_singleton] at hf ⊢
  omega

end Reader

/-! ## Rounds of repetitions and recursive runs -/

namespace Parse

variable {α β : Type} {reader : Reader}

/-- Where the step asks for another round, tokens were consumed. -/
def Advances (step : Parse (α ⊕ β)) (reader : Reader) : Prop :=
  ∀ item after, step reader = .ok (.inl item) after → reader.consumed < after.consumed

/-- Runs `action` if tokens were consumed since `start`, and `idle` if not. -/
def onward (start : Reader) (idle action : Parse α) : Parse α := fun reader =>
  if start.consumed < reader.consumed then action reader else idle reader

theorem advances_of_runs {step : Parse (α ⊕ β)} {c e : Int} {I : Reader → Prop}
    {Q : α → Reader → Prop} {R : β → Reader → Prop} (hs : reader.Steady)
    (h : reader.Runs step c e (reader.Round I Q R)) : Advances step reader := fun item after ha => by
  obtain ⟨hleads, hpaid, -⟩ := h.ok _ after ha
  exact hleads.moves.consumed_lt hs (hpaid.unread_lt (by decide))

/-- A recursion runs itself only where tokens were consumed. -/
theorem Recurses.onward_eq {body : Parse α → Parse α} {rec : Parse α} (h : Recurses body rec)
    (hs : reader.Steady) (idle : Parse α) : body (onward reader idle rec) reader.round = rec reader :=
  h hs fun _ hmoves hlt => if_pos (hmoves.consumed_lt hs hlt)

end Parse

namespace Reader

open Parse Grammar

variable {reader : Reader}

/-- Every repetition that goes on at `reader` consumes tokens in its round: chaining blanks and comments,
the dots and words of a name, definitions, elements, fields, functions, annotations, and the constants
of lists and maps. -/
structure LoopsAdvance (reader : Reader) : Prop where
  trivia : reader.held = none → Advances triviaStep reader
  name : ∀ reserved, reader.held = none → Advances (nameSegment reserved) reader
  definitions : ∀ options, Advances (definitionStep options) reader
  elements : ∀ close, Advances (itemStep close enumElement) reader
  fields : ∀ close, Advances (itemStep close field) reader
  functions : ∀ close, Advances (itemStep close function) reader
  annotations : ∀ close trailing, Advances (itemStep close (annotationItem trailing)) reader
  listItems : ∀ close, Advances (itemStep close (listItem constValue)) reader
  mapItems : ∀ close, Advances (itemStep close (mapItem constValue)) reader

theorem Steady.loopsAdvance (hs : reader.Steady) : reader.LoopsAdvance where
  trivia hh := advances_of_runs hs (triviaStep_runs hs.toSound hh)
  name reserved hh := advances_of_runs hs (nameSegment_runs reserved hs.toSound hh)
  definitions options := advances_of_runs hs (definitionStep_runs options hs)
  elements close := advances_of_runs hs <| itemStep_runs close (by decide) hs
    fun _ h => enumElement_runs (h.steady hs)
  fields close := advances_of_runs hs <| itemStep_runs close (by decide) hs
    fun _ h => field_runs (h.steady hs)
  functions close := advances_of_runs hs <| itemStep_runs close (by decide) hs
    fun _ h => function_runs (h.steady hs)
  annotations close trailing := advances_of_runs hs <| itemStep_runs close (by decide) hs
    fun _ h => annotationItem_runs trailing (h.steady hs)
  listItems close := advances_of_runs hs <| itemStep_runs close (by decide) hs
    fun _ h => listItem_runs (fun _ hb _ => constValue_runs hb) (h.steady hs) (Nat.lt_succ_self _)
  mapItems close := advances_of_runs hs <| itemStep_runs close (by decide) hs
    fun _ h => mapItem_runs (fun _ hb _ => constValue_runs hb) (h.steady hs) (Nat.lt_succ_self _)

/-- The rules for types and constants run themselves only once tokens were consumed, whatever they would
do otherwise; and they lie within themselves no more often than there are characters to be read. -/
structure RecursionsAdvance (reader : Reader) : Prop where
  types : ∀ idle, typeBody (onward reader idle fieldType) reader.round = fieldType reader
  values : ∀ idle, valueBody (onward reader idle constValue) reader.round = constValue reader
  typeDepth : ∀ deep, within deep typeBody (reader.unread + 1) reader = fieldType reader
  valueDepth : ∀ deep, within deep valueBody (reader.unread + 1) reader = constValue reader

theorem Steady.recursionsAdvance (hs : reader.Steady) : reader.RecursionsAdvance where
  types := fieldType_recurses.onward_eq hs
  values := constValue_recurses.onward_eq hs
  typeDepth deep := fieldType_recurses.within_eq deep hs (Nat.lt_succ_self _)
  valueDepth deep := constValue_recurses.within_eq deep hs (Nat.lt_succ_self _)

end Reader

namespace Call

open Reader

variable {reader : Reader} {limit : Nat}

theorem resume_fitsIn (calls : List Call) (hs : reader.Steady) (hf : reader.FitsIn limit) :
    (resume calls reader).FitsIn limit :=
  resume_induction (fun h => h.fitsIn) (fun n h => h.drop n) calls hs hf

/-- Whatever is called upon a text, and whatever came of it: at every point of a further call each
repetition and each recursion advances, the levels of recursion are bounded by the characters that are
unread, and there are no more tokens than characters and one. The call does not stall, and the rounds
it takes are linear in the length of the text. -/
theorem resume_progresses (text : String) (calls : List Call) (call : Call) :
    (∀ inside, Moves (resume calls (.ofText text.toList)) inside →
      inside.LoopsAdvance ∧ inside.RecursionsAdvance ∧ inside.unread ≤ text.length ∧
      inside.chain.size ≤ text.length + 1) ∧
    (∀ nodes after, call.run (resume calls (.ofText text.toList)) = .ok nodes after →
      after.rounds ≤ (resume calls (.ofText text.toList)).rounds + 10 * text.length + 4) ∧
    ∀ error after, call.run (resume calls (.ofText text.toList)) = .error error after →
      error ≠ .stalled ∧
      after.rounds ≤ (resume calls (.ofText text.toList)).rounds + 10 * text.length + 4 := by
  have hs := resume_steady calls (steady_ofText text.toList)
  have hfits : (resume calls (.ofText text.toList)).FitsIn text.length :=
    resume_fitsIn calls (steady_ofText text.toList)
      (by simp [FitsIn, ofText, Cursor.start, ← String.length_toList])
  have hrun := call.run_runs hs
  have hunread := hs.unread_le hfits
  refine ⟨fun inside h => ?_, fun nodes after h => ?_, fun error after h => ?_⟩
  · have hs' := h.steady hs
    exact ⟨hs'.loopsAdvance, hs'.recursionsAdvance, hs'.unread_le (h.fitsIn hfits),
      hs'.toSound.size_le (h.fitsIn hfits)⟩
  · have := (hrun.ok nodes after h).1.account_le
    unfold account at this
    omega
  · obtain ⟨hlocated, last, hlast, hafter⟩ := hrun.error error after h
    have hrounds : after.rounds = last.rounds := by
      obtain rfl | ⟨-, n, rfl⟩ := hafter
      · rfl
      · rfl
    refine ⟨?_, ?_⟩
    · rintro rfl
      cases hlocated
    · have := hlast.account_le
      unfold account at this
      omega

/-- A list that is not closed is refused within the bound. -/
theorem resume_progresses_openList :
    ∃ error after, constValue.run (resume [] (.ofText "[[1], x".toList)) = .error error after ∧
      error ≠ .stalled ∧ after.rounds ≤ 74 := by
  obtain ⟨-, -, herror⟩ := resume_progresses "[[1], x" [] constValue
  have hnone : (constValue.run.run' (resume [] (.ofText "[[1], x".toList))).isNone = true := by
    decide +kernel
  unfold EStateM.run' EStateM.run at hnone
  cases h : constValue.run (resume [] (.ofText "[[1], x".toList)) with
  | ok nodes after =>
    rw [h] at hnone
    cases hnone
  | error error after =>
    obtain ⟨hstalled, hrounds⟩ := herror error after h
    exact ⟨error, after, rfl, hstalled, hrounds⟩

end Call

end ThriftSyntax
