import ThriftSyntax.Proofs.Reader.Literal
import ThriftSyntax.Proofs.Reader.Name
import ThriftSyntax.Proofs.Session.Run

/-!
# Runs of the readers of tokens

What comes of each action on tokens, from any sound reader. An action that gives out a token hands it
over, so that it may be put back; looking ahead costs the round in which no blank is found.
-/

namespace ThriftSyntax

namespace Reader

variable {reader after : Reader} {link : Link}

/-- The character that would be read next. -/
def next? (reader : Reader) : Option Char :=
  reader.held.elim reader.cursor.peek? (·.raw.toList.head?)

/-! ## Handing over a token -/

theorem hands_pass {kind : Kind} {raw tail : List Char} (hh : reader.held = none)
    (hn : reader.chain.ending? = none) (ht : reader.cursor.rest = raw ++ tail)
    (hl : Lexeme.IsLexeme kind raw tail) :
    reader.Hands 0 (reader.nextLink kind raw.length) (reader.pass kind raw.length) := by
  have hlast : (reader.pass kind raw.length).chain.links.getLast? =
      some (reader.nextLink kind raw.length) := by
    rw [links_pass, List.getLast?_concat]
  have hraw : (reader.nextLink kind raw.length).raw.length = raw.length := by
    rw [← String.length_toList, nextLink_raw ht]
  have hleft : reader.cursor.left = raw.length + tail.length := by
    rw [reader.cursor.left_eq, ht, List.length_append]
  refine ⟨hh, List.mem_of_getLast? hlast,
    (Relation.ReflTransGen.single (.lexeme hh hn ht hl)).tail (.hold hh hlast), ?_⟩
  simp only [account, unread, hold, pass, Cursor.left_advance, hh, Option.elim_some,
    Option.elim_none, hraw, hleft]
  omega

theorem hands_release (hs : reader.Sound) (hh : reader.held = some link) :
    reader.Hands 0 link reader.release := by
  refine ⟨rfl, hs.held_mem link hh, ?_⟩
  rw [hold_release hh]
  exact Leads.refl reader

/-- The end of the input is given out again and again. -/
theorem hands_ending (hs : reader.Sound) (hh : reader.held = none)
    (hend : reader.chain.ending? = some link) : reader.Hands 0 link reader := by
  obtain ⟨hlast, hk⟩ := ending?_eq_some hend
  have hmem := List.mem_of_getLast? hlast
  have hlength : link.raw.length = 0 := by
    rw [← String.length_toList, hs.raw_eq_nil hmem hk, List.length_nil]
  refine ⟨hh, hmem, .single (.hold hh hlast), ?_⟩
  simp only [account, unread, hold, hh, Option.elim_some, Option.elim_none, hlength]
  omega

/-- A lexeme with a text pays for ten rounds at least. -/
theorem hands_lexeme {kind : Kind} {raw tail : List Char} (hs : reader.Sound) (hh : reader.held = none)
    (ht : reader.cursor.rest = raw ++ tail) (hne : raw ≠ []) (hl : Lexeme.IsLexeme kind raw tail) :
    reader.Leads (-10) (reader.pass kind raw.length) ∧
      reader.Hands 0 (reader.nextLink kind raw.length) (reader.pass kind raw.length) := by
  have hhands := hands_pass hh (hs.ending?_eq_none (by simp [ht, hne])) ht hl
  rw [← nextLink_raw ht kind] at hne
  exact ⟨hhands.leads_lt hne, hhands⟩

end Reader

namespace Parse

open Reader

variable {reader after : Reader} {link : Link}

theorem scan_runs (hs : reader.Sound) (hh : reader.held = none) :
    reader.Runs scan 0 0 fun link after =>
      reader.Hands 0 link after ∧ link.raw.toList.head? = reader.next? := by
  have hnext : reader.next? = reader.cursor.rest.head? := by simp [next?, hh, Cursor.peek?]
  have hfinds := scan_finds hh
  rw [Runs, hnext]
  generalize scan reader = result at hfinds ⊢
  cases hfinds with
  | @again link hend =>
    have hhands := hands_ending hs hh hend
    obtain ⟨hlast, hk⟩ := ending?_eq_some hend
    have hmem := List.mem_of_getLast? hlast
    refine hhands.leads_le.ok ⟨hhands, ?_⟩
    rw [hs.raw_eq_nil hmem hk, (hs.ended link hmem hk).2]
  | @lexeme kind raw tail hend ht hl =>
    have hhands := hands_pass hh hend ht hl
    refine hhands.leads_le.ok ⟨hhands, ?_⟩
    rw [nextLink_raw ht, ht]
    by_cases hk : kind = .endOfInput
    · subst hk
      obtain rfl : tail = [] := hl.ends
      rw [List.append_nil]
    · obtain ⟨c, front, rfl⟩ := List.exists_cons_of_ne_nil (hl.spells.ne_nil hk)
      rfl
  | @fault fault n _ _ hdrop =>
    refine Fails.yields ⟨rfl, reader, Leads.refl reader, ?_⟩
    by_cases hopen : fault = .unterminatedComment
    · subst hopen
      exact .inr ⟨trivial, n, rfl⟩
    · rw [hdrop hopen]
      exact .inl (drop_zero reader)

/-- The token that is taken begins with the character that was to be read next. -/
theorem take_runs (hs : reader.Sound) :
    reader.Runs take 0 0 fun link after =>
      reader.Hands 0 link after ∧ link.raw.toList.head? = reader.next? := by
  cases hh : reader.held with
  | none =>
    rw [Runs, take_of_none hh]
    exact scan_runs hs hh
  | some link =>
    have hhands := hands_release hs hh
    rw [Runs, take_of_held hh (hs.held_mem link hh)]
    exact hhands.leads_le.ok ⟨hhands, by simp [next?, hh]⟩

theorem peek_runs (hs : reader.Sound) : reader.Runs peek 0 0 fun c after => c = after.next? := by
  rw [Runs, peek_eq hs.held_mem]
  exact (Leads.refl reader).ok rfl

/-! ## Blanks and comments -/

theorem ne_nil_of_startsTrivia {text : List Char} (h : Lexeme.startsTrivia text = true) :
    text ≠ [] := by
  rintro rfl
  cases h

/-- One round of chaining blanks and comments. -/
def triviaStep : Parse (Link ⊕ Unit) := do
  if Lexeme.startsTrivia (← get).cursor.rest then .inl <$> scan else return .inr ()

theorem chainTrivia_eq : chainTrivia = discard (repeatUntil triviaStep) := rfl

theorem triviaStep_runs (hs : reader.Sound) (hh : reader.held = none) :
    reader.Runs triviaStep 0 0
      (reader.Round (fun inside => inside.held = none) (fun _ _ => True) fun _ _ => True) := by
  rw [Runs, triviaStep, get_bind]
  split
  · rename_i hrest
    refine Yields.map ((scan_runs hs hh).mono (by decide) (by decide) fun link after _ hq => ?_)
    obtain ⟨hhands, hnext⟩ := hq
    have hne : link.raw.toList ≠ [] := by
      intro hnil
      rw [hnil, next?, hh] at hnext
      obtain ⟨c, text, ht⟩ := List.exists_cons_of_ne_nil (ne_nil_of_startsTrivia hrest)
      simp [Cursor.peek?, ht] at hnext
    exact ⟨(hhands.leads_lt hne).mono (by decide), hhands.held, trivial⟩
  · exact (Leads.refl reader).pure (by decide) trivial

theorem chainTrivia_runs (hs : reader.Sound) (hh : reader.held = none) :
    reader.Runs chainTrivia 1 1 fun _ _ => True := by
  rw [chainTrivia_eq]
  exact Yields.map ((runs_repeatUntil (fun h => h) (fun _ h => h)
    (fun _ hmoves hh _ => triviaStep_runs (hmoves.sound hs) hh) hh (Nat.le_refl _)).mono (by decide)
    (by decide) fun _ _ _ _ => trivial)

theorem skipTrivia_runs (hs : reader.Sound) : reader.Runs skipTrivia 1 1 fun _ _ => True := by
  cases hh : reader.held with
  | none =>
    rw [Runs, skipTrivia_of_none hh]
    exact chainTrivia_runs hs hh
  | some link =>
    rw [Runs, skipTrivia_of_held hh (hs.held_mem link hh)]
    split
    · have hleads := (hands_release hs hh).leads_le
      exact (hleads.yields (chainTrivia_runs (hleads.sound hs) rfl)).mono (by decide) (by decide)
        fun _ _ _ _ => trivial
    · exact ((Leads.refl reader).mono (by decide)).ok trivial

theorem peekSignificant_runs (hs : reader.Sound) :
    reader.Runs peekSignificant 1 1 fun c after => c = after.next? :=
  (skipTrivia_runs hs).bind (by decide) fun _ between h _ =>
    (h.yields (peek_runs (h.sound hs))).mono (by decide) (by decide) fun _ _ _ hq => hq.2

theorem takeSignificant_runs (hs : reader.Sound) :
    reader.Runs takeSignificant 1 1 fun link after => reader.Hands 1 link after :=
  (skipTrivia_runs hs).bind (by decide) fun _ _ h _ =>
    (h.yields (take_runs (h.sound hs))).mono (by decide) (by decide) fun _ _ _ hq =>
      h.hands hq.2.1

/-! ## Putting back -/

theorem putBackLast_yields {start : Reader} {c : Int} (h : start.Hands c link reader)
    (hlast : reader.chain.links.getLast? = some link) :
    start.Yields c c (fun _ after => after = reader.hold link) (putBackLast link reader) := by
  rw [putBackLast_eq h.held hlast]
  exact h.leads.ok rfl

/-- A token that has been read is either the one that waited or the last of the chain. -/
theorem restore_yields {start : Reader} {c : Int} (h : start.Hands c link reader) :
    start.Yields c c (fun _ after => after = reader.hold link)
      (restore start.held link reader) := by
  rw [restore]
  split
  · rw [putBack_eq h.held]
    exact h.leads.ok rfl
  · rename_i hheld
    obtain hslot | hlast := h.leads.moves.slot rfl
    · exact absurd hslot hheld
    · exact putBackLast_yields h hlast

/-! ## Names -/

theorem wordAfterDot?_runs (reserved : Bool) (hs : reader.Steady) :
    reader.Runs (wordAfterDot? reserved) 0 0 fun word after =>
      ∀ link ∈ word, after.held = none ∧ reader.Since after link.id := by
  refine (take_runs hs.toSound).bind (by decide) fun link between h hq => ?_
  obtain ⟨hhands, -⟩ := hq
  split
  · refine h.pure (by decide) fun other ho => ?_
    cases ho
    exact ⟨hhands.held, hhands.since hs⟩
  · refine (putBackLast_yields hhands (hhands.last hs)).bind (by decide) fun _ after hafter _ => ?_
    exact hafter.pure (by decide) (by simp)

/-- All these are read from `start` on. -/
def ReadSince (start : Reader) (links : List Link) (after : Reader) : Prop :=
  ∀ link ∈ links, start.Since after link.id

theorem ReadSince.mono {start between : Reader} {links : List Link} (h : Moves between after)
    (hl : ReadSince start links between) : ReadSince start links after :=
  fun link hlink => (hl link hlink).mono h

theorem ReadSince.extend {start between : Reader} {links : List Link} (h : Moves start between)
    (hl : ReadSince between links after) : ReadSince start links after :=
  fun link hlink => (hl link hlink).extend h

/-- A dot with a word after it is paid for by its text. -/
theorem nameSegment_runs (reserved : Bool) (hs : reader.Sound) (hh : reader.held = none) :
    reader.Runs (nameSegment reserved) 0 0
      (reader.Round (fun inside => inside.held = none) (ReadSince reader) (ReadSince reader)) := by
  rw [Runs, nameSegment, get_bind]
  split
  · rename_i hdot
    refine (take_runs hs).bind (by decide) fun dot between h hq => ?_
    obtain ⟨hhands, hnext⟩ := hq
    have hne : dot.raw.toList ≠ [] := by
      intro hnil
      rw [hnil, next?, hh] at hnext
      simp [hdot] at hnext
    have hlt := hhands.leads_lt hne
    refine hlt.bind (wordAfterDot?_runs reserved ((h.sound hs).steady hhands.held)) (by decide)
      fun word after hl hl' hw => ?_
    have hsince := (hhands.since (hs.steady hh)).mono hl'.moves
    cases word with
    | some word =>
      obtain ⟨hheld, hword⟩ := hw word rfl
      exact hl.pure (by decide) ⟨hl.mono (by decide), hheld, List.forall_mem_cons.2 ⟨hsince,
        List.forall_mem_singleton.2 (hword.extend h.moves)⟩⟩
    | none => exact hl.pure (by decide) (List.forall_mem_singleton.2 hsince)
  · refine (Leads.refl reader).pure (by decide) ?_
    show ReadSince reader [] reader
    simp [ReadSince]

theorem nameTail_runs (reserved : Bool) (hs : reader.Sound) (hh : reader.held = none) :
    reader.Runs (nameTail reserved) 1 1 (ReadSince reader) := by
  have hsegment : ∀ inside : Reader, Moves reader inside → inside.held = none →
      inside.Runs (nameSegment reserved) 0 0
        (inside.Round (fun inside => inside.held = none) (ReadSince reader) (ReadSince reader)) :=
    fun inside hmoves hh => (nameSegment_runs reserved (hmoves.sound hs) hh).mono (by decide)
      (by decide) fun _ _ _ hq => hq.mono (fun _ => .extend hmoves) fun _ => .extend hmoves
  refine (runs_repeatUntil (Q := ReadSince reader) (fun h => h) ReadSince.mono (fun inside hmoves hh _ =>
    hsegment inside hmoves hh) hh (Nat.le_refl _)).bind (by decide) fun result after h hq => ?_
  obtain ⟨segments, last⟩ := result
  obtain ⟨hsegments, hlast⟩ := hq
  refine h.pure (by decide) fun link hl => ?_
  obtain hl | hl := List.mem_append.1 hl
  · obtain ⟨segment, hsegment, hl⟩ := List.mem_flatten.1 hl
    exact hsegments segment hsegment link hl
  · exact hlast link hl

end Parse

/-- The name is made of the first `n` tokens and does not end before it begins. -/
def DottedName.Inside (n : Nat) (name : DottedName) : Prop :=
  name.head.id ≤ name.last.id ∧ name.last.id < n

/-- A name ends with its first word or dot, or with a token that is read after it. -/
theorem DottedName.inside_of_readSince {head : Link} {tail : List Link} {reader after : Reader}
    (hhead : head ∈ reader.chain.links) (htail : Parse.ReadSince reader tail after)
    (h : Reader.Moves reader after) : (DottedName.mk head tail).Inside after.chain.size := by
  have hlt := Reader.id_lt_of_mem hhead
  obtain heq | hmem := List.mem_cons.1 (last_mem ⟨head, tail⟩)
  · rw [Inside, heq]
    exact ⟨Nat.le_refl _, Nat.lt_of_lt_of_le hlt h.size_le⟩
  · exact ⟨(htail _ hmem).le_of_lt hlt, (htail _ hmem).lt⟩

namespace Parse

open Reader

variable {reader after : Reader} {link : Link}

theorem takeName?_runs (reserved : Bool) (hs : reader.Sound) :
    reader.Runs (takeName? reserved) 1 2 fun name after =>
      ∀ words ∈ name, reader.Leads (-8) after ∧ words.Inside after.chain.size ∧
        ∃ between, reader.Hands 1 words.head between ∧ Moves between after := by
  rw [Runs, takeName?, get_bind]
  refine (takeSignificant_runs hs).bind (by decide) fun first between h hhands => ?_
  have hs' := h.sound hs
  have hpaid : first.kind ≠ .endOfInput → reader.Leads (-9) between := fun hk =>
    hhands.leads_lt (hs'.raw_ne_nil hhands.mem hk)
  split
  · rename_i hw
    have hl := hpaid (by rintro hk; simp [hk, Kind.isWord] at hw)
    refine hl.bind (nameTail_runs reserved hs' hhands.held) (by decide) fun tail after hl hl' ht => ?_
    refine hl.pure (by decide) fun words hwords => ?_
    cases hwords
    exact ⟨hl, DottedName.inside_of_readSince hhands.mem ht hl'.moves, between, hhands, hl'.moves⟩
  · split
    · rename_i hdot
      have hl := hpaid (by simp [hdot])
      refine hl.bind (wordAfterDot?_runs reserved (hs'.steady hhands.held)) (by decide)
        fun word after hl hl' hw => ?_
      cases word with
      | some word =>
        obtain ⟨hheld, hword⟩ := hw word rfl
        refine hl.bind (nameTail_runs reserved (hl.sound hs) hheld) (by decide)
          fun tail last hl hl'' ht => ?_
        have hmoves := hl'.moves.trans hl''.moves
        have htail : ReadSince between (word :: tail) last :=
          List.forall_mem_cons.2 ⟨hword.mono hl''.moves, ht.extend hl'.moves⟩
        refine hl.pure (by decide) fun words hwords => ?_
        cases hwords
        exact ⟨hl, DottedName.inside_of_readSince hhands.mem htail hmoves, between, hhands, hmoves⟩
      | none =>
        refine hl.pure (by decide) fun words hwords => ?_
        cases hwords
        have htail : ReadSince between [] after := by simp [ReadSince]
        exact ⟨hl.mono (by decide), DottedName.inside_of_readSince hhands.mem htail hl'.moves,
          between, hhands, hl'.moves⟩
    · refine (restore_yields hhands).bind (by decide) fun _ after hafter _ => ?_
      exact hafter.pure (by decide) (by simp)

/-! ## Strings and numbers -/

theorem takeString?_runs (hs : reader.Sound) :
    reader.Runs takeString? 1 1 fun literal after =>
      ∀ link ∈ literal, reader.Leads (-9) after ∧ reader.Hands 1 link after := by
  rw [takeString?_eq]
  refine (skipTrivia_runs hs).bind (by decide) fun _ between h _ => ?_
  have hfinds := stringHere_finds between
  generalize stringHere between = result at hfinds
  cases hfinds with
  | absent => exact h.pure (by decide) (by simp)
  | unclosed => exact Fails.yields ⟨rfl, between, h, .inr ⟨trivial, _, rfl⟩⟩
  | closed hh ht hl =>
    obtain ⟨hleads, hhands⟩ := hands_lexeme (h.sound hs) hh ht (hl.spells.ne_nil (by simp)) hl
    have hpaid := h.trans hleads
    refine (hpaid.mono (by decide)).ok ?_
    rintro _ ⟨⟩
    exact ⟨hpaid.mono (by decide), h.hands hhands⟩

theorem takeNumber_runs (hs : reader.Sound) :
    reader.Runs takeNumber 1 1 fun link after => reader.Hands 1 link after := by
  rw [takeNumber_eq]
  refine (skipTrivia_runs hs).bind (by decide) fun _ between h _ => ?_
  have hfinds := numberHere_finds between
  generalize numberHere between = result at hfinds
  cases hfinds with
  | plain =>
    exact (h.yields (take_runs (h.sound hs))).mono (by decide) (by decide) fun _ _ _ hq =>
      h.hands hq.2.1
  | signed hh ht hl =>
    obtain ⟨hleads, hhands⟩ := hands_lexeme (h.sound hs) hh ht (hl.spells.ne_nil (by simp)) hl
    exact ((h.trans hleads).mono (by decide)).ok (h.hands hhands)

end Parse

end ThriftSyntax
