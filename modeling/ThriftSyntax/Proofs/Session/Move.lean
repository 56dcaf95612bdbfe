import Mathlib.Data.List.Infix
import Mathlib.Logic.Relation
import ThriftSyntax.Proofs.Reader.Slice

/-!
# Moves of a reader

Whatever is read, a reader changes only in few ways: it chains the lexeme at the cursor, gives out the
held token, puts back the last one that is chained, or begins a round. These are its moves. A move
loses no text; only an unterminated string or comment is dropped. What is said here holds along all
moves, from any reader: what has been read before, and whether it failed, does not matter.
-/

namespace ThriftSyntax.Reader

/-- One step of reading. -/
inductive Move : Reader → Reader → Prop where
  | round (reader : Reader) : Move reader reader.round
  | lexeme {reader : Reader} {kind : Kind} {raw tail : List Char} (hh : reader.held = none)
      (hn : reader.chain.ending? = none) (ht : reader.cursor.rest = raw ++ tail)
      (hl : Lexeme.IsLexeme kind raw tail) : Move reader (reader.pass kind raw.length)
  | release {reader : Reader} : Move reader reader.release
  | hold {reader : Reader} {link : Link} (hh : reader.held = none)
      (hl : reader.chain.links.getLast? = some link) : Move reader (reader.hold link)

abbrev Moves := Relation.ReflTransGen Move

/-! ## Sound readers -/

/-- The held token is one of the chain, each token is spelled as its kind says, and the end of the
input is chained last and only at the end of the text. -/
structure Sound (reader : Reader) : Prop where
  held_mem : ∀ link, reader.held = some link → link ∈ reader.chain.links
  spells : ∀ link ∈ reader.chain.links, Lexeme.Spells link.kind link.raw.toList
  ended : ∀ link ∈ reader.chain.links, link.kind = .endOfInput →
    reader.chain.links.getLast? = some link ∧ reader.cursor.rest = []

variable {reader after : Reader} {link : Link}

theorem sound_ofText (text : List Char) : (Reader.ofText text).Sound where
  held_mem _ h := by cases h
  spells _ h := by cases h
  ended _ h := by cases h

theorem Sound.ne_endOfInput (hs : reader.Sound) (hrest : reader.cursor.rest ≠ [])
    (hl : link ∈ reader.chain.links) : link.kind ≠ .endOfInput :=
  fun hk => hrest (hs.ended link hl hk).2

/-- Where text is left, the end of the input is not chained. -/
theorem Sound.ending?_eq_none (hs : reader.Sound) (hrest : reader.cursor.rest ≠ []) :
    reader.chain.ending? = none :=
  TokenChain.ending?_eq_none fun _ => hs.ne_endOfInput hrest

/-- Every token but the end of the input has a text. -/
theorem Sound.raw_ne_nil (hs : reader.Sound) (hl : link ∈ reader.chain.links)
    (hk : link.kind ≠ .endOfInput) : link.raw.toList ≠ [] :=
  (hs.spells link hl).ne_nil hk

theorem Sound.raw_eq_nil (hs : reader.Sound) (hl : link ∈ reader.chain.links)
    (hk : link.kind = .endOfInput) : link.raw.toList = [] := by
  have hraw := hs.spells link hl
  rw [hk] at hraw
  generalize link.raw.toList = raw at hraw
  cases hraw
  rfl

theorem ending?_eq_some {chain : TokenChain} (h : chain.ending? = some link) :
    chain.links.getLast? = some link ∧ link.kind = .endOfInput := by
  rw [TokenChain.ending?, TokenChain.last?_eq, Option.filter_eq_some_iff] at h
  simpa using h

theorem Sound.hold (hs : reader.Sound) (hl : link ∈ reader.chain.links) :
    (reader.hold link).Sound where
  held_mem other ho := by
    cases ho
    exact hl
  spells := hs.spells
  ended := hs.ended

theorem Move.sound (h : Move reader after) (hs : reader.Sound) : after.Sound := by
  cases h with
  | round => exact ⟨hs.held_mem, hs.spells, hs.ended⟩
  | @lexeme kind raw tail hh hn ht hl =>
    refine ⟨fun link hlink => ?_, fun link hlink => ?_, fun link hlink hk => ?_⟩
    · rw [show (reader.pass kind raw.length).held = none from hh] at hlink
      cases hlink
    · rw [links_pass, List.mem_append, List.mem_singleton] at hlink
      obtain hlink | rfl := hlink
      · exact hs.spells link hlink
      · rw [nextLink_raw ht]
        exact hl.spells
    · rw [rest_pass ht]
      rw [links_pass] at hlink ⊢
      obtain hlink | hlink := List.mem_append.1 hlink
      · obtain ⟨hlast, -⟩ := hs.ended link hlink hk
        rw [TokenChain.ending?, TokenChain.last?_eq, hlast] at hn
        simp [hk] at hn
      · obtain rfl := List.mem_singleton.1 hlink
        have hends := hl.ends
        rw [show kind = .endOfInput from hk] at hends
        exact ⟨List.getLast?_concat, hends⟩
  | release =>
    refine ⟨fun link hlink => ?_, hs.spells, hs.ended⟩
    cases hlink
  | hold hh hl =>
    exact hs.hold (List.mem_of_getLast? hl)

theorem Moves.sound (h : Moves reader after) (hs : reader.Sound) : after.Sound := by
  induction h with
  | refl => exact hs
  | tail _ hmove ih => exact hmove.sound ih

/-- A sound reader of which the held token is the last of the chain. -/
structure Steady (reader : Reader) : Prop extends Sound reader where
  slot : ∀ link, reader.held = some link → reader.chain.links.getLast? = some link

theorem steady_ofText (text : List Char) : (Reader.ofText text).Steady :=
  ⟨sound_ofText text, fun _ h => by cases h⟩

theorem Sound.steady (hs : reader.Sound) (hh : reader.held = none) : reader.Steady :=
  ⟨hs, fun _ h => by cases hh.symm.trans h⟩

theorem Move.steady (h : Move reader after) (hs : reader.Steady) : after.Steady := by
  refine ⟨h.sound hs.toSound, fun other ho => ?_⟩
  cases h with
  | round => exact hs.slot other ho
  | lexeme hh =>
    rw [show (reader.pass _ _).held = none from hh] at ho
    cases ho
  | release => cases ho
  | hold hh hl =>
    cases ho
    exact hl

theorem Moves.steady (h : Moves reader after) (hs : reader.Steady) : after.Steady := by
  induction h with
  | refl => exact hs
  | tail _ hmove ih => exact hmove.steady ih

theorem Sound.drop (hs : reader.Sound) (n : Nat) : (reader.drop n).Sound where
  held_mem := hs.held_mem
  spells := hs.spells
  ended link hl hk := by
    obtain ⟨hlast, hrest⟩ := hs.ended link hl hk
    refine ⟨hlast, ?_⟩
    show reader.cursor.rest.drop n = []
    rw [hrest, List.drop_nil]

theorem Steady.drop (hs : reader.Steady) (n : Nat) : (reader.drop n).Steady :=
  ⟨hs.toSound.drop n, hs.slot⟩

/-! ## What moves keep -/

/-- Tokens already chained never change. -/
theorem Moves.links_prefix (h : Moves reader after) :
    reader.chain.links <+: after.chain.links := by
  induction h with
  | refl => exact List.prefix_refl _
  | tail _ hmove ih =>
    refine ih.trans ?_
    cases hmove with
    | lexeme =>
      rw [links_pass]
      exact List.prefix_append _ _
    | _ => exact List.prefix_refl _

/-- A token that is held has been held all along, or it is the last one. -/
theorem Moves.slot (h : Moves reader after) (hh : after.held = some link) :
    reader.held = some link ∨ after.chain.links.getLast? = some link := by
  induction h with
  | refl => exact .inl hh
  | tail _ hmove ih =>
    cases hmove with
    | round => exact ih hh
    | lexeme hn => cases hn.symm.trans hh
    | release => cases hh
    | hold _ hl =>
      cases hh
      exact .inr hl

theorem Moves.size_le (h : Moves reader after) : reader.chain.size ≤ after.chain.size := by
  have := h.links_prefix.length_le
  simpa using this

theorem Moves.rounds_le (h : Moves reader after) : reader.rounds ≤ after.rounds := by
  induction h with
  | refl => exact Nat.le_refl _
  | tail _ hmove ih =>
    cases hmove with
    | round => exact Nat.le_succ_of_le ih
    | _ => exact ih

/-- A token of the chain has an id within it. -/
theorem id_lt_of_mem {chain : TokenChain} (hl : link ∈ chain.links) : link.id < chain.size := by
  obtain ⟨id, hid, rfl⟩ := List.mem_mapIdx.1 hl
  simpa [TokenChain.size, TokenChain.toList] using hid

/-! ## Where the tokens stand -/

/-- The tokens of the chain stand in `text` where they say, one after the other and behind the
cursor, which has passed over the front of it. -/
structure StandsIn (reader : Reader) (text : List Char) : Prop where
  passed : ∃ front, text = front ++ reader.cursor.rest ∧
    reader.cursor.location = Location.start.advance front.length text
  tokens : ∀ token ∈ reader.chain.toList, token.StandsIn text
  apart : reader.chain.toList.Pairwise fun a b => a.stop ≤ b.location.offset
  behind : ∀ token ∈ reader.chain.toList, token.stop ≤ reader.cursor.location.offset

/-- The tokens of the chain and the text that is left make up the whole text. -/
def Keeps (reader : Reader) (text : List Char) : Prop :=
  reader.chain.source.toList ++ reader.cursor.rest = text

variable {text : List Char}

theorem standsIn_ofText (text : List Char) : (Reader.ofText text).StandsIn text where
  passed := ⟨[], rfl, by simp [ofText, Cursor.start]⟩
  tokens token h := by simp [ofText, TokenChain.toList, TokenChain.empty] at h
  apart := by simp [ofText, TokenChain.toList, TokenChain.empty]
  behind token h := by simp [ofText, TokenChain.toList, TokenChain.empty] at h

theorem keeps_ofText (text : List Char) : (Reader.ofText text).Keeps text := rfl

/-- A cursor that passes over some text has come as many bytes further. -/
theorem StandsIn.advance (hs : reader.StandsIn text) {raw tail : List Char}
    (ht : reader.cursor.rest = raw ++ tail) :
    (reader.cursor.advance raw.length).location.offset =
        reader.cursor.location.offset + byteSize raw ∧
      ∃ front, text = front ++ (reader.cursor.advance raw.length).rest ∧
        (reader.cursor.advance raw.length).location = Location.start.advance front.length text := by
  obtain ⟨front, rfl, hplace⟩ := hs.passed
  rw [ht] at hplace ⊢
  refine ⟨by rw [Cursor.location_advance, ht, Location.offset_advance], front ++ raw, ?_, ?_⟩
  · rw [Cursor.rest_advance, ht, List.drop_left, List.append_assoc]
  · rw [Cursor.location_advance, ht, hplace, Location.advance_append]

theorem Move.standsIn (h : Move reader after) (hs : reader.StandsIn text) : after.StandsIn text := by
  cases h with
  | @lexeme kind raw tail hh hn ht hl =>
    obtain ⟨hoffset, hpassed⟩ := hs.advance ht
    have hraw : byteSize raw = (reader.nextLink kind raw.length).token.raw.utf8ByteSize := by
      rw [← byteSize_toList]
      exact congrArg byteSize (nextLink_raw ht kind).symm
    have hstop : (reader.nextLink kind raw.length).token.stop =
        (reader.cursor.advance raw.length).location.offset := by
      rw [Token.stop, hoffset, hraw]
      rfl
    have htoken : (reader.nextLink kind raw.length).token.StandsIn text := by
      obtain ⟨front, htext, hplace⟩ := hs.passed
      refine ⟨front, tail, ?_, hplace⟩
      rw [htext, ht]
      exact congrArg (fun raw => front ++ (raw ++ tail)) (nextLink_raw ht kind).symm
    refine ⟨hpassed, ?_, ?_, ?_⟩
    all_goals rw [pass, TokenChain.toList_push]
    · exact List.forall_mem_append.2 ⟨hs.tokens, by simpa using htoken⟩
    · refine List.pairwise_append.2 ⟨hs.apart, by simp, fun token ht' _ hnext => ?_⟩
      rw [List.mem_singleton.1 hnext]
      exact hs.behind token ht'
    · refine List.forall_mem_append.2 ⟨fun token ht' => ?_, by simpa using hstop.le⟩
      have := hs.behind token ht'
      simp only at *
      omega
  | round => exact ⟨hs.passed, hs.tokens, hs.apart, hs.behind⟩
  | release => exact ⟨hs.passed, hs.tokens, hs.apart, hs.behind⟩
  | hold => exact ⟨hs.passed, hs.tokens, hs.apart, hs.behind⟩

theorem StandsIn.drop (hs : reader.StandsIn text) (n : Nat) : (reader.drop n).StandsIn text := by
  have hlocation : (reader.cursor.advance (reader.cursor.rest.take n).length).location =
      (reader.cursor.advance n).location := by
    rw [Cursor.location_advance, List.length_take, Location.advance_min]
    rfl
  obtain ⟨hoffset, front, htext, hplace⟩ :=
    hs.advance (List.take_append_drop n reader.cursor.rest).symm
  rw [hlocation] at hoffset hplace
  have hrest : (reader.cursor.advance (reader.cursor.rest.take n).length).rest =
      (reader.drop n).cursor.rest :=
    List.drop_eq_drop_iff.2 (by rw [List.length_take, Nat.min_assoc, Nat.min_self])
  refine ⟨⟨front, hrest ▸ htext, hplace⟩, hs.tokens, hs.apart, fun token ht => ?_⟩
  have := hs.behind token ht
  show token.stop ≤ (reader.cursor.advance n).location.offset
  omega

theorem Move.keeps (h : Move reader after) (hk : reader.Keeps text) : after.Keeps text := by
  cases h with
  | @lexeme kind raw tail hh hn ht hl =>
    unfold Keeps at hk ⊢
    rw [Link.toList_source] at hk ⊢
    rw [links_pass, rest_pass ht, Link.spelled_append, ← hk, ht]
    simp [nextLink_raw ht]
  | round => exact hk
  | release => exact hk
  | hold => exact hk

theorem Moves.standsIn (h : Moves reader after) (hs : reader.StandsIn text) :
    after.StandsIn text := by
  induction h with
  | refl => exact hs
  | tail _ hmove ih => exact hmove.standsIn ih

theorem Moves.keeps (h : Moves reader after) (hk : reader.Keeps text) : after.Keeps text := by
  induction h with
  | refl => exact hk
  | tail _ hmove ih => exact hmove.keeps ih

end ThriftSyntax.Reader
