import Mathlib.Data.List.Range
import ThriftSyntax.Proofs.Reader.Slice

/-!
# Places as they are counted

A reader moves its place on from one character to the next. `place.Counts text n` says what the place
of the character `n` is by counting in the text as a whole: the bytes before it, the line ends before
it, and the characters since the last of these. The two agree at every character of a text and at its
end.
-/

namespace ThriftSyntax

/-- Whether a line ends with the character `i`: at a line feed, and at a carriage return without a line
feed behind it. -/
def EndsLineAt (text : List Char) (i : Nat) : Prop :=
  text[i]? = some '\n' ∨ text[i]? = some '\r' ∧ text[i + 1]? ≠ some '\n'

instance (text : List Char) (i : Nat) : Decidable (EndsLineAt text i) :=
  inferInstanceAs (Decidable (_ ∨ _))

/-- Where the lines end that are complete before the character `n`. -/
def lineEnds (text : List Char) (n : Nat) : List Nat :=
  (List.range n).filter (EndsLineAt text ·)

/-- The first character of the line on which the character `n` stands. -/
def lineStart (text : List Char) (n : Nat) : Nat :=
  (lineEnds text n).getLast?.elim 0 (· + 1)

namespace Location

/-- The place is that of the character `n` of the text, or of its end. -/
structure Counts (place : Location) (text : List Char) (n : Nat) : Prop where
  offset : place.offset = byteSize (text.take n)
  line : place.line = 1 + (lineEnds text n).length
  column : place.column = 1 + (n - lineStart text n)

variable {place : Location} {text : List Char} {n : Nat}

theorem endsLine_iff {c : Char} (hc : text[n]? = some c) :
    endsLine c text[n + 1]? = true ↔ EndsLineAt text n := by
  unfold endsLine EndsLineAt
  rw [hc]
  simp

theorem line_step (place : Location) (c : Char) (next : Option Char) :
    (place.step c next).line = if endsLine c next then place.line + 1 else place.line := by
  unfold step
  split <;> rfl

theorem column_step (place : Location) (c : Char) (next : Option Char) :
    (place.step c next).column = if endsLine c next then 1 else place.column + 1 := by
  unfold step
  split <;> rfl

/-- The last of several characters is one step. -/
theorem advance_succ (place : Location) {c : Char} (hc : text[n]? = some c) :
    place.advance (n + 1) text = (place.advance n text).step c text[n + 1]? := by
  induction text generalizing place n with
  | nil => cases hc
  | cons d text ih =>
    cases n with
    | zero =>
      obtain rfl : d = c := Option.some.inj hc
      rw [advance_succ_cons, advance_zero, advance_zero, List.head?_eq_getElem?]
      rfl
    | succ n =>
      rw [advance_succ_cons, advance_succ_cons, ih _ hc]
      rfl

theorem lineEnds_succ (text : List Char) (n : Nat) :
    lineEnds text (n + 1) = lineEnds text n ++ if EndsLineAt text n then [n] else [] := by
  rw [lineEnds, List.range_succ, List.filter_append, List.filter_singleton]
  simp [lineEnds]

theorem lineStart_succ (text : List Char) (n : Nat) :
    lineStart text (n + 1) = if EndsLineAt text n then n + 1 else lineStart text n := by
  unfold lineStart
  rw [lineEnds_succ]
  split <;> simp

theorem lineStart_le (text : List Char) (n : Nat) : lineStart text n ≤ n := by
  induction n with
  | zero => exact Nat.le_refl 0
  | succ n ih =>
    rw [lineStart_succ]
    split <;> omega

theorem counts_start (text : List Char) : start.Counts text 0 := ⟨rfl, rfl, rfl⟩

theorem Counts.step (h : place.Counts text n) {c : Char} (hc : text[n]? = some c) :
    (place.step c text[n + 1]?).Counts text (n + 1) where
  offset := by
    rw [offset_step, h.offset, List.take_add_one, hc, byteSize_append]
    simp
  line := by
    simp only [line_step, endsLine_iff hc, lineEnds_succ, h.line]
    split <;> simp
    omega
  column := by
    have := lineStart_le text n
    simp only [column_step, endsLine_iff hc, lineStart_succ, h.column]
    split <;> omega

/-- The place to which a reader has moved on is the one that is counted. -/
theorem counts_advance (h : n ≤ text.length) : (start.advance n text).Counts text n := by
  induction n with
  | zero =>
    rw [advance_zero]
    exact counts_start text
  | succ n ih =>
    have hc : text[n]? = some text[n] := List.getElem?_eq_getElem h
    rw [advance_succ start hc]
    exact (ih (Nat.le_of_succ_le h)).step hc

/-- A carriage return before a line feed is a character of its line, one that stands alone ends it, and
a character of two bytes is one column. -/
example : start.advance 5 "é\r\n\rab".toList = ⟨6, 3, 2⟩ ∧ lineEnds "é\r\n\rab".toList 5 = [2, 3] := by
  decide

end Location

end ThriftSyntax
