import Mathlib.Data.List.Induction
import Mathlib.Data.Nat.Digits.Defs
import ThriftSyntax.Proofs.Span.Part

/-!
# Integers in decimal notation

`Writes text n` says that a text is the number `n` in decimal notation. Where the grammar asks for an
integer, a number is accepted for what it writes if 64 bits are enough for that, and refused if not; a
constant has an integer value on the same terms.
-/

namespace ThriftSyntax

namespace Numeral

/-- The digit that a character is. -/
def digit (c : Char) : Nat := c.toNat - '0'.toNat

/-- `text` is `n` in decimal notation: digits after an optional minus sign, of which the last counts ones
and each other one ten times what the one behind it counts. -/
def Writes (text : List Char) (n : Int) : Prop :=
  ∃ sign digits, (sign = [] ∨ sign = ['-']) ∧ isDigits digits = true ∧ text = sign ++ digits ∧
    n = (if sign = [] then 1 else -1) * (Nat.ofDigits 10 (digits.reverse.map digit) : Nat)

/-- `text` is `n` in decimal notation, and 64 bits are enough for `n`. -/
def Fits (text : String) (n : Int) : Prop :=
  Writes text.toList n ∧ -2 ^ 63 ≤ n ∧ n ≤ 2 ^ 63 - 1

theorem ofDigits_eq (digits : List Char) :
    ofDigits digits = Nat.ofDigits 10 (digits.reverse.map digit) := by
  induction digits using List.reverseRecOn with
  | nil => rfl
  | append_singleton digits c ih =>
    have hlast : ofDigits (digits ++ [c]) = 10 * ofDigits digits + digit c := by
      simp [ofDigits, digit]
    rw [hlast, ih, List.reverse_append, List.reverse_singleton, List.singleton_append, List.map_cons,
      Nat.ofDigits_cons, Nat.add_comm]

/-- An integer numeral in its parts: a sign or none, digits and no point. -/
theorem parts_eq {sign digits : List Char} (hs : sign = [] ∨ sign = ['-'])
    (hd : isDigits digits = true) :
    Parts.ofText (sign ++ digits) = ⟨!sign.isEmpty, digits, none⟩ := by
  obtain ⟨c, tail, rfl, hc⟩ := Lexeme.head_isDigit hd
  have hunsigned : unsigned (sign ++ c :: tail) = (!sign.isEmpty, c :: tail) := by
    rcases hs with rfl | rfl
    · unfold unsigned
      split
      · rename_i heq
        cases heq
        exact absurd hc (by decide)
      · rfl
    · rfl
  have hpoint : ∀ d ∈ c :: tail, (d != '.') = true := fun d hmem => by
    rw [bne_iff_ne]
    rintro rfl
    exact Lexeme.dot_notMem hd hmem
  simp only [Parts.ofText, hunsigned, List.takeWhile_eq_self_iff.2 hpoint, List.drop_length]

/-- A minus sign or none, and the digits behind it. -/
theorem signed_eq {sign digits : List Char} (hs : sign = [] ∨ sign = ['-'])
    (hd : isDigits digits = true) : signed (sign ++ digits) = (!sign.isEmpty, digits) := by
  obtain ⟨c, tail, rfl, hc⟩ := Lexeme.head_isDigit hd
  rcases hs with rfl | rfl
  · unfold signed
    split
    · rename_i heq
      cases heq
      exact absurd hc (by decide)
    · rename_i heq
      cases heq
      exact absurd hc (by decide)
    · rfl
  · rfl

/-- Without a point a text is its sign and what is before the point. -/
theorem exists_of_fraction {text : List Char} (h : (Parts.ofText text).fraction = none) :
    ∃ sign, (sign = [] ∨ sign = ['-']) ∧ text = sign ++ (Parts.ofText text).whole := by
  obtain ⟨sign, hs, htext⟩ : ∃ sign, (sign = [] ∨ sign = ['-']) ∧ text = sign ++ (unsigned text).2 := by
    unfold unsigned
    split
    · exact ⟨['-'], .inr rfl, rfl⟩
    · exact ⟨[], .inl rfl, rfl⟩
  refine ⟨sign, hs, htext.trans (congrArg (sign ++ ·) ?_)⟩
  unfold Parts.ofText at h ⊢
  dsimp only at h ⊢
  split at h
  · next hdrop =>
    exact ((List.takeWhile_prefix _).eq_of_length_le (List.drop_eq_nil_iff.1 hdrop)).symm
  · cases h

theorem form?_eq_integer_iff {text : String} :
    form? text = some .integer ↔ ∃ n, Writes text.toList n := by
  constructor
  · intro h
    unfold form? at h
    dsimp only at h
    split at h
    · next hfraction =>
      obtain ⟨sign, hs, htext⟩ := exists_of_fraction hfraction
      by_cases hd : isDigits (Parts.ofText text.toList).whole = true
      · exact ⟨_, sign, _, hs, hd, htext, rfl⟩
      · simp [hd] at h
    · split at h <;> cases h
  · rintro ⟨n, sign, digits, hs, hd, htext, -⟩
    unfold form?
    rw [htext, parts_eq hs hd]
    simp [hd]

theorem toInteger?_of_writes {text : String} {n : Int} (h : Writes text.toList n) :
    toInteger? text = if -2 ^ 63 ≤ n ∧ n ≤ 2 ^ 63 - 1 then some n else none := by
  unfold toInteger?
  obtain ⟨sign, digits, hs, hd, htext, rfl⟩ := h
  rw [htext, signed_eq hs hd]
  dsimp only
  rw [if_pos hd, ofDigits_eq]
  rcases hs with rfl | rfl <;> simp [minInteger, maxInteger]

/-- A number that is written as an integer is the same to both conversions. -/
theorem toInteger?_eq_integer? {text : String} {n : Int} (h : Writes text.toList n) :
    toInteger? text = integer? text :=
  (if_pos (form?_eq_integer_iff.2 ⟨n, h⟩)).symm

/-- A text is one number at most. -/
theorem Writes.unique {text : List Char} {n m : Int} (hn : Writes text n) (hm : Writes text m) :
    n = m := by
  obtain ⟨sign, digits, hs, hd, rfl, rfl⟩ := hn
  obtain ⟨sign', digits', hs', hd', htext, rfl⟩ := hm
  have hparts := parts_eq hs hd
  rw [htext, parts_eq hs' hd'] at hparts
  obtain ⟨-, rfl⟩ : _ ∧ digits' = digits := by simpa using hparts
  obtain rfl := List.append_cancel_right htext
  rfl

theorem integer?_eq_some_iff {text : String} {n : Int} :
    integer? text = some n ↔ Fits text n := by
  constructor
  · intro h
    have hform : form? text = some .integer := by
      by_contra hform
      simp [integer?, hform] at h
    obtain ⟨m, hm⟩ := form?_eq_integer_iff.1 hform
    rw [← toInteger?_eq_integer? hm, toInteger?_of_writes hm] at h
    split at h
    · cases h
      exact ⟨hm, ‹_›⟩
    · cases h
  · rintro ⟨hwrites, hlimits⟩
    rw [← toInteger?_eq_integer? hwrites, toInteger?_of_writes hwrites, if_pos hlimits]

theorem integer?_eq_none_iff {text : String} :
    integer? text = none ↔ ∀ n, ¬ Fits text n := by
  simp [Option.eq_none_iff_forall_ne_some, integer?_eq_some_iff]

end Numeral

/-! ## Where an integer is asked for -/

namespace Grammar

open Parse Numeral

variable {α β : Type} {reader between after : Reader} {link : Link}

/-- The outcome of an action that gives `value` for the number `link`, read last by `between`. -/
structure Takes (link : Link) (between : Reader) (value : α → Option Int)
    (outcome : EStateM.Result Error Reader α) : Prop where
  /-- A result has the integer that the number writes. -/
  fits : ∀ result after, outcome = .ok result after →
    ∃ n, value result = some n ∧ Fits link.raw n
  /-- Any other number is refused where it stands. -/
  refuses : (∀ n, ¬ Fits link.raw n) →
    outcome = .error (.invalidInteger link.raw link.location) between

theorem integer_eq (h : takeNumber reader = .ok link between) (hk : link.kind = .number) :
    integer reader = match integer? link.raw with
      | some n => .ok (link, n) between
      | none => .error (.invalidInteger link.raw link.location) between := by
  show (takeNumber >>= _) reader = _
  show EStateM.bind takeNumber _ reader = _
  unfold EStateM.bind
  rw [h]
  dsimp only
  rw [if_pos hk]
  cases integer? link.raw <;> rfl

theorem integer_eq_ok_iff (h : takeNumber reader = .ok link between) (hk : link.kind = .number)
    {n : Int} : integer reader = .ok (link, n) between ↔ Fits link.raw n := by
  rw [integer_eq h hk, ← integer?_eq_some_iff]
  cases integer? link.raw <;> simp

theorem integer_takes (h : takeNumber reader = .ok link between) (hk : link.kind = .number) :
    Takes link between (fun number => some number.2) (integer reader) where
  fits number after hok := by
    rw [integer_eq h hk] at hok
    cases hn : integer? link.raw with
    | none =>
      rw [hn] at hok
      cases hok
    | some n =>
      rw [hn] at hok
      cases hok
      exact ⟨n, rfl, integer?_eq_some_iff.1 hn⟩
  refuses hnone := by
    rw [integer_eq h hk, integer?_eq_none_iff.2 hnone]

/-- What comes after the integer has to keep it. -/
theorem Takes.bind {p : Parse α} {f : α → Parse β} {value : α → Option Int}
    {value' : β → Option Int} (h : Takes link between value (p reader))
    (hvalue : ∀ {a middle result after}, f a middle = .ok result after → value' result = value a) :
    Takes link between value' ((p >>= f) reader) where
  fits result after hok := by
    obtain ⟨a, middle, hp, hf⟩ := bind_eq_ok.1 hok
    rw [hvalue hf]
    exact h.fits a middle hp
  refuses hnone := bind_eq_error.2 (.inl (h.refuses hnone))

/-- What comes before the integer changes nothing. -/
theorem Takes.skip {p : Parse α} {f : α → Parse β} {a : α} {value : β → Option Int}
    (hp : p reader = .ok a after) (h : Takes link between value (f a after)) :
    Takes link between value ((p >>= f) reader) where
  fits result last hok := by
    obtain ⟨a', after', hp', hf⟩ := bind_eq_ok.1 hok
    rw [hp] at hp'
    cases hp'
    exact h.fits result last hf
  refuses hnone := bind_eq_error.2 (.inr ⟨a, after, hp, h.refuses hnone⟩)

theorem field_takes (h : takeNumber reader = .ok link between) (hk : link.kind = .number) :
    Takes link between (fun node => some node.id) (field reader) := by
  refine (integer_takes h hk).bind fun hrest => ?_
  -- The colon, the six parts of the field up to its separator, and its span.
  iterate 8 obtain ⟨_, _, -, hrest⟩ := bind_eq_ok.1 hrest
  obtain ⟨rfl, -⟩ := pure_eq_ok.1 hrest
  rfl

theorem assigned?_takes {sign : Link} {signed : Reader}
    (hsign : mark? .equals reader = .ok (some sign) signed)
    (h : takeNumber signed = .ok link between) (hk : link.kind = .number) :
    Takes link between (Option.map Prod.snd) (assigned? reader) := by
  refine Takes.skip hsign ?_
  show Takes _ _ _ ((some <$> integer) signed)
  rw [map_eq_pure_bind]
  refine (integer_takes h hk).bind fun hrest => ?_
  obtain ⟨rfl, -⟩ := pure_eq_ok.1 hrest
  rfl

theorem enumElement_takes {name : DottedName} {sign : Link} {named signed : Reader}
    (hname : Grammar.name false reader = .ok name named)
    (hsign : mark? .equals named = .ok (some sign) signed)
    (h : takeNumber signed = .ok link between) (hk : link.kind = .number) :
    Takes link between EnumElement.value (enumElement reader) := by
  refine Takes.skip hname ((assigned?_takes hsign h hk).bind fun hrest => ?_)
  iterate 3 obtain ⟨_, _, -, hrest⟩ := bind_eq_ok.1 hrest
  obtain ⟨rfl, -⟩ := pure_eq_ok.1 hrest
  rfl

end Grammar

/-! ## Integer constants -/

namespace Phrase

variable {numbering : Numbering} {xs : List Terminal} {value : String} {span : Span}

theorem StandsFor.exists_integer
    (h : StandsFor numbering (.constValue (.scalar .integer value span)) xs) :
    ∃ link, tokens xs = [link] ∧ link.kind = .number ∧ link.raw = value ∧
      Numeral.form? value = some .integer := by
  generalize hnode : Node.constValue (.scalar .integer value span) = node at h
  cases h with
  | constValue phrase =>
    cases phrase with
    | number numeral =>
      cases hform : Numeral.form? numeral.link.raw with
      | none => simp [ConstValue.node, hform] at hnode
      | some form =>
        cases form with
        | decimal => simp [ConstValue.node, hform] at hnode
        | integer =>
          simp [ConstValue.node, hform] at hnode
          obtain ⟨rfl, -⟩ := hnode
          exact ⟨numeral.link, rfl, numeral.fits, rfl, hform⟩
    | string | name | list | map => simp [ConstValue.node] at hnode
  | definition phrase => cases phrase <;> cases hnode
  | _ => cases hnode

end Phrase

open Grammar Parse Numeral

namespace SyntaxTree

variable {text : String} {options : Options} {tree : SyntaxTree} {value : String} {span : Span}

/-- An integer constant is a number token in decimal notation. -/
theorem exists_number (h : ofText text options = .ok tree)
    (hb : tree.root.Below (.constValue (.scalar .integer value span))) :
    ∃ link n, tree.tokens.significant span = [link] ∧ link.kind = .number ∧ link.raw = value ∧
      Writes value.toList n := by
  obtain ⟨document, hnode, -, hderives⟩ := exists_derives h
  rw [root, ← hnode] at hb
  obtain ⟨part, hpart, hstands, hcovers⟩ := hderives.exists_standsFor hb (by simp)
  obtain ⟨link, htokens, hk, hraw, hform⟩ := hstands.exists_integer
  obtain ⟨n, hn⟩ := form?_eq_integer_iff.1 hform
  exact ⟨link, n, (hderives.significant_eq hpart hcovers).trans htokens, hk, hraw, hn⟩

/-- The text of an integer constant is a numeral, so its conversion reads it as the grammar reads a
numeral where it asks for an integer. -/
theorem toInteger?_eq (h : ofText text options = .ok tree)
    (hb : tree.root.Below (.constValue (.scalar .integer value span))) :
    toInteger? value = integer? value := by
  obtain ⟨_, _, -, -, -, hwrites⟩ := exists_number h hb
  exact toInteger?_eq_integer? hwrites

end SyntaxTree

/-- An integer is read for the number that it writes in decimal notation, whatever its length, if 64
bits are enough for that: as a token where the grammar asks for an integer, as the number of a field,
as the value of an element, and as the value of a constant. -/
theorem integers_exact :
    (∀ {reader link between}, takeNumber reader = .ok link between → link.kind = .number →
      (∀ n, integer reader = .ok (link, n) between ↔ Fits link.raw n) ∧
        Takes link between (fun number => some number.2) (integer reader) ∧
        Takes link between (fun node => some node.id) (field reader)) ∧
    (∀ {reader name named sign signed link between},
      Grammar.name false reader = .ok name named → mark? .equals named = .ok (some sign) signed →
      takeNumber signed = .ok link between → link.kind = .number →
        Takes link between EnumElement.value (enumElement reader)) ∧
    ∀ {text options tree value span}, SyntaxTree.ofText text options = .ok tree →
      tree.root.Below (.constValue (.scalar .integer value span)) →
        (∃ link, tree.tokens.significant span = [link] ∧ link.kind = .number ∧ link.raw = value) ∧
        (∃! n, Writes value.toList n) ∧
        ∀ n, (ConstValue.scalar .integer value span).integer? = some n ↔ Fits value n := by
  refine ⟨fun h hk => ⟨fun _ => integer_eq_ok_iff h hk, integer_takes h hk, field_takes h hk⟩,
    fun hname hsign h hk => enumElement_takes hname hsign h hk, fun h hb => ?_⟩
  obtain ⟨link, n, hlink, hk, hraw, hwrites⟩ := SyntaxTree.exists_number h hb
  refine ⟨⟨link, hlink, hk, hraw⟩, ⟨n, hwrites, fun _ h => h.unique hwrites⟩, fun m => ?_⟩
  show toInteger? _ = some m ↔ _
  rw [SyntaxTree.toInteger?_eq h hb]
  exact integer?_eq_some_iff

/-- The constant values of a tree in the order of a walk. -/
def SyntaxTree.constants (tree : SyntaxTree) : List ConstValue :=
  tree.root.walk.filterMap fun visit =>
    match visit.node with
    | .constValue value => some value
    | _ => none

theorem SyntaxTree.below_of_constants {tree : SyntaxTree} {value : ConstValue}
    (h : value ∈ tree.constants) : tree.root.Below (.constValue value) := by
  obtain ⟨visit, hvisit, hvalue⟩ := List.mem_filterMap.1 h
  split at hvalue
  · next heq =>
    cases hvalue
    exact heq ▸ Node.mem_walk.1 (List.mem_map_of_mem hvisit)
  · cases hvalue

/-- The least integer is read as one and the number after the greatest is refused, zeros before the
first digit do not count, and a constant may be too great for an integer value. -/
theorem integers_exact_limits :
    (∃ link after, integer (.ofText "-9223372036854775808".toList) =
      .ok (link, -9223372036854775808) after ∧ Fits link.raw (-9223372036854775808)) ∧
    (∃ after, field (.ofText "9223372036854775808: i32 a".toList) =
      .error (.invalidInteger "9223372036854775808" .start) after) ∧
    (∃ element after, enumElement (.ofText "A = -007".toList) = .ok element after ∧
      element.value = some (-7) ∧ Fits "-007" (-7)) ∧
    ∃ tree span, SyntaxTree.ofText "const i64 c = 18446744073709551616" {} = .ok tree ∧
      tree.root.Below (.constValue (.scalar .integer "18446744073709551616" span)) ∧
      ∀ n, ¬ Fits "18446744073709551616" n := by
  obtain ⟨hreads, helement, hconstant⟩ := integers_exact
  refine ⟨?_, ?_, ?_, ?_⟩
  · obtain ⟨between, h⟩ := exists_of_run'
      (show takeNumber.run' (.ofText "-9223372036854775808".toList) =
        some ⟨0, .number, "-9223372036854775808", .start⟩ by decide +kernel)
    have hfits : Fits "-9223372036854775808" (-9223372036854775808) :=
      integer?_eq_some_iff.1 (by decide)
    exact ⟨_, between, ((hreads h rfl).1 _).2 hfits, hfits⟩
  · obtain ⟨between, h⟩ := exists_of_run'
      (show takeNumber.run' (.ofText "9223372036854775808: i32 a".toList) =
        some ⟨0, .number, "9223372036854775808", .start⟩ by decide +kernel)
    have hnone := integer?_eq_none_iff.1 (show integer? "9223372036854775808" = none by decide)
    exact ⟨between, (hreads h rfl).2.2.refuses hnone⟩
  · obtain ⟨after, h⟩ := exists_of_run'
      (show (EnumElement.value <$> enumElement).run' (.ofText "A = -007".toList) = some (some (-7))
        by decide +kernel)
    obtain ⟨element, h, hvalue⟩ := map_eq_ok.1 h
    -- What is read up to the number, which is the token 4.
    obtain ⟨last, hsteps⟩ := exists_of_run'
      (show (do
          let _ ← Grammar.name false
          let sign ← mark? .equals
          return (sign.isSome, ← takeNumber) : Parse (Bool × Link)).run' (.ofText "A = -007".toList) =
        some (true, ⟨4, .number, "-007", ⟨4, 1, 5⟩⟩) by decide +kernel)
    obtain ⟨name, named, hname, hsteps⟩ := bind_eq_ok.1 hsteps
    obtain ⟨sign, signed, hsign, hsteps⟩ := bind_eq_ok.1 hsteps
    obtain ⟨link, between, hlink, hsteps⟩ := bind_eq_ok.1 hsteps
    simp only [pure_eq_ok, Prod.mk.injEq] at hsteps
    obtain ⟨⟨hsome, rfl⟩, -⟩ := hsteps
    obtain ⟨sign, rfl⟩ := Option.isSome_iff_exists.1 hsome
    obtain ⟨n, hn, hfits⟩ := (helement hname hsign hlink rfl).fits element after h
    obtain rfl := Option.some.inj (hvalue.symm.trans hn)
    exact ⟨element, after, h, hvalue, hfits⟩
  · have hmap : (SyntaxTree.ofText "const i64 c = 18446744073709551616" {}).toOption.map
        SyntaxTree.constants = some [.scalar .integer "18446744073709551616" (.single 8)] := by
      decide +kernel
    obtain ⟨tree, h, hconstants⟩ := SyntaxTree.exists_of_map hmap
    have hb : tree.root.Below (.constValue (.scalar .integer "18446744073709551616" (.single 8))) :=
      SyntaxTree.below_of_constants (by rw [hconstants]; simp)
    obtain ⟨-, -, hexact⟩ := hconstant h hb
    refine ⟨tree, _, h, hb, fun n hn => ?_⟩
    have hnone : toInteger? "18446744073709551616" = none := by decide
    exact absurd ((hexact n).2 hn) (by simp [ConstValue.integer?, hnone])

end ThriftSyntax
