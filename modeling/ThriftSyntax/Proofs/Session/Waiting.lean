import ThriftSyntax.Proofs.Soundness.Field

/-!
# What waits behind a fragment

The rules for types, constants and fields look ahead, and so do those for names. What they have put back
when they succeed is a word, which the annotation of a list type might have begun with, or else it is the
token behind the dot that a name ends with.
-/

namespace ThriftSyntax

namespace Reader

/-- What is put back is a word, or the token behind a dot. -/
def Waits (reader : Reader) : Prop :=
  ∀ link, reader.held = some link → link.kind.isWord true = true ∨
    ∃ front dot, reader.chain.links = front ++ [dot, link] ∧ dot.kind = .punct .dot

/-- Nothing is put back any more, or nothing has been done. -/
def Idles (reader after : Reader) : Prop := after.held = none ∨ after = reader

variable {reader after : Reader}

theorem waits_of_none (h : reader.held = none) : reader.Waits := fun link hl => by
  rw [h] at hl
  cases hl

theorem Idles.waits (h : reader.Idles after) (hr : reader.Waits) : after.Waits := by
  obtain h | rfl := h
  · exact waits_of_none h
  · exact hr

end Reader

namespace Parse

open Reader

variable {reader after : Reader} {link dot : Link} {reserved : Bool}

/-! ## Tokens -/

theorem scan_held (hh : reader.held = none) (h : scan reader = .ok link after) :
    after.held = none := by
  have hfinds := scan_finds hh
  rw [h] at hfinds
  cases hfinds <;> exact hh

theorem take_held (h : take reader = .ok link after) : after.held = none := by
  have hfinds := held?_finds reader
  obtain ⟨_, _, hheld, h⟩ := bind_eq_ok.1 h
  rw [hheld] at hfinds
  cases hfinds with
  | free hh => exact scan_held hh h
  | found =>
    cases h
    rfl

theorem chainTrivia_held (hh : reader.held = none) {u : Unit} (h : chainTrivia reader = .ok u after) :
    after.held = none := by
  obtain ⟨⟨gap, last⟩, hrun⟩ := discard_eq_ok.1 h
  revert hh
  refine repeatUntil_induction (motive := fun reader _ _ after => reader.held = none → after.held = none)
    (fun h => h) (fun {reader b after} hs hh => ?_) (fun {reader a between _ _ after} hs ih hh => ih ?_) hrun
  all_goals
    rw [get_bind] at hs
    split at hs
  · obtain ⟨_, -, heq⟩ := map_eq_ok.1 hs
    cases heq
  · obtain ⟨-, rfl⟩ := pure_eq_ok.1 hs
    exact hh
  · obtain ⟨link, hscan, -⟩ := map_eq_ok.1 hs
    exact scan_held hh hscan
  · cases (pure_eq_ok.1 hs).1

theorem skipTrivia_idles {u : Unit} (h : skipTrivia reader = .ok u after) : reader.Idles after := by
  have hfinds := held?_finds reader
  obtain ⟨_, _, hheld, h⟩ := bind_eq_ok.1 h
  rw [hheld] at hfinds
  cases hfinds with
  | free hh => exact .inl (chainTrivia_held hh h)
  | found =>
    dsimp only at h
    split at h
    · exact .inl (chainTrivia_held rfl h)
    · cases h
      exact .inr rfl

theorem peekSignificant_idles {c : Option Char} (h : peekSignificant reader = .ok c after) :
    reader.Idles after := by
  obtain ⟨_, between, hskip, hpeek⟩ := bind_eq_ok.1 h
  have hfinds := held?_finds between
  obtain ⟨_, _, hheld, hpeek⟩ := bind_eq_ok.1 hpeek
  rw [hheld] at hfinds
  cases hfinds <;> (cases hpeek; exact skipTrivia_idles hskip)

theorem takeSignificant_held (h : takeSignificant reader = .ok link after) : after.held = none := by
  obtain ⟨_, _, -, htake⟩ := bind_eq_ok.1 h
  exact take_held htake

theorem takeNumber_held (h : takeNumber reader = .ok link after) : after.held = none := by
  obtain ⟨between, -, hhere⟩ := takeNumber_eq_ok.1 h
  have hfinds := numberHere_finds between
  generalize hresult : numberHere between = result at hfinds
  cases hfinds with
  | plain => exact take_held (hresult.symm.trans hhere)
  | signed hh =>
    cases hresult.symm.trans hhere
    exact hh

theorem takeString?_held (h : takeString? reader = .ok (some link) after) : after.held = none := by
  obtain ⟨between, -, hhere⟩ := takeString?_eq_ok.1 h
  have hfinds := stringHere_finds between
  rw [hhere] at hfinds
  cases hfinds with
  | closed hh => exact hh

/-! ## Names -/

/-- The token that is no word waits behind the dot. -/
theorem wordAfterDot?_waits (hr : reader.Valid) (hh : reader.held = none)
    (hlast : reader.chain.links.getLast? = some dot) (hd : dot.kind = .punct .dot)
    {found : Option Link} (h : wordAfterDot? reserved reader = .ok found after) : after.Waits := by
  rcases wordAfterDot?_sound hr h with ⟨word, rfl, hw, htook⟩ |
    ⟨other, rfl, hw, hp, hafter, hheld, hpasses⟩
  · exact waits_of_none htook.held
  · intro link hl
    obtain rfl : other = link := Option.some.inj (hheld.symm.trans hl)
    obtain ⟨front, hfront⟩ := List.getLast?_eq_some_iff.1 hlast
    have hself := hafter.before_held
    rw [hheld, Option.toList_some] at hself
    obtain ⟨done, ahead, hchain, hall, -⟩ := hpasses _ _ _ hself
    rw [hh, Option.toList_none, List.append_nil] at hchain
    rw [← hchain, hfront, List.append_assoc] at hall
    exact .inr ⟨front, dot, hall, hd⟩

theorem nameTail_waits (hr : reader.Valid) (hh : reader.held = none) {tail : List Link}
    (h : nameTail reserved reader = .ok tail after) : after.Waits := by
  obtain ⟨⟨segments, last⟩, between, hrun, h⟩ := bind_eq_ok.1 h
  obtain ⟨-, rfl⟩ := pure_eq_ok.1 h
  revert hr hh
  refine repeatUntil_induction (motive := fun reader _ _ after => reader.Valid →
    reader.held = none → after.Waits) (fun h hr hh => h hr.round hh) ?_ ?_ hrun
  · intro reader last after hs hr hh
    cases nameSegment_sound hr hh hs with
    | none => exact waits_of_none hh
    | other hd htook hword =>
      exact wordAfterDot?_waits (htook.valid (by simp [hd])) htook.held htook.last hd hword
  · intro reader segment between segments last after hs ih hr hh
    cases nameSegment_sound hr hh hs with
    | word _ _ hw htook' => exact ih (htook'.valid (Kind.ne_endOfInput_of_isWord hw)) htook'.held

theorem takeName?_waits (hr : reader.Valid) {name : DottedName}
    (h : takeName? reserved reader = .ok (some name) after) : after.Waits := by
  cases takeName?_finds h with
  | word hfirst hw htail =>
    obtain ⟨_, -, htook, -, -⟩ := takeSignificant_sound hr hfirst
    exact nameTail_waits (htook.valid (Kind.ne_endOfInput_of_isWord hw)) htook.held htail
  | dot hfirst hd hword =>
    obtain ⟨_, -, htook, -, -⟩ := takeSignificant_sound hr hfirst
    exact wordAfterDot?_waits (htook.valid (by simp [hd])) htook.held htook.last hd hword
  | dotWord hfirst hd hword htail =>
    obtain ⟨_, -, htook, -, -⟩ := takeSignificant_sound hr hfirst
    obtain ⟨hw, htook'⟩ := wordAfterDot?_eq_some (htook.valid (by simp [hd])) hword
    exact nameTail_waits (htook'.valid (Kind.ne_endOfInput_of_isWord hw)) htook'.held htail

end Parse

namespace Grammar

open Parse Reader

variable {α : Type} {reader after : Reader} {link : Link}

/-! ## The smallest rules -/

theorem mark_held {mark : Punct} (h : Grammar.mark mark reader = .ok link after) :
    after.held = none := by
  obtain ⟨link, next, htake, h⟩ := bind_eq_ok.1 h
  split at h
  · obtain ⟨-, rfl⟩ := pure_eq_ok.1 h
    exact takeSignificant_held htake
  · cases h

theorem mark?_idles {mark : Punct} {found : Option Link} (h : mark? mark reader = .ok found after) :
    reader.Idles after ∧ (found.isSome → after.held = none) := by
  obtain ⟨c, between, hpeek, h⟩ := bind_eq_ok.1 h
  split at h
  · obtain ⟨link, htake, -⟩ := map_eq_ok.1 h
    exact ⟨.inl (take_held htake), fun _ => take_held htake⟩
  · obtain ⟨rfl, rfl⟩ := pure_eq_ok.1 h
    exact ⟨peekSignificant_idles hpeek, by simp⟩

theorem separator?_idles {found : Option Link} (h : separator? reader = .ok found after) :
    reader.Idles after := by
  rw [separator?_eq] at h
  obtain ⟨c, between, hpeek, h⟩ := bind_eq_ok.1 h
  split at h
  · obtain ⟨link, htake, -⟩ := map_eq_ok.1 h
    exact .inl (take_held htake)
  · obtain ⟨-, rfl⟩ := pure_eq_ok.1 h
    exact peekSignificant_idles hpeek

theorem name_waits {reserved : Bool} (hr : reader.Valid) {words : DottedName}
    (h : name reserved reader = .ok words after) : after.Waits := by
  obtain ⟨found, between, hname, h⟩ := bind_eq_ok.1 h
  cases found with
  | none => exact absurd h not_unexpected
  | some words =>
    obtain ⟨-, rfl⟩ := pure_eq_ok.1 h
    exact takeName?_waits hr hname

theorem string_held (h : string reader = .ok link after) : after.held = none := by
  obtain ⟨found, between, hstring, h⟩ := bind_eq_ok.1 h
  cases found with
  | none => exact absurd h not_unexpected
  | some link =>
    obtain ⟨-, rfl⟩ := pure_eq_ok.1 h
    exact takeString?_held hstring

theorem itemsUntil_held {item : Parse α} {close : Punct} {result : List α × Link}
    (h : itemsUntil close item reader = .ok result after) : after.held = none := by
  obtain ⟨items, closing⟩ := result
  refine repeatUntil_induction (motive := fun _ _ _ after => after.held = none) (fun h => h)
    (fun {reader b after} hs => ?_) (fun _ ih => ih) h
  obtain ⟨found, between, hmark, hs⟩ := bind_eq_ok.1 hs
  cases found with
  | none =>
    obtain ⟨_, -, heq⟩ := map_eq_ok.1 hs
    cases heq
  | some link =>
    obtain ⟨-, rfl⟩ := pure_eq_ok.1 hs
    exact (mark?_idles hmark).2 rfl

/-! ## Annotations and types -/

theorem annotations_held {nodes : List Annotation} (h : annotations reader = .ok nodes after) :
    after.held = none := by
  obtain ⟨_, _, -, h⟩ := bind_eq_ok.1 h
  obtain ⟨_, between, hlist, h⟩ := bind_eq_ok.1 h
  obtain ⟨-, rfl⟩ := pure_eq_ok.1 h
  exact itemsUntil_held hlist

theorem trailingAnnotations_idles {trailing : TrailingSeparator} {last : Nat}
    {result : List Annotation × Nat} (h : trailingAnnotations last trailing reader = .ok result after) :
    reader.Idles after := by
  obtain ⟨found, between, hfound, h⟩ := bind_eq_ok.1 h
  obtain rfl : between = after := by
    cases found <;> exact (pure_eq_ok.1 h).2
  obtain ⟨opening, next, hmark, h⟩ := bind_eq_ok.1 hfound
  cases opening with
  | none =>
    obtain ⟨-, rfl⟩ := pure_eq_ok.1 h
    exact (mark?_idles hmark).1
  | some opening =>
    obtain ⟨_, hlist, -⟩ := map_eq_ok.1 h
    exact .inl (itemsUntil_held hlist)

theorem cppType?_waits (hr : reader.Valid) (hh : reader.held = none) {found : Option Link}
    (h : cppType? reader = .ok found after) : after.Waits := by
  obtain ⟨word, between, hword, h⟩ := bind_eq_ok.1 h
  cases word with
  | none =>
    obtain ⟨-, rfl⟩ := pure_eq_ok.1 h
    obtain ⟨c, next, hpeek, hword⟩ := bind_eq_ok.1 hword
    have hidles := peekSignificant_idles hpeek
    have hnext : next = between := by
      split at hword
      · split at hword
        · obtain ⟨_, -, heq⟩ := map_eq_ok.1 hword
          cases heq
        · exact (pure_eq_ok.1 hword).2
      · exact (pure_eq_ok.1 hword).2
    exact (hnext ▸ hidles).waits (waits_of_none hh)
  | some word =>
    obtain ⟨_, _, htook, -, hw⟩ := word?_some hr hword
    dsimp only at h
    split at h
    · obtain ⟨_, hstring, -⟩ := map_eq_ok.1 h
      exact waits_of_none (string_held hstring)
    · obtain ⟨_, last, hback, h⟩ := bind_eq_ok.1 h
      obtain ⟨-, rfl⟩ := pure_eq_ok.1 h
      rw [putBackLast_of_took htook] at hback
      cases hback
      intro link hl
      cases hl
      exact .inl hw

theorem mapType_held {type : Parse FieldType} {open' : OpenType}
    (h : mapType type reader = .ok open' after) : after.held = none := by
  obtain ⟨_, _, -, h⟩ := bind_eq_ok.1 h
  obtain ⟨_, _, -, h⟩ := bind_eq_ok.1 h
  obtain ⟨_, _, -, h⟩ := bind_eq_ok.1 h
  obtain ⟨_, _, -, h⟩ := bind_eq_ok.1 h
  obtain ⟨_, _, -, h⟩ := bind_eq_ok.1 h
  obtain ⟨_, between, hgreater, h⟩ := bind_eq_ok.1 h
  obtain ⟨-, rfl⟩ := pure_eq_ok.1 h
  exact mark_held hgreater

theorem setType_held {type : Parse FieldType} {open' : OpenType}
    (h : setType type reader = .ok open' after) : after.held = none := by
  obtain ⟨_, _, -, h⟩ := bind_eq_ok.1 h
  obtain ⟨_, _, -, h⟩ := bind_eq_ok.1 h
  obtain ⟨_, _, -, h⟩ := bind_eq_ok.1 h
  obtain ⟨_, between, hgreater, h⟩ := bind_eq_ok.1 h
  obtain ⟨-, rfl⟩ := pure_eq_ok.1 h
  exact mark_held hgreater

theorem listType_waits {type : Parse FieldType} {open' : OpenType} (hr : reader.Valid)
    (htype : ∀ {inside node outside}, inside.Valid → type inside = .ok node outside → outside.Valid)
    (h : listType type reader = .ok open' after) : after.Waits := by
  obtain ⟨_, r₁, h₁, h⟩ := bind_eq_ok.1 h
  obtain ⟨_, r₂, h₂, h⟩ := bind_eq_ok.1 h
  obtain ⟨_, r₃, h₃, h⟩ := bind_eq_ok.1 h
  obtain ⟨_, r₄, h₄, h⟩ := bind_eq_ok.1 h
  obtain ⟨-, rfl⟩ := pure_eq_ok.1 h
  obtain ⟨_, -, hless⟩ := mark_sound hr h₁
  obtain ⟨_, -, hgreater⟩ := mark_sound (htype hless.valid h₂) h₃
  exact cppType?_waits hgreater.valid (mark_held h₃) h₄

theorem typeOfName_idles {name : DottedName} {open' : OpenType}
    (h : typeOfName name reader = .ok open' after) : reader.Idles after := by
  unfold typeOfName at h
  cases hbase : BaseType.ofText? name.text with
  | some base =>
    rw [hbase] at h
    exact .inr (pure_eq_ok.1 h).2.symm
  | none =>
    rw [hbase] at h
    dsimp only at h
    split at h
    · cases h
    · exact .inr (pure_eq_ok.1 h).2.symm

theorem fieldType_waits (hr : reader.Valid) {node : FieldType}
    (h : fieldType reader = .ok node after) : after.Waits := by
  rw [fieldType, nested_apply] at h
  obtain ⟨words, r₁, h₁, h⟩ := bind_eq_ok.1 h
  obtain ⟨⟨build, last⟩, r₂, h₂, h⟩ := bind_eq_ok.1 h
  obtain ⟨_, r₃, h₃, h⟩ := bind_eq_ok.1 h
  obtain ⟨-, h⟩ := span_bind_eq_ok.1 h
  obtain ⟨-, rfl⟩ := pure_eq_ok.1 h
  refine (trailingAnnotations_idles h₃).waits ?_
  obtain ⟨_, -, hname⟩ := name_sound hr.round h₁
  rw [openType_eq] at h₂
  split at h₂
  · exact waits_of_none (mapType_held h₂)
  split at h₂
  · exact waits_of_none (setType_held h₂)
  split at h₂
  · refine listType_waits hname.valid (fun hinside htype => ?_) h₂
    obtain ⟨_, -, hreads, -⟩ := fieldType_sound hinside (below_eq_ok.1 htype).2
    exact hreads.valid
  · exact (typeOfName_idles h₂).waits (name_waits hr.round h₁)

/-! ## Constant values and fields -/

theorem numberValue_held {node : ConstValue} (h : numberValue reader = .ok node after) :
    after.held = none := by
  obtain ⟨link, next, hnumber, h⟩ := bind_eq_ok.1 h
  have hafter : next = after := by
    cases hk : link.kind with
    | number =>
      cases hf : Numeral.form? link.raw with
      | none => simp [hk, hf, throw_eq_ok] at h
      | some form =>
        rw [hk, hf] at h
        cases form <;> exact (pure_eq_ok.1 h).2
    | _ => simp [hk, throw_eq_ok] at h
  exact hafter ▸ takeNumber_held hnumber

theorem constValue_waits (hr : reader.Valid) {node : ConstValue}
    (h : constValue reader = .ok node after) : after.Waits := by
  rw [constValue, nested_apply] at h
  obtain ⟨c, between, hpeek, h⟩ := bind_eq_ok.1 h
  obtain ⟨hreads, -⟩ := peekSignificant_sound hr.round hpeek
  have hname : ∀ {reader node after}, reader.Valid → nameValue reader = .ok node after →
      after.Waits := by
    intro reader node after hr h
    obtain ⟨words, next, hwords, h⟩ := bind_eq_ok.1 h
    split at h
    · obtain ⟨-, h⟩ := span_bind_eq_ok.1 h
      obtain ⟨-, rfl⟩ := pure_eq_ok.1 h
      exact name_waits hr hwords
    · cases h
  cases c with
  | none => exact hname hreads.valid h
  | some c =>
    dsimp only at h
    split at h
    · exact waits_of_none (numberValue_held h)
    split at h
    · obtain ⟨_, next, hstring, h⟩ := bind_eq_ok.1 h
      obtain ⟨-, rfl⟩ := pure_eq_ok.1 h
      exact waits_of_none (string_held hstring)
    split at h
    · obtain ⟨_, _, -, h⟩ := bind_eq_ok.1 h
      obtain ⟨_, next, hitems, h⟩ := bind_eq_ok.1 h
      obtain ⟨-, h⟩ := span_bind_eq_ok.1 h
      obtain ⟨-, rfl⟩ := pure_eq_ok.1 h
      exact waits_of_none (itemsUntil_held hitems)
    split at h
    · obtain ⟨_, _, -, h⟩ := bind_eq_ok.1 h
      obtain ⟨_, next, hentries, h⟩ := bind_eq_ok.1 h
      obtain ⟨-, h⟩ := span_bind_eq_ok.1 h
      obtain ⟨-, rfl⟩ := pure_eq_ok.1 h
      exact waits_of_none (itemsUntil_held hentries)
    · exact hname hreads.valid h

theorem default?_waits (hr : reader.Valid) (hw : reader.Waits) {found : Option ConstValue}
    (h : default? reader = .ok found after) : after.Waits := by
  obtain ⟨equals, between, hmark, h⟩ := bind_eq_ok.1 h
  cases equals with
  | none =>
    obtain ⟨-, rfl⟩ := pure_eq_ok.1 h
    exact (mark?_idles hmark).1.waits hw
  | some equals =>
    obtain ⟨value, hvalue, -⟩ := map_eq_ok.1 h
    obtain ⟨heq, -⟩ | ⟨_, -, hreads⟩ := mark?_sound (by decide) hr hmark
    · cases heq
    · exact constValue_waits hreads.valid hvalue

theorem field_waits (hr : reader.Valid) {node : Field} (h : field reader = .ok node after) :
    after.Waits := by
  obtain ⟨⟨_, _⟩, r₁, h₁, h⟩ := bind_eq_ok.1 h
  obtain ⟨_, r₂, h₂, h⟩ := bind_eq_ok.1 h
  obtain ⟨_, r₃, h₃, h⟩ := bind_eq_ok.1 h
  obtain ⟨_, r₄, h₄, h⟩ := bind_eq_ok.1 h
  obtain ⟨_, r₅, h₅, h⟩ := bind_eq_ok.1 h
  obtain ⟨_, r₆, h₆, h⟩ := bind_eq_ok.1 h
  obtain ⟨_, r₇, h₇, h⟩ := bind_eq_ok.1 h
  obtain ⟨_, r₈, h₈, h⟩ := bind_eq_ok.1 h
  obtain ⟨-, h⟩ := span_bind_eq_ok.1 h
  obtain ⟨-, rfl⟩ := pure_eq_ok.1 h
  obtain ⟨_, -, -, hid⟩ := integer_sound hr h₁
  obtain ⟨_, -, hcolon⟩ := mark_sound hid.valid h₂
  obtain ⟨_, -, hdemand, -⟩ := requiredness?_sound hcolon.valid h₃
  obtain ⟨_, -, htype, -⟩ := fieldType_sound hdemand.valid h₄
  obtain ⟨_, -, hname⟩ := name_sound htype.valid h₅
  refine (separator?_idles h₈).waits ((trailingAnnotations_idles h₇).waits ?_)
  exact default?_waits hname.valid (name_waits htype.valid h₅) h₆

end Grammar

end ThriftSyntax
