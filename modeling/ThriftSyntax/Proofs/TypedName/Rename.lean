import ThriftSyntax.Proofs.TypedName.Unread

/-!
# Any name after a type

Whether a name is read after a type, and as what, does not depend on the name, whatever text the type is
written as. There is one exception: the word `cpp_type` after a list that ends with its angle bracket.
-/

namespace ThriftSyntax

open Lexeme Phrase

/-- The two trees have the same tokens but for one name, which is `x` in the one and `y` in the other. With
the one name for the other and indexes made anew, the one tree is the other. -/
structure SyntaxTree.Renames (x y : String) (tree tree' : SyntaxTree) : Prop where
  tokens : ∃ front back, tree.tokens.links.map Link.lexeme = front ++ (.ident, x) :: back ∧
    tree'.tokens.links.map Link.lexeme = front ++ (.ident, y) :: back
  named : tree.document.givenNames = [x]
  document : tree'.document = (tree.document.withName y).reindex tree'.tokens

namespace SyntaxTree

variable (options : Options)

/-- With every such name between its parts the text is read as one document, or with no name at all. -/
def TreatsNamesAlike (before after : String) (Fits : String → Prop) : Prop :=
  (∃ document, document.givenNames.length = 1 ∧ ReadsNames options before after Fits document) ∨
    ∀ x : String, Spells .ident x.toList → ∃ error, ofText (before ++ x ++ after) options = .error error

variable {text : String} {node : FieldType} {chain : TokenChain}

/-- A comment that the type ends with takes in the name and what follows it. -/
theorem error_of_more {type : Phrase.FieldType} (place : NamePlace) {x : String}
    (h : ∀ more, (∀ c ∈ more, isLineBreak c = false) → ∀ ending : Ending,
      ∃ own, Link.Cut (type.terminals ++ ending.terminals) (text.toList ++ more) [] own)
    (hx : Spells .ident x.toList) : ∃ error, ofText (place.text text x) options = .error error := by
  have hmore : ∀ c ∈ (" " ++ x ++ place.after).toList, isLineBreak c = false := by
    rw [String.toList_append, String.toList_append, List.forall_mem_append, List.forall_mem_append]
    exact ⟨⟨by simp [isLineBreak], hx.line_of_ident⟩, place.after_line⟩
  obtain ⟨own, hcut⟩ := h _ hmore (endAt 0)
  rw [← String.toList_append, ← String.append_assoc, ← String.append_assoc] at hcut
  rw [NamePlace.text_eq]
  exact error_of_comment options place hcut

theorem treatsNamesAlike (h : Grammar.wholeType? text.toList = some (node, chain)) (place : NamePlace) :
    TreatsNamesAlike options (place.before ++ text ++ " ") place.after
      fun x => node.EndsBare chain → x ≠ "cpp_type" := by
  obtain ⟨type, rfl, hbare, ⟨own, hpiece⟩ | hcomment⟩ := Grammar.exists_piece h
  · simp only [← hbare]
    cases place with
    | field =>
      obtain ⟨span, struct, field, -, -, -, hnames⟩ := readsNames_demanded options hpiece spells_one
        (show Numeral.integer? "1" = some 1 by decide)
      exact .inl ⟨_, rfl, hnames⟩
    | const =>
      obtain ⟨span, const, hnames⟩ := readsNames_const options hpiece
      exact .inl ⟨_, rfl, hnames⟩
    | typedef =>
      cases hnamed : type.node.isNamed with
      | true => exact .inr fun x hx => error_of_named options hpiece hnamed hx
      | false =>
        obtain ⟨span, typedef, hnames⟩ := readsNames_typedef options hpiece hnamed
        exact .inl ⟨_, rfl, hnames⟩
    | function =>
      by_cases hvoid : type.head.kind = .keyword .void
      · exact .inr fun x hx => error_of_named_void options hpiece hvoid hx
      · obtain ⟨span, service, function, -, -, hnames⟩ := readsNames_onewayed options hpiece hvoid
        exact .inl ⟨_, rfl, hnames⟩
  · exact .inr fun x hx => error_of_more options place hcomment hx

theorem error_of_cppType (h : Grammar.wholeType? text.toList = some (node, chain)) (place : NamePlace)
    (hbare : node.EndsBare chain) : ∃ error, ofText (place.text text "cpp_type") options = .error error := by
  obtain ⟨type, rfl, hbare', ⟨own, hpiece⟩ | hcomment⟩ := Grammar.exists_piece h
  · exact error_of_bare options place hpiece (hbare'.2 hbare)
  · exact error_of_more options place hcomment spells_cppType

/-- Whatever text a type is written as, and whichever of the places the name stands in: with a name the
text is read if and only if it is with another, and then the trees differ in that name only. The one
exception is the name `cpp_type` after a list that ends with its angle bracket: it is never read. -/
theorem ofText_rename (h : Grammar.wholeType? text.toList = some (node, chain)) (place : NamePlace) :
    (∀ x y : String, Spells .ident x.toList → Spells .ident y.toList →
      (node.EndsBare chain → x ≠ "cpp_type" ∧ y ≠ "cpp_type") →
      ((∃ tree, ofText (place.text text x) options = .ok tree) ↔
        ∃ tree, ofText (place.text text y) options = .ok tree) ∧
      ∀ tree tree', ofText (place.text text x) options = .ok tree →
        ofText (place.text text y) options = .ok tree' → tree.Renames x y tree') ∧
    (node.EndsBare chain → ∃ error, ofText (place.text text "cpp_type") options = .error error) := by
  refine ⟨fun x y hx hy hbare => ?_, error_of_cppType options h place⟩
  rcases treatsNamesAlike options h place with ⟨document, hone, front, back, hread⟩ | hnone
  · obtain ⟨tree, htree, hlinks, hdocument⟩ := hread x hx fun h => (hbare h).1
    obtain ⟨tree', htree', hlinks', hdocument'⟩ := hread y hy fun h => (hbare h).2
    refine ⟨iff_of_true ⟨tree, htree⟩ ⟨tree', htree'⟩, fun other other' hother hother' => ?_⟩
    cases htree.symm.trans hother
    cases htree'.symm.trans hother'
    refine ⟨⟨front, back, hlinks, hlinks'⟩, ?_, ?_⟩
    · obtain ⟨name, hname⟩ := List.length_eq_one_iff.1 hone
      rw [hdocument, Document.givenNames_withName, hname]
      rfl
    · rw [hdocument, hdocument', Document.withName_reindex]
  · have hnot : ∀ z : String, Spells .ident z.toList →
        ¬ ∃ tree, ofText (place.text text z) options = .ok tree := by
      rintro z hz ⟨tree, htree⟩
      obtain ⟨error, herror⟩ := hnone z hz
      cases herror.symm.trans htree
    exact ⟨iff_of_false (hnot x hx) (hnot y hy), fun tree _ htree => absurd ⟨tree, htree⟩ (hnot x hx)⟩

theorem exists_of_isOk {text : String} (h : (ofText text options).isOk = true) :
    ∃ tree, ofText text options = .ok tree := by
  cases hrun : ofText text options with
  | ok tree => exact ⟨tree, rfl⟩
  | error error =>
    rw [hrun] at h
    cases h

/-- A list of numbers may have the name `a` or `b`, but not `cpp_type`. -/
theorem ofText_rename_list : ∃ node chain tree tree',
    Grammar.wholeType? "list<i32>".toList = some (node, chain) ∧ node.EndsBare chain ∧
      ofText (NamePlace.const.text "list<i32>" "a") {} = .ok tree ∧
      ofText (NamePlace.const.text "list<i32>" "b") {} = .ok tree' ∧ tree.Renames "a" "b" tree' ∧
      ∃ error, ofText (NamePlace.const.text "list<i32>" "cpp_type") {} = .error error := by
  have ha : Spells .ident "a".toList := .ident (by decide) (by simp) (by decide)
  have hb : Spells .ident "b".toList := .ident (by decide) (by simp) (by decide)
  have hbare : (Grammar.wholeType? "list<i32>".toList).any (fun found => found.1.EndsBare found.2) := by
    decide +kernel
  obtain ⟨⟨node, chain⟩, hwhole, hbare⟩ := (Option.any_eq_true _ _).1 hbare
  have hok : (ofText (NamePlace.const.text "list<i32>" "a") {}).isOk = true := by decide +kernel
  have hok' : (ofText (NamePlace.const.text "list<i32>" "b") {}).isOk = true := by decide +kernel
  obtain ⟨tree, htree⟩ := exists_of_isOk {} hok
  obtain ⟨tree', htree'⟩ := exists_of_isOk {} hok'
  obtain ⟨hnames, herror⟩ := ofText_rename {} hwhole .const
  have hrename := (hnames "a" "b" ha hb fun _ => ⟨by decide, by decide⟩).2 tree tree' htree htree'
  exact ⟨node, chain, tree, tree', hwhole, of_decide_eq_true hbare, htree, htree', hrename,
    herror (of_decide_eq_true hbare)⟩

/-- In none of the places is that name read after that type, though another is. -/
theorem ofText_rename_cppType : (Grammar.wholeType? "list<i32>".toList).isSome ∧
    Spells .ident "cpp_type".toList ∧ Spells .ident "a".toList ∧ ∀ place : NamePlace,
      ¬ ((∃ tree, ofText (place.text "list<i32>" "cpp_type") {} = .ok tree) ↔
        ∃ tree, ofText (place.text "list<i32>" "a") {} = .ok tree) := by
  refine ⟨by decide +kernel, spells_cppType, .ident (by decide) (by simp) (by decide), fun place hiff => ?_⟩
  have hok : (ofText (place.text "list<i32>" "a") {}).isOk = true := by cases place <;> decide +kernel
  have herror : (ofText (place.text "list<i32>" "cpp_type") {}).isOk = false := by
    cases place <;> decide +kernel
  obtain ⟨tree, htree⟩ := hiff.2 (exists_of_isOk {} hok)
  rw [htree] at herror
  cases herror

end SyntaxTree

end ThriftSyntax
