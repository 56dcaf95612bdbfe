import ThriftSyntax.Proofs.Span.Part
import ThriftSyntax.Proofs.TypedName.Qualified

/-!
# Names of a tree

Every name is words joined by dots, with or without a dot in front of the first and behind the last;
in some places the words may be reserved ones. The only other name is a dot by itself.
-/

namespace ThriftSyntax

open Lexeme

/-! ## Qualified names -/

/-- An identifier or, with `reserved`, a reserved word. -/
def Lexeme.IsNameWord (reserved : Bool) (word : String) : Prop :=
  Spells .ident word.toList ∨ reserved = true ∧ ∃ keyword : Keyword, word = keyword.text

/-- Words joined by single dots, perhaps with a dot in front of the first or behind the last. -/
def IsQualified (reserved : Bool) (name : String) : Prop :=
  ∃ lead first words trail, lead ∈ ["", "."] ∧ trail ∈ ["", "."] ∧
    (∀ word ∈ first :: words, IsNameWord reserved word) ∧
      name = lead ++ qualified first words ++ trail

theorem Lexeme.IsNameWord.exists_startsWord {reserved : Bool} {word : String}
    (h : IsNameWord reserved word) : ∃ c ∈ word.toList.head?, startsWord c = true := by
  rcases h with h | ⟨-, keyword, rfl⟩
  · generalize word.toList = raw at h
    cases h with
    | ident hc => exact ⟨_, rfl, hc⟩
  · cases keyword <;> exact ⟨_, rfl, by decide⟩

/-- A qualified name has a word in it. -/
theorem IsQualified.exists_startsWord {reserved : Bool} {name : String}
    (h : IsQualified reserved name) : ∃ c ∈ name.toList, startsWord c = true := by
  obtain ⟨lead, first, words, trail, -, -, hwords, rfl⟩ := h
  obtain ⟨c, hc, hstarts⟩ := (hwords first List.mem_cons_self).exists_startsWord
  have hmem : c ∈ (qualified first words).toList := by
    cases words with
    | nil => simpa [qualified] using List.mem_of_head? hc
    | cons second words =>
      rw [qualified_cons, String.toList_append]
      exact List.mem_append_left _ (List.mem_of_head? hc)
  exact ⟨c, by simp [hmem], hstarts⟩

/-- A dot alone is no qualified name, and neither is the empty text. -/
theorem IsQualified.ne {reserved : Bool} {name : String} (h : IsQualified reserved name) :
    name ≠ "" ∧ name ≠ "." := by
  obtain ⟨c, hc, hstarts⟩ := h.exists_startsWord
  constructor
  · rintro rfl
    simp at hc
  · rintro rfl
    obtain rfl : c = '.' := by simpa using hc
    revert hstarts
    decide

/-! ## Names as tokens -/

namespace DottedName

variable {reserved : Bool}

theorem isNameWord_raw {link : Link} (hw : link.kind.isWord reserved = true)
    (hs : Spells link.kind link.raw.toList) : IsNameWord reserved link.raw := by
  cases hk : link.kind with
  | ident => exact .inl (hk ▸ hs)
  | keyword keyword =>
    rw [hk] at hw hs
    have htext : link.raw = keyword.text := by
      generalize hraw : link.raw.toList = raw at hs
      cases hs
      exact String.toList_inj.1 hraw
    exact .inr ⟨hw, keyword, htext⟩
  | _ => rw [hk] at hw; cases hw

/-- A word and the tokens after it are words joined by dots, and perhaps one more dot. -/
theorem Tail.exists_qualified {word : Link} {tail : List Link} (h : Tail reserved tail)
    (hw : IsNameWord reserved word.raw) (hs : ∀ link ∈ tail, Spells link.kind link.raw.toList) :
    ∃ words trail, trail ∈ ["", "."] ∧ (∀ other ∈ word.raw :: words, IsNameWord reserved other) ∧
      Link.spelled (word :: tail) = (qualified word.raw words ++ trail).toList := by
  induction h generalizing word with
  | nil => exact ⟨[], "", by simp, by simpa using hw, by simp [qualified]⟩
  | dot hd =>
    obtain ⟨hdot, -⟩ := List.forall_mem_cons.1 hs
    refine ⟨[], ".", by simp, by simpa using hw, ?_⟩
    simp [qualified, Parse.head_dot hd hdot]
  | @word dot next tail hd hnext _ ih =>
    obtain ⟨hdot, hs⟩ := List.forall_mem_cons.1 hs
    obtain ⟨hsnext, hs⟩ := List.forall_mem_cons.1 hs
    obtain ⟨words, trail, htrail, hwords, hspelled⟩ := ih (isNameWord_raw hnext hsnext) hs
    refine ⟨next.raw :: words, trail, htrail, List.forall_mem_cons.2 ⟨hw, hwords⟩, ?_⟩
    rw [Link.spelled_cons, Link.spelled_cons, hspelled, Parse.head_dot hd hdot, qualified_cons]
    simp

/-- A name is qualified unless it is a dot alone. -/
theorem Shaped.isQualified {name : DottedName} (h : name.Shaped reserved) :
    IsQualified reserved name.text ∨
      name.text = "." ∧ name.head.kind = .punct .dot ∧ name.tail = [] := by
  obtain ⟨head, tail⟩ := name
  obtain ⟨hhead, hs⟩ := List.forall_mem_cons.1 h.spells
  rcases h.shape with hshape | ⟨hw, htail⟩
  · cases hshape with
    | dot hd =>
      refine .inr ⟨?_, hd, rfl⟩
      rw [← String.toList_inj, toList_text]
      simp [links, Parse.head_dot hd hhead]
    | @word _ next tail hd hw htail =>
      obtain ⟨hnext, hs⟩ := List.forall_mem_cons.1 hs
      obtain ⟨words, trail, htrail, hwords, hspelled⟩ :=
        htail.exists_qualified (isNameWord_raw hw hnext) hs
      refine .inl ⟨".", next.raw, words, trail, by simp, htrail, hwords, ?_⟩
      rw [← String.toList_inj, toList_text, links, Link.spelled_cons, hspelled,
        Parse.head_dot hd hhead]
      simp
  · obtain ⟨words, trail, htrail, hwords, hspelled⟩ :=
      htail.exists_qualified (isNameWord_raw hw hhead) hs
    refine .inl ⟨"", head.raw, words, trail, by simp, htrail, hwords, ?_⟩
    rw [← String.toList_inj, toList_text, links, hspelled]
    simp

end DottedName

/-! ## Names of nodes -/

namespace Node

/-- The names that a node has itself, each with whether reserved words may be words of it. -/
def names : Node → List (Bool × String)
  | namespaced node => if node.scope = "*" then [(true, node.target)]
      else [(true, node.scope), (true, node.target)]
  | const node => [(false, node.name)]
  | constValue (.scalar .name text _) => [(false, text)]
  | typedef node => [(true, node.name)]
  | enum node => [(false, node.name)]
  | enumElement node => [(false, node.name)]
  | struct node => [(false, node.name)]
  | field node => [(false, node.name)]
  | fieldType (.named name _ _) => [(true, name)]
  | service node => (false, node.name) :: node.base.toList.map (false, ·)
  | function node => [(false, node.name)]
  | annotation node => [(false, node.name)]
  | _ => []

end Node

namespace Phrase

variable {numbering : Numbering} {node : Node} {xs : List Terminal}

/-- Some terminal is the name. -/
def HasName (xs : List Terminal) (entry : Bool × String) : Prop :=
  ∃ words : DottedName, .name entry.1 words ∈ xs ∧ words.Shaped entry.1 ∧ words.text = entry.2

theorem Name.hasName {reserved : Bool} (name : Name reserved)
    (h : .name reserved name.words ∈ xs) : HasName xs (reserved, name.words.text) :=
  ⟨name.words, h, name.shaped, rfl⟩

/-- For a node with one name. -/
theorem Name.hasName_only {reserved : Bool} (name : Name reserved)
    (h : .name reserved name.words ∈ xs) :
    ∀ entry ∈ [(reserved, name.words.text)], HasName xs entry :=
  List.forall_mem_singleton.2 (name.hasName h)

theorem FieldType.hasName (phrase : FieldType) :
    ∀ entry ∈ (Node.fieldType phrase.node).names, HasName phrase.terminals entry := by
  cases phrase with
  | simple name names annotations =>
    rw [node, ofName]
    split
    · exact List.forall_mem_nil _
    · exact name.hasName_only (by simp [terminals, Name.terminals])
  | map | set | list => exact List.forall_mem_nil _

theorem ConstValue.hasName (phrase : ConstValue) :
    ∀ entry ∈ (Node.constValue phrase.node).names, HasName phrase.terminals entry := by
  cases phrase with
  | number numeral =>
    rw [node]
    split <;> exact List.forall_mem_nil _
  | name reference proper =>
    exact reference.hasName_only (List.mem_singleton_self _)
  | string | list | map => exact List.forall_mem_nil _

theorem Namespace.hasName (phrase : Namespace) :
    ∀ entry ∈ (Node.namespaced phrase.node).names, HasName phrase.terminals entry := by
  have htarget : HasName phrase.terminals (true, phrase.target.words.text) :=
    phrase.target.hasName (by simp [terminals, Name.terminals])
  change ∀ entry ∈ if phrase.node.scope = "*" then _ else _, _
  split
  · exact List.forall_mem_singleton.2 htarget
  · rename_i hscope
    refine List.forall_mem_cons.2 ⟨?_, List.forall_mem_singleton.2 htarget⟩
    obtain ⟨word, scope, target, annotations⟩ := phrase
    cases scope with
    | all star => exact absurd (String.toList_inj.1 star.spelled_mark) hscope
    | name scope => exact scope.hasName (by simp [terminals, Scope.terminals, Name.terminals])

theorem Service.hasName (phrase : Service) :
    ∀ entry ∈ (Node.service phrase.node).names, HasName phrase.terminals entry := by
  refine List.forall_mem_cons.2 ⟨phrase.name.hasName (by simp [terminals, Name.terminals]), ?_⟩
  rintro entry hentry
  obtain ⟨text, htext, rfl⟩ := List.mem_map.1 hentry
  obtain ⟨base, hbase, rfl⟩ := Option.map_eq_some_iff.1 (Option.mem_toList.1 htext)
  exact base.name.hasName (by simp [terminals, hbase, optional, Base.terminals, Name.terminals])

theorem Definition.hasName (phrase : Definition) :
    ∀ entry ∈ (Node.ofDefinition (phrase.node numbering)).names, HasName phrase.terminals entry := by
  cases phrase with
  | namespaced phrase => exact phrase.hasName
  | service phrase => exact phrase.hasName
  | included phrase => exact List.forall_mem_nil _
  | const phrase =>
    exact phrase.name.hasName_only (by simp [terminals, Const.terminals, Name.terminals])
  | typedef phrase =>
    exact phrase.name.hasName_only (by simp [terminals, TypeDef.terminals, Name.terminals])
  | enum phrase =>
    exact phrase.name.hasName_only (by simp [terminals, Enum.terminals, Name.terminals])
  | struct phrase =>
    exact phrase.name.hasName_only (by simp [terminals, Struct.terminals, Name.terminals])

/-- The names of a node are among the terminals of its phrase. -/
theorem StandsFor.hasName (h : StandsFor numbering node xs) :
    ∀ entry ∈ node.names, HasName xs entry := by
  cases h with
  | fieldType phrase => exact phrase.hasName
  | constValue phrase => exact phrase.hasName
  | definition phrase => exact phrase.hasName
  | annotation phrase =>
    exact phrase.name.hasName_only (by simp [ Annotation.terminals, Name.terminals])
  | field phrase =>
    exact phrase.name.hasName_only (by simp [Field.terminals, Name.terminals])
  | function phrase =>
    exact phrase.name.hasName_only (by simp [Function.terminals, Name.terminals])
  | enumElement phrase id =>
    exact phrase.name.hasName_only (by simp [EnumElement.terminals, Name.terminals])

end Phrase

/-! ## Dots by themselves -/

/-- Each terminal stands somewhere among the tokens, and ends there. -/
theorem Laid.exists_mem {rest : List Char} {xs : List Terminal} {links : List Link} {x : Terminal}
    (h : Laid rest xs links) (hx : x ∈ xs) :
    ∃ front tail, links = front ++ (x.links ++ tail) ∧ x.Ends tail rest := by
  induction h with
  | nil => cases hx
  | @gap _ link _ _ _ ih =>
    obtain ⟨front, tail, rfl, hends⟩ := ih hx
    exact ⟨link :: front, tail, rfl, hends⟩
  | @terminal y _ _ _ hends _ ih =>
    obtain rfl | hx := List.mem_cons.1 hx
    · exact ⟨[], _, rfl, hends⟩
    · obtain ⟨front, tail, rfl, hx⟩ := ih hx
      exact ⟨y.links ++ front, tail, by simp, hx⟩

/-- Among the tokens of the span is a dot with no word right behind it. -/
def TokenChain.HasLoneDot (tokens : TokenChain) (span : Span) (reserved : Bool) : Prop :=
  ∃ dot ∈ tokens.significant span, dot.kind = .punct .dot ∧
    ∃ next, [dot, next] <:+: tokens.links ∧ next.kind.isWord reserved = false

namespace SyntaxTree

variable {text : String} {options : Options} {tree : SyntaxTree} {node : Node}

/-- Every name of every node that is read is qualified, unless a dot alone stands for it. -/
theorem ofText_names (h : ofText text options = .ok tree) (hb : tree.root.Below node) :
    ∀ entry ∈ node.names, IsQualified entry.1 entry.2 ∨
      entry.2 = "." ∧ tree.tokens.HasLoneDot node.span entry.1 := by
  obtain ⟨document, hnode, -, hderives⟩ := exists_derives h
  rw [root, ← hnode] at hb
  rintro ⟨reserved, name⟩ hentry
  by_cases hne : node = .document (document.node options.numbering)
  · rw [hne] at hentry
    cases hentry
  obtain ⟨part, hpart, hstands, hcovers⟩ := hderives.exists_standsFor hb hne
  obtain ⟨words, hmem, hshaped, rfl⟩ := hstands.hasName _ hentry
  rcases hshaped.isQualified with hqualified | ⟨htext, hdot, htail⟩
  · exact .inl hqualified
  refine .inr ⟨htext, ?_⟩
  obtain ⟨front, tail, hlinks, hends⟩ :=
    hderives.laid.exists_mem (List.mem_append_left _ (hpart.subset hmem))
  obtain ⟨head, rest⟩ := words
  obtain rfl : rest = [] := htail
  obtain ⟨next, tail, rfl, hnext, -⟩ := (DottedName.ends_dot hdot).1 hends
  refine ⟨head, ?_, hdot, next, ⟨front, tail, by simp [hlinks, DottedName.links]⟩, hnext⟩
  rw [hderives.significant_eq hpart hcovers]
  exact List.mem_flatMap.2 ⟨_, hmem, List.mem_cons_self⟩

/-- The names of a tree in the order of a walk. -/
def allNames (tree : SyntaxTree) : List String :=
  tree.root.walk.flatMap fun visit => visit.node.names.map Prod.snd

/-- Dots before, between and behind words, some of them reserved. -/
theorem ofText_names_dotted :
    ∃ tree, ofText "namespace .list. a.b typedef i32 .c service S extends .d.e \x7b f. g() \x7d" {} =
        .ok tree ∧
      tree.allNames = [".list.", "a.b", ".c", "S", ".d.e", "g", "f."] ∧
      ∀ node, tree.root.Below node → ∀ entry ∈ node.names, IsQualified entry.1 entry.2 ∨
        entry.2 = "." ∧ tree.tokens.HasLoneDot node.span entry.1 := by
  have hrun : (ofText "namespace .list. a.b typedef i32 .c service S extends .d.e \x7b f. g() \x7d"
      {}).toOption.map allNames = some [".list.", "a.b", ".c", "S", ".d.e", "g", "f."] := by
    decide +kernel
  obtain ⟨tree, h, hnames⟩ := exists_of_map hrun
  exact ⟨tree, h, hnames, fun node hb => ofText_names h hb⟩

/-- A dot by itself is taken for the name of a structure, of a field and its type, and of an
annotation. -/
theorem ofText_names_dot :
    ∃ tree, ofText "struct . \x7b 1: . . (. = 'x') \x7d" {} = .ok tree ∧
      tree.allNames = [".", ".", ".", "."] ∧ ¬ ∃ reserved, IsQualified reserved "." := by
  have hrun : (ofText "struct . \x7b 1: . . (. = 'x') \x7d" {}).toOption.map allNames =
      some [".", ".", ".", "."] := by
    decide +kernel
  obtain ⟨tree, h, hnames⟩ := exists_of_map hrun
  exact ⟨tree, h, hnames, fun ⟨_, hdot⟩ => hdot.ne.2 rfl⟩

end SyntaxTree

end ThriftSyntax
