import ThriftSyntax.Grammar.Annotation
import ThriftSyntax.Proofs.Assembly
import ThriftSyntax.Proofs.Session.Token
import ThriftSyntax.Proofs.Span.Walk

/-!
# Runs of the smallest rules

What comes of each rule for marks, words, names and literals, and of the rules for annotations. Where a
rule reads a token, its text pays for ten rounds; a rule that finds nothing costs the round in which it
looked ahead. A node that a rule gives is made of tokens of the chain.
-/

namespace ThriftSyntax

/-- The node and all below it are made of the first `n` tokens, and none ends before it begins. -/
def Node.Inside (n : Nat) (root : Node) : Prop :=
  ∀ node, root.Below node → node.span.first ≤ node.span.last ∧ node.span.last < n

namespace Node

variable {m n : Nat} {root node : Node}

theorem Inside.mono (h : root.Inside m) (hmn : m ≤ n) : root.Inside n := fun node hn => by
  have := h node hn
  omega

theorem Inside.span (h : root.Inside n) : root.span.first ≤ root.span.last ∧ root.span.last < n :=
  h root .refl

theorem Inside.first_lt (h : root.Inside n) : root.span.first < n := by
  have := h.span
  omega

theorem inside_of_children (hle : root.span.first ≤ root.span.last) (hlast : root.span.last < n)
    (hchildren : ∀ child ∈ root.children, child.Inside n) : root.Inside n := fun node hn => by
  obtain rfl | ⟨child, hchild, hn⟩ := hn.cases_head
  · exact ⟨hle, hlast⟩
  · exact hchildren child hchild node hn

end Node

namespace Grammar

open Parse Reader

variable {α : Type} {reader after : Reader} {link : Link} {first last : Nat}

/-! ## Marks and words -/

theorem unexpected_yields {start : Reader} {c d e : Int} {Q : α → Reader → Prop}
    (h : start.Leads c reader) (hs : reader.Sound) (he : c + 1 ≤ e) (expected : Expectation) :
    start.Yields d e Q ((unexpected expected : Parse α) reader) :=
  h.bind (takeSignificant_runs hs) he fun _ _ h _ _ => h.throw he rfl

theorem ne_nil_of_head? {link : Link} {c : Char} (h : link.raw.toList.head? = some c) :
    link.raw.toList ≠ [] := by
  intro hnil
  rw [hnil] at h
  cases h

theorem mark?_runs (mark : Punct) (hs : reader.Steady) :
    reader.Runs (mark? mark) 1 1 fun found after =>
      ∀ link ∈ found, reader.Leads (-9) after ∧ reader.Since after link.id := by
  refine (peekSignificant_runs hs.toSound).bind (by decide) fun c between h hc => ?_
  split
  · rename_i hmark
    refine Yields.map (h.last (take_runs (h.sound hs.toSound)) (by decide) (by decide)
      fun link after _ _ hq => ?_)
    obtain ⟨hhands, hnext⟩ := hq
    rw [← hc, hmark] at hnext
    have hhands := h.hands hhands
    rintro _ ⟨⟩
    exact ⟨(hhands.leads_lt (ne_nil_of_head? hnext)).mono (by decide), hhands.since hs⟩
  · exact h.pure (by decide) (by simp)

theorem mark_runs (mark : Punct) (hs : reader.Steady) :
    reader.Runs (Grammar.mark mark) (-9) 1 fun link after => reader.Since after link.id := by
  refine (takeSignificant_runs hs.toSound).bind (by decide) fun link between h hhands => ?_
  split
  · rename_i hk
    have hraw := (h.steady hs).raw_ne_nil hhands.mem (by simp [hk])
    exact (hhands.leads_lt hraw).pure (by decide) (hhands.since hs)
  · exact h.throw (by decide) rfl

theorem separator?_runs (hs : reader.Steady) :
    reader.Runs separator? 1 1 fun found after => ∀ link ∈ found, reader.Since after link.id := by
  refine (peekSignificant_runs hs.toSound).bind (by decide) fun c between h _ => ?_
  have htake : reader.Yields 1 1 (fun (found : Option Link) after =>
      ∀ link ∈ found, reader.Since after link.id) ((some <$> take) between) := by
    refine Yields.map (h.last (take_runs (h.sound hs.toSound)) (by decide) (by decide)
      fun link after _ _ hq => ?_)
    rintro _ ⟨⟩
    exact (h.hands hq.1).since hs
  split
  · exact htake
  · exact htake
  · exact h.pure (by decide) (by simp)

theorem word?_runs (hs : reader.Steady) :
    reader.Runs word? 1 1 fun found after =>
      ∀ link ∈ found, reader.Hands 1 link after ∧ link.raw.toList ≠ [] := by
  refine (peekSignificant_runs hs.toSound).bind (by decide) fun c between h hc => ?_
  cases c with
  | none => exact h.pure (by decide) (by simp)
  | some c =>
    dsimp only
    split
    · refine Yields.map (h.last (take_runs (h.sound hs.toSound)) (by decide) (by decide)
        fun link after _ _ hq => ?_)
      obtain ⟨hhands, hnext⟩ := hq
      rw [← hc] at hnext
      rintro _ ⟨⟩
      exact ⟨h.hands hhands, ne_nil_of_head? hnext⟩
    · exact h.pure (by decide) (by simp)

/-! ## Names and literals -/

theorem name_runs (reserved : Bool) (hs : reader.Steady) :
    reader.Runs (name reserved) (-8) 2 fun words after =>
      words.Inside after.chain.size ∧ reader.Since after words.head.id := by
  refine (takeName?_runs reserved hs.toSound).bind (by decide) fun words between h hq => ?_
  cases words with
  | some words =>
    obtain ⟨hpaid, hinside, _, hhands, hmoves⟩ := hq words rfl
    exact hpaid.pure (by decide) ⟨hinside, (hhands.since hs).mono hmoves⟩
  | none => exact unexpected_yields h (h.sound hs.toSound) (by decide) .identifier

theorem string_runs (hs : reader.Steady) :
    reader.Runs string (-9) 2 fun link after => reader.Since after link.id := by
  refine (takeString?_runs hs.toSound).bind (by decide) fun link between h hq => ?_
  cases link with
  | some link =>
    obtain ⟨hpaid, hhands⟩ := hq link rfl
    exact hpaid.pure (by decide) (hhands.since hs)
  | none => exact unexpected_yields h (h.sound hs.toSound) (by decide) .string

theorem integer_runs (hs : reader.Steady) :
    reader.Runs integer (-9) 1 fun result after => reader.Since after result.1.id := by
  refine (takeNumber_runs hs.toSound).bind (by decide) fun link between h hhands => ?_
  split
  · rename_i hk
    have hraw := (h.steady hs).raw_ne_nil hhands.mem (by simp [hk])
    cases Numeral.integer? link.raw with
    | some value => exact (hhands.leads_lt hraw).pure (by decide) (hhands.since hs)
    | none => exact h.throw (by decide) rfl
  · exact h.throw (by decide) rfl

/-! ## Repetition -/

/-- One round of reading items up to a closing mark. -/
def itemStep (close : Punct) (item : Parse α) : Parse (α ⊕ Link) := do
  match ← mark? close with
  | some link => return .inr link
  | none => .inl <$> item

theorem itemsUntil_eq (close : Punct) (item : Parse α) :
    itemsUntil close item = repeatUntil (itemStep close item) := rfl

theorem itemStep_runs {item : Parse α} {Q : α → Reader → Prop} {e : Int} (close : Punct)
    (he : 0 ≤ e) (hs : reader.Steady)
    (hitem : ∀ inside : Reader, reader.Leads 1 inside → inside.Runs item (-2) e Q) :
    reader.Runs (itemStep close item) 1 (e + 1) (reader.Round (fun _ => True) Q
      fun closing after => reader.Since after closing.id) := by
  refine (mark?_runs close hs).bind (by omega) fun found between h hq => ?_
  cases found with
  | some link =>
    obtain ⟨hpaid, hsince⟩ := hq link rfl
    exact hpaid.pure (by decide) hsince
  | none =>
    exact Yields.map (h.last (hitem between h) (by decide) (by omega)
      fun a after hl _ hq => ⟨hl, trivial, hq⟩)

/-- Items that are paid for by their text cost no more than the look at the closing mark. -/
theorem itemsUntil_runs {item : Parse α} {Q : Nat → α → Prop} {limit : Nat} {e : Int} (close : Punct)
    (he : 0 ≤ e) (hQ : ∀ {m n a}, m ≤ n → Q m a → Q n a)
    (hitem : ∀ inside : Reader, inside.Steady → inside.unread ≤ limit →
      inside.Runs item (-2) e fun a after => Q after.chain.size a)
    (hs : reader.Steady) (hlimit : reader.unread ≤ limit) :
    reader.Runs (itemsUntil close item) 2 (e + 2) fun result after =>
      (∀ a ∈ result.1, Q after.chain.size a) ∧ reader.Since after result.2.id := by
  have hstep : ∀ inside : Reader, Moves reader inside → inside.unread ≤ limit →
      inside.Runs (itemStep close item) 1 (e + 1) (inside.Round (fun _ => True)
        (fun a after => Q after.chain.size a) fun closing after => reader.Since after closing.id) := by
    intro inside hmoves hl
    have hs := hmoves.steady hs
    refine (itemStep_runs close he hs fun below h => hitem below (h.steady hs) ?_).mono (Int.le_refl _)
      (Int.le_refl _) fun _ _ _ hq => hq.mono (fun _ h => h) fun _ h => h.extend hmoves
    have := h.unread_le (by decide)
    omega
  rw [itemsUntil_eq]
  refine Yields.mono (runs_repeatUntil (Q := fun a after => Q after.chain.size a) (fun h => h)
    (fun h => hQ h.size_le) (fun inside hmoves _ => hstep inside hmoves) trivial hlimit)
    (by decide) (by omega) fun _ _ _ hq => hq

/-! ## Annotations -/

/-- The annotation is made of the first `n` tokens. -/
def AnnotationInside (n : Nat) (node : Annotation) : Prop := Node.Inside n <| Node.annotation node

theorem annotation_runs (hs : reader.Steady) :
    reader.Runs annotation (-26) 2 fun node after => AnnotationInside after.chain.size node := by
  refine (name_runs false hs).bind (by decide) fun name _ h hname => ?_
  refine h.bind (mark_runs .equals (h.steady hs)) (by decide) fun _ _ h h₁ _ => ?_
  refine h.bind (string_runs (h.steady hs)) (by decide) fun literal _ h h₂ hliteral => ?_
  have hle := (hliteral.extend h₁.moves).le_of_lt hname.2.lt
  rw [span_bind hle]
  exact h.pure (by decide) (Node.inside_of_children hle hliteral.lt (by simp [Node.children]))

theorem checkTrailing_runs (trailing : TrailingSeparator) (separator : Option Link)
    (hs : reader.Steady) : reader.Runs (checkTrailing trailing separator) 1 2 fun _ _ => True := by
  unfold checkTrailing
  split
  · refine (peekSignificant_runs hs.toSound).bind (by decide) fun c between h _ => ?_
    split
    · exact unexpected_yields h (h.sound hs.toSound) (by decide) _
    · exact h.pure (by decide) trivial
  · exact (Leads.refl reader).pure (by decide) trivial

theorem annotationItem_runs (trailing : TrailingSeparator) (hs : reader.Steady) :
    reader.Runs (annotationItem trailing) (-2) 2 fun node after =>
      AnnotationInside after.chain.size node := by
  refine (annotation_runs hs).bind (by decide) fun node _ h hnode => ?_
  refine h.bind (separator?_runs (h.steady hs)) (by decide) fun separator _ h h₁ _ => ?_
  refine h.bind (checkTrailing_runs trailing separator (h.steady hs)) (by decide) fun _ _ h h₂ _ => ?_
  exact h.pure (by decide) (Node.Inside.mono hnode (Nat.le_trans h₁.size_le h₂.size_le))

/-- All annotations are made of the first `n` tokens. -/
def AnnotationsInside (n : Nat) (nodes : List Annotation) : Prop :=
  ∀ node ∈ nodes, AnnotationInside n node

theorem annotationList_runs (trailing : TrailingSeparator) (hs : reader.Steady) :
    reader.Runs (annotationList trailing) 2 4 fun result after =>
      AnnotationsInside after.chain.size result.1 ∧ reader.Since after result.2.id :=
  itemsUntil_runs (Q := AnnotationInside) .rightParen (by decide)
    (fun hmn h => Node.Inside.mono h hmn) (fun _ hs _ => annotationItem_runs trailing hs) hs (Nat.le_refl _)

theorem annotations_runs (hs : reader.Steady) :
    reader.Runs annotations 0 1 fun nodes after => AnnotationsInside after.chain.size nodes := by
  refine (mark_runs .leftParen hs).bind (by decide) fun _ _ h _ => ?_
  refine h.bind (annotationList_runs .allow (h.steady hs)) (by decide) fun result _ h _ hq => ?_
  exact h.pure (by decide) hq.1

theorem annotations?_runs (trailing : TrailingSeparator) (hs : reader.Steady) :
    reader.Runs (annotations? trailing) 1 1 fun result after =>
      ∀ found ∈ result, AnnotationsInside after.chain.size found.1 ∧ reader.Since after found.2.id := by
  refine (mark?_runs .leftParen hs).bind (by decide) fun opening _ h hq => ?_
  cases opening with
  | some opening =>
    obtain ⟨hpaid, -⟩ := hq opening rfl
    refine Yields.map (hpaid.last (annotationList_runs trailing (h.steady hs)) (by decide)
      (by decide) fun result after _ _ hq => ?_)
    rintro _ ⟨⟩
    exact ⟨hq.1, hq.2.extend h.moves⟩
  | none => exact h.pure (by decide) (by simp)

/-- What ends with annotations ends with the last of them, or where it would end without any. -/
theorem trailingAnnotations_runs (trailing : TrailingSeparator) (hs : reader.Steady)
    (hle : first ≤ last) (hlast : last < reader.chain.size) :
    reader.Runs (trailingAnnotations last trailing) 1 1 fun result after =>
      AnnotationsInside after.chain.size result.1 ∧ first ≤ result.2 ∧ result.2 < after.chain.size := by
  refine (annotations?_runs trailing hs).bind (by decide) fun result between h hq => ?_
  cases result with
  | some found =>
    obtain ⟨hinside, hsince⟩ := hq found rfl
    exact h.pure (by decide)
      ⟨hinside, hsince.le_of_lt (Nat.lt_of_le_of_lt hle hlast), hsince.lt⟩
  | none =>
    refine h.pure (by decide) ⟨?_, hle, Nat.lt_of_lt_of_le hlast h.size_le⟩
    intro node hnode
    cases hnode

end Grammar

end ThriftSyntax
