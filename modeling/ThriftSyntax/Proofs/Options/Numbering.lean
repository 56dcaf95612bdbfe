import Mathlib.Data.List.Forall2
import ThriftSyntax.Parse

/-!
# The numbering of enumerations

The way in which elements are numbered has a part in nothing but the ids of those that have no number
written: tokens, errors and the rest of a tree are the same under either.

The numbers are assigned to the elements of an enumeration once they are all read. So two readings
are in step, and agree up to what `unnumbered` leaves out.
-/

namespace ThriftSyntax

/-! ## Trees without assigned ids -/

/-- An element keeps its id only if it is written. -/
def EnumElement.unnumbered (node : EnumElement) : EnumElement :=
  match node.value with
  | some _ => node
  | none => { node with id := 0 }

def Enum.unnumbered (node : Enum) : Enum :=
  { node with elements := node.elements.map EnumElement.unnumbered }

def Definition.unnumbered : Definition → Definition
  | enum node => enum node.unnumbered
  | node => node

def Document.unnumbered (node : Document) : Document :=
  { node with definitions := node.definitions.map Definition.unnumbered }

def SyntaxTree.unnumbered (tree : SyntaxTree) : SyntaxTree :=
  { tree with document := tree.document.unnumbered }

namespace Numbering

/-- The id that is left of an element with any id. -/
theorem unnumbered_getD (element : EnumElement) (id : Int) :
    EnumElement.unnumbered { element with id := element.value.getD id } =
      { element with id := element.value.getD 0 } := by
  obtain ⟨span, name, value, id', annotations, separator⟩ := element
  cases value <;> rfl

theorem unnumbered_count (id : Int) (elements : List EnumElement) :
    (count id elements).map EnumElement.unnumbered =
      elements.map fun element => { element with id := element.value.getD 0 } := by
  induction elements generalizing id with
  | nil => rfl
  | cons element elements ih =>
    rw [count, List.map_cons, List.map_cons, ih]
    exact congrArg (· :: _) (unnumbered_getD element id)

theorem unnumbered_assign (numbering : Numbering) (elements : List EnumElement) :
    (numbering.assign elements).map EnumElement.unnumbered =
      elements.map fun element => { element with id := element.value.getD 0 } := by
  cases numbering with
  | explicit =>
    rw [assign, List.map_map]
    exact List.map_congr_left fun element _ => unnumbered_getD element 0
  | sequential => exact unnumbered_count 0 elements

end Numbering

/-! ## Two readings in step -/

namespace Parse

variable {α β γ δ : Type} {R : α → β → Prop} {S : γ → δ → Prop}

/-- Two runs end at the same position with results that are related, or with the same error. -/
inductive Match (R : α → β → Prop) :
    EStateM.Result Error Reader α → EStateM.Result Error Reader β → Prop
  | ok {a : α} {b : β} {after : Reader} (h : R a b) : Match R (.ok a after) (.ok b after)
  | error {error : Error} {after : Reader} : Match R (.error error after) (.error error after)

/-- The runs of two actions match from every position. -/
def InStep (R : α → β → Prop) (p : Parse α) (q : Parse β) : Prop :=
  ∀ reader, Match R (p reader) (q reader)

theorem Match.bind {p : Parse α} {q : Parse β} {f : α → Parse γ} {g : β → Parse δ}
    {reader : Reader} (h : Match R (p reader) (q reader))
    (hf : ∀ a b, R a b → InStep S (f a) (g b)) : Match S ((p >>= f) reader) ((q >>= g) reader) := by
  show Match S (EStateM.bind p f reader) (EStateM.bind q g reader)
  unfold EStateM.bind
  generalize p reader = x at h
  generalize q reader = y at h
  cases h with
  | error => exact .error
  | ok hab => exact hf _ _ hab _

namespace InStep

theorem refl (p : Parse α) : InStep Eq p p := fun reader => by
  cases p reader with
  | ok => exact .ok rfl
  | error => exact .error

theorem pure {a : α} {b : β} (h : R a b) : InStep R (pure a) (pure b) := fun _ => .ok h

theorem bind {p : Parse α} {q : Parse β} {f : α → Parse γ} {g : β → Parse δ}
    (h : InStep R p q) (hf : ∀ a b, R a b → InStep S (f a) (g b)) :
    InStep S (p >>= f) (q >>= g) := fun reader => (h reader).bind hf

/-- The same action first. -/
theorem bind_same {p : Parse α} {f : α → Parse γ} {g : α → Parse δ}
    (hf : ∀ a, InStep S (f a) (g a)) : InStep S (p >>= f) (p >>= g) :=
  (refl p).bind fun a _ hab => hab ▸ hf a

theorem map {p : Parse α} {q : Parse β} {f : α → γ} {g : β → δ} (h : InStep R p q)
    (hf : ∀ a b, R a b → S (f a) (g b)) : InStep S (f <$> p) (g <$> q) := by
  rw [map_eq_pure_bind, map_eq_pure_bind]
  exact h.bind fun a b hab => pure (hf a b hab)

/-- Repetitions of actions in step are in step. -/
theorem repeatUntil {step : Parse (α ⊕ γ)} {step' : Parse (β ⊕ δ)}
    (h : InStep (Sum.LiftRel R S) step step') :
    InStep (fun x y => List.Forall₂ R x.1 y.1 ∧ S x.2 y.2) (repeatUntil step)
      (repeatUntil step') := by
  intro reader
  induction hn : reader.unread using Nat.strongRecOn generalizing reader with
  | ind n ih =>
    have hstep := h reader.round
    rw [repeatUntil_apply, repeatUntil_apply]
    generalize step reader.round = x at hstep
    generalize step' reader.round = y at hstep
    cases hstep with
    | error => exact .error
    | @ok _ _ next hab =>
      cases hab with
      | inr hlast => exact .ok ⟨.nil, hlast⟩
      | inl hitem =>
        unfold below
        dsimp only
        split
        · exact (ih _ (hn ▸ ‹_›) next rfl).bind fun _ _ hrest => pure ⟨.cons hitem hrest.1, hrest.2⟩
        · exact .error

end InStep

end Parse

namespace Grammar

open Parse

variable {trailing : TrailingSeparator} {numbering numbering' : Numbering}

theorem enum_inStep (keyword : Link) :
    InStep (fun a b => a.unnumbered = b.unnumbered) (enum numbering keyword)
      (enum numbering' keyword) := by
  refine .bind_same fun name => .bind_same fun _ => .bind_same fun elements =>
    .bind_same fun ⟨annotations, last⟩ => .bind_same fun span => .pure ?_
  simp only [Enum.unnumbered, Numbering.unnumbered_assign]

theorem definition_inStep (head : Link) :
    InStep (fun a b => a.unnumbered = b.unnumbered) (definition ⟨numbering, trailing⟩ head)
      (definition ⟨numbering', trailing⟩ head) := by
  have hsame : ∀ p : Parse Definition,
      InStep (fun a b => a.unnumbered = b.unnumbered) p p := fun p reader => by
    cases p reader with
    | ok => exact .ok rfl
    | error => exact .error
  unfold definition
  split
  case h_6 => exact (enum_inStep head).map fun a b hab => congrArg Definition.enum hab
  all_goals exact hsame _

theorem document_inStep :
    InStep (fun a b => a.unnumbered = b.unnumbered) (document ⟨numbering, trailing⟩)
      (document ⟨numbering', trailing⟩) := by
  refine .bind (R := fun x y => List.Forall₂ (fun a b => a.unnumbered = b.unnumbered) x.1 y.1 ∧
    x.2 = y.2) (.repeatUntil (.bind_same fun head => ?_)) fun ⟨xs, x⟩ ⟨ys, y⟩ hxy => ?_
  · split
    · exact .pure (.inr rfl)
    · exact (definition_inStep head).map fun a b hab => .inl hab
  · obtain ⟨hitems, rfl⟩ := hxy
    have hdefinitions : xs.map Definition.unnumbered = ys.map Definition.unnumbered := by
      rw [← List.forall₂_eq_eq_eq, List.forall₂_map_left_iff, List.forall₂_map_right_iff]
      exact hitems
    refine .bind_same fun span => .pure ?_
    simp only [Document.unnumbered, hdefinitions]

end Grammar

namespace SyntaxTree

theorem ofText_numbering (text : String) (numbering numbering' : Numbering)
    (trailing : TrailingSeparator) :
    (ofText text ⟨numbering, trailing⟩).map unnumbered =
      (ofText text ⟨numbering', trailing⟩).map unnumbered := by
  have h := @Grammar.document_inStep trailing numbering numbering' (.ofText text.toList)
  unfold ofText
  generalize Grammar.document ⟨numbering, trailing⟩ (.ofText text.toList) = x at h
  generalize Grammar.document ⟨numbering', trailing⟩ (.ofText text.toList) = y at h
  cases h with
  | error => rfl
  | @ok _ _ after h =>
    exact congrArg (fun document => Except.ok (SyntaxTree.mk after.chain document)) h

end SyntaxTree

end ThriftSyntax
