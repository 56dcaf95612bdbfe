import ThriftSyntax.Proofs.Reader.Reading
import ThriftSyntax.Reader.Name

/-!
# Terminals

What a derivation of the grammar is made of: significant tokens, and names. `Laid rest xs links`
says that the tokens `links` are those of the terminals `xs` in order, with blanks and comments
anywhere between them, but not within a name.
-/

namespace ThriftSyntax

/-- A name with `reserved` may have reserved words in it. -/
inductive Terminal where
  | token (link : Link)
  | name (reserved : Bool) (words : DottedName)
deriving DecidableEq, Repr

namespace Terminal

def head : Terminal → Link
  | token link => link
  | name _ words => words.head

def tail : Terminal → List Link
  | token _ => []
  | name _ words => words.tail

def links (x : Terminal) : List Link := x.head :: x.tail

@[simp] theorem head_token (link : Link) : (token link).head = link := rfl

@[simp] theorem head_name (reserved : Bool) (words : DottedName) :
    (name reserved words).head = words.head := rfl

@[simp] theorem links_token (link : Link) : (token link).links = [link] := rfl

@[simp] theorem links_name (reserved : Bool) (words : DottedName) :
    (name reserved words).links = words.links := rfl

/-- A terminal stops where `following` and then `rest` begin: no dot follows a word of a name, and
no word the last dot of one. What follows a last dot is read as if it stood alone, so that it may
not be a string either. -/
def Ends (x : Terminal) (following : List Link) (rest : List Char) : Prop :=
  match x with
  | token _ => True
  | name reserved words =>
    if words.last.kind = .punct .dot then
      ∃ link tail, following = link :: tail ∧ link.kind.isWord reserved = false ∧
        Lexeme.Plain link.kind link.raw.toList
    else
      (Link.spelled following ++ rest).head? ≠ some '.'

end Terminal

/-- `links` are the tokens of the terminals with blanks and comments between; `rest` is the text
after them. -/
inductive Laid (rest : List Char) : List Terminal → List Link → Prop where
  | nil : Laid rest [] []
  | gap {xs : List Terminal} {link : Link} {links : List Link} (hk : link.kind.isTrivia = true)
      (h : Laid rest xs links) : Laid rest xs (link :: links)
  | terminal {x : Terminal} {xs : List Terminal} {links : List Link}
      (hx : ∀ link ∈ x.links, link.kind.isTrivia = false) (he : x.Ends links rest)
      (h : Laid rest xs links) : Laid rest (x :: xs) (x.links ++ links)

namespace Laid

variable {rest : List Char} {x : Terminal} {xs ys : List Terminal} {links gap : List Link}

theorem of_gap (hgap : Link.IsGap gap) (h : Laid rest xs links) :
    Laid rest xs (gap ++ links) := by
  induction gap with
  | nil => exact h
  | cons link gap ih =>
    obtain ⟨hk, hgap⟩ := Link.isGap_cons.1 hgap
    exact .gap hk (ih hgap)

theorem of_token {link : Link} (hk : link.kind.isTrivia = false) (h : Laid rest xs links) :
    Laid rest (.token link :: xs) (link :: links) :=
  .terminal (x := .token link) (by simpa using hk) trivial h

/-- Any tokens are those of the significant ones among them. -/
theorem of_links (rest : List Char) (links : List Link) :
    Laid rest ((links.filter fun link => !link.kind.isTrivia).map .token) links := by
  induction links with
  | nil => exact .nil
  | cons link links ih =>
    cases hk : link.kind.isTrivia with
    | true => simpa [hk] using Laid.gap hk ih
    | false => simpa [hk] using ih.of_token hk

theorem isGap (h : Laid rest [] links) : Link.IsGap links := by
  generalize hxs : ([] : List Terminal) = xs at h
  induction h with
  | nil => exact Link.isGap_nil
  | gap hk h ih => exact Link.isGap_cons.2 ⟨hk, ih hxs⟩
  | terminal => cases hxs

/-- The first terminal stands after a gap. -/
theorem exists_gap (h : Laid rest (x :: xs) links) :
    ∃ gap tail, links = gap ++ (x.links ++ tail) ∧ Link.IsGap gap ∧
      (∀ link ∈ x.links, link.kind.isTrivia = false) ∧ x.Ends tail rest ∧ Laid rest xs tail := by
  generalize hxs : x :: xs = zs at h
  induction h with
  | nil => cases hxs
  | gap hk h ih =>
    obtain ⟨gap, tail, rfl, hgap, hx⟩ := ih hxs
    exact ⟨_ :: gap, tail, rfl, Link.isGap_cons.2 ⟨hk, hgap⟩, hx⟩
  | terminal hx he h =>
    cases hxs
    exact ⟨[], _, rfl, Link.isGap_nil, hx, he, h⟩

/-- The significant tokens are those of the terminals. -/
theorem significant (h : Laid rest xs links) :
    links.filter (fun link => !link.kind.isTrivia) = xs.flatMap Terminal.links := by
  induction h with
  | nil => rfl
  | gap hk h ih => simpa [hk] using ih
  | @terminal x xs links hx he h ih =>
    have : x.links.filter (fun link => !link.kind.isTrivia) = x.links := by
      rw [List.filter_eq_self]
      intro link hl
      simp [hx link hl]
    rw [List.filter_append, this, ih, List.flatMap_cons]

theorem mem_of_mem (h : Laid rest xs links) {link : Link} (hx : x ∈ xs) (hl : link ∈ x.links) :
    link ∈ links := by
  have : link ∈ links.filter (fun link => !link.kind.isTrivia) := by
    rw [h.significant]
    exact List.mem_flatMap.2 ⟨x, hx, hl⟩
  exact (List.mem_filter.1 this).1

end Laid

end ThriftSyntax
