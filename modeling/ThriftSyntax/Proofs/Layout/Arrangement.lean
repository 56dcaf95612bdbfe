import ThriftSyntax.Proofs.Completeness.Setting

/-!
# Arranging tokens

`Lexed links rest` says that `links` are the tokens that their own text is cut into, whatever their
numbers and places. `arrange` numbers and places such tokens, so that they are those of a text.
-/

namespace ThriftSyntax

variable {s : Setting}

namespace Link

variable {xs ys links : List Link} {rest : List Char} {id : Nat} {place : Location}

/-- What a token is, wherever it stands. -/
def lexeme (link : Link) : Kind × String := (link.kind, link.raw)

theorem spelled_eq_lexemes (links : List Link) :
    spelled links = (links.map lexeme).flatMap (·.2.toList) := by
  rw [List.flatMap_map]
  rfl

/-- Each token is the lexeme at the front of its own text, of the texts after it and of `rest`. -/
def Lexed : List Link → List Char → Prop
  | [], _ => True
  | link :: links, rest =>
    Lexeme.IsLexeme link.kind link.raw.toList (spelled links ++ rest) ∧ Lexed links rest

theorem lexed_append :
    Lexed (xs ++ ys) rest ↔ Lexed xs (spelled ys ++ rest) ∧ Lexed ys rest := by
  induction xs with
  | nil => simp [Lexed]
  | cons link xs ih => simp [Lexed, ih, and_assoc]

theorem InOrder.lexed (h : InOrder id place links rest) : Lexed links rest := by
  induction links generalizing id place with
  | nil => trivial
  | cons link links ih => exact ⟨h.2.2.1, ih h.2.2.2⟩

/-- The same tokens, numbered from `id` and placed from `place`. -/
def arrange (id : Nat) (place : Location) : List Link → List Char → List Link
  | [], _ => []
  | link :: links, rest =>
    ⟨id, link.kind, link.raw, place⟩ ::
      arrange (id + 1) (place.advance link.raw.toList.length (spelled (link :: links) ++ rest))
        links rest

theorem spelled_arrange : spelled (arrange id place links rest) = spelled links := by
  induction links generalizing id place with
  | nil => rfl
  | cons link links ih =>
    rw [arrange, spelled_cons, ih]
    rfl

@[simp] theorem length_arrange : (arrange id place links rest).length = links.length := by
  induction links generalizing id place with
  | nil => rfl
  | cons link links ih => rw [arrange, List.length_cons, ih, List.length_cons]

theorem map_lexeme_arrange :
    (arrange id place links rest).map lexeme = links.map lexeme := by
  induction links generalizing id place with
  | nil => rfl
  | cons link links ih =>
    rw [arrange, List.map_cons, ih]
    rfl

theorem inOrder_arrange (h : Lexed links rest) :
    InOrder id place (arrange id place links rest) rest := by
  induction links generalizing id place with
  | nil => trivial
  | cons link links ih =>
    refine ⟨rfl, rfl, ?_, ?_⟩
    · rw [spelled_arrange]
      exact h.1
    · rw [spelled_cons, spelled_arrange]
      exact ih h.2

theorem InOrder.arrange_eq (h : InOrder id place links rest) :
    arrange id place links rest = links := by
  induction links generalizing id place with
  | nil => rfl
  | cons link links ih =>
    obtain ⟨rfl, rfl, -, h⟩ := h
    rw [arrange, ih h]
    rfl

theorem InOrder.id_eq (h : InOrder id place links rest) {i : Nat} {link : Link}
    (hi : links[i]? = some link) : link.id = id + i := by
  induction links generalizing id place i with
  | nil => cases hi
  | cons other links ih =>
    cases i with
    | zero =>
      cases hi
      exact h.1
    | succ i =>
      have := ih h.2.2.2 hi
      omega

/-- `found` is the same token as `link`, and one that is no trivia has the number it should have. -/
structure Similar (s : Setting) (link found : Link) : Prop where
  kind : found.kind = link.kind
  raw : found.raw = link.raw
  id : link.kind.isTrivia = false → s.new found.id = s.old link.id

theorem similar_arrange (h : ∀ {i link}, links[i]? = some link → link.kind.isTrivia = false →
    s.new (id + i) = s.old link.id) :
    List.Forall₂ (Link.Similar s) links (arrange id place links rest) := by
  induction links generalizing id place with
  | nil => exact .nil
  | cons link links ih =>
    refine .cons ⟨rfl, rfl, @h 0 link rfl⟩ (ih fun {i} _ hi => ?_)
    rw [Nat.add_right_comm, Nat.add_assoc]
    exact @h (i + 1) _ hi

theorem spelled_of_similar (h : List.Forall₂ (Link.Similar s) xs ys) : spelled ys = spelled xs := by
  induction h with
  | nil => rfl
  | cons h _ ih => rw [spelled_cons, spelled_cons, h.raw, ih]

/-- Tokens that are similar and no trivia are alike. -/
theorem exists_append_of_similar {zs : List Link} (hx : ∀ link ∈ xs, link.kind.isTrivia = false)
    (h : List.Forall₂ (Link.Similar s) (xs ++ ys) zs) :
    ∃ xs' ys', zs = xs' ++ ys' ∧ List.Forall₂ (Link.Alike s) xs xs' ∧
      List.Forall₂ (Link.Similar s) ys ys' := by
  induction xs generalizing zs with
  | nil => exact ⟨[], zs, rfl, .nil, h⟩
  | cons link xs ih =>
    obtain ⟨hk, hx⟩ := List.forall_mem_cons.1 hx
    obtain ⟨found, zs, hlink, htail, rfl⟩ := List.forall₂_cons_left_iff.1 h
    obtain ⟨xs', ys', rfl, hxs, hys⟩ := ih hx htail
    exact ⟨found :: xs', ys', rfl, .cons ⟨hlink.kind, hlink.raw, hlink.id hk⟩ hxs, hys⟩

end Link

/-! ## Terminals among such tokens -/

variable {xs : List Terminal} {links found : List Link} {rest : List Char}

theorem Terminal.exists_alike {x : Terminal}
    (h : List.Forall₂ (Link.Alike s) x.links found) :
    ∃ y, y.links = found ∧ x.Alike s y := by
  obtain ⟨head, tail, hhead, htail, rfl⟩ := List.forall₂_cons_left_iff.1 h
  cases x with
  | token link =>
    cases htail
    exact ⟨.token head, rfl, .token hhead⟩
  | name reserved words => exact ⟨.name reserved ⟨head, tail⟩, rfl, .name ⟨hhead, htail⟩⟩

theorem Terminal.Ends.of_similar {x y : Terminal} (h : x.Ends links rest) (hx : x.Alike s y)
    (hl : List.Forall₂ (Link.Similar s) links found) : y.Ends found rest := by
  cases hx with
  | token => trivial
  | @name reserved name other hname =>
    simp only [Terminal.Ends, hname.last.kind, Link.spelled_of_similar hl] at h ⊢
    split at h
    · obtain ⟨link, tail, rfl, hw, hp⟩ := h
      obtain ⟨other, tail', hlink, -, rfl⟩ := List.forall₂_cons_left_iff.1 hl
      rw [if_pos ‹_›]
      exact ⟨other, tail', rfl, by rw [hlink.kind, hw], by rw [hlink.kind, hlink.raw]; exact hp⟩
    · rw [if_neg ‹_›]
      exact h

/-- Similar tokens are laid out alike. -/
theorem Laid.of_similar (h : Laid rest xs links) (hl : List.Forall₂ (Link.Similar s) links found) :
    ∃ ys, Laid rest ys found ∧ List.Forall₂ (Terminal.Alike s) xs ys := by
  induction h generalizing found with
  | nil =>
    cases hl
    exact ⟨[], .nil, .nil⟩
  | gap hk _ ih =>
    obtain ⟨other, tail, hlink, htail, rfl⟩ := List.forall₂_cons_left_iff.1 hl
    obtain ⟨ys, hys, halike⟩ := ih htail
    exact ⟨ys, .gap (by rw [hlink.kind, hk]) hys, halike⟩
  | @terminal x xs links hx he _ ih =>
    obtain ⟨links', tail, rfl, hlinks, htail⟩ := Link.exists_append_of_similar hx hl
    obtain ⟨y, rfl, hy⟩ := Terminal.exists_alike hlinks
    obtain ⟨ys, hys, halike⟩ := ih htail
    have hkinds := forall_of_alike (P := fun kind _ => kind.isTrivia = false) hlinks hx
    exact ⟨y :: ys, .terminal hkinds (he.of_similar hy htail) hys, .cons hy halike⟩

end ThriftSyntax
