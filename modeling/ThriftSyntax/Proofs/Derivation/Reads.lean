import ThriftSyntax.Proofs.Derivation.Terminal

/-!
# Reading terminals

`reader.Faces all rest xs` is the position of a reader in terms of terminals: those of `xs` are
still to come. `reader.Reads xs after` says that a run from `reader` to `after` has read just `xs`.
-/

namespace ThriftSyntax

namespace Reader

/-- The reader stands before the terminals `xs`, after which the text goes on with `rest`; `all` are
the tokens up to there. -/
def Faces (reader : Reader) (all : List Link) (rest : List Char) (xs : List Terminal) : Prop :=
  ∃ links, reader.Before all rest links ∧ Laid rest xs links

/-- From `reader` to `after`, exactly the terminals `xs` are read. -/
structure Reads (reader : Reader) (xs : List Terminal) (after : Reader) : Prop where
  valid : after.Valid
  faces : ∀ all rest ys, after.Faces all rest ys → reader.Faces all rest (xs ++ ys)

variable {reader between after : Reader} {link : Link} {x : Terminal} {xs ys : List Terminal}
variable {all gap : List Link} {rest : List Char}

theorem Faces.spells (h : reader.Faces all rest (x :: xs)) (hr : reader.Valid) :
    Lexeme.Spells x.head.kind x.head.raw.toList := by
  obtain ⟨links, hb, hl⟩ := h
  exact hb.spells hr _ (hl.mem_of_mem List.mem_cons_self List.mem_cons_self)

theorem Reads.refl (hr : reader.Valid) : reader.Reads [] reader := ⟨hr, fun _ _ _ h => h⟩

theorem Reads.of_round (h : reader.round.Reads xs after) : reader.Reads xs after :=
  ⟨h.valid, h.faces⟩

theorem Reads.trans (h : reader.Reads xs between) (h' : between.Reads ys after) :
    reader.Reads (xs ++ ys) after where
  valid := h'.valid
  faces all rest zs hz := by
    rw [List.append_assoc]
    exact h.faces _ _ _ (h'.faces _ _ _ hz)

theorem Passes.reads (h : reader.Passes gap after) (hgap : Link.IsGap gap) (ha : after.Valid) :
    reader.Reads [] after where
  valid := ha
  faces all rest ys := by
    rintro ⟨links, hb, hl⟩
    exact ⟨gap ++ links, h _ _ _ hb, hl.of_gap hgap⟩

theorem Took.reads (h : reader.Took link after) (hk : link.kind.isTrivia = false)
    (hne : link.kind ≠ .endOfInput) : reader.Reads [.token link] after where
  valid := h.valid hne
  faces all rest ys := by
    rintro ⟨links, hb, hl⟩
    exact ⟨_, h.passes _ _ _ hb, hl.of_token hk⟩

theorem Took.reads_hold (h : reader.Took link after) (hp : link.Plain) :
    reader.Reads [] (after.hold link) :=
  h.passes_hold.reads Link.isGap_nil (h.valid_hold hp)

/-! ## A reader among the tokens that it has read -/

theorem Valid.faces_self (hr : reader.Valid) :
    ∃ ys, reader.Faces reader.chain.links reader.cursor.rest ys :=
  ⟨_, _, hr.before_held, .of_links _ _⟩

theorem Reads.mem_chain (h : reader.Reads xs after) (hx : x ∈ xs) (hl : link ∈ x.links) :
    link ∈ after.chain.links := by
  obtain ⟨ys, hy⟩ := h.valid.faces_self
  obtain ⟨links, ⟨done, -, -, hall, -⟩, hlaid⟩ := h.faces _ _ _ hy
  rw [hall]
  exact List.mem_append_right _ (hlaid.mem_of_mem (List.mem_append_left _ hx) hl)

/-- The tokens of a text up to one that was taken: those of the terminals before it, and that one. -/
theorem Reads.laid_chain {text : List Char} (h : (Reader.ofText text).Reads xs between)
    (htook : between.Took link after) (hk : link.kind.isTrivia = false) :
    text = Link.spelled after.chain.links ++ after.cursor.rest ∧
      Link.InOrder 0 .start after.chain.links after.cursor.rest ∧
      Laid after.cursor.rest (xs ++ [.token link]) after.chain.links := by
  have hend : between.Faces after.chain.links after.cursor.rest [.token link] :=
    ⟨_, htook.passes _ _ _ (before_self htook.held), .of_token hk .nil⟩
  obtain ⟨links, hb, hlaid⟩ := h.faces _ _ _ hend
  obtain rfl := hb.eq_all
  obtain ⟨htext, horder⟩ := before_ofText.1 hb
  exact ⟨htext, horder, hlaid⟩

/-- Where fewer tokens are still to come and the first of the others has a text, less is unread. -/
theorem Faces.unread_lt (h : reader.Faces all rest (x :: xs)) (h' : after.Faces all rest ys)
    (hle : (ys.flatMap Terminal.links).length ≤ (xs.flatMap Terminal.links).length)
    (hx : x.head.raw.toList ≠ []) : after.unread < reader.unread := by
  obtain ⟨links, hb, hl⟩ := h
  obtain ⟨links', hb', hl'⟩ := h'
  have hsig := hl.significant
  have hsig' := hl'.significant
  rw [List.flatMap_cons] at hsig
  rw [hb.unread_eq, hb'.unread_eq]
  rcases Nat.le_total links.length links'.length with hlinks | hlinks
  · have hsub := List.suffix_of_suffix_length_le hb.suffix hb'.suffix hlinks
    have := (hsub.sublist.filter (fun link => !link.kind.isTrivia)).length_le
    rw [hsig, hsig', List.length_append, Terminal.links, List.length_cons] at this
    omega
  · obtain ⟨front, rfl⟩ := List.suffix_of_suffix_length_le hb'.suffix hb.suffix hlinks
    rw [List.filter_append, hsig', Terminal.links, List.cons_append] at hsig
    have hmem : x.head ∈ front := by
      apply List.mem_of_mem_filter (p := fun link => !link.kind.isTrivia)
      cases hfront : front.filter (fun link => !link.kind.isTrivia) with
      | nil =>
        have := congrArg List.length hsig
        rw [hfront, List.nil_append, List.length_cons, List.length_append] at this
        omega
      | cons link tail =>
        rw [hfront, List.cons_append] at hsig
        rw [(List.cons.inj hsig).1]
        exact List.mem_cons_self
    obtain ⟨before, behind, rfl⟩ := List.append_of_mem hmem
    have := List.length_pos_of_ne_nil hx
    simp only [Link.spelled_append, Link.spelled_cons, List.length_append]
    omega

theorem AtToken.exists_before (ha : AtToken reader) (h : reader.Faces all rest (x :: xs)) :
    ∃ ahead, reader.Before all rest (x.links ++ ahead) ∧
      (∀ link ∈ x.links, link.kind.isTrivia = false) ∧ x.Ends ahead rest ∧ Laid rest xs ahead := by
  obtain ⟨links, hb, hl⟩ := h
  obtain ⟨gap, ahead, rfl, hgap, hx⟩ := hl.exists_gap
  cases gap with
  | nil => exact ⟨ahead, hb, hx⟩
  | cons blank gap =>
    have := ha.not_trivia hb
    rw [(Link.isGap_cons.1 hgap).1] at this
    cases this

/-! ## What comes next -/

/-- The next token is no trivia, and it begins with `c`. -/
structure Peeks (reader : Reader) (c : Option Char) : Prop where
  atToken : AtToken reader
  head : ∀ {all rest link ahead}, reader.Before all rest (link :: ahead) →
    link.raw.toList.head? = c

/-- Whatever terminal comes next, its first token satisfies `P`. -/
def Meets (reader : Reader) (P : Link → Prop) : Prop :=
  ∀ all rest x xs, reader.Faces all rest (x :: xs) → P x.head

theorem Meets.of_reads {P : Link → Prop} (h : reader.Meets P) (hr : reader.Reads [] after) :
    after.Meets P :=
  fun _ _ _ _ hf => h _ _ _ _ (hr.faces _ _ _ hf)

theorem Peeks.meets_ne {c : Option Char} {mark : Punct} (hc : reader.Peeks c)
    (hr : reader.Valid) (hne : c ≠ some mark.char) : reader.Meets (·.kind ≠ .punct mark) := by
  intro all rest x xs hf hk
  have hspells := hf.spells hr
  obtain ⟨ahead, hb, -⟩ := hc.atToken.exists_before hf
  refine hne ((hc.head hb).symm.trans ?_)
  rw [hk] at hspells
  generalize x.head.raw.toList = raw at hspells
  cases hspells
  rfl

/-- What is read next satisfies what any next terminal does. -/
theorem Meets.head {P : Link → Prop} (h : reader.Meets P) (hr : reader.Reads (x :: xs) after) :
    P x.head := by
  obtain ⟨ys, hy⟩ := hr.valid.faces_self
  exact h _ _ _ _ (hr.faces _ _ _ hy)

theorem Took.hold_meets (_ : reader.Took link after) (hk : link.kind.isTrivia = false) :
    (after.hold link).Meets (· = link) := by
  intro all rest x xs hf
  have ha : AtToken (after.hold link) := by
    refine ⟨?_, fun hn => by cases hn⟩
    rintro other ⟨⟩
    exact hk
  obtain ⟨ahead, hb, -⟩ := ha.exists_before hf
  exact held_eq rfl hb

end Reader

namespace Parse

open Reader

variable {reader after : Reader} {link : Link} {x : Terminal} {xs : List Terminal}
variable {all ahead : List Link} {rest : List Char}

theorem skipTrivia_reads (hr : reader.Valid) {u : Unit} (h : skipTrivia reader = .ok u after) :
    reader.Reads [] after ∧ AtToken after := by
  obtain ⟨hafter, hat, gap, hgap, hpasses⟩ := skipTrivia_sound hr h
  exact ⟨hpasses.reads hgap hafter, hat⟩

theorem peekSignificant_sound (hr : reader.Valid) {c : Option Char}
    (h : peekSignificant reader = .ok c after) : reader.Reads [] after ∧ after.Peeks c := by
  obtain ⟨_, between, hskip, hpeek⟩ := bind_eq_ok.1 h
  obtain ⟨hreads, hat⟩ := skipTrivia_reads hr hskip
  obtain rfl : between = after := by
    rw [peek_eq fun link hl => hreads.valid.held_mem hl] at hpeek
    cases hpeek
    rfl
  refine ⟨hreads, hat, fun hb => ?_⟩
  rw [peek_of_before hb] at hpeek
  cases hpeek
  rfl

/-- What is taken begins with the character that was peeked. -/
theorem take_peeked {c : Option Char} (hr : reader.Valid) (hc : reader.Peeks c)
    (h : take reader = .ok link after) :
    reader.Took link after ∧ link.Plain ∧ link.kind.isTrivia = false ∧
      link.raw.toList.head? = c := by
  obtain ⟨htook, hp⟩ := take_sound hr h
  obtain ⟨all, rest, hb⟩ := htook.exists_before
  exact ⟨htook, hp, hc.atToken.not_trivia hb, hc.head hb⟩

theorem takeSignificant_sound (hr : reader.Valid) (h : takeSignificant reader = .ok link after) :
    ∃ between, reader.Reads [] between ∧ between.Took link after ∧ link.Plain ∧
      link.kind.isTrivia = false := by
  obtain ⟨_, between, hskip, htake⟩ := bind_eq_ok.1 h
  obtain ⟨hreads, hat⟩ := skipTrivia_reads hr hskip
  obtain ⟨htook, hp⟩ := take_sound hreads.valid htake
  obtain ⟨all, rest, hb⟩ := htook.exists_before
  exact ⟨between, hreads, htook, hp, hat.not_trivia hb⟩

/-! ## What is faced is found -/

theorem skipTrivia_faces (hr : reader.Valid) (h : reader.Faces all rest (x :: xs)) :
    ∃ after, skipTrivia reader = .ok () after ∧ after.Valid ∧ AtToken after ∧
      after.Faces all rest (x :: xs) := by
  obtain ⟨links, hb, hlaid⟩ := h
  obtain ⟨gap, ahead, rfl, hgap, hx, hends, hxs⟩ := hlaid.exists_gap
  obtain ⟨after, hskip, hafter⟩ := skipTrivia_complete hr hgap (hx x.head List.mem_cons_self) hb
  obtain ⟨hreads, hat⟩ := skipTrivia_reads hr hskip
  exact ⟨after, hskip, hreads.valid, hat, _, hafter, .terminal hx hends hxs⟩

theorem peekSignificant_faces (hr : reader.Valid) (h : reader.Faces all rest (x :: xs)) :
    ∃ after, peekSignificant reader = .ok x.head.raw.toList.head? after ∧ after.Valid ∧
      AtToken after ∧ after.Faces all rest (x :: xs) := by
  obtain ⟨after, hskip, hvalid, hat, hf⟩ := skipTrivia_faces hr h
  obtain ⟨ahead, hb, -⟩ := hat.exists_before hf
  exact ⟨after, bind_eq_ok.2 ⟨(), after, hskip, peek_of_before hb⟩, hvalid, hat, hf⟩

end Parse

end ThriftSyntax
