import ThriftSyntax.Proofs.Coupling.Token

/-!
# Readers abreast

Two readers of different texts are abreast where both texts go on in the same way. From there on they read
the same lexemes, and `links` is kept as long as it holds of each two of them.
-/

namespace ThriftSyntax.Reader

open Parse Lexeme

/-- Nothing is put back, the texts go on in the same way, and both ends of the input were read or neither
was. -/
structure Abreast (links : Link → Link → Prop) (r s : Reader) : Prop where
  freed : r.held = none ∧ s.held = none
  sound : r.Sound ∧ s.Sound
  rest : r.cursor.rest = s.cursor.rest
  ending : Option.Rel links r.chain.ending? s.chain.ending?

namespace Abreast

variable {links : Link → Link → Prop} {r s : Reader} {kind : Kind} {raw tail : List Char}

theorem atRound (h : Abreast links r s) (m n : Nat) : Abreast links (r.atRound m) (s.atRound n) :=
  ⟨h.freed, ⟨h.sound.1.atRound m, h.sound.2.atRound n⟩, h.rest, h.ending⟩

theorem round (h : Abreast links r s) : Abreast links r.round s.round := h.atRound _ _

theorem ending?_eq_none (h : Abreast links r s) (hrest : r.cursor.rest ≠ []) :
    r.chain.ending? = none ∧ s.chain.ending? = none :=
  ⟨h.sound.1.ending?_eq_none hrest, h.sound.2.ending?_eq_none (h.rest ▸ hrest)⟩

/-- A lexeme that comes next in the one text does in the other. -/
theorem pass (h : Abreast links r s) (hn : raw = [] → r.chain.ending? = none)
    (ht : r.cursor.rest = raw ++ tail) (hl : IsLexeme kind raw tail)
    (hlinks : links (r.nextLink kind raw.length) (s.nextLink kind raw.length)) :
    Abreast links (r.pass kind raw.length) (s.pass kind raw.length) := by
  have ht' : s.cursor.rest = raw ++ tail := h.rest ▸ ht
  have hn' : raw = [] → s.chain.ending? = none := fun hraw => by
    have hending := h.ending
    rw [hn hraw] at hending
    generalize s.chain.ending? = ending at hending ⊢
    cases hending
    rfl
  refine ⟨h.freed, ⟨(h.sound.1.lexeme h.freed.1 hn ht hl).sound h.sound.1,
    (h.sound.2.lexeme h.freed.2 hn' ht' hl).sound h.sound.2⟩, ?_, ?_⟩
  · rw [rest_pass ht, rest_pass ht']
  · rw [ending?_pass, ending?_pass]
    split
    · rename_i hk
      subst hk
      exact .some hlinks
    · exact .none

/-- Readers that stay abreast chain the same blanks and comments. -/
theorem chainTrivia_couples {S : Coupling} {P : Reader → Reader → Prop}
    (habreast : ∀ {r s}, P r s → Abreast links r s) (hround : ∀ {r s}, P r s → P r.round s.round)
    (hpass : ∀ {r s kind raw tail}, P r s → (raw = [] → r.chain.ending? = none) →
      r.cursor.rest = raw ++ tail → IsLexeme kind raw tail →
      P (r.pass kind raw.length) (s.pass kind raw.length))
    (hfault : ∀ {r s} (fault : Fault), P r s → (∀ n, S.failed (r.drop n)) ∧
      S.errors (.lexical fault r.cursor.location) (.lexical fault s.cursor.location)) :
    S.Couples P chainTrivia chainTrivia
      fun _ _ r s => P r s ∧ startsTrivia r.cursor.rest = false := by
  refine Parse.chainTrivia_couples (fun h => (habreast h).freed) hround
    (fun h => by rw [(habreast h).rest]) ?_ ?_ ?_
  · intro r s h hrest
    exact (habreast h).ending?_eq_none (ne_nil_of_startsTrivia hrest)
  · intro r s kind raw tail h ht hl hk
    have hne := hl.spells.ne_nil (ne_endOfInput_of_trivia hk)
    exact .inr ⟨tail, (habreast h).rest ▸ ht, hl, hpass h (absurd · hne) ht hl⟩
  · intro r s fault h hfirst
    exact .inr ⟨(habreast h).rest ▸ hfirst, hfault fault h⟩

end Abreast

end ThriftSyntax.Reader
