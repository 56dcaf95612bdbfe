import ThriftSyntax.Proofs.Lexeme.Opening
import ThriftSyntax.Reader.Basic

/-!
# Positions of a reader

`reader.Before all rest links` says where a reader stands in the tokens of a text: the whole chain
will be `all`, of which `links` are still to come, and `rest` is the text after them. What was looked
at and put back counts as still to come, so looking ahead does not change a position.

`reader.Valid` is what every reader keeps that has not passed the end of the input.
-/

namespace ThriftSyntax

/-! ## Links of a chain -/

/-- The tokens of a chain with their places. -/
def TokenChain.links (chain : TokenChain) : List Link := chain.toList.mapIdx Link.mk

namespace TokenChain

@[simp] theorem links_empty : TokenChain.empty.links = [] := rfl

@[simp] theorem links_push (chain : TokenChain) (token : Token) :
    (chain.push token).links = chain.links ++ [⟨chain.size, token⟩] := by
  rw [links, toList_push, List.mapIdx_append]
  simp [links, size, toList]

@[simp] theorem size_push (chain : TokenChain) (token : Token) :
    (chain.push token).size = chain.size + 1 := by
  simp [size, push]

@[simp] theorem length_links (chain : TokenChain) : chain.links.length = chain.size := by
  simp [links, size, toList]

@[simp] theorem map_token_links (chain : TokenChain) : chain.links.map Link.token = chain.toList := by
  apply List.ext_getElem
  · simp [size, toList]
  · simp [links]

theorem get?_of_mem {chain : TokenChain} {link : Link} (h : link ∈ chain.links) :
    chain.get? link.id = some link.token := by
  obtain ⟨⟨tokens⟩⟩ := chain
  obtain ⟨id, hid, rfl⟩ := List.mem_mapIdx.1 h
  simp [get?, toList] at hid ⊢

theorem mem_links {chain : TokenChain} {id : Nat} {token : Token}
    (h : chain.get? id = some token) : ⟨id, token⟩ ∈ chain.links := by
  obtain ⟨hid, rfl⟩ := Array.getElem?_eq_some_iff.1 h
  exact List.mem_mapIdx.2 ⟨id, by simpa [toList] using hid, rfl⟩

/-- A token of the chain is found at its id. -/
theorem link?_of_mem {chain : TokenChain} {link : Link} (h : link ∈ chain.links) :
    chain.link? link.id = some link := by
  rw [link?, get?_of_mem h]
  rfl

theorem mem_of_link? {chain : TokenChain} {id : Nat} {link : Link} (h : chain.link? id = some link) :
    link ∈ chain.links ∧ link.id = id := by
  obtain ⟨token, htoken, rfl⟩ := Option.map_eq_some_iff.1 h
  exact ⟨mem_links htoken, rfl⟩

theorem exists_link {chain : TokenChain} {id : Nat} (h : id < chain.size) :
    ∃ link ∈ chain.links, link.id = id :=
  ⟨_, mem_links (Array.getElem?_eq_getElem h), rfl⟩

theorem key?_of_mem {chain : TokenChain} {link : Link} (h : link ∈ chain.links) :
    chain.key? link.id = some link.token.key := by
  rw [key?, get?_of_mem h]
  rfl

theorem last?_eq (chain : TokenChain) : chain.last? = chain.links.getLast? := by
  obtain ⟨⟨tokens⟩⟩ := chain
  simp [last?, links, toList, size, List.getLast?_mapIdx]

theorem id_of_getLast? {chain : TokenChain} {link : Link} (h : chain.links.getLast? = some link) :
    link.id + 1 = chain.size := by
  rw [List.getLast?_eq_getElem?] at h
  obtain ⟨hid, rfl⟩ := List.getElem?_eq_some_iff.1 h
  simp only [links, List.getElem_mapIdx, List.length_mapIdx] at hid ⊢
  simp only [toList, size, Array.length_toList] at hid ⊢
  omega

theorem ending?_eq_none {chain : TokenChain} (h : ∀ link ∈ chain.links, link.kind ≠ .endOfInput) :
    chain.ending? = none := by
  rw [ending?, last?_eq, Option.filter_eq_none_iff]
  intro link hl
  simpa using h link (List.mem_of_getLast? hl)

end TokenChain

/-! ## Tokens in order -/

namespace Link

/-- The text of tokens that stand one after the other. -/
def spelled (links : List Link) : List Char := links.flatMap (·.raw.toList)

@[simp] theorem spelled_nil : spelled [] = [] := rfl

@[simp] theorem spelled_cons (link : Link) (links : List Link) :
    spelled (link :: links) = link.raw.toList ++ spelled links := rfl

@[simp] theorem spelled_append (xs ys : List Link) : spelled (xs ++ ys) = spelled xs ++ spelled ys := by
  simp [spelled]

theorem spelled_eq (links : List Link) :
    spelled links = (TokenChain.spell (links.map Link.token)).toList := by
  induction links with
  | nil => rfl
  | cons link links ih =>
    rw [spelled_cons, ih, List.map_cons, ← List.singleton_append (l := links.map _),
      TokenChain.spell_append]
    simp [TokenChain.spell, raw]

/-- The text of a chain is that of its tokens. -/
theorem toList_source (chain : TokenChain) : chain.source.toList = spelled chain.links := by
  rw [spelled_eq, TokenChain.map_token_links, TokenChain.source]

/-- The token may stand anywhere: it is no string, and no number with a sign. -/
structure Plain (link : Link) : Prop where
  spells : Lexeme.Spells link.kind link.raw.toList
  plain : Lexeme.Plain link.kind link.raw.toList

/-- The links are blanks and comments. -/
def IsGap (links : List Link) : Prop := ∀ link ∈ links, link.kind.isTrivia = true

theorem isGap_nil : IsGap [] := by simp [IsGap]

theorem isGap_cons {link : Link} {links : List Link} :
    IsGap (link :: links) ↔ link.kind.isTrivia = true ∧ IsGap links := by
  simp [IsGap]

/-- The links are the tokens of a text, numbered from `id` and placed from `place`; the text goes on
with `rest`. -/
def InOrder (id : Nat) (place : Location) : List Link → List Char → Prop
  | [], _ => True
  | link :: links, rest =>
    link.id = id ∧ link.location = place ∧
      Lexeme.IsLexeme link.kind link.raw.toList (spelled links ++ rest) ∧
      InOrder (id + 1) (place.advance link.raw.toList.length (spelled (link :: links) ++ rest))
        links rest

theorem InOrder.spells {id : Nat} {place : Location} {links : List Link} {rest : List Char}
    (h : InOrder id place links rest) :
    ∀ link ∈ links, Lexeme.Spells link.kind link.raw.toList := by
  induction links generalizing id place with
  | nil => simp
  | cons link links ih =>
    obtain ⟨-, -, hl, h⟩ := h
    exact List.forall_mem_cons.2 ⟨hl.spells, ih h⟩

theorem InOrder.of_append {id : Nat} {place : Location} {xs ys : List Link} {rest : List Char}
    (h : InOrder id place (xs ++ ys) rest) :
    ∃ place, InOrder (id + xs.length) place ys rest := by
  induction xs generalizing id place with
  | nil => exact ⟨place, h⟩
  | cons link xs ih =>
    obtain ⟨place, h⟩ := ih h.2.2.2
    refine ⟨place, ?_⟩
    rwa [List.length_cons, Nat.add_comm xs.length, ← Nat.add_assoc]

end Link

/-! ## Positions -/

namespace Reader

/-- The reader has tokens put back only as the last of its chain, and has not passed the end of the
input. -/
structure Valid (reader : Reader) : Prop where
  held_last : ∀ link, reader.held = some link → reader.chain.links.getLast? = some link
  held_plain : ∀ link, reader.held = some link → link.Plain
  ended : ∀ link ∈ reader.chain.links, link.kind = .endOfInput → reader.held = some link

/-- The reader stands before `links`, which are the last of `all`; `rest` is the text after them. -/
def Before (reader : Reader) (all : List Link) (rest : List Char) (links : List Link) : Prop :=
  ∃ done ahead, reader.chain.links = done ++ reader.held.toList ∧ all = done ++ links ∧
    links = reader.held.toList ++ ahead ∧ reader.cursor.rest = Link.spelled ahead ++ rest ∧
    Link.InOrder reader.chain.size reader.cursor.location ahead rest

variable {reader : Reader} {all links : List Link} {rest : List Char}

theorem Valid.held_mem (hr : reader.Valid) {link : Link} (hh : reader.held = some link) :
    link ∈ reader.chain.links :=
  List.mem_of_getLast? (hr.held_last link hh)

theorem Before.held_mem (h : reader.Before all rest links) :
    ∀ link ∈ reader.held, link ∈ reader.chain.links := by
  obtain ⟨done, ahead, hchain, -⟩ := h
  intro link hl
  rw [hchain]
  exact List.mem_append_right _ (Option.mem_toList.2 hl)

theorem valid_ofText (text : List Char) : (Reader.ofText text).Valid where
  held_last _ h := by cases h
  held_plain _ h := by cases h
  ended _ h := by cases h

theorem before_ofText {text rest : List Char} {all : List Link} :
    (Reader.ofText text).Before all rest all ↔
      text = Link.spelled all ++ rest ∧ Link.InOrder 0 .start all rest := by
  constructor
  · rintro ⟨done, ahead, hchain, hall, rfl, htext, horder⟩
    exact ⟨htext, horder⟩
  · rintro ⟨htext, horder⟩
    exact ⟨[], all, rfl, rfl, rfl, htext, horder⟩

/-- Before a text is read, all of its tokens are to come. -/
theorem Before.eq_all {text : List Char} (h : (Reader.ofText text).Before all rest links) :
    links = all := by
  obtain ⟨done, ahead, hchain, rfl, -⟩ := h
  obtain rfl : [] = done := by simpa [Reader.ofText] using hchain
  rfl

/-! Neither depends on the count of rounds. -/

theorem Valid.round (hr : reader.Valid) : reader.round.Valid :=
  ⟨hr.held_last, hr.held_plain, hr.ended⟩

theorem before_round : reader.round.Before all rest links ↔ reader.Before all rest links := Iff.rfl

theorem Valid.ending?_eq_none (hr : reader.Valid) (hh : reader.held = none) :
    reader.chain.ending? = none := by
  apply TokenChain.ending?_eq_none
  intro link hl hk
  have := hr.ended link hl hk
  rw [hh] at this
  cases this

/-- How much is unread is the text of what is still to come. -/
theorem Before.unread_eq (h : reader.Before all rest links) :
    reader.unread = (Link.spelled links ++ rest).length := by
  obtain ⟨done, ahead, -, -, rfl, hrest, -⟩ := h
  unfold unread
  rw [reader.cursor.left_eq, hrest]
  cases reader.held <;> simp [← String.length_toList]

/-- What is still to come is spelled as its kinds say. -/
theorem Before.spells (h : reader.Before all rest links) (hr : reader.Valid) :
    ∀ link ∈ links, Lexeme.Spells link.kind link.raw.toList := by
  obtain ⟨done, ahead, -, -, rfl, -, horder⟩ := h
  intro link hl
  rcases List.mem_append.1 hl with hl | hl
  · exact (hr.held_plain link (Option.mem_toList.1 hl)).spells
  · exact horder.spells link hl

theorem Before.suffix (h : reader.Before all rest links) : links <:+ all := by
  obtain ⟨done, -, -, rfl, -⟩ := h
  exact List.suffix_append done links

/-! ## One token -/

/-- The token that `length` characters at the cursor make. -/
def nextLink (reader : Reader) (kind : Kind) (length : Nat) : Link :=
  ⟨reader.chain.size, ⟨kind, String.ofList (reader.cursor.rest.take length),
    reader.cursor.location⟩⟩

/-- The reader after that token. -/
def pass (reader : Reader) (kind : Kind) (length : Nat) : Reader :=
  { reader with
    cursor := reader.cursor.advance length
    chain := reader.chain.push (reader.nextLink kind length).token }

/-- The reader without the next `n` characters, which make no token. -/
def drop (reader : Reader) (n : Nat) : Reader := { reader with cursor := reader.cursor.advance n }

@[simp] theorem drop_zero (reader : Reader) : reader.drop 0 = reader := by
  simp [drop, Cursor.advance]

theorem nextLink_raw {raw tail : List Char} (ht : reader.cursor.rest = raw ++ tail) (kind : Kind) :
    (reader.nextLink kind raw.length).raw.toList = raw := by
  simp [nextLink, Link.raw, ht]

theorem links_pass (reader : Reader) (kind : Kind) (length : Nat) :
    (reader.pass kind length).chain.links =
      reader.chain.links ++ [reader.nextLink kind length] := by
  simp [pass, nextLink]

theorem nextLink_mem (reader : Reader) (kind : Kind) (length : Nat) :
    reader.nextLink kind length ∈ (reader.pass kind length).chain.links := by
  simp [links_pass]

theorem rest_pass {raw tail : List Char} (ht : reader.cursor.rest = raw ++ tail) (kind : Kind) :
    (reader.pass kind raw.length).cursor.rest = tail := by
  simp [pass, ht]

variable {kind : Kind} {raw tail : List Char}

theorem before_of_pass (hh : reader.held = none) (ht : reader.cursor.rest = raw ++ tail)
    (hl : Lexeme.IsLexeme kind raw tail)
    (h : (reader.pass kind raw.length).Before all rest links) :
    reader.Before all rest (reader.nextLink kind raw.length :: links) := by
  obtain ⟨done, ahead, hchain, hall, hlinks, hrest, horder⟩ := h
  have hheld : (reader.pass kind raw.length).held = none := hh
  rw [links_pass, hheld] at hchain
  rw [hheld] at hlinks
  rw [rest_pass ht] at hrest
  obtain rfl : links = ahead := by simpa using hlinks
  obtain rfl : reader.chain.links ++ [reader.nextLink kind raw.length] = done := by
    simpa using hchain
  have hraw := nextLink_raw ht kind
  refine ⟨reader.chain.links, reader.nextLink kind raw.length :: links, by simp [hh],
    by simp [hall], by simp [hh], ?_, rfl, rfl, ?_, ?_⟩
  · rw [Link.spelled_cons, hraw, ht, hrest, List.append_assoc]
  · rw [hraw, ← hrest]
    exact hl
  · rw [Link.spelled_cons, hraw, List.append_assoc, ← hrest, ← ht]
    simpa [pass] using horder

theorem pass_of_before {link : Link} (hh : reader.held = none)
    (h : reader.Before all rest (link :: links)) :
    reader.cursor.rest = link.raw.toList ++ (Link.spelled links ++ rest) ∧
      Lexeme.IsLexeme link.kind link.raw.toList (Link.spelled links ++ rest) ∧
      reader.nextLink link.kind link.raw.toList.length = link ∧
      (reader.pass link.kind link.raw.toList.length).Before all rest links := by
  obtain ⟨done, ahead, hchain, hall, hlinks, hrest, horder⟩ := h
  rw [hh] at hlinks hchain
  obtain rfl : link :: links = ahead := by simpa using hlinks
  obtain ⟨hid, hplace, hlex, horder⟩ := horder
  rw [Link.spelled_cons, List.append_assoc] at hrest
  have hnext : reader.nextLink link.kind link.raw.toList.length = link := by
    obtain ⟨id, token⟩ := link
    simp only [Link.kind, Link.raw, Link.location] at hid hplace hrest ⊢
    simp [nextLink, hid, ← hplace, hrest]
  refine ⟨hrest, hlex, hnext, done ++ [link], links, ?_, by simp [hall], ?_, rest_pass hrest _, ?_⟩
  · rw [links_pass, hnext, show (reader.pass _ _).held = none from hh]
    simpa using hchain
  · rw [show (reader.pass _ _).held = none from hh]
    rfl
  · rw [Link.spelled_cons, List.append_assoc, ← hrest] at horder
    simpa [pass, TokenChain.size, TokenChain.push] using horder

/-! ## The held token -/

/-- The reader without its held token. -/
def release (reader : Reader) : Reader := { reader with held := none }

/-- The reader with a token put back. -/
def hold (reader : Reader) (link : Link) : Reader := { reader with held := some link }

variable {link : Link}

/-- To stand before a token that is held is to stand after it once it is not. -/
theorem before_release (hlast : reader.chain.links.getLast? = some link)
    (hh : reader.held = some link) :
    reader.release.Before all rest links ↔ reader.Before all rest (link :: links) := by
  constructor
  · rintro ⟨done, ahead, hchain, rfl, rfl, hrest, horder⟩
    obtain ⟨front, hfront⟩ := List.getLast?_eq_some_iff.1 hlast
    obtain rfl : front ++ [link] = done := by
      rw [← hfront, ← List.append_nil done]
      exact hchain
    exact ⟨front, links, by simp [hh, hfront], by simp, by simp [hh], hrest, horder⟩
  · rintro ⟨done, ahead, hchain, rfl, hlinks, hrest, horder⟩
    rw [hh] at hchain hlinks
    obtain rfl : links = ahead := by simpa using hlinks
    exact ⟨done ++ [link], links, by simpa [release] using hchain, by simp, rfl, hrest, horder⟩

theorem before_hold (hlast : reader.chain.links.getLast? = some link) (hh : reader.held = none) :
    (reader.hold link).Before all rest (link :: links) ↔ reader.Before all rest links := by
  have hback : (reader.hold link).release = reader := by
    cases reader
    simp_all [hold, release]
  have hiff : (reader.hold link).release.Before all rest links ↔
      (reader.hold link).Before all rest (link :: links) := before_release hlast rfl
  rw [← hiff, hback]

end Reader

end ThriftSyntax
